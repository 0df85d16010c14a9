import Linearizer.Proofs.Flat.State
import Linearizer.Proofs.Generator.Routine
import Linearizer.Proofs.StackDiscipline

/-!
# Routines without protected regions

A routine without protected regions can be generated whatever its edges look like. Generation fails
only for a conversion that does not exist, or for an enumeration that is moved on before it has been
started.

Each visit that writes a block lowers the number of those that are yet to be written, so that
neither the visits inside each other (`Gen.visit_plans`) nor the blocks that wait (`Gen.drain_flat`)
outnumber the blocks of the routine. `Gen.edge_plans` and `Gen.blockBody_flat` follow the code of a
block, and `Graph.generate_flat` is the result.
-/

namespace Linearizer

namespace Gen

variable {α : Type} {g : Graph} {options : Options} {busy late : List BlockId} {n : Nat}

/-- The block whose code asks for a conversion that does not exist is to blame. -/
theorem Plans.blames {requests : List Request} {m : Gen α} {R : α → Prop} {b : BlockId}
    (h : Plans (flat g busy late n) (State.Fails g) requests m R) (hb : b ∈ busy)
    (hr : ∀ r ∈ requests, r ∈ g.requests b) :
    Meets (State.Flat g busy late n) m
      (fun x s => s.Flat g busy late n ∧ R x ∧ ∀ r ∈ requests, r.isSupported = true)
      (State.Fails g) := by
  intro s hs
  cases hrun : m s with
  | ok x s' => exact .to_ok hrun ((h s hs).of_ok hrun)
  | error e s' =>
    refine .to_error hrun ?_
    rcases (h s hs).of_error hrun with ⟨hs', r, hm, hno, rfl⟩ | he
    · exact .unsupported (hs'.begun b hb) (hr r hm) hno
    · exact he

theorem Plans.meets {m : Gen α} {R : α → Prop}
    (h : Plans (flat g busy late n) (State.Fails g) [] m R) :
    Meets (State.Flat g busy late n) m (fun _ => State.Flat g busy late n) (State.Fails g) := by
  intro s hs
  refine (h s hs).mono (fun _ _ h => h.1) fun e s' he => he.resolve_left ?_
  rintro ⟨-, r, hr, -⟩
  exact List.not_mem_nil hr

/-! ## Scheduling -/

theorem block?_of_lt {b : BlockId} (hb : b < g.size) :
    ∃ block, g.block? b = some block := ⟨_, List.getElem?_eq_getElem hb⟩

theorem schedule_plans {E : Fault → State → Prop} {b : BlockId} (hb : b < g.size) :
    Plans (flat g busy late n) E [] (schedule g b) := by
  refine .of_ok fun s hs => ?_
  obtain ⟨block, hblock⟩ := block?_of_lt hb
  have run := schedule_run g b s
  simp only [hblock, hs.ready.inRoutine.contains hblock, if_true] at run
  by_cases hskip : block.dead = true ∨ b ∈ s.emitted
  · rw [if_pos hskip] at run
    exact ⟨(), s, run, hs, trivial⟩
  · rw [if_neg hskip] at run
    obtain ⟨hd, new⟩ := not_or.mp hskip
    have live : g.isLive b = true := isLive_eq_true hblock (by simpa using hd)
    exact ⟨(), _, run, hs.claimed live new, trivial⟩

/-- Every block lies in the scope of the routine, so a branch to it is one element. -/
theorem branchTo_plans {E : Fault → State → Prop} (visit : Visit) (o : BranchOp)
    {target : BlockId} (ht : target < g.size) :
    Plans (flat g busy late n) E [] (branchTo ⟨g, options⟩ visit o target) := by
  intro s hs
  obtain ⟨block, hblock⟩ := block?_of_lt ht
  obtain ⟨pending, hq⟩ := hs.queue
  have hlo : ¬ target < (s.innermost g).lo := by simp [State.innermost, hq.scopes]
  have run := branchTo_run ⟨g, options⟩ visit o target s
  simp only [hblock, hlo, hs.ready.inRoutine.contains hblock, and_false, if_false, if_true] at run
  by_cases hd : block.dead = true
  · rw [if_pos hd] at run
    exact .of_run run (op_plans .pop s hs)
  · rw [if_neg hd] at run
    refine .of_run run (schedule_plans ht _ (hs.still ?_))
    exact ⟨rfl, rfl, rfl, rfl, rfl⟩

/-- The first block that waits is live and has not been written. -/
theorem nextPending_flat (E : Fault → State → Prop) :
    Meets (State.Flat g busy [] n) nextPending
      (fun next s => s.Flat g busy [] n ∧
        ∀ b ∈ next, g.isLive b = true ∧ b ∉ s.emitted) E := by
  intro s hs
  obtain ⟨pending, hq⟩ := hs.queue
  cases pending with
  | nil => exact .to_ok (nextPending_run_empty hq.scopes rfl) ⟨hs, nofun⟩
  | cons b rest =>
    obtain ⟨live, new, -⟩ := hq.waiting b List.mem_cons_self
    refine .to_ok (nextPending_run_cons hq.scopes rfl) ⟨?_, ?_⟩
    · exact hs.requeue rfl rfl rfl hq.taken
    · rintro _ ⟨⟩
      exact ⟨live, new⟩

/-! ## Edges -/

/-- An enumeration that has not been started is none of a block that has been written. -/
theorem enumerator_plans {b source : BlockId} (hb : b ∈ busy) (moves : g.source? b = some source) :
    Plans (flat g busy [] n) (State.Fails g) [] (enumerator source) := by
  intro s hs
  refine MeetsFrom.read (get_run s) ?_
  cases hlookup : s.enumerators.lookup source with
  | some slot => exact ⟨hs, trivial, List.forall_mem_nil _⟩
  | none =>
    refine .inr (.unacquired (hs.begun b hb) moves fun ⟨hemitted, ha⟩ => ?_)
    have hsome := (hs.acquired source hemitted ha).resolve_left List.not_mem_nil
    rw [hlookup] at hsome
    cases hsome

section Visits

variable {visit : Visit}
  (hv : ∀ viaEdge c, c < g.size → Plans (flat g busy [] n) (State.Fails g) [] (visit viaEdge c))
include hv

theorem compareChain_plans {value : Expr} (he : ∀ v ∈ value.ids.vars, Known g v)
    {cases : List Case} (hc : ∀ c ∈ cases, c.target < g.size) {default : BlockId}
    (hd : default < g.size) :
    Plans (flat g busy [] n) (State.Fails g) ((Edge.switch value cases default).requests g.places)
      (compareChain ⟨g, options⟩ visit value cases default) := by
  simp only [Edge.requests, decide_eq_true_eq]
  refine (select_plans he).bind fun scratch _ => ?_
  refine (Plans.forM cases fun c hm => ?_).before fun _ _ => hv true default hd
  exact (compare_plans _ _ c).before fun _ _ => branchTo_plans visit _ (hc c hm)

theorem jumpTable_plans {value : Expr} (he : ∀ v ∈ value.ids.vars, Known g v)
    {cases : List Case} (hc : ∀ c ∈ cases, c.target < g.size) {default : BlockId}
    (hd : default < g.size) (range : TableRange) :
    Plans (flat g busy [] n) (State.Fails g) (value.requests g.places .int64)
      (jumpTable ⟨g, options⟩ visit value cases default range) := by
  refine (tableIndex_plans he range).before fun index _ => ?_
  refine (branchTo_plans visit _ hd).after fun _ _ => (loadIndex_plans index).after fun _ _ => ?_
  refine (jump_plans _).after fun _ _ => (Plans.forM_nil _ fun b hb => ?_).after fun _ _ => ?_
  · obtain ⟨c, hm, rfl⟩ | rfl := TableRange.mem_of_mem_targets hb
    · exact schedule_plans (hc c hm)
    · exact schedule_plans hd
  · exact hv true default hd

theorem switch_plans (b : BlockId) {value : Expr} (he : ∀ v ∈ value.ids.vars, Known g v)
    {cases : List Case} (hc : ∀ c ∈ cases, c.target < g.size) {default : BlockId}
    (hd : default < g.size) :
    Plans (flat g busy [] n) (State.Fails g) ((Edge.switch value cases default).requests g.places)
      (edge ⟨g, options⟩ visit b (.switch value cases default)) := by
  intro s hs
  have run : edge ⟨g, options⟩ visit b (.switch value cases default) s = _ :=
    switch_run b value cases default s
  cases hrange : TableRange.ofCases? options (s.innermost g) value cases default with
  | some range =>
    simp only [hrange] at run
    rw [Edge.requests_of_table hrange]
    exact .of_run run (jumpTable_plans hv he hc hd range s hs)
  | none =>
    simp only [hrange] at run
    exact .of_run run (compareChain_plans hv he hc hd s hs)

theorem moveNext_plans {b source : BlockId} (hb : b ∈ busy) (moves : g.source? b = some source)
    {value : VarId} (hvalue : Known g value) {key : Option VarId} (hkey : ∀ k ∈ key, Known g k)
    {body after : BlockId} (hbody : body < g.size) (hafter : after < g.size) :
    Plans (flat g busy [] n) (State.Fails g)
      ((Edge.moveNext source value key body after).requests g.places)
      (moveNext ⟨g, options⟩ visit source value key body after) := by
  refine (enumerator_plans hb moves).after fun slot _ => (advance_plans slot).after fun _ _ => ?_
  refine (branchTo_plans visit _ hafter).after fun _ _ => ?_
  exact (storeItem_plans slot hvalue hkey).before fun _ _ => hv true body hbody

/-- An edge that starts no enumeration finds all others started. -/
theorem edge_plans {b : BlockId} (hb : b ∈ busy) {block : Block} (hblock : g.block? b = some block)
    {e : Edge} (he : block.exit? = some e) (hp : e.isProtected = false)
    (hf : e.isForeach = false) (hsucc : ∀ c ∈ e.successors, c < g.size)
    (hvars : ∀ v ∈ e.ids.vars, Known g v) :
    Plans (flat g busy [] n) (State.Fails g) (e.requests g.places)
      (edge ⟨g, options⟩ visit b e) := by
  cases e with
  | protect => cases hp
  | «foreach» => cases hf
  | goto target => exact hv true target (hsucc target (List.mem_singleton_self _))
  | conditional condition ifTrue ifFalse =>
    have hcondition := (Pieces.known_of_append hvars).1
    refine (expr_plans hcondition _).before fun _ _ => ?_
    refine (branchTo_plans visit _ (hsucc ifFalse (by simp [Edge.successors]))).after fun _ _ => ?_
    exact hv true ifTrue (hsucc ifTrue (by simp [Edge.successors]))
  | moveNext source value key body after =>
    obtain ⟨hstored, -⟩ := Pieces.known_of_append hvars
    obtain ⟨hvalue, hkey⟩ := List.forall_mem_cons.mp hstored
    have moves : g.source? b = some source := by simp [Graph.source?, hblock, he, Edge.source?]
    refine moveNext_plans hv hb moves hvalue (fun k hk => hkey k (by simpa using hk)) ?_ ?_
    · exact hsucc body (by simp [Edge.successors])
    · exact hsucc after (by simp [Edge.successors])
  | switch value cases default =>
    have hvalue := (Pieces.known_of_append hvars).1
    refine switch_plans hv b hvalue (fun c hc => hsucc _ ?_) (hsucc default ?_)
    · exact List.mem_append_left _ (List.mem_map_of_mem hc)
    · exact List.mem_append_right _ (List.mem_singleton_self _)

/-- After the edge of a block all enumerations are started. -/
theorem edge_flat {b : BlockId} (hb : b ∈ busy) {block : Block} (hblock : g.block? b = some block)
    {e : Edge} (he : block.exit? = some e) (hp : e.isProtected = false)
    (hsucc : ∀ c ∈ e.successors, c < g.size)
    (hvars : ∀ v ∈ e.ids.vars, Known g v) :
    Meets (State.Flat g busy [b] n) (edge ⟨g, options⟩ visit b e)
      (fun _ s => s.Flat g busy [] n ∧ ∀ r ∈ e.requests g.places, r.isSupported = true)
      (State.Fails g) := by
  -- What the edge asks for, its block asks for.
  have hrequests : ∀ r ∈ e.requests g.places, r ∈ g.requests b := by
    intro r hr
    rw [Graph.requests_eq hblock]
    refine List.mem_append_right _ ?_
    simpa [he] using hr
  intro s hs
  by_cases hf : e.isForeach = true
  · cases e with
    | «foreach» subject next =>
      have hacquire : Plans (flat g busy [b] n) (State.Fails g) (subject.requests g.places .value)
          (acquire subject) := acquire_plans (Pieces.known_of_append hvars).1
      refine MeetsFrom.bind (hacquire.blames hb hrequests s hs) ?_
      rintro slot s₁ ⟨hs₁, -, hsupported⟩
      have hvisit := (hv true next (hsucc next (List.mem_singleton_self _))).meets _
        (hs₁.enumerating slot)
      -- The enumeration counts as started before the next block is visited.
      refine .of_run (run_bind (modify_run _ s₁) _) (hvisit.mono ?_ fun _ _ h => h)
      exact fun _ _ h => ⟨h, hsupported⟩
    | _ => cases hf
  · have hf : e.isForeach = false := by simpa using hf
    have hacquires : g.acquires b = false := by simp [Graph.acquires, hblock, he, hf]
    have hedge : Plans (flat g busy [] n) (State.Fails g) (e.requests g.places)
        (edge ⟨g, options⟩ visit b e) := edge_plans hv hb hblock he hp hf hsucc hvars
    have hmeets := hedge.blames hb hrequests s (hs.prompt hacquires)
    exact hmeets.mono (fun _ _ h => ⟨h.1, h.2.2⟩) fun _ _ h => h

/-! ## Blocks -/

theorem blockBody_flat (hg : g.IsFlat) {b : BlockId} (hb : b ∈ busy) {block : Block}
    (hblock : g.block? b = some block) :
    Meets (State.Flat g busy [b] n) (blockBody ⟨g, options⟩ visit b block)
      (fun _ s => s.Flat g busy [] n ∧ g.Supports b) (State.Fails g) := by
  have hmem : block ∈ g.blocks := List.mem_of_getElem? hblock
  have hstatements : Plans (flat g busy [b] n) (State.Fails g)
      (block.statements.flatMap (·.action.requests g.places)) (block.statements.forM stmt) :=
    Plans.forM _ fun x hx => stmt_plans (hg.action hmem hx)
  have hrequests : ∀ r ∈ block.statements.flatMap (·.action.requests g.places),
      r ∈ g.requests b := by
    intro r hr
    rw [Graph.requests_eq hblock]
    exact List.mem_append_left _ hr
  refine Meets.bind (hstatements.blames hb hrequests) ?_
  rintro _ s ⟨hs, -, hsupported⟩
  -- What the statements ask for is supported, so only the edge is left.
  have supports (h : ∀ r ∈ block.exit?.toList.flatMap (Edge.requests g.places),
      r.isSupported = true) : g.Supports b := by
    intro r hr
    rw [Graph.requests_eq hblock] at hr
    exact (List.mem_append.mp hr).elim (hsupported r) (h r)
  by_cases ht : block.endsInTerminal = true
  · have hexit : block.exit? = none := if_pos ht
    have hacquires : g.acquires b = false := by simp [Graph.acquires, hblock, hexit]
    rw [if_pos ht]
    exact ⟨hs.prompt hacquires, supports (by simp [hexit])⟩
  rw [if_neg ht]
  cases he : block.edge with
  | some e =>
    have hexit : block.exit? = some e := (if_neg ht).trans he
    have hedge : MeetsFrom (edge ⟨g, options⟩ visit b e) _ _ s :=
      edge_flat hv hb hblock hexit (hg.unprotected block hmem e he) (hg.successors hmem he)
        (hg.edge hmem he) s hs
    refine hedge.mono (fun _ _ h => ⟨h.1, supports ?_⟩) fun _ _ h => h
    simpa [hexit] using h.2
  | none =>
    have hexit : block.exit? = none := (if_neg ht).trans he
    have hacquires : g.acquires b = false := by simp [Graph.acquires, hblock, hexit]
    have hfall : Plans (flat g busy [] n) (State.Fails g) [] (fallOff g) := fallOff_plans
    refine (hfall.meets s (hs.prompt hacquires)).mono ?_ fun _ _ h => h
    exact fun _ _ h => ⟨h, supports (by simp [hexit])⟩

end Visits

/-- A visit that writes a block leaves one less to be written. -/
theorem visitWith_flat {visit : Visit} (hg : g.IsFlat)
    (hv : ∀ busy viaEdge c, c < g.size →
      Plans (flat g busy [] n) (State.Fails g) [] (visit viaEdge c))
    (viaEdge : Bool) {b : BlockId} (live : g.isLive b = true) {s : State}
    (hs : s.Flat g busy [] (n + 1)) (new : b ∉ s.emitted) :
    MeetsFrom (visitWith ⟨g, options⟩ visit viaEdge b) (fun _ s' => s'.Flat g busy [] n)
      (State.Fails g) s := by
  obtain ⟨block, hblock, hd⟩ := Graph.isLive_iff.mp live
  obtain ⟨pending, hq⟩ := hs.queue
  have run := visitWith_run ⟨g, options⟩ visit viaEdge b s
  simp only [hblock, hd, new, State.innermost, hq.scopes, Nat.not_lt_zero,
    Graph.lt_size_of_isLive live, if_true, if_false, Bool.false_eq_true] at run
  have hbody : MeetsFrom (blockBody ⟨g, options⟩ visit b block) _ _ (s.entered viaEdge b) :=
    blockBody_flat (hv (b :: busy)) hg List.mem_cons_self hblock _ (hs.entered live new viaEdge)
  exact .of_run run (hbody.mono (fun _ _ h => h.1.finished h.2) fun _ _ h => h)

/-- A visit of a block that has been written is a branch, and one of a dead block is nothing. -/
theorem visitWith_plans {visit : Visit} (hg : g.IsFlat)
    (hv : ∀ k < n, ∀ busy viaEdge c, c < g.size →
      Plans (flat g busy [] k) (State.Fails g) [] (visit viaEdge c))
    (viaEdge : Bool) {b : BlockId} (hb : b < g.size) :
    Plans (flat g busy [] n) (State.Fails g) [] (visitWith ⟨g, options⟩ visit viaEdge b) := by
  intro s hs
  obtain ⟨block, hblock⟩ := block?_of_lt hb
  have run := visitWith_run ⟨g, options⟩ visit viaEdge b s
  simp only [hblock] at run
  by_cases he : b ∈ s.emitted
  · rw [if_pos he] at run
    exact .to_ok run ⟨hs.still ⟨rfl, rfl, rfl, rfl, rfl⟩, trivial, List.forall_mem_nil _⟩
  rw [if_neg he] at run
  by_cases hd : block.dead = true
  · rw [if_pos hd] at run
    exact .to_ok run ⟨hs, trivial, List.forall_mem_nil _⟩
  · have live : g.isLive b = true := isLive_eq_true hblock (by simpa using hd)
    obtain ⟨k, rfl⟩ := Nat.exists_eq_succ_of_ne_zero (Nat.ne_of_gt (hs.pos live he))
    have henters : MeetsFrom (visitWith ⟨g, options⟩ visit viaEdge b) _ _ s :=
      visitWith_flat hg (hv k (Nat.lt_succ_self k)) viaEdge live hs he
    refine henters.mono (fun _ _ h => ⟨h.mono (Nat.le_succ k), trivial, List.forall_mem_nil _⟩) ?_
    exact fun _ _ h => .inr h

/-- Visits inside each other each write a block, so that there are never too many. -/
theorem visit_plans (hg : g.IsFlat) {depth : Nat} (hn : n < depth) (busy : List BlockId)
    (viaEdge : Bool) (b : BlockId) (hb : b < g.size) :
    Plans (flat g busy [] n) (State.Fails g) [] (visit ⟨g, options⟩ depth viaEdge b) := by
  induction depth generalizing n busy viaEdge b with
  | zero => exact absurd hn (Nat.not_lt_zero n)
  | succ depth ih =>
    refine visitWith_plans hg (fun k hk => ?_) viaEdge hb
    exact ih (Nat.lt_of_lt_of_le hk (Nat.le_of_lt_succ hn))

/-! ## Routines -/

/-- Each block that waited is written, so that the scope is empty before the steps are used up. -/
theorem drain_flat (hg : g.IsFlat) {steps : Nat} (hsteps : n < steps) (hn : n ≤ g.size) :
    Meets (State.Flat g busy [] n) (drain (visit ⟨g, options⟩ (g.size + 1)) steps)
      (fun _ => State.Flat g busy [] n) (State.Fails g) := by
  induction steps generalizing n with
  | zero => exact absurd hsteps (Nat.not_lt_zero n)
  | succ steps ih =>
    refine Meets.bind (nextPending_flat _) fun next => ?_
    cases next with
    | none => exact Meets.pure fun _ h => h.1
    | some b =>
      rintro s ⟨hs, hnext⟩
      obtain ⟨live, new⟩ := hnext b rfl
      obtain ⟨k, rfl⟩ := Nat.exists_eq_succ_of_ne_zero (Nat.ne_of_gt (hs.pos live new))
      refine MeetsFrom.read (isEmitted_run b s) ?_
      dsimp only
      rw [if_pos (by simpa using new)]
      have henters : MeetsFrom (visit ⟨g, options⟩ (g.size + 1) false b) _ _ s :=
        visitWith_flat hg (visit_plans hg hn) false live hs new
      refine henters.bind fun _ s' hs' => ?_
      have hrest := ih (Nat.lt_of_succ_lt_succ hsteps) (Nat.le_of_succ_le hn) s' hs'
      exact hrest.mono (fun _ _ h => h.mono (Nat.le_succ k)) fun _ _ h => h

theorem declarePlace_run (v : Variable) (s : State) :
    ∃ p s', declarePlace v s = .ok () s' ∧ s'.places = s.places ++ [p] ∧
      ∀ rest, Variable.places s.tape.listing.locals.size (v :: rest) =
        p :: Variable.places s'.tape.listing.locals.size rest := by
  unfold declarePlace
  cases hv : v.home <;> exact ⟨_, _, rfl, rfl, fun rest => by simp [Variable.places, hv]⟩

/-- Every variable gets its place. -/
theorem declarePlaces_run (vars : List Variable) (s : State) :
    ∃ s', vars.forM declarePlace s = .ok () s' ∧
      s'.places = s.places ++ Variable.places s.tape.listing.locals.size vars := by
  induction vars generalizing s with
  | nil => exact ⟨s, rfl, (List.append_nil _).symm⟩
  | cons v vars ih =>
    obtain ⟨p, s₁, hrun, hplaces, hrest⟩ := declarePlace_run v s
    obtain ⟨s₂, hrun', hplaces'⟩ := ih s₁
    refine ⟨s₂, (run_bind hrun _).trans hrun', ?_⟩
    rw [hplaces', hplaces, hrest, List.append_assoc, List.singleton_append]

/-- The blocks of the routine. The stack may turn out to be unbalanced at their end. -/
theorem scope_flat (hg : g.IsFlat) (hne : 0 < g.size) {s : State}
    (hs : (s.opened .routine Graph.entry g.size).Flat g [] [] g.size) :
    MeetsFrom (scope ⟨g, options⟩ (visit ⟨g, options⟩ (g.size + 1)) .routine Graph.entry g.size)
      (fun _ s' => ∀ b ∈ s'.emitted, g.Supports b)
      (fun e s' => s'.Fails g e ∨ ∃ depth kind, e = .imbalance depth kind) s := by
  have hbody : Meets (State.Flat g [] [] g.size)
      (scopeBody ⟨g, options⟩ (visit ⟨g, options⟩ (g.size + 1)) Graph.entry)
      (fun _ => State.Flat g [] [] g.size) (State.Fails g) := by
    have hlt : g.size < g.size + 1 := Nat.lt_succ_self _
    refine Meets.bind (visit_plans hg hlt [] false Graph.entry hne).meets fun _ => ?_
    exact drain_flat hg hlt (Nat.le_refl _)
  refine .of_run (scope_run .routine Graph.entry g.size s) ?_
  refine ((hbody _ hs).mono (fun _ _ h => h) fun _ _ h => .inl h).bind fun _ s' hs' => ?_
  have run := closeScope_run .routine s'
  by_cases hd : (s'.tape.depth != 0) = true
  · rw [if_pos hd] at run
    exact .to_error run (.inr ⟨_, _, rfl⟩)
  · rw [if_neg hd] at run
    exact .to_ok run fun b hb => (hs'.settled b hb).resolve_left List.not_mem_nil

theorem routine_flat (hg : g.IsFlat) (hne : 0 < g.size) (registry : Registry) :
    MeetsFrom (routine ⟨g, options⟩) (fun _ s => ∀ b ∈ s.emitted, g.Supports b)
      (fun e s => s.Fails g e ∨ ∃ depth kind, e = .imbalance depth kind) { registry } := by
  unfold routine routineIn
  dsimp only
  rw [if_neg (by simpa [Graph.size, List.length_pos_iff] using hne)]
  have declared : Does Straight (g.vars.forM declarePlace) :=
    Does.forM _ fun v _ => declarePlace_straight v
  obtain ⟨s, hrun, hplaces⟩ := declarePlaces_run g.vars { registry }
  have hs : Straight { registry } s := declared.of_ok hrun
  refine .of_run (run_bind hrun _) ((scope_flat hg hne (.start ?_ ?_ ?_ ?_)).bind ?_)
  · simpa [Graph.places] using hplaces
  · exact hs.scopes
  · exact hs.emitted
  · exact hs.queued
  · intro _ s₁ hs₁
    exact .to_ok (sharedReturn_run s₁) hs₁

end Gen

namespace Graph

variable {g : Graph} {options : Options} {registry : Registry}

/-- The blocks of the listing are those that have been written. -/
theorem mem_blockOrder {b : BlockId} :
    b ∈ (g.generate options registry).listing.blockOrder ↔
      b ∈ (g.lastState options registry).emitted := by
  have hmarked : (g.lastState options registry).Marked g :=
    State.Marked.steps ⟨rfl, List.nodup_nil, by simp⟩ (g.lastState_steps options registry)
  rw [Listing.blockOrder_eq, generate_code, hmarked.labels, List.mem_reverse]

theorem generate_settles (options : Options) (registry : Registry) (hne : 0 < g.size)
    (hg : g.IsFlat) :
    match (g.generate options registry).outcome with
    | .ok _ => ∀ b ∈ (g.lastState options registry).emitted, g.Supports b
    | .error d => (g.lastState options registry).Fails g d.fault := by
  have hroutine : Gen.MeetsFrom (Gen.routine ⟨g, options⟩) _ _ { registry } :=
    Gen.routine_flat hg hne registry
  have meets := generate_meets hroutine
  cases ho : (g.generate options registry).outcome with
  | ok c => rwa [ho] at meets
  | error d =>
    rw [ho] at meets
    refine meets.resolve_right ?_
    rintro ⟨depth, kind, he⟩
    exact g.fault_ne_imbalance options registry ho depth kind he

/-- Generation of a routine without protected regions fails only for a conversion that a block of
the listing asks for and that does not exist, or for an enumeration that a block of the listing
moves on and none of them starts. Where all are started, it succeeds if and only if all conversions
exist. -/
theorem generate_flat (options : Options) (registry : Registry) (hne : 0 < g.size)
    (hg : g.IsFlat) :
    let written := (g.generate options registry).listing.blockOrder
    (∀ d, (g.generate options registry).outcome = .error d →
      (∃ b ∈ written, ∃ r ∈ g.requests b, r.isSupported = false ∧
        d.fault = .noConversion r.source r.hint r.target) ∨
      ∃ b ∈ written, ∃ source ∈ g.source? b,
        ¬(source ∈ written ∧ g.acquires source = true) ∧ d.fault = .noEnumerator source) ∧
    ((∀ b ∈ written, ∀ source ∈ g.source? b, source ∈ written ∧ g.acquires source = true) →
      ((g.generate options registry).outcome.isOk = true ↔
        ∀ b ∈ written, ∀ r ∈ g.requests b, r.isSupported = true)) := by
  simp only [mem_blockOrder]
  have settles := generate_settles options registry hne hg
  cases ho : (g.generate options registry).outcome with
  | ok c =>
    rw [ho] at settles
    refine ⟨fun d hd => ?_, fun _ => ⟨fun _ => settles, fun _ => rfl⟩⟩
    cases hd
  | error d =>
    simp only [ho] at settles
    generalize hf : d.fault = fault at settles
    refine ⟨fun d' hd => ?_, fun hstarted => ⟨fun hok => ?_, fun hsupported => ?_⟩⟩
    · cases hd
      rw [hf]
      cases settles with
      | unsupported hb hr hno => exact .inl ⟨_, hb, _, hr, hno, rfl⟩
      | unacquired hb moves hnone => exact .inr ⟨_, hb, _, moves, hnone, rfl⟩
    · cases hok
    · cases settles with
      | unsupported hb hr hno =>
        rw [hsupported _ hb _ hr] at hno
        cases hno
      | unacquired hb moves hnone => exact absurd (hstarted _ hb _ moves) hnone

/-- The entry leads into the middle of a loop as well as to its head, the table leads to any block
of it, and the enumeration is moved on inside it. -/
def tangle : Graph where
  name := "tangle"
  vars := [⟨"flag", .param 0, .value, .any⟩, ⟨"count", .frame, .int64, .only .int64⟩,
    ⟨"items", .global, .array, .only .array⟩, ⟨"item", .frame, .mstring, .any⟩]
  blocks := [
    ⟨"entry", false, [⟨.assign 1 (.var 0 .any), none⟩], some (.conditional (.var 0 .any) 1 2)⟩,
    ⟨"head", false, [], some (.switch (.var 1 (.only .int64))
      [⟨.int 0, 0⟩, ⟨.int 1, 3⟩, ⟨.int 2, 1⟩, ⟨.int 3, 5⟩] 2)⟩,
    ⟨"start", false, [], some (.foreach (.var 2 (.only .array)) 3)⟩,
    ⟨"next", false, [], some (.moveNext 2 3 none 1 5)⟩,
    ⟨"dead", true, [⟨.throw (.var 1 (.only .int64)), none⟩], some (.goto 4)⟩,
    ⟨"last", false, [⟨.append 3 (.var 1 (.only .int64)), none⟩], some (.goto 3)⟩]

theorem tangle_generates :
    0 < tangle.size ∧ tangle.IsFlat ∧
      (tangle.generate {} {}).listing.blockOrder = [0, 1, 2, 3, 5] ∧
      (tangle.generate {} {}).outcome.isOk = true := by
  have hne : 0 < tangle.size := by decide
  have hflat : tangle.IsFlat := ⟨by decide, by decide, by decide⟩
  have horder : (tangle.generate {} {}).listing.blockOrder = [0, 1, 2, 3, 5] := by decide +kernel
  obtain ⟨-, hsucceeds⟩ := generate_flat {} {} hne hflat
  rw [horder] at hsucceeds
  exact ⟨hne, hflat, horder, (hsucceeds (by decide)).mpr (by decide)⟩

end Graph
end Linearizer
