import Linearizer.Proofs.Generator.Statement

/-!
# The course of a successful generation

`Emits setting task s s'`: doing `task` in the state `s` returns and leads to `s'`. The rules follow
the functions of generation one by one, without the bound on nested visits, so that a fact about
all successful runs is an induction with one case for each thing that a block, an edge or a scope
can do.

- **Tasks** (`Task`): visits of blocks, what follows the label of a block, edges, conditional
  branches, scopes, and the lists that some of them go through.
- **Soundness** (`Gen.visit_emits`, `Gen.scope_emits`): a run that returns is such a course.
- **Scopes** (`Emits.frames`): a course leaves the open scopes as they are, but for the blocks that
  wait in them.
-/

namespace Linearizer

/-- Something that generation does. -/
inductive Task where
  | visit (viaEdge : Bool) (b : BlockId)
  /-- What follows the label of a block. -/
  | body (b : BlockId) (block : Block)
  | edge (b : BlockId) (e : Edge)
  | branch (o : BranchOp) (target : BlockId)
  | scope (kind : ScopeKind) (first hi : BlockId)
  | drain
  /-- The handlers of a region, each with the first block after it. -/
  | handlers (regions : List (Handler × BlockId))
  | cleanup (first : Option BlockId) (next : BlockId)
  | cases (scratch : LocalId) (isInt : Bool) (cases : List Case)

open Gen in
/-- The course of a task that returns (module doc). -/
inductive Emits (setting : Setting) : Task → State → State → Prop
  -- Visits
  | revisit {viaEdge : Bool} {b : BlockId} {block : Block} {s : State}
      (hb : setting.graph.block? b = some block) (he : b ∈ s.emitted) :
      Emits setting (.visit viaEdge b) s (s.revisited b)
  | pass {viaEdge : Bool} {b : BlockId} {block : Block} {s : State}
      (hb : setting.graph.block? b = some block) (new : b ∉ s.emitted)
      (hd : block.dead = true) : Emits setting (.visit viaEdge b) s s
  | enter {viaEdge : Bool} {b : BlockId} {block : Block} {s s' : State}
      (hb : setting.graph.block? b = some block) (new : b ∉ s.emitted)
      (hd : block.dead = false) (within : (s.innermost setting.graph).contains b = true)
      (hbody : Emits setting (.body b block) (s.entered viaEdge b) s') :
      Emits setting (.visit viaEdge b) s s'
  | leave {viaEdge : Bool} {b : BlockId} {block : Block} {s s' : State}
      (hb : setting.graph.block? b = some block) (new : b ∉ s.emitted)
      (hd : block.dead = false) (out : (s.innermost setting.graph).hi ≤ b)
      (hq : defer b (s.exited b) = .ok () s') : Emits setting (.visit viaEdge b) s s'
  -- Blocks
  | stop {b : BlockId} {block : Block} {s s' : State}
      (hs : block.statements.forM stmt s = .ok () s') (ht : block.endsInTerminal = true) :
      Emits setting (.body b block) s s'
  | goOn {b : BlockId} {block : Block} {e : Edge} {s s₁ s' : State}
      (hs : block.statements.forM stmt s = .ok () s₁) (ht : block.endsInTerminal = false)
      (he : block.edge = some e) (hedge : Emits setting (.edge b e) s₁ s') :
      Emits setting (.body b block) s s'
  | fallOff {b : BlockId} {block : Block} {s s₁ s' : State}
      (hs : block.statements.forM stmt s = .ok () s₁) (ht : block.endsInTerminal = false)
      (he : block.edge = none) (hf : Gen.fallOff setting.graph s₁ = .ok () s') :
      Emits setting (.body b block) s s'
  -- Conditional branches
  | drop {o : BranchOp} {target : BlockId} {block : Block} {s s' : State}
      (hb : setting.graph.block? target = some block) (hd : block.dead = true)
      (hp : op .pop s = .ok () s') : Emits setting (.branch o target) s s'
  | direct {o : BranchOp} {target : BlockId} {block : Block} {s s' : State}
      (ho : o.isConditional = true)
      (hb : setting.graph.block? target = some block) (hd : block.dead = false)
      (within : (s.innermost setting.graph).contains target = true)
      (hs : (schedule setting.graph target : Gen Unit) (s.branched o (.block target)) = .ok () s') :
      Emits setting (.branch o target) s s'
  | detour {o : BranchOp} {target : BlockId} {block : Block} {s s' : State}
      (ho : o.isConditional = true)
      (hb : setting.graph.block? target = some block) (hd : block.dead = false)
      (out : (s.innermost setting.graph).contains target = false)
      (hl : target ∈ s.emitted ∨ (s.innermost setting.graph).lo ≤ target)
      (hvisit : Emits setting (.visit true target) (s.skipped o.negate) s') :
      Emits setting (.branch o target) s (s'.written (.label (.fresh s.nextLabel)))
  -- Scopes
  | scope {kind : ScopeKind} {first hi : BlockId} {s s₁ s' : State} (lt : first < hi)
      (hvisit : Emits setting (.visit false first) (s.opened kind first hi) s₁)
      (hdrain : Emits setting .drain s₁ s')
      (empty : ∀ scope outer, s'.scopes = scope :: outer → scope.pending = [])
      (hd : s'.tape.depth = 0) :
      Emits setting (.scope kind first hi) s { s' with scopes := s'.scopes.tail }
  | drained {s : State} : Emits setting .drain s s
  | skip {b : BlockId} {s s₁ s' : State} (hn : nextPending s = .ok (some b) s₁)
      (he : b ∈ s₁.emitted) (hrest : Emits setting .drain s₁ s') : Emits setting .drain s s'
  | next {b : BlockId} {s s₁ s₂ s' : State} (hn : nextPending s = .ok (some b) s₁)
      (new : b ∉ s₁.emitted) (hvisit : Emits setting (.visit false b) s₁ s₂)
      (hrest : Emits setting .drain s₂ s') : Emits setting .drain s s'
  -- Edges
  | goto {b target : BlockId} {s s' : State} (hvisit : Emits setting (.visit true target) s s') :
      Emits setting (.edge b (.goto target)) s s'
  | conditional {b ifTrue ifFalse : BlockId} {condition : Expr} {s s₁ s₂ s' : State}
      (hc : expr condition .bool s = .ok () s₁)
      (hbranch : Emits setting (.branch .brfalse ifFalse) s₁ s₂)
      (hvisit : Emits setting (.visit true ifTrue) s₂ s') :
      Emits setting (.edge b (.conditional condition ifTrue ifFalse)) s s'
  | «foreach» {b next : BlockId} {subject : Expr} {slot : LocalId} {s s₁ s' : State}
      (ha : acquire subject s = .ok slot s₁)
      (hvisit : Emits setting (.visit true next)
        { s₁ with enumerators := (b, slot) :: s₁.enumerators } s') :
      Emits setting (.edge b (.foreach subject next)) s s'
  | moveNext {b source body after : BlockId} {value : VarId} {key : Option VarId} {slot : LocalId}
      {s s₁ s₂ s₃ s' : State} (hl : s.enumerators.lookup source = some slot)
      (ha : advance slot s = .ok () s₁) (hbranch : Emits setting (.branch .brfalse after) s₁ s₂)
      (hs : storeItem slot value key s₂ = .ok () s₃)
      (hvisit : Emits setting (.visit true body) s₃ s') :
      Emits setting (.edge b (.moveNext source value key body after)) s s'
  | chain {b default : BlockId} {value : Expr} {cases : List Case} {scratch : LocalId}
      {s s₁ s₂ s' : State}
      (hr : TableRange.ofCases? setting.options (s.innermost setting.graph) value cases default
        = none)
      (hv : select value s = .ok scratch s₁)
      (hcases : Emits setting (.cases scratch (value.hint = .only .int64) cases) s₁ s₂)
      (hvisit : Emits setting (.visit true default) s₂ s') :
      Emits setting (.edge b (.switch value cases default)) s s'
  | table {b default : BlockId} {value : Expr} {cases : List Case} {range : TableRange}
      {index : LocalId} {s s₁ s₂ s₃ s₄ s' : State}
      (hr : TableRange.ofCases? setting.options (s.innermost setting.graph) value cases default
        = some range)
      (hi : tableIndex value range s = .ok index s₁)
      (hbranch : Emits setting (.branch .brfalse default) s₁ s₂)
      (hj : loadIndex index s₂ = .ok () s₃)
      (hs : ((range.targets setting.graph cases default).forM (schedule setting.graph) : Gen Unit)
        (s₃.tabled (range.targets setting.graph cases default)) = .ok () s₄)
      (hvisit : Emits setting (.visit true default) s₄ s') :
      Emits setting (.edge b (.switch value cases default)) s s'
  | noCase {scratch : LocalId} {isInt : Bool} {s : State} :
      Emits setting (.cases scratch isInt []) s s
  | case {scratch : LocalId} {isInt : Bool} {c : Case} {rest : List Case} {s s₁ s₂ s' : State}
      (hc : compare scratch isInt c s = .ok () s₁)
      (hbranch : Emits setting (.branch .brtrue c.target) s₁ s₂)
      (hrest : Emits setting (.cases scratch isInt rest) s₂ s') :
      Emits setting (.cases scratch isInt (c :: rest)) s s'
  -- Protected regions
  | protect {b body next hi : BlockId} {handlers : List Handler} {cleanup : Option BlockId}
      {ends : List BlockId} {s s₁ s₂ s₃ s' : State}
      (guarded : (handlers.isEmpty && cleanup.isNone) = false)
      (hends : handlers.map Handler.target ++ (cleanup.toList ++ [next]) = hi :: ends)
      (asc : isAscending (body :: hi :: ends) = true)
      (hbody : Emits setting (.scope .body body hi) (s.written .beginTry) s₁)
      (hhandlers : Emits setting (.handlers (handlers.zip ends)) s₁ s₂)
      (hcleanup : Emits setting (.cleanup cleanup next) s₂ s₃)
      (hvisit : Emits setting (.visit true next) (s₃.written .endTry) s') :
      Emits setting (.edge b (.protect body handlers cleanup next)) s s'
  | noHandler {s : State} : Emits setting (.handlers []) s s
  | handler {h : Handler} {hi : BlockId} {rest : List (Handler × BlockId)} {s s₁ s₂ s' : State}
      (hc : receive h (s.written (.beginCatch h.cls)) = .ok () s₁)
      (hscope : Emits setting (.scope .handler h.target hi) s₁ s₂)
      (hrest : Emits setting (.handlers rest) s₂ s') :
      Emits setting (.handlers ((h, hi) :: rest)) s s'
  | noCleanup {next : BlockId} {s : State} : Emits setting (.cleanup none next) s s
  | cleanup {first next : BlockId} {s s' : State}
      (hscope : Emits setting (.scope .cleanup first next) (s.written .beginFinally) s') :
      Emits setting (.cleanup (some first) next) s s'

/-! ## Runs that return are such courses -/

namespace Gen

/-- What the functions that go on with another block need to know of its visit. -/
def Sound (setting : Setting) (visit : Visit) : Prop :=
  ∀ viaEdge b s s', visit viaEdge b s = .ok () s' → Emits setting (.visit viaEdge b) s s'

section Visits

variable {setting : Setting} {visit : Visit}

theorem drain_emits (hv : Sound setting visit) {n : Nat} {s s' : State}
    (h : drain visit n s = .ok () s') : Emits setting .drain s s' := by
  induction n generalizing s with
  | zero => exact (throw_ok h).elim
  | succ n ih =>
    obtain ⟨next, s₁, hn, hr⟩ := bind_ok h
    cases next with
    | none =>
      cases hr
      obtain ⟨rfl, -⟩ := nextPending_none hn
      exact .drained
    | some b =>
      simp only [monadLift_self] at hr
      rw [run_bind (isEmitted_run b s₁)] at hr
      by_cases he : b ∈ s₁.emitted
      · rw [if_neg (by simpa using he)] at hr
        exact .skip hn he (ih hr)
      · rw [if_pos (by simpa using he)] at hr
        obtain ⟨_, s₂, hvis, hd⟩ := bind_ok hr
        exact .next hn he (hv _ _ _ _ hvis) (ih hd)

theorem scope_emits (hv : Sound setting visit) {kind : ScopeKind} {first hi : BlockId}
    (lt : first < hi) {s s' : State} (h : scope setting visit kind first hi s = .ok () s') :
    Emits setting (.scope kind first hi) s s' := by
  rw [scope_run] at h
  obtain ⟨_, s₂, hb, hc⟩ := bind_ok h
  obtain ⟨_, s₁, hvis, hd⟩ := bind_ok hb
  rw [closeScope_run] at hc
  split at hc
  · cases hc
  · rename_i hz
    cases hc
    exact .scope lt (hv _ _ _ _ hvis) (drain_emits hv hd) (drain_ok hd) (by simpa using hz)

theorem branchTo_emits (hv : Sound setting visit) {o : BranchOp} (ho : o.isConditional = true)
    {target : BlockId} {s s' : State} (h : branchTo setting visit o target s = .ok () s') :
    Emits setting (.branch o target) s s' := by
  obtain ⟨block, hb, ⟨hd, hp⟩ | ⟨hd, ⟨hw, hs⟩ | ⟨out, hl, s₁, hvis, rfl⟩⟩⟩ := branchTo_ok h
  · exact .drop hb hd hp
  · exact .direct ho hb hd hw hs
  · exact .detour ho hb hd out hl (hv _ _ _ _ hvis)

theorem cases_emits (hv : Sound setting visit) {scratch : LocalId} {isInt : Bool}
    {cases : List Case} {s s' : State}
    (h : cases.forM (compareCase setting visit scratch isInt) s = .ok () s') :
    Emits setting (.cases scratch isInt cases) s s' := by
  induction cases generalizing s with
  | nil =>
    cases h
    exact .noCase
  | cons c rest ih =>
    obtain ⟨_, s₂, hc, hr⟩ := bind_ok h
    obtain ⟨_, s₁, hc, hb⟩ := bind_ok hc
    exact .case hc (branchTo_emits hv rfl hb) (ih hr)

/-- Each handler ends where the next part starts, which lies behind its start. -/
theorem handlers_emits (hv : Sound setting visit) {handlers : List Handler}
    {rest : List BlockId} {hi : BlockId} {ends : List BlockId}
    (hends : handlers.map Handler.target ++ rest = hi :: ends)
    (asc : isAscending (hi :: ends) = true) {s s' : State}
    (h : ((handlers.zip ends).forM fun (h, hi) => handler setting visit h hi : Gen Unit) s
      = .ok () s') :
    Emits setting (.handlers (handlers.zip ends)) s s' := by
  induction handlers generalizing s hi ends with
  | nil =>
    rw [List.zip_nil_left] at h ⊢
    cases h
    exact .noHandler
  | cons x xs ih =>
    cases ends with
    | nil =>
      rw [List.zip_nil_right] at h ⊢
      cases h
      exact .noHandler
    | cons hi' ends =>
      simp only [List.map_cons, List.cons_append, List.cons.injEq] at hends
      -- The part of the handler ends where the rest starts.
      obtain ⟨rfl, hends⟩ := hends
      obtain ⟨lt, asc⟩ := isAscending_cons asc
      obtain ⟨_, s₂, hx, hr⟩ := bind_ok h
      obtain ⟨_, s₀, h₀, hx⟩ := bind_ok hx
      cases h₀
      obtain ⟨_, s₁, hc, hs⟩ := bind_ok hx
      exact .handler hc (scope_emits hv lt hs) (ih hends asc hr)

/-- Code for a protected region is written only if it has a guard and its parts ascend. -/
theorem protect_emits (hv : Sound setting visit) {b body next : BlockId}
    {handlers : List Handler} {cleanup : Option BlockId} {s s' : State}
    (h : protect setting visit body handlers cleanup next s = .ok () s') :
    Emits setting (.edge b (.protect body handlers cleanup next)) s s' := by
  unfold protect at h
  by_cases hg : (handlers.isEmpty && cleanup.isNone) = true
  · rw [if_pos hg] at h
    cases h
  rw [if_neg hg] at h
  have guarded : (handlers.isEmpty && cleanup.isNone) = false := Bool.eq_false_iff.mpr hg
  dsimp only at h
  rw [List.append_assoc] at h
  cases hends : handlers.map Handler.target ++ (cleanup.toList ++ [next]) with
  | nil => simp at hends
  | cons hi ends =>
    rw [hends] at h
    by_cases hasc : isAscending (body :: hi :: ends) = true
    · rw [if_neg (by simp [hasc])] at h
      obtain ⟨_, s₀, h₀, h⟩ := bind_ok h
      cases h₀
      obtain ⟨_, s₁, h₁, h⟩ := bind_ok h
      obtain ⟨_, s₂, h₂, h⟩ := bind_ok h
      obtain ⟨lt, hasc'⟩ := isAscending_cons hasc
      have hbody := scope_emits hv lt h₁
      have hhandlers := handlers_emits hv hends hasc' h₂
      cases cleanup with
      | none =>
        obtain ⟨_, s₃, h₃, h⟩ := bind_ok h
        cases h₃
        exact .protect guarded hends hasc hbody hhandlers .noCleanup (hv _ _ _ _ h)
      | some first =>
        -- The cleanup comes last, so it ends at the block after the region.
        have hlt : first < next := by
          rw [← hends] at hasc'
          exact (isAscending_cons (isAscending_append_right hasc')).1
        obtain ⟨_, s₃, h₃, h⟩ := bind_ok h
        cases h₃
        obtain ⟨_, s₄, h₄, h⟩ := bind_ok h
        obtain ⟨_, s₅, h₅, h⟩ := bind_ok h
        cases h₅
        exact .protect guarded hends hasc hbody hhandlers
          (.cleanup (scope_emits hv hlt h₄)) (hv _ _ _ _ h)
    · rw [if_pos (by simp [hasc])] at h
      cases h

theorem edge_emits (hv : Sound setting visit) {b : BlockId} {e : Edge} {s s' : State}
    (h : edge setting visit b e s = .ok () s') : Emits setting (.edge b e) s s' := by
  cases e with
  | goto target => exact .goto (hv _ _ _ _ h)
  | conditional condition ifTrue ifFalse =>
    obtain ⟨_, s₁, hc, h⟩ := bind_ok h
    obtain ⟨_, s₂, hb, h⟩ := bind_ok h
    exact .conditional hc (branchTo_emits hv rfl hb) (hv _ _ _ _ h)
  | protect body handlers cleanup next => exact protect_emits hv h
  | «foreach» subject next =>
    obtain ⟨slot, s₁, ha, h⟩ := bind_ok h
    obtain ⟨_, s₂, hm, h⟩ := bind_ok h
    cases hm
    exact .foreach ha (hv _ _ _ _ h)
  | moveNext source value key body after =>
    obtain ⟨slot, s₀, hslot, hrest⟩ := bind_ok h
    obtain ⟨hl, rfl⟩ := enumerator_ok hslot
    obtain ⟨_, s₁, ha, h⟩ := bind_ok hrest
    obtain ⟨_, s₂, hb, h⟩ := bind_ok h
    obtain ⟨_, s₃, hs, h⟩ := bind_ok h
    exact .moveNext hl ha (branchTo_emits hv rfl hb) hs (hv _ _ _ _ h)
  | switch value cases default =>
    rw [switch_run] at h
    cases hr : TableRange.ofCases? setting.options (s.innermost setting.graph) value cases
        default with
    | some range =>
      simp only [hr] at h
      obtain ⟨index, s₁, hi, h⟩ := bind_ok h
      obtain ⟨_, s₂, hb, h⟩ := bind_ok h
      obtain ⟨_, s₃, hj, h⟩ := bind_ok h
      obtain ⟨_, _, ht, h⟩ := bind_ok h
      cases ht
      obtain ⟨_, s₄, hs, h⟩ := bind_ok h
      exact .table hr hi (branchTo_emits hv rfl hb) hj hs (hv _ _ _ _ h)
    | none =>
      simp only [hr] at h
      obtain ⟨scratch, s₁, hs, h⟩ := bind_ok h
      obtain ⟨_, s₂, hc, h⟩ := bind_ok h
      exact .chain hr hs (cases_emits hv hc) (hv _ _ _ _ h)

theorem blockBody_emits (hv : Sound setting visit) {b : BlockId} {block : Block} {s s' : State}
    (h : blockBody setting visit b block s = .ok () s') :
    Emits setting (.body b block) s s' := by
  obtain ⟨_, s₁, hs, h⟩ := bind_ok h
  by_cases ht : block.endsInTerminal = true
  · rw [if_pos ht] at h
    cases h
    exact .stop hs ht
  rw [if_neg ht] at h
  have ht : block.endsInTerminal = false := by simpa using ht
  cases he : block.edge with
  | some e =>
    simp only [he] at h
    exact .goOn hs ht he (edge_emits hv h)
  | none =>
    simp only [he] at h
    exact .fallOff hs ht he h

/-- Visits are sound if those of the next blocks are. -/
theorem visitWith_emits (hv : Sound setting visit) : Sound setting (visitWith setting visit) := by
  intro viaEdge b s s' h
  rw [visitWith_run] at h
  cases hb : setting.graph.block? b with
  | none =>
    simp only [hb] at h
    cases h
  | some block =>
    simp only [hb] at h
    by_cases he : b ∈ s.emitted
    · rw [if_pos he] at h
      cases h
      exact .revisit hb he
    rw [if_neg he] at h
    by_cases hd : block.dead = true
    · rw [if_pos hd] at h
      cases h
      exact .pass hb he hd
    rw [if_neg hd] at h
    have hd : block.dead = false := by simpa using hd
    by_cases hl : b < (s.innermost setting.graph).lo
    · rw [if_pos hl] at h
      cases h
    rw [if_neg hl] at h
    by_cases hh : b < (s.innermost setting.graph).hi
    · rw [if_pos hh] at h
      have within : (s.innermost setting.graph).contains b = true := by
        simp [Scope.contains, hh, Nat.not_lt.mp hl]
      exact .enter hb he hd within (blockBody_emits hv h)
    · rw [if_neg hh] at h
      exact .leave hb he hd (Nat.not_lt.mp hh) h

end Visits

theorem visit_emits (setting : Setting) (depth : Nat) : Sound setting (visit setting depth) := by
  induction depth with
  | zero => exact fun _ _ _ _ h => (throw_ok h).elim
  | succ depth ih => exact visitWith_emits ih

end Gen

/-! ## The open scopes -/

namespace Gen

theorem nextPending_frames {s s' : State} {b : BlockId} (h : nextPending s = .ok (some b) s') :
    s'.frames = s.frames := by
  obtain ⟨scope, outer, rest, hs, -, rfl⟩ := nextPending_some h
  simp [State.frames, hs]

theorem schedules_frames {g : Graph} {targets : List BlockId} {s s' : State}
    (h : (targets.forM (schedule g) : Gen Unit) s = .ok () s') : s'.frames = s.frames := by
  induction targets generalizing s with
  | nil =>
    cases h
    rfl
  | cons b rest ih =>
    obtain ⟨_, s₁, h₁, h₂⟩ := bind_ok h
    exact (ih h₂).trans (schedule_frames h₁)

end Gen

open Gen in
/-- A task leaves the open scopes as they are, but for the blocks that wait in them. -/
theorem Emits.frames {setting : Setting} {task : Task} {s s' : State}
    (h : Emits setting task s s') : s'.frames = s.frames := by
  induction h with
  | revisit | pass | drained | noCase | noHandler | noCleanup => rfl
  | enter _ _ _ _ _ ih => exact ih.trans (State.frames_unqueue _ _)
  | leave _ _ _ _ hq => exact (defer_frames hq).trans rfl
  | stop hs => exact (statements_calm setting.graph hs).frames
  | goOn hs _ _ _ ih => exact ih.trans (statements_calm setting.graph hs).frames
  | fallOff hs _ _ hf =>
    exact (fallOff_calm hf).frames.trans (statements_calm setting.graph hs).frames
  | drop _ _ hp => exact ((op_straight rfl).of_ok hp).frames
  | direct _ _ _ _ hs => exact (schedule_frames hs).trans rfl
  | detour _ _ _ _ _ _ ih => exact ih
  | @scope kind first hi s s₁ s' _ _ _ _ _ ihv ihd =>
    have hf : s'.frames = (kind, first, hi) :: s.frames :=
      (ihd.trans ihv).trans (congrArg ((kind, first, hi) :: ·) (State.frames_unqueue _ first))
    exact (List.map_tail ..).trans (congrArg List.tail hf)
  | skip hn _ _ ih => exact ih.trans (nextPending_frames hn)
  | next hn _ _ _ ihv ih => exact (ih.trans ihv).trans (nextPending_frames hn)
  | goto _ ih => exact ih
  | conditional hc _ _ ihb ihv =>
    exact (ihv.trans ihb).trans ((expr_straight _ _).of_ok hc).frames
  | «foreach» ha _ ih => exact ih.trans ((acquire_straight _).of_ok ha).frames
  | moveNext _ ha _ hs _ ihb ihv =>
    refine (ihv.trans ((storeItem_straight _ _ _).of_ok hs).frames).trans ?_
    exact ihb.trans ((advance_straight _).of_ok ha).frames
  | chain _ hv _ _ ihc ihv => exact (ihv.trans ihc).trans ((select_straight _).of_ok hv).frames
  | table _ hi _ hj hs _ ihb ihv =>
    refine (ihv.trans (schedules_frames hs)).trans ?_
    refine Eq.trans ((loadIndex_straight _).of_ok hj).frames ?_
    exact ihb.trans ((tableIndex_straight _ _).of_ok hi).frames
  | case hc _ _ ihb ihr => exact (ihr.trans ihb).trans ((compare_straight _ _ _).of_ok hc).frames
  | protect _ _ _ _ _ _ _ ihb ihh ihc ihv => exact ihv.trans (ihc.trans (ihh.trans ihb))
  | handler hc _ _ ihs ihr => exact (ihr.trans ihs).trans ((receive_straight _).of_ok hc).frames
  | cleanup _ ih => exact ih

/-- Nothing waits in a scope that is about to be closed. -/
theorem Gen.scopeBody_drained {setting : Setting} {visit : Visit} (hv : Sound setting visit)
    {first lo hi : BlockId} {kind : ScopeKind} {pending : List BlockId} {outer : List Scope}
    {s s₁ : State} (hs : s.scopes = ⟨kind, lo, hi, pending⟩ :: outer)
    (h : scopeBody setting visit first s = .ok () s₁) :
    ∃ outer', s₁.scopes = ⟨kind, lo, hi, []⟩ :: outer' := by
  obtain ⟨_, s₂, hvis, hd⟩ := bind_ok h
  have hframes : s₁.frames = s.frames :=
    (drain_emits hv hd).frames.trans (hv _ _ _ _ hvis).frames
  cases hs₁ : s₁.scopes with
  | nil => simp [State.frames, hs, hs₁] at hframes
  | cons scope outer' =>
    have hpending := drain_ok hd scope outer' hs₁
    obtain ⟨kind', lo', hi', pending'⟩ := scope
    simp only [State.frames, hs, hs₁, List.map_cons, List.cons.injEq, Prod.mk.injEq] at hframes
    obtain ⟨⟨rfl, rfl, rfl⟩, -⟩ := hframes
    cases hpending
    exact ⟨outer', rfl⟩

end Linearizer
