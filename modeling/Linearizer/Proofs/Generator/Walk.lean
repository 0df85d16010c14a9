import Linearizer.Proofs.Generator.Invariant
import Linearizer.Proofs.Generator.Limits
import Linearizer.Proofs.Generator.Table

/-!
# The way of generation

The functions of generation are followed here once, for all invariants: an invariant that every
single step keeps holds at all points of a run.

- **Visits** (`Invariant.Carries`): what the functions that go on with another block need to know of
  its visit; `Invariant.Kept.visit_carries` closes the circle.
- **Routines** (`Invariant.Kept.routine_meets`): the run of a whole routine.
- **Straight-line code** (`Invariant.KeepsStraight.blocks`): where nothing depends on the code of
  values and statements, most of the steps of a block are alike.
-/

namespace Linearizer
namespace Invariant

variable {α β : Type} {setting : Setting} {I : Invariant setting} {calls : List Call} {s s₁ : State}

/-- What the functions that go on with another block need to know of its visit. -/
structure Carries (I : Invariant setting) (n : Nat) (visit : Gen.Visit Journaled) : Prop where
  meets : ∀ {i : I.Index} {viaEdge : Bool} {b : BlockId}, I.may i b →
    I.Meets (I.rest n i) (visit viaEdge b) fun _ => I.rest n i
  emits : Gen.Sound setting (Journaled.eraseVisit visit)

namespace Kept

open Gen

variable (hI : I.Kept) {n : Nat} {i : I.Index}
include hI

/-- A block behind the innermost scope is put off, or there is no room for it. -/
theorem enqueueOuter_meets {b : BlockId} (hmay : I.may i b) (live : setting.graph.isLive b = true)
    (new : b ∉ s.emitted) (out : (s.innermost setting.graph).contains b = false)
    (hs : I.rest n i calls s) :
    I.MeetsFrom (Gen.enqueueOuter b) (fun _ => I.rest n i) calls s := by
  obtain ⟨hn, hs⟩ := hI.note (c := .enqueueOuter b) rfl hmay hs
  refine .note hn (.lift ?_)
  cases hr : Gen.defer b s with
  | ok _ s' =>
    refine Gen.MeetsFrom.to_ok hr ?_
    obtain ⟨-, rfl⟩ | ⟨idle, outer, ho, rfl⟩ := defer_ok hr
    · exact hs
    · exact hI.defer List.mem_cons_self hmay live new out idle ho hs
  | error e s' =>
    obtain ⟨rfl, kind, lo, rfl⟩ := defer_error hr
    exact Gen.MeetsFrom.to_error hr (hI.fails trivial hs)

/-- Scheduling a block, in the cases in which it is done or not. -/
theorem schedule_meets {b : BlockId} (hmay : I.may i b) :
    I.Meets (I.rest n i) (Gen.schedule setting.graph b) fun _ => I.rest n i := by
  intro calls s hs
  obtain ⟨hn, hs⟩ := hI.note (c := .schedule b) rfl hmay hs
  refine .note hn ?_
  cases hb : setting.graph.block? b with
  | none => exact .fail (hI.fails ⟨hmay, hb⟩ hs)
  | some block =>
    refine .run (isEmitted_run b s) ?_
    by_cases he : (block.dead || s.emitted.contains b) = true
    · rw [if_pos he]
      exact .pure hs
    rw [if_neg he]
    simp only [Bool.or_eq_true, not_or, Bool.not_eq_true] at he
    have live := isLive_eq_true hb he.1
    have new : b ∉ s.emitted := contains_eq_false.mp he.2
    refine .run (currentScope_run _ s) ?_
    by_cases hc : (s.innermost setting.graph).contains b = true
    · rw [if_pos hc]
      refine .lift ?_
      exact hI.claim List.mem_cons_self hmay live new hc hs
    · rw [if_neg hc]
      exact hI.enqueueOuter_meets hmay live new (by simpa using hc) hs

section Visits

variable {visit : Gen.Visit Journaled} (hv : I.Carries n visit)
include hv

/-- The blocks that wait are visited one by one, by induction on how many may be taken. -/
theorem drain_meets (k : Nat) : I.Meets (I.loop n i k) (Gen.drain visit k) fun _ => I.rest n i := by
  induction k with
  | zero => exact fun _ _ hs => .fail (hI.stuck hs)
  | succ k ih =>
    intro calls s hs
    obtain ⟨next, s₁, hn⟩ := nextPending_returns s
    refine .run hn ?_
    cases next with
    | none =>
      obtain ⟨rfl, -⟩ := nextPending_none hn
      exact .pure (hI.drained hs)
    | some b =>
      refine .run (isEmitted_run b s₁) ?_
      by_cases he : b ∈ s₁.emitted
      · rw [if_neg (by simpa using he)]
        exact ih calls s₁ (hI.skip hn he hs)
      · rw [if_pos (by simpa using he)]
        obtain ⟨hmay, hs₁, hloop⟩ := hI.next hn he hs
        refine (hv.meets hmay calls s₁ hs₁).bind fun _ calls s₂ hr hs₂ => ?_
        exact ih calls s₂ (hloop calls s₂ (hv.emits _ _ _ _ hr) hs₂)

/-- A scope is opened, and closed again when nothing waits in it any more. -/
theorem scope_meets {kind : ScopeKind} {first hi : BlockId} {P Q : Assertion}
    (h : I.Opens n kind first hi P Q) :
    I.Meets P (Gen.scope setting visit kind first hi) fun _ => Q := by
  intro calls s hs
  obtain ⟨i, hmay, hopened, hclose⟩ := h calls s hs
  have body : I.MeetsFrom (scopeBody setting visit first) (fun _ => I.rest n i) calls
      (s.opened kind first hi) :=
    (hv.meets hmay calls _ hopened).bind fun _ calls s _ hs =>
      hI.drain_meets hv _ calls s (hI.start hs)
  refine .run (openScope_run kind first hi s) (body.bind fun _ calls s₁ hr hs₁ => ?_)
  -- Calls are noted only for the proof: without them, this is the run of a scope.
  have hrun : scopeBody setting (Journaled.eraseVisit visit) first (s.opened kind first hi) =
      .ok () s₁ := by
    rw [← Journaled.erase_scopeBody]
    exact hr
  obtain ⟨outer, hscopes⟩ := scopeBody_drained hv.emits (s.scopes_opened kind first hi) hrun
  obtain ⟨hnoted, hok, herror⟩ := hclose calls s₁ outer hs₁ hscopes
  have run := closeScope_run kind s₁
  rw [hscopes, List.tail_cons] at run
  refine .note hnoted (.lift ?_)
  by_cases hd : s₁.tape.depth = 0
  · rw [if_neg (by simpa using hd)] at run
    exact Gen.MeetsFrom.to_ok run (hok hd)
  · rw [if_pos (by simpa using hd)] at run
    exact Gen.MeetsFrom.to_error run (herror hd)

/-! ### Edges -/

/-- A conditional branch: its target is dead, in the innermost scope, or elsewhere. -/
theorem branchTo_meets {o : BranchOp} (ho : o.isConditional = true) {target : BlockId}
    (hmay : I.may i target) :
    I.Meets (I.cond n i) (Gen.branchTo setting visit o target) fun _ => I.rest n i := by
  intro calls s hs
  obtain ⟨hn, hraise⟩ := hI.branch ho hmay hs
  refine .note hn ?_
  cases hb : setting.graph.block? target with
  | none => exact .fail (hraise _ ⟨hmay, hb⟩)
  | some block =>
    dsimp only
    by_cases hd : block.dead = true
    · rw [if_pos hd]
      exact .lift (hI.drop hs)
    rw [if_neg hd]
    have live := isLive_eq_true hb (by simpa using hd)
    refine .run (currentScope_run _ s) (.run (isEmitted_run target s) ?_)
    by_cases hl : (!s.emitted.contains target && decide (target < (s.innermost setting.graph).lo))
        = true
    · rw [if_pos hl]
      exact .fail (hraise _ trivial)
    rw [if_neg hl]
    by_cases hc : (s.innermost setting.graph).contains target = true
    · rw [if_pos hc]
      refine .run rfl ?_
      exact hI.schedule_meets hmay _ _ (hI.direct ho hmay live hc hs)
    · rw [if_neg hc]
      -- The visit to the target is skipped by the opposite branch.
      obtain ⟨j, hmayj, hskip, hland⟩ := hI.detour ho hmay live (by simpa using hc) hs
      refine .run rfl (.run rfl ?_)
      refine (hv.meets hmayj _ _ hskip).bind fun _ calls s₁ _ hs₁ => .lift ?_
      exact hland calls s₁ hs₁

/-- An enumeration is moved on. -/
theorem moveNext_meets {b source body after : BlockId} {value : VarId} {key : Option VarId}
    {block : Block} (hb : setting.graph.block? b = some block)
    (he : block.edge = some (.moveNext source value key body after)) :
    I.Meets (I.inBlock n i b) (Gen.moveNext setting visit source value key body after)
      fun _ => I.rest n i := by
  intro calls s hs
  have hbody : I.may i body := hI.successor hb he rfl (by simp [Edge.successors]) hs
  refine .step (hI.moveNext hb he hs) fun slot s₁ _ h₁ => .step h₁ fun _ s₂ _ h₂ => ?_
  obtain ⟨j, hafter, hcond, hstore⟩ := h₂
  refine (hI.branchTo_meets hv rfl hafter calls s₂ hcond).bind fun _ calls s₃ _ hs₃ => ?_
  exact .step (hstore calls s₃ hs₃) fun _ s₄ _ hs₄ => hv.meets hbody calls s₄ hs₄

/-- A switch that compares its cases one after the other. -/
theorem compareChain_meets {b default : BlockId} {value : Expr} {cases : List Case} {block : Block}
    (hb : setting.graph.block? b = some block)
    (he : block.edge = some (.switch value cases default)) :
    I.Meets (I.inBlock n i b) (Gen.compareChain setting visit value cases default)
      fun _ => I.rest n i := by
  intro calls s hs
  have hdefault : I.may i default := hI.successor hb he rfl (by simp [Edge.successors]) hs
  refine .step (hI.chain hb he hs) fun scratch s₁ _ h₁ => ?_
  obtain ⟨j, hs₁, hcases, hback⟩ := h₁
  have loop : I.Meets (I.rest n j)
      (cases.forM (compareCase setting visit scratch (value.hint = .only .int64)))
      fun _ => I.rest n j := by
    refine .forM cases fun c hc calls s hs => ?_
    obtain ⟨hmay, hcompare⟩ := hcases c hc
    exact .step (hcompare calls s hs) fun _ s₂ _ hs₂ => hI.branchTo_meets hv rfl hmay calls s₂ hs₂
  exact (loop calls s₁ hs₁).bind fun _ calls s₂ _ hs₂ =>
    hv.meets hdefault calls s₂ (hback calls s₂ hs₂)

/-- A switch through a table. -/
theorem jumpTable_meets {b default : BlockId} {value : Expr} {cases : List Case}
    {range : TableRange} {block : Block} (hb : setting.graph.block? b = some block)
    (he : block.edge = some (.switch value cases default))
    (hr : TableRange.ofCases? setting.options (s.innermost setting.graph) value cases default =
      some range) (hs : I.inBlock n i b calls s) :
    I.MeetsFrom (Gen.jumpTable setting visit value cases default range) (fun _ => I.rest n i) calls
      s := by
  have hmay {c : BlockId} (hc : c ∈ cases.map Case.target ++ [default]) : I.may i c :=
    hI.successor hb he rfl hc hs
  have targets : ∀ b ∈ range.targets setting.graph cases default, I.may i b := by
    intro b hb
    obtain ⟨c, hm, rfl⟩ | rfl := TableRange.mem_of_mem_targets hb
    · exact hmay (List.mem_append_left _ (List.mem_map_of_mem hm))
    · exact hmay (by simp)
  refine .step (hI.table hb he hr hs) fun index s₁ _ h₁ => ?_
  obtain ⟨j, hdefault, hcond, hjump⟩ := h₁
  refine (hI.branchTo_meets hv rfl hdefault calls s₁ hcond).bind fun _ calls s₂ _ hs₂ => ?_
  refine .step (hjump calls s₂ hs₂) fun _ s₃ _ h₃ => .step h₃ fun _ s₄ _ hs₄ => ?_
  have schedules : I.Meets (I.rest n i)
      ((range.targets setting.graph cases default).forM (Gen.schedule setting.graph))
      fun _ => I.rest n i := .forM _ fun b hb => hI.schedule_meets (targets b hb)
  exact (schedules calls s₄ hs₄).bind fun _ calls s₅ _ hs₅ =>
    hv.meets (hmay (by simp)) calls s₅ hs₅

/-! ### Protected regions -/

/-- A handler follows the part before it. -/
theorem handler_meets {b body next hi : BlockId} {handlers : List Handler}
    {cleanup : Option BlockId} (hg : setting.graph.Guards b body handlers cleanup next)
    {h : Handler} (hh : h ∈ handlers) (lt : h.target < hi) {r : Region} {parts : List Region} :
    I.Meets (I.done n i r (⟨b, .handler h.cls, h.target, hi⟩ :: parts))
      (Gen.handler setting visit h hi)
      fun _ => I.done n i ⟨b, .handler h.cls, h.target, hi⟩ parts := by
  intro calls s hs
  refine .run rfl (.step (hI.catches hg hh hs) fun _ s₁ _ hs₁ => ?_)
  have hopens : I.Opens n .handler h.target hi
      (I.owed n i ⟨b, .handler h.cls, h.target, hi⟩ parts)
      (I.done n i ⟨b, .handler h.cls, h.target, hi⟩ parts) := hI.opens lt
  exact hI.scope_meets hv hopens calls s₁ hs₁

/-- The handlers of a region in order, with the parts `rest` still to come. -/
theorem handlers_meets {b body next : BlockId} {all : List Handler} {cleanup : Option BlockId}
    (hg : setting.graph.Guards b body all cleanup next) (handlers : List Handler)
    (sub : handlers ⊆ all) (rest : List (Part × BlockId))
    (lt : ∀ r ∈ Region.split b next (handlers.map (fun h => (.handler h.cls, h.target)) ++ rest),
      r.lo < r.hi) :
    I.Meets
      (fun calls s => ∃ r, I.done n i r (Region.split b next
        (handlers.map (fun h => (.handler h.cls, h.target)) ++ rest)) calls s)
      ((handlers.zip (handlers.map Handler.target ++ (rest.map Prod.snd ++ [next])).tail).forM
        fun (h, hi) => Gen.handler setting visit h hi)
      fun _ calls s => ∃ r, I.done n i r (Region.split b next rest) calls s := by
  induction handlers with
  | nil => exact fun _ _ hs => hs
  | cons x xs ih =>
    -- The range of a handler ends where the next part starts, or where the region does.
    have ends : xs.map Handler.target ++ (rest.map Prod.snd ++ [next]) =
        ((xs.map (fun h => (Part.handler h.cls, h.target)) ++ rest).map Prod.snd).headD next ::
          (xs.map Handler.target ++ (rest.map Prod.snd ++ [next])).tail := by
      cases xs with
      | nil => cases rest <;> rfl
      | cons => rfl
    obtain ⟨hx, hxs⟩ := List.cons_subset.mp sub
    obtain ⟨hlt, hlts⟩ := List.forall_mem_cons.mp lt
    simp only [List.map_cons, List.cons_append, List.tail_cons]
    rw [ends, List.zip_cons_cons]
    rintro calls s ⟨r, hs⟩
    refine (hI.handler_meets hv hg hx hlt calls s hs).bind fun _ calls s₁ _ hs₁ => ?_
    exact ih hxs hlts calls s₁ ⟨_, hs₁⟩

/-- A protected region, part by part. -/
theorem protect_meets {b body next : BlockId} {handlers : List Handler}
    {cleanup : Option BlockId} {block : Block} (hb : setting.graph.block? b = some block)
    (he : block.edge = some (.protect body handlers cleanup next)) :
    I.Meets (I.inBlock n i b) (Gen.protect setting visit body handlers cleanup next)
      fun _ => I.rest n i := by
  intro calls s hs
  unfold Gen.protect
  by_cases hu : (handlers.isEmpty && cleanup.isNone) = true
  · rw [if_pos hu]
    exact .fail (hI.fails trivial (hI.leave hs))
  rw [if_neg hu]
  by_cases ha : (!isAscending
      (body :: (handlers.map Handler.target ++ cleanup.toList ++ [next]))) = true
  · rw [if_pos ha]
    exact .fail (hI.fails trivial (hI.leave hs))
  rw [if_neg ha]
  -- Both checks have passed, so the regions of the block are its parts, none of them empty.
  have hg : setting.graph.Guards b body handlers cleanup next :=
    ⟨⟨block, hb, he⟩, Bool.eq_false_iff.mpr hu, by simpa using ha⟩
  have regions : setting.graph.regionsOf b =
      Region.split b next ((.body, body) :: guardParts handlers cleanup) :=
    Graph.regionsOf_eq hb he
  have lt : ∀ r ∈ Region.split b next ((.body, body) :: guardParts handlers cleanup), r.lo < r.hi :=
    fun r hr => Region.lt_of_mem_split (by simpa [map_snd_guardParts] using hg.ascending) hr
  obtain ⟨hlt, hlts⟩ := List.forall_mem_cons.mp lt
  have cleanupStarts : (cleanup.toList.map fun first => (Part.cleanup, first)).map Prod.snd =
      cleanup.toList := by
    simp [Function.comp_def]
  have ends : (handlers.map Handler.target ++ cleanup.toList ++ [next]).headD next =
      ((guardParts handlers cleanup).map Prod.snd).headD next := by
    rw [map_snd_guardParts]
    cases handlers.map Handler.target ++ cleanup.toList <;> rfl
  have hnext := hI.next_may hg hs
  rw [ends]
  refine .run rfl ?_
  refine (hI.scope_meets hv (hI.opens hlt) calls _ (hI.beginTry hg regions hs)).bind
    fun _ calls s₁ _ hs₁ => ?_
  have loop := hI.handlers_meets (i := i) hv hg handlers (List.Subset.refl _)
    (cleanup.toList.map fun first => (.cleanup, first)) hlts
  rw [cleanupStarts, ← List.append_assoc] at loop
  refine (loop calls s₁ ⟨_, hs₁⟩).bind fun _ calls s₂ _ hs₂ => ?_
  obtain ⟨r, hs₂⟩ := hs₂
  -- With or without a cleanup, the region ends here and generation goes on behind it.
  have last (r : Region) : I.Meets (I.done n i r [])
      (do liftM (put .endTry); visit true next) fun _ => I.rest n i := fun calls s hs =>
    .run rfl (hv.meets hnext calls _ (hI.endTry hs))
  cases cleanup with
  | none => exact last r calls s₂ hs₂
  | some first =>
    have hm : ⟨b, .cleanup, first, next⟩ ∈
        Region.split b next ((.body, body) :: guardParts handlers (some first)) :=
      List.mem_cons_of_mem _ (Region.mem_split_append List.mem_cons_self)
    refine .run rfl ?_
    have hopens : I.Opens n .cleanup first next (I.owed n i ⟨b, .cleanup, first, next⟩ [])
        (I.done n i ⟨b, .cleanup, first, next⟩ []) := hI.opens (lt _ hm)
    exact (hI.scope_meets hv hopens calls _ (hI.cleans hs₂)).bind fun _ calls s₃ _ hs₃ =>
      last _ calls s₃ hs₃

/-! ### Blocks and routines -/

/-- An edge of any kind. -/
theorem edge_meets {b : BlockId} {block : Block} {e : Edge}
    (hb : setting.graph.block? b = some block) (he : block.edge = some e) :
    I.Meets (I.inBlock n i b) (Gen.edge setting visit b e) fun _ => I.rest n i := by
  intro calls s hs
  cases e with
  | goto target =>
    exact hv.meets (hI.successor hb he rfl (by simp [Edge.successors]) hs) calls s (hI.leave hs)
  | conditional condition ifTrue ifFalse =>
    have hmay {c : BlockId} (hc : c ∈ [ifTrue, ifFalse]) : I.may i c :=
      hI.successor hb he rfl hc hs
    refine .step (hI.conditional hb he hs) fun _ s₁ _ hs₁ => ?_
    refine (hI.branchTo_meets hv rfl (hmay (by simp)) calls s₁ hs₁).bind fun _ calls s₂ _ hs₂ => ?_
    exact hv.meets (hmay (by simp)) calls s₂ hs₂
  | protect body handlers cleanup next => exact hI.protect_meets hv hb he calls s hs
  | «foreach» subject next =>
    have hmay : I.may i next := hI.successor hb he rfl (by simp [Edge.successors]) hs
    exact .step (hI.foreach hb he hs) fun slot s₁ _ hs₁ => .run rfl (hv.meets hmay calls _ hs₁)
  | moveNext source value key body after => exact hI.moveNext_meets hv hb he calls s hs
  | switch value cases default =>
    refine .run (currentScope_run _ s) ?_
    cases hr : TableRange.ofCases? setting.options (s.innermost setting.graph) value cases
        default with
    | some range => exact hI.jumpTable_meets hv hb he hr hs
    | none => exact hI.compareChain_meets hv hb he calls s hs

/-- The statements of a block and its edge. -/
theorem blockBody_meets {b : BlockId} {block : Block} (hb : setting.graph.block? b = some block) :
    I.Meets (I.inBlock n i b) (Gen.blockBody setting visit b block) fun _ => I.rest n i := by
  intro calls s hs
  refine .step (hI.statements hb hs) fun _ s₁ _ hs₁ => ?_
  by_cases ht : block.endsInTerminal = true
  · rw [if_pos ht]
    exact .pure (hI.leave hs₁)
  rw [if_neg ht]
  cases he : block.edge with
  | some e => exact hI.edge_meets hv hb he calls s₁ hs₁
  | none => exact .lift (hI.fallOff hs₁)

/-- A visit, if the visits inside it keep the invariant. -/
theorem visitWith_meets {viaEdge : Bool} {b : BlockId} (hmay : I.may i b) :
    I.Meets (I.rest (n + 1) i) (Gen.visitWith setting visit viaEdge b)
      fun _ => I.rest (n + 1) i := by
  intro calls s hs
  obtain ⟨hn, hs⟩ := hI.note (c := .visit viaEdge b) rfl hmay hs
  refine .note hn ?_
  cases hb : setting.graph.block? b with
  | none => exact .fail (hI.fails ⟨hmay, hb⟩ hs)
  | some block =>
    refine .run (isEmitted_run b s) ?_
    by_cases he : s.emitted.contains b = true
    · rw [if_pos he]
      refine .lift (Gen.MeetsFrom.to_ok (exitBranch_run b _) ?_)
      exact hI.revisit hmay (Graph.lt_size_of_block? hb) (by simpa using he) hs
    rw [if_neg he]
    have new : b ∉ s.emitted := by simpa using he
    by_cases hd : block.dead = true
    · rw [if_pos hd]
      exact .pure hs
    rw [if_neg hd]
    have live := isLive_eq_true hb (by simpa using hd)
    refine .run (currentScope_run _ s) ?_
    by_cases hl : b < (s.innermost setting.graph).lo
    · rw [if_pos hl]
      exact .fail (hI.fails trivial hs)
    rw [if_neg hl]
    by_cases hh : b < (s.innermost setting.graph).hi
    · rw [if_pos hh]
      have within : (s.innermost setting.graph).contains b = true := by
        simp [Scope.contains, hh, Nat.not_lt.mp hl]
      refine .run (enter_run viaEdge b s) ?_
      have hbody := hI.enter List.mem_cons_self hmay live new within hs
      -- One level of nesting is given back after the block.
      exact (hI.blockBody_meets hv hb _ _ hbody).mono fun _ _ _ => hI.grow
    · rw [if_neg hh]
      have out : (s.innermost setting.graph).contains b = false := by
        simp [Scope.contains, Nat.not_lt.mp hh]
      refine .run (exitBranch_run b s) ?_
      exact hI.enqueueOuter_meets hmay live new out
        (hI.exit hmay live new (Nat.not_lt.mp hh) hs)

end Visits

/-- Visits of any depth, by induction on it. -/
theorem visit_carries (depth : Nat) : I.Carries depth (Gen.visit setting depth) := by
  have emits (depth : Nat) :
      Gen.Sound setting (Journaled.eraseVisit (Gen.visit setting depth)) := by
    intro viaEdge b s s' h
    rw [Journaled.eraseVisit, Journaled.erase_visit] at h
    exact visit_emits setting depth viaEdge b s s' h
  induction depth with
  | zero =>
    refine ⟨fun {i viaEdge b} hmay calls s hs => ?_, emits 0⟩
    obtain ⟨hn, hs⟩ := hI.note (c := .visit viaEdge b) rfl hmay hs
    exact .note hn (.fail (hI.nesting hs))
  | succ depth ih => exact ⟨fun hmay => hI.visitWith_meets ih hmay, emits (depth + 1)⟩

/-- The run of a whole routine: the variables are declared, the scope of the routine is opened and
closed, and the shared exit is written. -/
theorem routine_meets {start : State} {ready closed last : Assertion}
    (empty : setting.graph.blocks.isEmpty = true →
      I.failed (.danglingBlock Graph.entry) [] start)
    (declares : I.Leads (setting.graph.vars.forM declarePlace) (fun _ => ready) [] start)
    (opens : Graph.entry < setting.graph.size →
      I.Opens (setting.graph.size + 1) .routine Graph.entry setting.graph.size ready closed)
    (returns : ∀ calls s, closed calls s → I.Leads sharedReturn (fun _ => last) calls s) :
    I.MeetsFrom (Journaled.routine setting) (fun _ => last) [] start := by
  unfold Journaled.routine routineIn
  by_cases he : setting.graph.blocks.isEmpty = true
  · rw [if_pos he]
    exact .fail (empty he)
  rw [if_neg he]
  have hlt : Graph.entry < setting.graph.size := by
    simpa [Graph.size, Graph.entry, List.length_pos_iff] using he
  refine .step declares fun _ s₁ _ hs₁ => ?_
  exact (hI.scope_meets (hI.visit_carries _) (opens hlt) [] s₁ hs₁).bind
    fun _ calls s₂ _ hs₂ => .lift (returns calls s₂ hs₂)

end Kept

/-! ## Straight-line code -/

section Straight

open Gen

/-- A part of a block that writes straight-line code and knows no bound. -/
theorem Leads.of_straight {m : Gen α} {P : Assertion} (hd : Does Straight m) (hf : Finishes m)
    (straight : ∀ s', Straight s s' → P calls s')
    (fails : ∀ e s', P calls s' → e.isNesting = false → I.failed e calls s') :
    I.Leads m (fun _ => P) calls s := by
  cases hr : m s with
  | ok a s' => exact Gen.MeetsFrom.to_ok hr (straight s' (hd.of_ok hr))
  | error e s' =>
    refine Gen.MeetsFrom.to_error hr (fails e s' (straight s' ((hd s).of_error hr)) ?_)
    exact (hf s trivial).of_error hr

/-- What is said between blocks is kept by straight-line code, and what is said inside a block by
statements. `inner` says what is kept in mind of the blocks that a table leads to. -/
structure KeepsStraight (I : Invariant setting) (inner : I.Index → BlockId → Prop) : Prop where
  straight {n : Nat} {i : I.Index} {calls : List Call} {s s' : State} :
    Straight s s' → I.rest n i calls s → I.rest n i calls s'
  quiets {n : Nat} {i : I.Index} {b : BlockId} {calls : List Call} {s s' : State} :
    Quiets setting.graph s s' → I.inBlock n i b calls s → I.inBlock n i b calls s'
  cond {n : Nat} {i : I.Index} {calls : List Call} {s : State} :
    I.rest n i calls s → I.cond n i calls s
  leave {n : Nat} {i : I.Index} {b : BlockId} {calls : List Call} {s : State} :
    I.inBlock n i b calls s → I.rest n i calls s
  fails {n : Nat} {i : I.Index} {e : Fault} {calls : List Call} {s : State} :
    e.isNesting = false → I.rest n i calls s → I.failed e calls s
  successor {n : Nat} {i : I.Index} {b c : BlockId} {block : Block} {e : Edge} {calls : List Call}
      {s : State} : setting.graph.block? b = some block → block.edge = some e →
    e.regions b = [] → c ∈ e.successors → I.inBlock n i b calls s → I.may i c
  remember {n : Nat} {i : I.Index} {b : BlockId} {slot : LocalId} {calls : List Call} {s : State} :
    I.rest n i calls s → I.rest n i calls { s with enumerators := (b, slot) :: s.enumerators }
  chosen {n : Nat} {i : I.Index} {b c : BlockId} {calls : List Call} {s : State} :
    (s.innermost setting.graph).contains c = true → I.inBlock n i b calls s → inner i c
  tabled {n : Nat} {i : I.Index} {targets : List BlockId} {calls : List Call} {s : State} :
    (∀ b ∈ targets, inner i b) → I.rest n i calls s → I.rest n i calls (s.tabled targets)

namespace KeepsStraight

variable {inner : I.Index → BlockId → Prop} (h : I.KeepsStraight inner) {n : Nat} {i : I.Index}
  {b : BlockId}
include h

/-- A part of an edge. -/
theorem part {m : Gen α} (hd : Does Straight m) (hf : Finishes m) (hs : I.rest n i calls s) :
    I.Leads m (fun _ => I.rest n i) calls s :=
  .of_straight hd hf (fun _ hr => h.straight hr hs) fun _ _ hs he => h.fails he hs

theorem quiet {m : Gen Unit} (hd : Does (Quiets setting.graph) m) (hf : Finishes m)
    (hs : I.inBlock n i b calls s) : I.Leads m (fun _ => I.inBlock n i b) calls s := by
  cases hr : m s with
  | ok a s' => exact Gen.MeetsFrom.to_ok hr (h.quiets (hd.of_ok hr) hs)
  | error e s' =>
    have hs' := h.leave (h.quiets ((hd s).of_error hr) hs)
    exact Gen.MeetsFrom.to_error hr (h.fails ((hf s trivial).of_error hr) hs')

theorem moveNext {source body after : BlockId} {value : VarId} {key : Option VarId}
    {block : Block} (hb : setting.graph.block? b = some block)
    (he : block.edge = some (.moveNext source value key body after))
    (hs : I.inBlock n i b calls s) :
    I.Leads (enumerator source) (fun slot =>
      I.Leads (advance slot) fun _ calls s₁ => ∃ j, I.may j after ∧ I.cond n j calls s₁ ∧
        ∀ calls s₂, I.rest n j calls s₂ →
          I.Leads (storeItem slot value key) (fun _ => I.rest n i) calls s₂) calls s := by
  have hafter : I.may i after := h.successor hb he rfl (by simp [Edge.successors]) hs
  have store (slot : LocalId) (calls : List Call) (s : State) (hs : I.rest n i calls s) :
      I.Leads (storeItem slot value key) (fun _ => I.rest n i) calls s :=
    h.part (storeItem_straight _ _ _)
      (Finishes.parts.storeItem slot trivial fun _ _ => trivial) hs
  cases hr : enumerator source s with
  | error e s' =>
    have hf : Finishes (enumerator source) := enumerator_finishes source
    obtain rfl := enumerator_error hr
    exact Gen.MeetsFrom.to_error hr (h.fails ((hf s' trivial).of_error hr) (h.leave hs))
  | ok slot s' =>
    obtain ⟨-, rfl⟩ := enumerator_ok hr
    refine Gen.MeetsFrom.to_ok hr ((h.part (advance_straight slot)
      (Finishes.parts.advance slot) (h.leave hs)).mono fun _ s₁ hs₁ => ?_)
    exact ⟨i, hafter, h.cond hs₁, store slot⟩

theorem chain {default : BlockId} {value : Expr} {cases : List Case} {block : Block}
    (hb : setting.graph.block? b = some block)
    (he : block.edge = some (.switch value cases default)) (hs : I.inBlock n i b calls s) :
    I.Leads (select value) (fun scratch calls s₁ => ∃ j, I.rest n j calls s₁ ∧
      (∀ c ∈ cases, I.may j c.target ∧ ∀ calls s₂, I.rest n j calls s₂ →
        I.Leads (compare scratch (value.hint = .only .int64) c) (fun _ => I.cond n j) calls s₂) ∧
      ∀ calls s₂, I.rest n j calls s₂ → I.rest n i calls s₂) calls s := by
  refine (h.part (select_straight value) (Finishes.parts.select fun _ _ => trivial)
    (h.leave hs)).mono fun scratch s₁ hs₁ => ⟨i, hs₁, fun c hc => ⟨?_, fun calls s₂ hs₂ => ?_⟩,
      fun _ _ hs₂ => hs₂⟩
  · exact h.successor hb he rfl (List.mem_append_left _ (List.mem_map_of_mem hc)) hs
  · exact (h.part (compare_straight _ _ c) (Finishes.parts.compare _ _ c) hs₂).mono
      fun _ _ => h.cond

theorem table {default : BlockId} {value : Expr} {cases : List Case} {range : TableRange}
    {block : Block} (hb : setting.graph.block? b = some block)
    (he : block.edge = some (.switch value cases default))
    (hr : TableRange.ofCases? setting.options (s.innermost setting.graph) value cases default =
      some range) (hs : I.inBlock n i b calls s) :
    I.Leads (tableIndex value range) (fun index calls s₁ => ∃ j, I.may j default ∧
      I.cond n j calls s₁ ∧ ∀ calls s₂, I.rest n j calls s₂ →
        I.Leads (loadIndex index) (fun _ =>
          I.Leads (jump (range.targets setting.graph cases default)) fun _ => I.rest n i)
          calls s₂) calls s := by
  obtain ⟨-, -, hin, hd⟩ := TableRange.ofCases?_eq_some hr
  have targets : ∀ b ∈ range.targets setting.graph cases default, inner i b := by
    intro b hb
    obtain ⟨c, hm, rfl⟩ | rfl := TableRange.mem_of_mem_targets hb
    · exact h.chosen (hin c hm) hs
    · exact h.chosen hd hs
  refine (h.part (tableIndex_straight value range)
    (Finishes.parts.tableIndex (fun _ _ => trivial) range) (h.leave hs)).mono fun index s₁ hs₁ =>
      ⟨i, h.successor hb he rfl (by simp [Edge.successors]) hs, h.cond hs₁, fun calls s₂ hs₂ => ?_⟩
  refine (h.part (loadIndex_straight index) (Finishes.parts.loadIndex index) hs₂).mono
    fun _ s₃ hs₃ => ?_
  exact h.tabled targets hs₃

/-- The edges, from what straight-line code does. -/
theorem blocks : I.KeepsBlocks where
  statements _ hs := h.quiet (statements_quiets _) (.forM _ stmt_finishes) hs
  leave := h.leave
  fallOff hs := (h.quiet fallOff_quiets (fallOff_finishes _) hs).mono fun _ _ => h.leave
  successor := h.successor
  conditional _ _ hs :=
    (h.part (expr_straight _ _) (expr_finishes _ _) (h.leave hs)).mono fun _ _ => h.cond
  «foreach» _ _ hs := (h.part (acquire_straight _)
    (Finishes.parts.acquire fun _ _ => trivial) (h.leave hs)).mono fun _ _ => h.remember
  moveNext := h.moveNext
  chain := h.chain
  table := h.table

end KeepsStraight

end Straight

/-- Blocks that wait, where nothing is said of how many there are. -/
theorem KeepsLoops.of_take (hl : I.loop = fun n i _ => I.rest n i)
    (stuck : ∀ {n : Nat} {i : I.Index} {calls : List Call} {s : State},
      I.rest n i calls s → I.failed .nesting calls s)
    (take : ∀ {n : Nat} {i : I.Index} {b : BlockId} {calls : List Call} {s s₁ : State},
      Gen.nextPending s = .ok (some b) s₁ → I.rest n i calls s →
        I.may i b ∧ I.rest n i calls s₁) : I.KeepsLoops where
  start hs := by
    rw [hl]
    exact hs
  stuck hs := by
    rw [hl] at hs
    exact stuck hs
  drained hs := by
    rw [hl] at hs
    exact hs
  skip hn _ hs := by
    rw [hl] at hs ⊢
    exact (take hn hs).2
  next hn _ hs := by
    rw [hl] at hs ⊢
    exact ⟨(take hn hs).1, (take hn hs).2, fun _ _ _ hs₂ => hs₂⟩

end Invariant
end Linearizer
