import Linearizer.Proofs.Generator.Change
import Linearizer.Proofs.Independence.Alike

/-!
# Generation does not depend on the registry

The functions of generation ask the registry for nothing but the number that a call is written
with. So each of them is oblivious: what it decides, counts, declares and fails on is the same in
two runs whose registries differ.

* the `*_oblivious` lemmas follow the functions of generation, from expressions to routines. They
  compare two runs step by step, so that they are no instance of an invariant of one run
  (`Invariant`);
* `Gen.routine_oblivious` is the result for the generation of a routine.
-/

namespace Linearizer
namespace Gen

variable {start : Service} {g : Graph}

/-! ## Values -/

theorem expr_oblivious (e : Expr) (target : Encoding) : Oblivious start (expr e target) :=
  Oblivious.parts.expr (fun _ _ => trivial) target

/-! ## Statements and returns -/

theorem branch_oblivious (o : BranchOp) (l : Label) : Oblivious start (branch o l) :=
  (count_oblivious _).bind fun _ => put_oblivious rfl

theorem freshLabel_oblivious : Oblivious start freshLabel := by
  refine Oblivious.get_bind fun s s' h => ?_
  rw [h.nextLabel]
  exact .ok _ (h.change (f := fun s => { s with nextLabel := s'.nextLabel + 1 }) fun _ _ _ _ => rfl)

/-- A return looks at the scopes and at the local variable that returns share, which are the same in
both runs. -/
theorem returnTop_oblivious : Oblivious start returnTop := by
  have leave (shared : LocalId × Label) : Oblivious start (do
      put (.stloc shared.1)
      branch .leave shared.2) :=
    (put_oblivious rfl).bind fun _ => branch_oblivious .leave shared.2
  refine Oblivious.get_bind fun s s' h => ?_
  rw [h.scopes, h.returnSlot]
  by_cases hc : s'.scopes.any (·.kind = .cleanup) = true
  · simp only [if_pos hc]
    exact .error _ h
  simp only [if_neg hc]
  by_cases hp : (!s'.scopes.any (·.kind.isProtected)) = true
  · simp only [if_pos hp]
    exact op_oblivious .ret s s' h
  simp only [if_neg hp]
  cases s'.returnSlot with
  | some shared => exact leave shared s s' h
  | none =>
    refine (declare_oblivious .value s s' h).bind fun slot => ?_
    refine freshLabel_oblivious.bind fun label => ?_
    exact (Oblivious.modify fun _ _ _ _ => rfl).bind fun _ => leave (slot, label)

theorem currentScope_oblivious : Oblivious start (currentScope g) := by
  intro s s' h
  rw [currentScope_run, currentScope_run, State.innermost, h.scopes]
  exact .ok _ h

theorem fallOff_oblivious : Oblivious start (fallOff g) := by
  refine currentScope_oblivious.bind fun scope => ?_
  split
  · exact op_oblivious .endfinally
  · exact (Oblivious.parts.call rfl).bind fun _ => returnTop_oblivious

theorem oblivious_acts : Acts (fun _ => True) fun _ m => Oblivious start m where
  toParts := Oblivious.parts
  span _ := Oblivious.modify fun _ _ _ _ => rfl
  throw := op_oblivious .throw
  returnTop := returnTop_oblivious

/-! ## Blocks that wait -/

theorem isEmitted_oblivious (b : BlockId) : Oblivious start (isEmitted b) := by
  intro s s' h
  rw [isEmitted_run, isEmitted_run, h.emitted]
  exact .ok _ h

theorem unqueue_oblivious (b : BlockId) : Oblivious start (unqueue b) := by
  refine Oblivious.modify fun s _ _ _ => ?_
  dsimp only
  split <;> rfl

/-- Entering a block. -/
theorem enter_oblivious (viaEdge : Bool) (b : BlockId) : Oblivious start (enter viaEdge b) := by
  refine (unqueue_oblivious b).bind fun _ => ?_
  refine Oblivious.bind (Oblivious.modify fun _ _ _ _ => rfl) fun _ => ?_
  have label : Oblivious start (do
      put (.label (.block b))
      count fun c => { c with blocksEmitted := c.blocksEmitted + 1 }) :=
    (put_oblivious rfl).bind fun _ => count_oblivious _
  cases viaEdge with
  | true => exact (count_oblivious _).bind fun _ => label
  | false => exact label

/-- How a block is reached from inside the scopes is the same in both runs. -/
theorem exitBranch_oblivious (b : BlockId) : Oblivious start (exitBranch b) := by
  refine Oblivious.get_bind fun s s' h => ?_
  rw [h.scopes]
  cases exitTo s'.scopes b with
  | branch o => exact branch_oblivious o (.block b) s s' h
  | endfinally => exact op_oblivious .endfinally s s' h

/-- A block waits in both runs or in neither. -/
theorem defer_oblivious (b : BlockId) : Oblivious start (defer b) := by
  refine Oblivious.get_bind fun s s' h => ?_
  rw [h.queued, h.scopes]
  by_cases hq : s'.queued.contains b = true
  · simp only [if_pos hq]
    exact .ok () h
  simp only [if_neg hq]
  cases enqueueIn b s'.scopes.tail with
  | some outer =>
    refine .ok () (h.change (f := fun s => { s with
      scopes := s'.scopes.take 1 ++ outer
      queued := b :: s'.queued
      counters := { s.counters with deferred := s.counters.deferred + 1 } }) fun _ _ _ _ => rfl)
  | none => cases s'.scopes.getLast? <;> exact .error _ h

/-- A block is scheduled alike. -/
theorem schedule_oblivious (b : BlockId) : Oblivious start (schedule g b) := by
  unfold schedule
  simp only [note_bind, monadLift_self]
  split
  · exact Oblivious.throw _
  · refine (isEmitted_oblivious b).bind fun emitted => ?_
    split
    · exact Oblivious.pure ()
    · refine currentScope_oblivious.bind fun scope => ?_
      split
      · refine (unqueue_oblivious b).bind fun _ => ?_
        exact Oblivious.modify fun _ _ _ _ => rfl
      · exact defer_oblivious b

theorem enumerator_oblivious (source : BlockId) : Oblivious start (enumerator source) := by
  refine Oblivious.get_bind fun s s' h => ?_
  rw [h.enumerators]
  cases s'.enumerators.lookup source with
  | some slot => exact .ok slot h
  | none => exact .error _ h

/-- The same block is taken. -/
theorem nextPending_oblivious : Oblivious start nextPending := by
  intro s s' h
  cases hs : s'.scopes with
  | nil =>
    rw [nextPending_run_nil hs, nextPending_run_nil (h.scopes.trans hs)]
    exact .ok none h
  | cons scope outer =>
    cases hp : scope.pending with
    | nil =>
      rw [nextPending_run_empty hs hp, nextPending_run_empty (h.scopes.trans hs) hp]
      exact .ok none h
    | cons b rest =>
      rw [nextPending_run_cons hs hp, nextPending_run_cons (h.scopes.trans hs) hp]
      exact .ok (some b) (h.change (f := fun s => { s with
        scopes := { scope with pending := rest } :: outer
        queued := s.queued.filter (· != b) }) fun _ _ _ _ => rfl)

section Visits

variable {setting : Setting} {visit : Visit}
  (hv : ∀ viaEdge b, Oblivious start (visit viaEdge b))
include hv

/-! ## Scopes and edges -/

/-- So are all the blocks of a scope, if visits are oblivious. -/
theorem drain_oblivious (n : Nat) : Oblivious start (drain visit n) := by
  induction n with
  | zero => exact Oblivious.throw _
  | succ n ih =>
    refine nextPending_oblivious.bind fun next => ?_
    cases next with
    | none => exact Oblivious.pure ()
    | some b =>
      refine (isEmitted_oblivious b).bind fun emitted => ?_
      dsimp only
      split
      · exact (hv false b).bind fun _ => ih
      · exact ih

/-- A scope is closed with the same number of entries on the stack. -/
theorem scope_oblivious (kind : ScopeKind) (first hi : BlockId) :
    Oblivious start (scope setting visit kind first hi) := by
  have close : Oblivious start (closeScope kind) := by
    intro s s' h
    have hclosed : ({ s with scopes := s.scopes.tail } : State).Alike start
        { s' with scopes := s'.scopes.tail } :=
      h.change (f := fun s => { s with scopes := s.scopes.tail }) fun _ _ _ _ => rfl
    rw [closeScope_run, closeScope_run, h.depth]
    split
    · exact .error _ hclosed
    · exact .ok () hclosed
  have body : Oblivious start (scopeBody setting visit first) :=
    (hv false first).bind fun _ => drain_oblivious hv _
  intro s s' h
  rw [scope_run, scope_run]
  refine (body.bind fun _ => close) _ _ (h.change (f := (·.opened kind first hi)) ?_)
  intro s tape registry peers
  unfold State.opened State.unqueue
  dsimp only
  split <;> rfl

/-- A conditional branch stays in the scope in both runs or in neither. -/
theorem branchTo_oblivious (o : BranchOp) (target : BlockId) :
    Oblivious start (branchTo setting visit o target) := by
  unfold branchTo
  simp only [note_bind, monadLift_self]
  split
  · exact Oblivious.throw _
  split
  · exact op_oblivious .pop
  refine currentScope_oblivious.bind fun scope => (isEmitted_oblivious _).bind fun emitted => ?_
  by_cases hl : (!emitted && decide (target < scope.lo)) = true
  · rw [if_pos hl]
    exact Oblivious.throw _
  rw [if_neg hl]
  by_cases hc : scope.contains target = true
  · rw [if_pos hc]
    exact (branch_oblivious _ _).bind fun _ => schedule_oblivious target
  · rw [if_neg hc]
    refine freshLabel_oblivious.bind fun skip => (branch_oblivious _ _).bind fun _ => ?_
    exact (hv true target).bind fun _ => put_oblivious rfl

theorem handler_oblivious (h : Handler) (hi : BlockId) :
    Oblivious start (handler setting visit h hi) := by
  refine (put_oblivious rfl).bind fun _ => Oblivious.bind ?_ fun _ => scope_oblivious hv _ _ _
  exact Oblivious.parts.receive fun _ _ => trivial

/-- A protected region, part by part. -/
theorem protect_oblivious (body : BlockId) (handlers : List Handler) (cleanup : Option BlockId)
    (next : BlockId) : Oblivious start (protect setting visit body handlers cleanup next) := by
  have last : Oblivious start (do put .endTry; visit true next) :=
    (put_oblivious rfl).bind fun _ => hv true next
  unfold protect
  by_cases hg : (handlers.isEmpty && cleanup.isNone) = true
  · rw [if_pos hg]
    exact Oblivious.throw _
  rw [if_neg hg]
  by_cases ha : (!isAscending
      (body :: (handlers.map Handler.target ++ cleanup.toList ++ [next]))) = true
  · rw [if_pos ha]
    exact Oblivious.throw _
  rw [if_neg ha]
  refine (put_oblivious rfl).bind fun _ => (scope_oblivious hv _ _ _).bind fun _ => ?_
  refine (Oblivious.forM _ fun x _ => handler_oblivious hv x.1 x.2).bind fun _ => ?_
  cases cleanup with
  | none => exact last
  | some first =>
    exact (put_oblivious rfl).bind fun _ => (scope_oblivious hv _ _ _).bind fun _ => last

theorem moveNext_oblivious (source : BlockId) (value : VarId) (key : Option VarId)
    (body after : BlockId) :
    Oblivious start (moveNext setting visit source value key body after) := by
  have advance_oblivious (slot : LocalId) : Oblivious start (advance slot) :=
    Oblivious.parts.advance slot
  have hstore (slot : LocalId) : Oblivious start (storeItem slot value key) :=
    Oblivious.parts.storeItem slot trivial fun _ _ => trivial
  refine (enumerator_oblivious source).bind fun slot => (advance_oblivious slot).bind fun _ => ?_
  exact (branchTo_oblivious hv _ after).bind fun _ => (hstore slot).bind fun _ => hv true body

theorem compareChain_oblivious (value : Expr) (cases : List Case) (default : BlockId) :
    Oblivious start (compareChain setting visit value cases default) := by
  refine Oblivious.bind (Oblivious.parts.select fun _ _ => trivial) fun scratch => ?_
  refine (Oblivious.forM _ fun c _ => ?_).bind fun _ => hv true default
  refine Oblivious.bind (Oblivious.parts.compare _ _ c) fun _ => ?_
  exact branchTo_oblivious hv _ c.target

theorem jumpTable_oblivious (value : Expr) (cases : List Case) (default : BlockId)
    (range : TableRange) :
    Oblivious start (jumpTable setting visit value cases default range) := by
  have jump_oblivious (targets : List BlockId) : Oblivious start (jump targets) :=
    (count_oblivious _).bind fun _ => put_oblivious rfl
  refine Oblivious.bind (Oblivious.parts.tableIndex (fun _ _ => trivial) range) fun index => ?_
  refine (branchTo_oblivious hv _ default).bind fun _ => ?_
  refine Oblivious.bind (Oblivious.parts.loadIndex index) fun _ => ?_
  refine (jump_oblivious _).bind fun _ => ?_
  exact (Oblivious.forM _ fun b _ => schedule_oblivious b).bind fun _ => hv true default

/-- An edge of any kind. -/
theorem edge_oblivious (id : BlockId) (e : Edge) : Oblivious start (edge setting visit id e) := by
  cases e with
  | goto target => exact hv true target
  | conditional condition ifTrue ifFalse =>
    refine (expr_oblivious condition _).bind fun _ => ?_
    exact (branchTo_oblivious hv _ ifFalse).bind fun _ => hv true ifTrue
  | protect body handlers cleanup next => exact protect_oblivious hv body handlers cleanup next
  | foreach subject next =>
    refine Oblivious.bind (Oblivious.parts.acquire fun _ _ => trivial) fun slot => ?_
    exact (Oblivious.modify fun _ _ _ _ => rfl).bind fun _ => hv true next
  | moveNext source value key body after => exact moveNext_oblivious hv source value key body after
  | switch value cases default =>
    refine currentScope_oblivious.bind fun scope => ?_
    split
    · exact jumpTable_oblivious hv value cases default _
    · exact compareChain_oblivious hv value cases default

/-! ## Blocks and routines -/

/-- The rest of a block. -/
theorem blockBody_oblivious (b : BlockId) (x : Block) :
    Oblivious start (blockBody setting visit b x) := by
  refine (oblivious_acts.statements fun _ _ _ _ => trivial).bind fun _ => ?_
  split
  · exact Oblivious.pure ()
  · split
    · exact edge_oblivious hv b _
    · exact fallOff_oblivious

/-- A visit, if the visits inside it are oblivious. -/
theorem visitWith_oblivious (viaEdge : Bool) (b : BlockId) :
    Oblivious start (visitWith setting visit viaEdge b) := by
  unfold visitWith
  simp only [note_bind, monadLift_self]
  split
  · exact Oblivious.throw _
  rename_i x _
  refine (isEmitted_oblivious b).bind fun emitted => ?_
  split
  · exact (count_oblivious _).bind fun _ => exitBranch_oblivious b
  split
  · exact Oblivious.pure ()
  refine currentScope_oblivious.bind fun scope => ?_
  by_cases hl : b < scope.lo
  · rw [if_pos hl]
    exact Oblivious.throw _
  rw [if_neg hl]
  by_cases hh : b < scope.hi
  · rw [if_pos hh]
    exact (enter_oblivious viaEdge b).bind fun _ => blockBody_oblivious hv b x
  · rw [if_neg hh]
    exact (exitBranch_oblivious b).bind fun _ => defer_oblivious b

end Visits

/-- Visits of any depth, by induction on it. -/
theorem visit_oblivious (setting : Setting) (depth : Nat) (viaEdge : Bool) (b : BlockId) :
    Oblivious start (visit setting depth viaEdge b) := by
  induction depth generalizing viaEdge b with
  | zero => exact Oblivious.throw _
  | succ depth ih => exact visitWith_oblivious ih viaEdge b

theorem declarePlace_oblivious (v : Variable) : Oblivious start (declarePlace v) := by
  have place {m : Gen Storage} (h : Oblivious start m) : Oblivious start (do
      let storage ← m
      modify fun s => { s with places := s.places ++ [⟨storage, v.encoding, v.hint⟩] }) :=
    h.bind fun _ => Oblivious.modify fun _ _ _ _ => rfl
  unfold declarePlace
  split
  · exact place ((declare_oblivious _).bind fun _ => Oblivious.pure _)
  · exact place (Oblivious.pure _)
  · exact place (Oblivious.pure _)

theorem sharedReturn_oblivious : Oblivious start sharedReturn := by
  refine Oblivious.get_bind fun s s' h => ?_
  rw [h.returnSlot]
  cases s'.returnSlot with
  | none => exact .ok () h
  | some shared =>
    refine Oblivious.bind (put_oblivious rfl) (fun _ => ?_) s s' h
    exact (put_oblivious rfl).bind fun _ => op_oblivious .ret

/-- The generation of a whole routine. -/
theorem routine_oblivious (setting : Setting) : Oblivious start (routine setting) := by
  unfold routine routineIn
  dsimp only
  split
  · exact Oblivious.throw _
  · refine (Oblivious.forM _ fun v _ => declarePlace_oblivious v).bind fun _ => ?_
    refine (scope_oblivious (visit_oblivious setting _) _ _ _).bind fun _ => ?_
    exact sharedReturn_oblivious

end Gen
end Linearizer
