import Linearizer.Proofs.Generator.Change

/-!
# Generation with a journal

To say what holds whenever a function is called, generation is run in a monad that keeps a journal,
in which each call is noted with the state in which it is made.

* `Moment` is what is noted, and `Journaled` are the computations with a journal, which is kept when
  they fail;
* `Journaled.routine` generates a whole routine, by the functions of `Gen`;
* `Journaled.erase` takes the journal away again, and the `erase_*` lemmas say that the functions of
  `Gen` do the same with a journal and without.
-/

namespace Linearizer

/-- A call and the state in which it is made. -/
structure Moment where
  /-- What is called. -/
  call : Call
  /-- The state right before. -/
  state : State

/-- A computation that writes code and notes calls, the first one first. -/
def Journaled (α : Type) : Type := State → List Moment × EStateM.Result Fault State α

namespace Journaled

/-- One computation after the other, unless the first one fails. -/
protected def bind {α β : Type} (m : Journaled α) (f : α → Journaled β) : Journaled β := fun s =>
  match m s with
  | (noted, .ok a s₁) => (noted ++ (f a s₁).1, (f a s₁).2)
  | (noted, .error e s₁) => (noted, .error e s₁)

instance : Monad Journaled where
  pure a := fun s => ([], .ok a s)
  bind := Journaled.bind

instance : MonadLift Gen Journaled where
  monadLift m := fun s => ([], m s)

instance : Watcher Journaled where
  note c := fun s => ([⟨c, s⟩], .ok () s)

/-- Writes a whole routine. -/
abbrev routine (setting : Setting) : Journaled Unit := Gen.routineIn Journaled setting

/-! ## Without the journal -/

section Erase

variable {α β : Type}

/-- The computation without its journal. -/
def erase (x : Journaled α) : Gen α := fun s => (x s).2

theorem erase_lift (m : Gen α) : erase (liftM m) = m := rfl

/-- A journal is kept beside the run, so leaving it out commutes with sequencing. -/
theorem erase_bind (x : Journaled α) (f : α → Journaled β) :
    erase (x >>= f) = erase x >>= fun a => erase (f a) := by
  funext s
  change (Journaled.bind x f s).2 = EStateM.bind (erase x) (fun a => erase (f a)) s
  unfold Journaled.bind EStateM.bind erase
  cases x s with
  | mk noted r => cases r <;> rfl

theorem erase_note (c : Call) : erase (note c) = note c := rfl

/-- The same for a loop. -/
theorem erase_forM {γ : Type} (l : List γ) (f : γ → Journaled Unit) :
    erase (l.forM f) = l.forM fun x => erase (f x) := by
  induction l with
  | nil => rfl
  | cons x l ih =>
    exact (erase_bind (f x) fun _ => l.forM f).trans (congrArg _ (funext fun _ => ih))

end Erase

/-- The visits without the journal. -/
abbrev eraseVisit (visit : Gen.Visit Journaled) : Gen.Visit := fun viaEdge b =>
  erase (visit viaEdge b)

section Functions

open Gen

variable {setting : Setting} {visit : Gen.Visit Journaled}

/-- Scheduling a block is the same with a journal and without. -/
theorem erase_schedule (g : Graph) (b : BlockId) : erase (schedule g b) = schedule g b := by
  unfold schedule
  cases g.block? b with
  | none => rfl
  | some block =>
    simp only [erase_bind, erase_lift, erase_note, monadLift_self, apply_ite erase]
    rfl

/-- So is writing the blocks that wait, by induction on their number. -/
theorem erase_drain (n : Nat) : erase (drain visit n) = drain (eraseVisit visit) n := by
  induction n with
  | zero => rfl
  | succ n ih =>
    unfold drain
    rw [erase_bind, erase_lift]
    congr 1
    funext next
    cases next with
    | none => rfl
    | some b => simp only [erase_bind, erase_lift, monadLift_self, apply_ite erase, ih]

theorem erase_scopeBody (first : BlockId) :
    erase (scopeBody setting visit first) = scopeBody setting (eraseVisit visit) first := by
  simp only [scopeBody, erase_bind, erase_drain]

/-- So is a scope. -/
theorem erase_scope (kind : ScopeKind) (first hi : BlockId) :
    erase (scope setting visit kind first hi) =
      scope setting (eraseVisit visit) kind first hi := by
  simp only [scope, erase_bind, erase_lift, erase_note, monadLift_self, erase_scopeBody]

/-- So is a conditional branch. -/
theorem erase_branchTo (o : BranchOp) (target : BlockId) :
    erase (branchTo setting visit o target) = branchTo setting (eraseVisit visit) o target := by
  unfold branchTo
  cases setting.graph.block? target with
  | none => rfl
  | some block =>
    simp only [erase_bind, erase_lift, monadLift_self, apply_ite erase, erase_note,
      erase_schedule]

theorem erase_handler (h : Handler) (hi : BlockId) :
    erase (handler setting visit h hi) = handler setting (eraseVisit visit) h hi := by
  simp only [handler, erase_bind, erase_lift, monadLift_self, erase_scope]

/-- So is a protected region. -/
theorem erase_protect (body : BlockId) (handlers : List Handler) (cleanup : Option BlockId)
    (next : BlockId) :
    erase (protect setting visit body handlers cleanup next) =
      protect setting (eraseVisit visit) body handlers cleanup next := by
  cases cleanup <;>
    simp only [protect, erase_bind, erase_lift, monadLift_self, apply_ite erase, erase_forM,
      erase_scope, erase_handler]

theorem erase_moveNext (source : BlockId) (value : VarId) (key : Option VarId)
    (body after : BlockId) :
    erase (moveNext setting visit source value key body after) =
      moveNext setting (eraseVisit visit) source value key body after := by
  simp only [moveNext, erase_bind, erase_lift, monadLift_self, erase_branchTo]

theorem erase_compareCase (scratch : LocalId) (isInt : Bool) (c : Case) :
    erase (compareCase setting visit scratch isInt c) =
      compareCase setting (eraseVisit visit) scratch isInt c := by
  simp only [compareCase, erase_bind, erase_lift, monadLift_self, erase_branchTo]

theorem erase_compareChain (value : Expr) (cases : List Case) (default : BlockId) :
    erase (compareChain setting visit value cases default) =
      compareChain setting (eraseVisit visit) value cases default := by
  simp only [compareChain, erase_bind, erase_lift, monadLift_self, erase_forM, erase_compareCase]

theorem erase_jumpTable (value : Expr) (cases : List Case) (default : BlockId)
    (range : TableRange) :
    erase (jumpTable setting visit value cases default range) =
      jumpTable setting (eraseVisit visit) value cases default range := by
  simp only [jumpTable, erase_bind, erase_lift, monadLift_self, erase_forM, erase_branchTo,
    erase_schedule]

/-- So is an edge of any kind. -/
theorem erase_edge (id : BlockId) (e : Edge) :
    erase (edge setting visit id e) = edge setting (eraseVisit visit) id e := by
  cases e with
  | goto target => rfl
  | conditional condition ifTrue ifFalse =>
    simp only [edge, erase_bind, erase_lift, monadLift_self, erase_branchTo]
  | protect body handlers cleanup next => exact erase_protect body handlers cleanup next
  | «foreach» subject next => simp only [edge, erase_bind, erase_lift, monadLift_self]
  | moveNext source value key body after => exact erase_moveNext source value key body after
  | switch value cases default =>
    unfold edge
    rw [erase_bind, erase_lift]
    congr 1
    funext scope
    cases TableRange.ofCases? setting.options scope value cases default with
    | some range => exact erase_jumpTable value cases default range
    | none => exact erase_compareChain value cases default

/-- So is the rest of a block. -/
theorem erase_blockBody (b : BlockId) (block : Block) :
    erase (blockBody setting visit b block) = blockBody setting (eraseVisit visit) b block := by
  unfold blockBody
  rw [erase_bind, erase_lift]
  congr 1
  funext _
  cases block.edge <;> simp only [apply_ite erase, erase_edge] <;> rfl

/-- So is a visit, if the visits inside it are. -/
theorem erase_visitWith (viaEdge : Bool) (b : BlockId) :
    erase (visitWith setting visit viaEdge b) =
      visitWith setting (eraseVisit visit) viaEdge b := by
  unfold visitWith
  cases setting.graph.block? b with
  | none => rfl
  | some block =>
    simp only [erase_bind, erase_lift, monadLift_self, apply_ite erase, erase_note,
      erase_blockBody]
    rfl

/-- Visits of any depth, by induction on it. -/
theorem erase_visit (depth : Nat) (viaEdge : Bool) (b : BlockId) :
    erase (Gen.visit setting depth viaEdge b) = Gen.visit setting depth viaEdge b := by
  induction depth generalizing viaEdge b with
  | zero => rfl
  | succ depth ih =>
    have h : eraseVisit (Gen.visit setting depth) = Gen.visit setting depth :=
      funext fun viaEdge => funext (ih viaEdge)
    exact (erase_visitWith viaEdge b).trans (by rw [h]; rfl)

theorem eraseVisit_visit (depth : Nat) :
    eraseVisit (Gen.visit setting depth) = Gen.visit setting depth :=
  funext fun viaEdge => funext fun b => erase_visit depth viaEdge b

/-- A journal changes nothing in what is generated. -/
theorem erase_routine (setting : Setting) : erase (routine setting) = Gen.routine setting := by
  simp only [routine, Gen.routine, routineIn, apply_ite erase, erase_bind, erase_lift,
    monadLift_self, erase_scope, eraseVisit_visit]

end Functions

end Journaled
end Linearizer
