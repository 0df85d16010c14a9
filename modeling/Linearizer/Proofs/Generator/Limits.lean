import Linearizer.Proofs.Generator.Contract
import Linearizer.Proofs.Generator.Pieces
import Linearizer.Proofs.Generator.Change

/-!
# Computations without a bound

Only visits and scopes can fail for a bound, on the visits that are inside each other and on the
blocks that wait in a scope. The code of values and statements, and what is written before and
behind all blocks, know none (`Gen.Finishes`).
-/

namespace Linearizer

/-- Whether a bound on visits or on the blocks of a scope was reached. -/
def Fault.isNesting : Fault → Bool
  | .nesting => true
  | _ => false

namespace Gen

variable {α β : Type}

/-- The computation does not fail for a bound (module doc). -/
def Finishes (m : Gen α) : Prop :=
  Meets (fun _ => True) m (fun _ _ => True) fun e _ => e.isNesting = false

theorem Finishes.pure (a : α) : Finishes (pure a : Gen α) := Meets.pure fun _ h => h

theorem Finishes.throw {e : Fault} (h : e.isNesting = false) : Finishes (throw e : Gen α) :=
  Meets.throw fun _ _ => h

theorem Finishes.modify (f : State → State) : Finishes (modify f : Gen Unit) :=
  Meets.modify fun _ h => h

theorem Finishes.bind {m : Gen α} {f : α → Gen β} (hm : Finishes m) (hf : ∀ a, Finishes (f a)) :
    Finishes (m >>= f) := Meets.bind hm hf

theorem Finishes.get_bind {f : State → Gen β} (h : ∀ s, Finishes (f s)) : Finishes (get >>= f) :=
  Meets.get_bind h

theorem Finishes.forM {γ : Type} {f : γ → Gen Unit} (l : List γ) (h : ∀ x, Finishes (f x)) :
    Finishes (l.forM f) := Meets.forM l fun x _ => h x

theorem declare_finishes (e : Encoding) : Finishes (declare e) := fun _ h => h

/-- The code of values knows no bound. -/
theorem Finishes.parts : Parts (fun _ => True) fun _ m => Finishes m where
  pure := .pure
  bind := .bind
  unconvertible _ _ _ := .throw rfl
  place _ := by
    refine .get_bind fun s => ?_
    split
    · exact .pure _
    · exact .throw rfl
  put _ _ := .modify _
  callDirect _ := fun _ h => h
  conversion _ := .modify _
  address _ := (Finishes.modify _).bind fun _ => .modify _
  declare := declare_finishes
  temp e := by
    refine .get_bind fun s => ?_
    split
    · exact .pure _
    · exact (declare_finishes e).bind fun id => (Finishes.modify _).bind fun _ => .pure id
  assume := .modify _

theorem expr_finishes (e : Expr) (target : Encoding) : Finishes (expr e target) :=
  Finishes.parts.expr (fun _ _ => trivial) target

/-- Statements know no bound. -/
theorem finishes_acts : Acts (fun _ => True) fun _ m => Finishes m where
  toParts := Finishes.parts
  span _ := .modify _
  throw := .modify _
  returnTop := Finishes.parts.returnTop .get_bind (.throw rfl) (.modify _) (fun _ h => h)
    (fun _ => .modify _) fun _ => (Finishes.modify _).bind fun _ => .modify _

theorem stmt_finishes (x : Stmt) : Finishes (stmt x) := finishes_acts.stmt fun _ _ => trivial

theorem fallOff_finishes (g : Graph) : Finishes (fallOff g) := fun s hs => by
  refine MeetsFrom.read (currentScope_run g s) ?_
  split
  · exact hs
  · exact ((Finishes.parts.call rfl).bind fun _ => finishes_acts.returnTop) s hs

/-- Neither does a place for a variable. -/
theorem declarePlace_finishes (v : Variable) : Finishes (declarePlace v) := by
  unfold declarePlace
  split
  · exact ((declare_finishes _).bind fun _ => .pure _).bind fun _ => .modify _
  · exact .modify _
  · exact .modify _

theorem sharedReturn_finishes : Finishes sharedReturn := by
  refine .get_bind fun s => ?_
  split
  · exact (Finishes.modify _).bind fun _ => (Finishes.modify _).bind fun _ => .modify _
  · exact .pure ()

theorem enumerator_finishes (source : BlockId) : Finishes (enumerator source) := by
  refine .get_bind fun s => ?_
  split
  · exact .pure _
  · exact .throw rfl

end Gen
end Linearizer
