import Linearizer.Proofs.Generator.Contract
import Linearizer.Proofs.Generator.Pieces

/-!
# Places of variables

The code of an expression or a statement needs the places of the variables that it names. When the
state has them all, the only thing that can go wrong is a conversion that does not exist.

* `Gen.Converts n m`: in a state with `n` places `m` keeps them, and fails only for the lack of a
  conversion;
* `Gen.Converts.parts`: this holds of all code of values that names the first `n` variables alone.
-/

namespace Linearizer

/-- Whether a conversion is missing. -/
def Fault.isUnconvertible : Fault → Bool
  | .noConversion _ _ _ => true
  | _ => false

namespace Gen

variable {α β : Type} {n : Nat}

/-- The contract of code for values (module doc). -/
def Converts (n : Nat) (m : Gen α) : Prop :=
  Meets (·.places.length = n) m (fun _ s => s.places.length = n)
    fun e _ => e.isUnconvertible = true

theorem Converts.pure (x : α) : Converts n (pure x : Gen α) := Meets.pure fun _ h => h

theorem Converts.bind {m : Gen α} {f : α → Gen β} (hm : Converts n m)
    (hf : ∀ x, Converts n (f x)) : Converts n (m >>= f) := Meets.bind hm hf

theorem Converts.get_bind {f : State → Gen β} (h : ∀ s, Converts n (f s)) :
    Converts n (get >>= f) := Meets.get_bind h

/-- A change that leaves the places alone. -/
theorem Converts.modify {f : State → State} (h : ∀ s, (f s).places = s.places) :
    Converts n (modify f : Gen Unit) := Meets.modify fun s hs => by rw [h s, hs]

theorem declare_converts (e : Encoding) : Converts n (declare e) := fun _ hs => hs

theorem temp_converts (e : Encoding) : Converts n (temp e) := by
  refine Converts.get_bind fun s => ?_
  split
  · exact Converts.pure _
  · refine (declare_converts e).bind fun id => ?_
    exact (Converts.modify fun _ => rfl).bind fun _ => Converts.pure id

/-- A variable among the first ones has a place. -/
theorem place_converts {v : VarId} (hv : v < n) : Converts n (place v) := fun s hs => by
  have hlt : v < s.places.length := lt_of_lt_of_eq hv hs.symm
  refine MeetsFrom.read (get_run s) ?_
  rw [List.getElem?_eq_getElem hlt]
  exact hs

/-- All code of values that names the first `n` variables alone. -/
theorem Converts.parts : Parts (· < n) fun _ m => Converts n m where
  pure := Converts.pure
  bind := Converts.bind
  unconvertible _ _ _ := Meets.throw fun _ _ => rfl
  place := place_converts
  put _ _ := Converts.modify fun _ => rfl
  callDirect _ := fun _ hs => hs
  conversion _ := Converts.modify fun _ => rfl
  address _ := (Converts.modify fun _ => rfl).bind fun _ => Converts.modify fun _ => rfl
  declare := declare_converts
  temp := temp_converts
  assume := Converts.modify fun _ => rfl

end Gen
end Linearizer
