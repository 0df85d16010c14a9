import Linearizer.Proofs.Generator.Effect

/-!
# Contracts of computations

`Gen.Meets P m Q E`: a run of `m` from a state with `P` returns a result and a state with `Q`, or
fails with a fault and a state with `E`. Unlike `Gen.Does`, which says the same of both ends, a
contract may promise more of a run that returns than of one that fails.

The rules follow the combinators of `Gen`. `Gen.MeetsFrom` is the same for a single run, for
proofs that take an equation of a run or have to read the state.
-/

namespace Linearizer
namespace Gen

variable {α β : Type}

/-- The run of `m` from `s` ends with `Q` if it returns, and with `E` if it fails. -/
def MeetsFrom (m : Gen α) (Q : α → State → Prop) (E : Fault → State → Prop) (s : State) : Prop :=
  match m s with
  | .ok a s' => Q a s'
  | .error e s' => E e s'

/-- The contract of a computation (module doc). -/
def Meets (P : State → Prop) (m : Gen α) (Q : α → State → Prop) (E : Fault → State → Prop) : Prop :=
  ∀ s, P s → MeetsFrom m Q E s

variable {P I : State → Prop} {Q : α → State → Prop} {T : β → State → Prop}
  {E : Fault → State → Prop}

/-! ## Single runs -/

theorem MeetsFrom.to_ok {m : Gen α} {s s' : State} {a : α} (hr : m s = .ok a s') (h : Q a s') :
    MeetsFrom m Q E s := by
  unfold MeetsFrom
  rwa [hr]

theorem MeetsFrom.to_error {m : Gen α} {s s' : State} {e : Fault} (hr : m s = .error e s')
    (h : E e s') : MeetsFrom m Q E s := by
  unfold MeetsFrom
  rwa [hr]

theorem MeetsFrom.of_ok {m : Gen α} {s s' : State} {a : α} (h : MeetsFrom m Q E s)
    (hr : m s = .ok a s') : Q a s' := by
  unfold MeetsFrom at h
  rwa [hr] at h

theorem MeetsFrom.of_error {m : Gen α} {s s' : State} {e : Fault} (h : MeetsFrom m Q E s)
    (hr : m s = .error e s') : E e s' := by
  unfold MeetsFrom at h
  rwa [hr] at h

theorem MeetsFrom.mono {m : Gen α} {s : State} {Q' : α → State → Prop} {E' : Fault → State → Prop}
    (h : MeetsFrom m Q E s) (hQ : ∀ a s', Q a s' → Q' a s') (hE : ∀ e s', E e s' → E' e s') :
    MeetsFrom m Q' E' s := by
  cases hr : m s with
  | ok a s' => exact .to_ok hr (hQ a s' (h.of_ok hr))
  | error e s' => exact .to_error hr (hE e s' (h.of_error hr))

/-- A run that is that of another computation. -/
theorem MeetsFrom.of_run {m m' : Gen α} {s s₁ : State} (hr : m s = m' s₁)
    (h : MeetsFrom m' Q E s₁) : MeetsFrom m Q E s := by
  unfold MeetsFrom
  rw [hr]
  exact h

theorem MeetsFrom.bind {m : Gen α} {f : α → Gen β} {s : State} (h : MeetsFrom m Q E s)
    (hf : ∀ a s', Q a s' → MeetsFrom (f a) T E s') : MeetsFrom (m >>= f) T E s := by
  cases hr : m s with
  | ok a s' => exact .of_run (run_bind hr f) (hf a s' (h.of_ok hr))
  | error e s' => exact .to_error (run_bind_error hr f) (h.of_error hr)

/-- A first part that only reads the state. -/
theorem MeetsFrom.read {m : Gen α} {f : α → Gen β} {s : State} {a : α} (h : m s = .ok a s)
    (hf : MeetsFrom (f a) T E s) : MeetsFrom (m >>= f) T E s := .of_run (run_bind h f) hf

theorem MeetsFrom.does {R : State → State → Prop} {m : Gen α} {s : State} (h : MeetsFrom m Q E s)
    (hQ : ∀ a s', Q a s' → R s s') (hE : ∀ e s', E e s' → R s s') : DoesFrom R m s := by
  cases hr : m s with
  | ok a s' => exact .to_ok hr (hQ a s' (h.of_ok hr))
  | error e s' => exact .to_error hr (hE e s' (h.of_error hr))

/-! ## Rules -/

theorem Meets.pure {a : α} (h : ∀ s, P s → Q a s) : Meets P (pure a) Q E := h

theorem Meets.throw {e : Fault} (h : ∀ s, P s → E e s) : Meets P (throw e : Gen α) Q E := h

theorem Meets.modify {f : State → State} {Q : Unit → State → Prop} (h : ∀ s, P s → Q () (f s)) :
    Meets P (modify f : Gen Unit) Q E := h

theorem Meets.bind {m : Gen α} {f : α → Gen β} (hm : Meets P m Q E)
    (hf : ∀ a, Meets (Q a) (f a) T E) : Meets P (m >>= f) T E := fun s hs =>
  (hm s hs).bind fun a s' h => hf a s' h

theorem Meets.get_bind {f : State → Gen β} (h : ∀ a, Meets P (f a) T E) :
    Meets P (get >>= f) T E := fun s hs => h s s hs

theorem Meets.forM {γ : Type} {f : γ → Gen Unit} (l : List γ)
    (h : ∀ x ∈ l, Meets I (f x) (fun _ => I) E) : Meets I (l.forM f) (fun _ => I) E := by
  induction l with
  | nil => exact Meets.pure fun _ hs => hs
  | cons x l ih =>
    exact (h x List.mem_cons_self).bind fun _ => ih fun y hy => h y (List.mem_cons_of_mem x hy)

end Gen
end Linearizer
