import Mathlib.Logic.Relation
import Linearizer.Generator.Routine

/-!
# Effects of computations on the state

`Gen.Does R m`: every run of `m`, a failed one included, leads to a state that `R` relates the
first one to. For a preorder `R` this is closed under the combinators of `Gen`, so that one proof
for each function says what may happen to the state, wherever generation stops.

The `*_ok` lemmas take a run that returns apart; they are the other direction, for proofs that
follow a run.
-/

namespace Linearizer

/-- The reference that a helper is resolved to is one to that helper. -/
@[simp] theorem Registry.helper_resolve (r : Registry) (h : Helper) :
    (r.resolve h).1.helper = h := by
  unfold resolve
  split <;> rfl

/-- The elements that have been written. -/
def State.code (s : State) : List Insn := s.tape.listing.insns.toList

theorem Tape.insns_put (t : Tape) (i : Insn) :
    (t.put i).listing.insns = t.listing.insns.push i := by
  unfold Tape.put
  cases i.effect? <;> rfl

@[simp] theorem Tape.toList_put (t : Tape) (i : Insn) :
    (t.put i).listing.insns.toList = t.listing.insns.toList ++ [i] := by
  rw [insns_put, Array.toList_push]

/-- Code is written at the end of the listing. -/
theorem Tape.toList_putAll (t : Tape) (code : List Insn) :
    (t.putAll code).listing.insns.toList = t.listing.insns.toList ++ code := by
  induction code generalizing t with
  | nil => simp [putAll]
  | cons i rest ih =>
    have := ih (t.put i)
    rw [toList_put, List.append_assoc] at this
    exact this

theorem Tape.locals_put (t : Tape) (i : Insn) : (t.put i).listing.locals = t.listing.locals := by
  unfold Tape.put
  cases i.effect? <;> rfl

namespace Gen

variable {α β : Type} {R : State → State → Prop}

/-! ## Runs that return -/

/-- A run that returns is one of each part. -/
theorem bind_ok {m : Gen α} {f : α → Gen β} {s s' : State} {b : β}
    (h : (m >>= f) s = .ok b s') : ∃ a s₁, m s = .ok a s₁ ∧ f a s₁ = .ok b s' := by
  change EStateM.bind m f s = _ at h
  unfold EStateM.bind at h
  cases hm : m s with
  | ok a s₁ =>
    rw [hm] at h
    exact ⟨a, s₁, rfl, h⟩
  | error e s₁ =>
    rw [hm] at h
    cases h

theorem run_bind {m : Gen α} {s s₁ : State} {a : α} (h : m s = .ok a s₁) (f : α → Gen β) :
    (m >>= f) s = f a s₁ := by
  show EStateM.bind m f s = _
  unfold EStateM.bind
  rw [h]

theorem run_bind_error {m : Gen α} {s s' : State} {e : Fault} (h : m s = .error e s')
    (f : α → Gen β) : (m >>= f) s = .error e s' := by
  change EStateM.bind m f s = _
  simp only [EStateM.bind, h]

theorem get_run (s : State) : (get : Gen State) s = .ok s s := rfl

theorem modify_run (f : State → State) (s : State) : (modify f : Gen Unit) s = .ok () (f s) := rfl

theorem throw_ok {e : Fault} {s s' : State} {a : α} : ¬(throw e : Gen α) s = .ok a s' := by
  intro h
  cases h

/-! ## Runs that end in any way -/

/-- The run of `m` from `s`, whether it returns or fails, ends in a state that `R` relates `s`
to. -/
def DoesFrom (R : State → State → Prop) (m : Gen α) (s : State) : Prop :=
  match m s with
  | .ok _ s' => R s s'
  | .error _ s' => R s s'

/-- Every run of `m` takes a state to one that `R` relates it to (module doc). -/
def Does (R : State → State → Prop) (m : Gen α) : Prop := ∀ s, DoesFrom R m s

theorem DoesFrom.of_ok {m : Gen α} {s s' : State} {a : α} (h : DoesFrom R m s)
    (hr : m s = .ok a s') : R s s' := by
  unfold DoesFrom at h
  rwa [hr] at h

theorem DoesFrom.of_error {m : Gen α} {s s' : State} {e : Fault} (h : DoesFrom R m s)
    (hr : m s = .error e s') : R s s' := by
  unfold DoesFrom at h
  rwa [hr] at h

theorem DoesFrom.to_ok {m : Gen α} {s s' : State} {a : α} (hr : m s = .ok a s') (h : R s s') :
    DoesFrom R m s := by
  unfold DoesFrom
  rwa [hr]

theorem DoesFrom.to_error {m : Gen α} {s s' : State} {e : Fault} (hr : m s = .error e s')
    (h : R s s') : DoesFrom R m s := by
  unfold DoesFrom
  rwa [hr]

/-- A run that is that of another computation, from another state. -/
theorem DoesFrom.along {R' : State → State → Prop} {m m' : Gen α} {s s₁ : State}
    (hr : m s = m' s₁) (h : DoesFrom R m' s₁) (hR : ∀ s', R s₁ s' → R' s s') :
    DoesFrom R' m s := by
  unfold DoesFrom at h ⊢
  rw [hr]
  cases hr' : m' s₁ with
  | ok a s' => rw [hr'] at h; exact hR s' h
  | error e s' => rw [hr'] at h; exact hR s' h

theorem DoesFrom.mono {R' : State → State → Prop} {m : Gen α} {s : State} (h : DoesFrom R m s)
    (hR : ∀ s', R s s' → R' s s') : DoesFrom R' m s := h.along rfl hR

theorem Does.of_ok {m : Gen α} {s s' : State} {a : α} (h : Does R m) (hr : m s = .ok a s') :
    R s s' := (h s).of_ok hr

theorem Does.modify {f : State → State} (h : ∀ s, R s (f s)) : Does R (modify f : Gen Unit) := h

/-- A first part that only reads the state. -/
theorem DoesFrom.read {m : Gen α} {f : α → Gen β} {s : State} {a : α} (h : m s = .ok a s)
    (hf : DoesFrom R (f a) s) : DoesFrom R (m >>= f) s := by
  unfold DoesFrom
  rw [run_bind h]
  exact hf

theorem Does.get_bind {f : State → Gen β} (h : ∀ a, Does R (f a)) : Does R (get >>= f) :=
  fun s => h s s

section Preorder

variable [IsPreorder State R]

theorem DoesFrom.pure (a : α) (s : State) : DoesFrom R (pure a : Gen α) s := refl_of R s

theorem DoesFrom.throw (e : Fault) (s : State) : DoesFrom R (throw e : Gen α) s := refl_of R s

/-- What both parts do, the whole does, since the relation is transitive. -/
theorem DoesFrom.bind {m : Gen α} {f : α → Gen β} {s : State} (hm : DoesFrom R m s)
    (hf : ∀ a s₁, m s = .ok a s₁ → DoesFrom R (f a) s₁) : DoesFrom R (m >>= f) s := by
  change match EStateM.bind m f s with
    | .ok _ s' => R s s'
    | .error _ s' => R s s'
  unfold EStateM.bind
  cases hr : m s with
  | error e s₁ => exact hm.of_error hr
  | ok a s₁ =>
    have h₁ := hm.of_ok hr
    dsimp only
    cases hr' : f a s₁ with
    | ok b s₂ => exact trans_of R h₁ ((hf a s₁ hr).of_ok hr')
    | error e s₂ => exact trans_of R h₁ ((hf a s₁ hr).of_error hr')

/-- A run that is that of another computation from a later state. -/
theorem DoesFrom.of_run {m m' : Gen α} {s s₁ : State} (h : m s = m' s₁) (hs : R s s₁)
    (hm : DoesFrom R m' s₁) : DoesFrom R m s := hm.along h fun _ => trans_of R hs

theorem Does.pure (a : α) : Does R (pure a : Gen α) := DoesFrom.pure a

theorem Does.throw (e : Fault) : Does R (throw e : Gen α) := DoesFrom.throw e

theorem Does.bind {m : Gen α} {f : α → Gen β} (hm : Does R m) (hf : ∀ a, Does R (f a)) :
    Does R (m >>= f) := fun s => (hm s).bind fun a s₁ _ => hf a s₁

/-- A loop does what its rounds do. -/
theorem Does.forM {γ : Type} {f : γ → Gen Unit} (l : List γ) (h : ∀ x ∈ l, Does R (f x)) :
    Does R (l.forM f) := by
  induction l with
  | nil => exact Does.pure ()
  | cons x l ih => exact (h x List.mem_cons_self).bind fun _ => ih fun y hy => h y (.tail x hy)

end Preorder

end Gen
end Linearizer
