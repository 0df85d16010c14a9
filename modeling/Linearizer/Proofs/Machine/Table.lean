import Linearizer.Proofs.Machine.Reading
import Linearizer.Proofs.Machine.Steps

/-!
# The table of conversions on the machine

Every cell of the table turns the slot of a value in the one encoding into its slot in the other.
The only thing that can go wrong is a check of the class of an object.

* `Converts` says so of some steps;
* one lemma for each row, and `Conversion.cell_converts` for the table.
-/

namespace Linearizer

open Machine Conversion

/-- The steps turn the slot of the value in the one encoding into that in the other, unless the
other asks for a class that the object is not of. -/
structure Converts (context : Context) (v : Value) (source target : Encoding) (steps : List Step) :
    Prop where
  yields : (∀ c, target = .object (some c) → v.toObject = some c) →
    Yields context steps (v.slotIn context source) (v.slotIn context target)
  refuses : ∀ c, target = .object (some c) → v.toObject ≠ some c →
    Refuses context steps (v.slotIn context source) c

namespace Converts

variable {context : Context} {v : Value} {source middle target : Encoding} {a b : List Step}

theorem of_yields (h : Yields context a (v.slotIn context source) (v.slotIn context target))
    (ht : ∀ c, target ≠ .object (some c)) : Converts context v source target a :=
  ⟨fun _ => h, fun c hc => absurd hc (ht c)⟩

/-- What makes an object may be followed by a check of its class. -/
theorem of_object {cls : Option ClassId}
    (h : Yields context a (v.slotIn context source) (.object v.toObject)) :
    Converts context v source (.object cls) (a ++ cast cls) := by
  refine ⟨fun hc => h.append (cast_yields fun c hcls => hc c (congrArg _ hcls)), ?_⟩
  rintro c ⟨⟩ hne
  exact (cast_refuses hne).after h

theorem after (h : Converts context v middle target b)
    (hy : Yields context a (v.slotIn context source) (v.slotIn context middle)) :
    Converts context v source target (a ++ b) :=
  ⟨fun hc => hy.append (h.yields hc), fun c ht hne => (h.refuses c ht hne).after hy⟩

theorem before (h : Converts context v source middle a)
    (hy : Yields context b (v.slotIn context middle) (v.slotIn context target))
    (hm : ∀ c, middle ≠ .object (some c)) (ht : ∀ c, target ≠ .object (some c)) :
    Converts context v source target (a ++ b) :=
  of_yields ((h.yields fun c hc => absurd hc (hm c)).append hy) ht

end Converts

/-! ## Rows -/

namespace Conversion

variable {context : Context} {v : Value} {source target : Encoding} {steps : List Step}

/-- What a helper of the run-time library makes of a value that an encoding holds. -/
theorem coerce_held (h : source.Holds v) (k : Coercion) :
    Yields context (call (.coerce k source)) (v.slotIn context source) (coerced context v k) :=
  coerce_yields ((Slot.toValue?_erased _ _).trans (h.toValue? context))

theorem box_held (h : source.Holds v) :
    Yields context (call (.box source)) (v.slotIn context source) (v.slotIn context .value) :=
  box_yields (h.toValue? context)

theorem boxThenClass_converts (h : source.Holds v) (cls : Option ClassId) :
    Converts context v source (.object cls) (boxThenClass source cls) :=
  .of_object ((box_held h).append (coerce_held (.value v) .toClass))

theorem fromBool_converts {b : Bool} (h : fromBool target = some steps) :
    Converts context (.bool b) .bool target steps := by
  have hlong : toI64 (.ofBool b) = some ((Value.bool b).slotIn context .int64) := by
    cases b <;> rfl
  cases target <;> cases h
  case bool => exact .of_yields (.refl _) nofun
  case int32 =>
    have hint : (Value.bool b).slotIn context .int32 = .ofBool b := by cases b <;> rfl
    exact .of_yields (hint ▸ .refl _) nofun
  case int64 => exact .of_yields (convI8_yields hlong) nofun
  case double => exact .of_yields (convR8_yields (by cases b <;> rfl)) nofun
  case string => exact .of_yields (coerce_held (.bool b) .toString) nofun
  case value => exact .of_yields (box_held (.bool b)) nofun
  case number => exact .of_yields ((convI8_yields hlong).cons (widen_yields rfl)) nofun
  case object cls => exact boxThenClass_converts (.bool b) cls

theorem fromInt64_converts {n : Int64} (h : fromInt64 target = some steps) :
    Converts context (.long n) .int64 target steps := by
  cases target <;> cases h
  case int64 => exact .of_yields (.refl _) nofun
  case bool => exact .of_yields (nonzero_yields (z := .i64 0) (fun _ => rfl) rfl) nofun
  case int32 => exact .of_yields (convI4_yields rfl) nofun
  case double => exact .of_yields (convR8_yields rfl) nofun
  case string => exact .of_yields (coerce_held (.int64 n) .toString) nofun
  case value => exact .of_yields (box_held (.int64 n)) nofun
  case number => exact .of_yields (widen_yields rfl) nofun
  case object cls => exact boxThenClass_converts (.int64 n) cls

theorem fromInt32_converts {n : Int32} (h : fromInt32 target = some steps) :
    Converts context (.long n.toInt64) .int32 target steps := by
  have hslot : (Value.long n.toInt64).slotIn context .int32 = .i32 n := by
    simp [Value.slotIn, Value.toLong]
  unfold fromInt32 at h
  split at h
  · cases h
    exact .of_yields (.refl _) fun c hc => by cases hc
  · cases h
    have hzero : (n.toInt64 == 0) = (n == 0) := by
      rw [Bool.eq_iff_iff, beq_iff_eq, beq_iff_eq, ← Int64.toInt_inj, ← Int32.toInt_inj,
        Int32.toInt_toInt64]
      rfl
    have hbool : (Value.long n.toInt64).slotIn context .bool = .ofBool !(n == 0) :=
      congrArg (fun e => Slot.ofBool !e) hzero
    refine .of_yields ?_ fun c hc => by cases hc
    rw [hslot, hbool]
    exact nonzero_yields (z := .i32 0) (fun _ => rfl) rfl
  · obtain ⟨rest, hrest, rfl⟩ := Option.map_eq_some_iff.mp h
    have hwide : Yields context [.op .convI8] ((Value.long n.toInt64).slotIn context .int32)
        ((Value.long n.toInt64).slotIn context .int64) := by
      rw [hslot]
      exact convI8_yields rfl
    exact (fromInt64_converts hrest).after hwide

theorem fromDouble_converts {x : Float} (h : fromDouble target = some steps) :
    Converts context (.double x) .double target steps := by
  cases target <;> cases h
  case double => exact .of_yields (.refl _) nofun
  case bool => exact .of_yields (nonzero_yields (z := .f64 0.0) (fun _ => rfl) rfl) nofun
  case int32 => exact .of_yields (convI4_yields rfl) nofun
  case int64 => exact .of_yields (convI8_yields rfl) nofun
  case string => exact .of_yields (coerce_held (.double x) .toString) nofun
  case value => exact .of_yields (box_held (.double x)) nofun
  case number => exact .of_yields (widen_yields rfl) nofun
  case object cls => exact boxThenClass_converts (.double x) cls

theorem fromString_converts {s : String} (h : fromString target = some steps) :
    Converts context (.string s) .string target steps := by
  cases target <;> cases h
  case string => exact .of_yields (.refl _) nofun
  case bool => exact .of_yields (coerce_held (.string s) .toBoolean) nofun
  case int32 =>
    exact .of_yields ((coerce_held (.string s) .toLong).append (convI4_yields rfl)) nofun
  case int64 => exact .of_yields (coerce_held (.string s) .toLong) nofun
  case double => exact .of_yields (coerce_held (.string s) .toDouble) nofun
  case value => exact .of_yields (box_held (.string s)) nofun

theorem fromTagged_converts (hs : source.Holds v) (h : fromTagged source target = some steps) :
    Converts context v source target steps := by
  cases target <;> cases h
  case bool => exact .of_yields (coerce_held hs .toBoolean) nofun
  case int32 => exact .of_yields ((coerce_held hs .toLong).append (convI4_yields rfl)) nofun
  case int64 => exact .of_yields (coerce_held hs .toLong) nofun
  case double => exact .of_yields (coerce_held hs .toDouble) nofun
  case string => exact .of_yields (coerce_held hs .toString) nofun
  case object cls => exact .of_object (coerce_held hs .toClass)

theorem fromNumber_converts (hs : Encoding.number.Holds v) (h : fromNumber target = some steps) :
    Converts context v .number target steps := by
  unfold fromNumber at h
  split at h
  · cases h
    exact .of_yields (.refl _) nofun
  · cases h
    exact .of_yields (box_held hs) nofun
  · exact fromTagged_converts hs h

theorem fromValue_converts (h : fromValue target = some steps) :
    Converts context v .value target steps := by
  unfold fromValue at h
  split at h
  · cases h
    exact .of_yields (.refl _) nofun
  · cases h
    exact .of_yields (coerce_held (.value v) .toNumber) nofun
  · cases h
    exact .of_yields (coerce_held (.value v) .asArray) nofun
  · exact fromTagged_converts (.value v) h

theorem fromArray_converts {items : List Value} (h : fromArray target = some steps) :
    Converts context (.array items) .array target steps := by
  cases target <;> cases h
  case array => exact .of_yields (.refl _) nofun
  case value => exact .of_yields (box_held (.array items)) nofun
  case object cls => exact .of_object (coerce_held (.array items) .toClass)

/-- A class is not checked if it is known that the object is of it. -/
theorem fromObject_converts {known : Option ClassId} (hs : (Encoding.object known).Holds v)
    (h : fromObject known target = some steps) :
    Converts context v (.object known) target steps := by
  cases target <;> cases h
  case value =>
    have hv : v.slotIn context .value = .value (.object v.toObject) := by cases hs <;> rfl
    exact .of_yields (hv ▸ boxObject_yields _) nofun
  case object cls =>
    by_cases hc : cls = known
    · subst hc
      rw [if_pos rfl]
      refine ⟨fun _ => .refl _, ?_⟩
      rintro c ⟨⟩ hne
      cases hs
      exact absurd rfl hne
    · rw [if_neg hc]
      exact .of_object (a := []) (.refl (.object v.toObject))

/-- Every cell of the table converts what its row holds. -/
theorem cell_converts (hs : source.Holds v) (h : cell source target = some steps) :
    Converts context v source target steps := by
  cases hs with
  | bool b => exact fromBool_converts h
  | int32 n => exact fromInt32_converts h
  | int64 n => exact fromInt64_converts h
  | double x => exact fromDouble_converts h
  | string s => exact fromString_converts h
  | number n => exact fromNumber_converts (.number n) h
  | array items => exact fromArray_converts h
  | object cls => exact fromObject_converts (.object cls) h
  | ofClass c => exact fromObject_converts (.ofClass c) h
  | value v => exact fromValue_converts h
  | mstring s =>
    obtain ⟨rfl, ⟨⟩⟩ := (Option.ite_none_right_eq_some).mp h
    exact .of_yields (.refl _) nofun
  | «alias» v =>
    obtain ⟨rfl, ⟨⟩⟩ := (Option.ite_none_right_eq_some).mp h
    exact .of_yields (.refl _) nofun

end Conversion
end Linearizer
