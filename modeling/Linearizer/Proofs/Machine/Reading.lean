import Mathlib.Algebra.Group.Int.Defs
import Linearizer.Machine.Slot

/-!
# Readings of values

What the weak typing makes of a value in each encoding, and which encodings hold a value without
loss.

* `Value.readAs` is the value that is read from an encoding after a conversion to it;
* `Value.slotIn` is the slot that holds that value (`Value.toValue?_slotIn`);
* `Encoding.Holds` says that an encoding holds a value without loss; the slot that `Slot.of?` makes
  of such a value is `Value.slotIn` (`Slot.eq_slotIn_of_of?`), and the value is read back from it
  (`Encoding.Holds.toValue?`).
-/

namespace Linearizer

namespace Value

variable (context : Context) (v : Value)

/-- What the value is in an encoding, read as a value again. -/
def readAs : Encoding → Value
  | .bool => .bool v.toBool
  | .int32 => .long v.toLong.toInt32.toInt64
  | .int64 => .long v.toLong
  | .double => .double v.toDouble
  | .string | .mstring => .string (v.text context)
  | .number => .ofNumber v.toNumber
  | .array => .array v.toArray
  | .object _ => .object v.toObject
  | .value | .alias => v

/-- The slot that holds what the value is in an encoding. -/
def slotIn : Encoding → Slot
  | .bool => .ofBool v.toBool
  | .int32 => .i32 v.toLong.toInt32
  | .int64 => .i64 v.toLong
  | .double => .f64 v.toDouble
  | .string => .str (v.text context)
  | .mstring => .buffer (v.text context)
  | .number => .number v.toNumber
  | .array => .array v.toArray
  | .object _ => .object v.toObject
  | .value => .value v
  | .alias => .alias v

theorem toValue?_slotIn (e : Encoding) :
    (v.slotIn context e).toValue? e = some (v.readAs context e) := by
  cases e with
  | bool =>
    change some (Value.bool ((if v.toBool then 1 else 0 : Int32) != 0)) = some (.bool v.toBool)
    cases v.toBool <;> rfl
  | _ => rfl

end Value

theorem Slot.toValue?_erased (s : Slot) (e : Encoding) : s.toValue? e.erased = s.toValue? e := by
  induction s with
  | address stored ih => exact ih
  | _ => cases e <;> rfl

/-- The slot that is made of a value is the one that holds what the value is in the encoding. -/
theorem Slot.eq_slotIn_of_of? {v : Value} {e : Encoding} {s : Slot} (h : of? v e = some s)
    (context : Context) : s = v.slotIn context e := by
  unfold of? at h
  split at h
  all_goals cases h
  all_goals rfl

/-- The encoding holds the value without loss. -/
inductive Encoding.Holds : Encoding → Value → Prop
  | bool (b : Bool) : Holds .bool (.bool b)
  | int32 (n : Int32) : Holds .int32 (.long n.toInt64)
  | int64 (n : Int64) : Holds .int64 (.long n)
  | double (x : Float) : Holds .double (.double x)
  | string (s : String) : Holds .string (.string s)
  | mstring (s : String) : Holds .mstring (.string s)
  | number (n : Number) : Holds .number (.ofNumber n)
  | array (items : List Value) : Holds .array (.array items)
  | object (cls : Option ClassId) : Holds (.object none) (.object cls)
  | ofClass (c : ClassId) : Holds (.object (some c)) (.object (some c))
  | value (v : Value) : Holds .value v
  | alias (v : Value) : Holds .alias v

namespace Encoding.Holds

variable {v : Value} {e : Encoding}

/-- An integer in the range of 32 bits is one of 32 bits. -/
theorem int32_of_range {n : Int64} (h : -2 ^ 31 ≤ n.toInt ∧ n.toInt < 2 ^ 31) :
    Holds .int32 (.long n) := by
  have hn : n.toInt32.toInt64 = n := by
    rw [← Int64.toInt_inj, Int32.toInt_toInt64, Int64.toInt_toInt32]
    exact Int.bmod_eq_of_le (by omega) (by omega)
  exact hn ▸ .int32 n.toInt32

theorem of_of? {s : Slot} (h : Slot.of? v e = some s)
    (hrange : e = .int32 → -2 ^ 31 ≤ v.toLong.toInt ∧ v.toLong.toInt < 2 ^ 31)
    (hclass : ∀ c, e = .object (some c) → v.toObject = some c) : Holds e v := by
  cases e with
  | value => exact .value v
  | «alias» => exact .alias v
  | bool =>
    -- The remaining encodings have slots for values of one or two kinds only.
    cases v with
    | bool b => exact .bool b
    | _ => cases h
  | int32 =>
    cases v with
    | long n => exact int32_of_range (hrange rfl)
    | _ => cases h
  | int64 =>
    cases v with
    | long n => exact .int64 n
    | _ => cases h
  | double =>
    cases v with
    | double x => exact .double x
    | _ => cases h
  | string =>
    cases v with
    | string text => exact .string text
    | _ => cases h
  | mstring =>
    cases v with
    | string text => exact .mstring text
    | _ => cases h
  | number =>
    cases v with
    | long n => exact .number (.long n)
    | double x => exact .number (.double x)
    | _ => cases h
  | array =>
    cases v with
    | array items => exact .array items
    | _ => cases h
  | object known =>
    cases v with
    | object cls =>
      cases known with
      | none => exact .object cls
      | some c => exact hclass c rfl ▸ .ofClass c
    | _ => cases h

/-- What an encoding holds without loss is read back from it. -/
theorem readAs_eq (h : e.Holds v) (context : Context) : v.readAs context e = v := by
  cases h with
  | int32 n => simp [Value.readAs, Value.toLong]
  | number n => cases n <;> rfl
  | _ => rfl

theorem toValue? (h : e.Holds v) (context : Context) :
    (v.slotIn context e).toValue? e = some v := by
  rw [Value.toValue?_slotIn, h.readAs_eq]

end Encoding.Holds
end Linearizer
