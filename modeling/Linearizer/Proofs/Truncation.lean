import Linearizer.Proofs.Double.Arithmetic
import Linearizer.Proofs.Machine.Steps
import Mathlib.Data.Int.ModEq

/-!
# Integers of doubles

The integer of a finite double is what its number is without the fraction, modulo `2 ^ 64`. The
conversion works on doubles throughout, and no step of it rounds: a double outside the range of the
integers is a multiple of `2 ^ 11`, and so is its remainder, which leaves 53 bits.

* `Double.represents_remEuclid` is the remainder of such a double;
* `Double.toInt64_truncates` is the result for all doubles.
-/

namespace Linearizer
namespace Double

open Float.Model.UnpackedFloat

variable {x : Float} {q : ℚ}

/-! ## Constants -/

theorem represents_zero : Represents 0.0 0 := .zero .positive

theorem represents_modulus : Represents 18446744073709551616.0 (2 ^ 64 : Int) := by
  have hunpack : (18446744073709551616.0 : Float).toModel.unpack =
      .finite .positive (2 ^ 52) 12 (by decide) := rfl
  have h := represents_of_unpack hunpack
  norm_num [signed_positive] at h ⊢
  exact h

theorem represents_minValue : Represents (ofInt64 Int64.minValue) (-2 ^ 63 : Int) := by
  have hunpack : (ofInt64 Int64.minValue).toModel.unpack =
      .finite .negative (2 ^ 52) 11 (by decide) := rfl
  have h := represents_of_unpack hunpack
  norm_num [signed_negative] at h ⊢
  exact h

/-- The greatest integer is rounded up. -/
theorem represents_maxValue : Represents (ofInt64 Int64.maxValue) (2 ^ 63 : Int) := by
  have hunpack : (ofInt64 Int64.maxValue).toModel.unpack =
      .finite .positive (2 ^ 52) 11 (by decide) := rfl
  have h := represents_of_unpack hunpack
  norm_num [signed_positive] at h ⊢
  exact h

/-! ## Outside the range -/

/-- A double that is too large for an integer has zeros in its last eleven places. -/
theorem Represents.exists_multiple (hx : Represents x q) (h : 2 ^ 63 ≤ |q|) :
    ∃ i : ℤ, q = (i * 2 ^ 11 : ℤ) := by
  obtain ⟨s, -, rfl⟩ | ⟨s, m, e, hm, -, rfl⟩ := hx.cases
  · norm_num at h
  · have he : 11 ≤ e := by
      by_contra hlt
      have hsmall := hm.value_lt (by omega : e ≤ 10)
      rw [abs_signed, abs_of_pos hm.value_pos] at h
      norm_num at h hsmall
      linarith
    obtain ⟨n, rfl⟩ := Int.le.dest he
    refine ⟨s.apply (m * 2 ^ n : Nat), ?_⟩
    rw [← natCast_mul_two_pow, ← signed_mul]
    push_cast
    norm_num

/-- Adding the modulus to a negative remainder is exact. -/
theorem represents_remEuclid {i : ℤ} (hx : Represents x (i * 2 ^ 11 : ℤ)) :
    Represents (remEuclid x 18446744073709551616.0) (i * 2 ^ 11 % 2 ^ 64 : ℤ) := by
  obtain ⟨k, hrem, hlt⟩ := hx.rem represents_modulus (by norm_num)
  obtain ⟨r, hr⟩ : ∃ r : ℤ, r = i * 2 ^ 11 - k * 2 ^ 64 := ⟨_, rfl⟩
  have hcast : ((i * 2 ^ 11 : ℤ) : ℚ) - k * (2 ^ 64 : ℤ) = r := by
    rw [hr]
    push_cast
    ring
  rw [hcast] at hrem hlt
  have habs : |r| < 2 ^ 64 := by
    rw [Int.cast_pow, Int.cast_ofNat, abs_of_pos (a := (2 : ℚ) ^ 64) (by norm_num)] at hlt
    exact_mod_cast hlt
  obtain ⟨hlow, hhigh⟩ := abs_lt.mp habs
  have hneg : rem x 18446744073709551616.0 < 0.0 ↔ r < 0 := by
    rw [hrem.lt_iff represents_zero]
    exact Int.cast_lt_zero
  unfold remEuclid
  dsimp only
  split
  · have hr0 := hneg.mp ‹_›
    have hmod : i * 2 ^ 11 % 2 ^ 64 = r + 2 ^ 64 := by omega
    have hmodulus := represents_modulus.abs
    rw [abs_of_pos (by norm_num)] at hmodulus
    -- The sum is a multiple of `2 ^ 11` below the modulus.
    obtain ⟨j, hj⟩ : ∃ j : Nat, r + 2 ^ 64 = j * 2 ^ 11 :=
      ⟨(i - k * 2 ^ 53 + 2 ^ 53).toNat, by omega⟩
    rw [hmod, Int.cast_add]
    refine hrem.add hmodulus ⟨j, 11, by omega, by decide, by decide, ?_⟩
    rw [← Int.cast_add, hj]
    push_cast
    exact abs_of_nonneg (by positivity)
  · have hr0 := mt hneg.mpr ‹_›
    have hmod : i * 2 ^ 11 % 2 ^ 64 = r := by omega
    rw [hmod]
    exact hrem

theorem toInt_toInt64 (u : UInt64) : u.toInt64.toInt ≡ u.toNat [ZMOD 2 ^ 64] := by
  change u.toBitVec.toInt ≡ _ [ZMOD 2 ^ 64]
  rw [BitVec.toInt_eq_toNat_bmod]
  exact Int.bmod_emod

theorem Represents.toInt64 (hx : Represents x q) :
    (toInt64 x).toInt ≡ truncated q [ZMOD 2 ^ 64] := by
  have htrunc := hx.trunc
  have hlow := represents_minValue.le_iff htrunc
  have hhigh := htrunc.lt_iff represents_maxValue
  rw [Int.cast_le] at hlow
  rw [Int.cast_lt] at hhigh
  unfold Double.toInt64
  rw [if_pos hx.isFinite]
  dsimp only
  split
  · rename_i hrange
    rw [Bool.and_eq_true, decide_eq_true_iff, decide_eq_true_iff, hlow, hhigh] at hrange
    rw [htrunc.toInt64_toModel hrange.1 hrange.2]
  · rename_i hrange
    rw [Bool.and_eq_true, decide_eq_true_iff, decide_eq_true_iff, hlow, hhigh] at hrange
    -- Doubles of this size are multiples of `2 ^ 11`, so the remainder is exact.
    have hlarge : 2 ^ 63 ≤ |((truncated q : ℤ) : ℚ)| := by
      have h : 2 ^ 63 ≤ |truncated q| := by
        rw [le_abs]
        omega
      exact_mod_cast h
    obtain ⟨i, hi⟩ := htrunc.exists_multiple hlarge
    have hi : truncated q = i * 2 ^ 11 := mod_cast hi
    rw [hi] at htrunc ⊢
    have hrem := represents_remEuclid htrunc
    have hnonneg : 0 ≤ i * 2 ^ 11 % 2 ^ 64 := Int.emod_nonneg _ (by decide)
    obtain ⟨n, hn⟩ := Int.eq_ofNat_of_zero_le hnonneg
    rw [hn] at hrem
    have hlt : n < 2 ^ 64 := by omega
    refine (toInt_toInt64 _).trans ?_
    rw [hrem.toUInt64 hlt, ← hn]
    exact Int.mod_modEq _ _

theorem eq_of_modEq {m n : Int64} (h : m.toInt ≡ n.toInt [ZMOD 2 ^ 64]) : m = n := by
  have hm := m.le_toInt
  have hm' := m.toInt_lt
  have hn := n.le_toInt
  have hn' := n.toInt_lt
  unfold Int.ModEq at h
  refine Int64.toInt.inj ?_
  omega

/-- Integers of 53 bits are doubles. -/
theorem representable_of_abs_le {n : Int64} (h : |n.toInt| ≤ 2 ^ 53) : Representable n.toInt := by
  have habs := Int.abs_eq_natAbs n.toInt
  rcases h.lt_or_eq with hlt | heq
  · refine ⟨n.toInt.natAbs, 0, by omega, by decide, by decide, ?_⟩
    rw [zpow_zero, mul_one, Nat.cast_natAbs, Int.cast_abs]
  · refine ⟨1, 53, by decide, by decide, by decide, ?_⟩
    rw [← Int.cast_abs, heq]
    norm_num

/-- The integer of a finite double is the only one that is congruent to the truncated number modulo
`2 ^ 64`, and that of any other double is zero. So an integer of 53 bits is not changed by the
instructions that make it a double and an integer again. -/
theorem toInt64_truncates (x : Float) :
    (x.isFinite = true → ∀ n : Int64, n = toInt64 x ↔ n.toInt ≡ truncated (value x) [ZMOD 2 ^ 64]) ∧
    (x.isFinite = false → toInt64 x = 0) ∧
    ∀ n : Int64, |n.toInt| ≤ 2 ^ 53 → ∀ context rest,
      Machine.run context [.op .convR8, .op .convI8] (.i64 n :: rest) =
        .ok () (.i64 n :: rest) := by
  refine ⟨fun hfinite n => ?_, fun hfinite => ?_, fun n hn context rest => ?_⟩
  · have hmod := (represents_value hfinite).toInt64
    constructor
    · rintro rfl
      exact hmod
    · intro h
      exact eq_of_modEq (h.trans hmod.symm)
  · unfold toInt64
    rw [hfinite]
    rfl
  · -- Integers up to this bound are doubles, so nothing is lost on the way.
    have hmod := (represents_ofInt64 (representable_of_abs_le hn)).toInt64
    rw [truncated_intCast] at hmod
    have hback : toInt64 (ofInt64 n) = n := eq_of_modEq hmod
    have hlong : Machine.toI64 (.f64 (ofInt64 n)) = some (.i64 n) := by
      rw [Machine.toI64, hback]
    exact (Machine.convR8_yields rfl).cons (Machine.convI8_yields hlong) rest

theorem toInt64_truncates_beyond :
    (8446744073709551616 : Int64).toInt ≡ truncated (value (-1e19)) [ZMOD 2 ^ 64] ∧
    (∀ context, Machine.run context [.op .convR8, .op .convI8] [.i64 (-9007199254740992)] =
      .ok () [.i64 (-9007199254740992)]) :=
  ⟨((toInt64_truncates (-1e19)).1 (by decide +kernel) _).mp (by decide +kernel),
    fun context => (toInt64_truncates (-1e19)).2.2 _ (by decide) context []⟩

end Double
end Linearizer
