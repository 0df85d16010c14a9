import Linearizer.Proofs.Double.Value
import Mathlib.Algebra.Order.Field.Power
import Mathlib.Tactic.Linarith

/-!
# Rounding of what needs none

A number that some double denotes is not changed by rounding, whatever mantissa and exponent it is
given by.

* `Double.round_exact`: rounding finds the canonical mantissa and exponent of a number;
* `Double.Representable` holds of the numbers that doubles denote, `Double.Represents` relates a
  finite double and its number;
* `Double.denotes_normalize`: what rounding makes of a representable number represents it.
-/

namespace Linearizer
namespace Double

open Float.Model Float.Model.UnpackedFloat

/-! ## Mantissas and exponents of a number -/

variable {m k n : Nat} {e t : Int}

theorem natCast_mul_two_pow (m n : Nat) (t : Int) :
    ((m * 2 ^ n : Nat) : ℚ) * 2 ^ t = m * 2 ^ (t + n) := by
  rw [zpow_add₀ two_ne_zero, zpow_natCast]
  push_cast
  ring

theorem eq_mul_two_pow (h : (m : ℚ) * 2 ^ (t + n) = k * 2 ^ t) : k = m * 2 ^ n := by
  rw [← natCast_mul_two_pow] at h
  exact_mod_cast (mul_right_cancel₀ (zpow_ne_zero t two_ne_zero) h).symm

theorem log2_mul_two_pow (hm : 0 < m) (n : Nat) : (m * 2 ^ n).log2 = m.log2 + n := by
  have hpow : 0 < 2 ^ n := Nat.two_pow_pos n
  rw [Nat.log2_eq_iff (Nat.mul_pos hm hpow).ne', Nat.pow_add, Nat.add_right_comm, Nat.pow_add]
  exact ⟨Nat.mul_le_mul_right _ (Nat.log2_self_le hm.ne'),
    Nat.mul_lt_mul_of_pos_right Nat.lt_log2_self hpow⟩

theorem totalExponent_mul (hm : 0 < m) (n : Nat) (t : Int) :
    totalExponent (m * 2 ^ n) t = totalExponent m (t + n) := by
  unfold totalExponent
  rw [log2_mul_two_pow hm]
  push_cast
  ring

/-- The position of the leading bit depends on the number only. -/
theorem totalExponent_eq (hm : 0 < m) (hk : 0 < k) (h : (m : ℚ) * 2 ^ e = k * 2 ^ t) :
    totalExponent m e = totalExponent k t := by
  rcases le_total t e with hle | hle
  · obtain ⟨n, rfl⟩ := Int.le.dest hle
    rw [eq_mul_two_pow h, totalExponent_mul hm]
  · obtain ⟨n, rfl⟩ := Int.le.dest hle
    rw [eq_mul_two_pow h.symm, totalExponent_mul hk]

theorem Canonical.targetExponent (h : Canonical m e) :
    Format.binary64.targetExponent (totalExponent m e) = e := by
  have hlog : m.log2 < 53 := (Nat.log2_lt h.pos.ne').mpr h.lt
  change max ((m.log2 : Int) + 1 + e - 53) (-1074) = e
  rcases h.normal with hm | rfl
  · have hlog52 : 52 ≤ m.log2 := (Nat.le_log2 h.pos.ne').mpr hm
    have := h.le_exponent
    omega
  · omega

/-- A mantissa of at most 53 bits is shifted up as far as it goes. -/
theorem exists_canonical (hm : 0 < m) (hlt : m < 2 ^ 53) (hlow : -1074 ≤ e) (hhigh : e ≤ 971) :
    ∃ k t, Canonical k t ∧ (m : ℚ) * 2 ^ e = k * 2 ^ t := by
  have hlog : m.log2 < 53 := (Nat.log2_lt hm.ne').mpr hlt
  obtain ⟨n, hn⟩ : ∃ n : Nat, n = min (52 - m.log2) (e + 1074).toNat := ⟨_, rfl⟩
  have hpos : 0 < m * 2 ^ n := Nat.mul_pos hm (Nat.two_pow_pos n)
  refine ⟨m * 2 ^ n, e - n, ⟨hpos, ?_, by omega, by omega, ?_⟩, ?_⟩
  · rw [← Nat.log2_lt hpos.ne', log2_mul_two_pow hm]
    omega
  · rw [← Nat.le_log2 hpos.ne', log2_mul_two_pow hm]
    omega
  · rw [natCast_mul_two_pow, sub_add_cancel]

/-! ## Rounding -/

/-- Zeros at the end of a mantissa are shifted out without a trace. -/
theorem shiftRight_exact (k n : Nat) :
    (ExtendedMantissa.mk (k * 2 ^ n) false false) >>> n = ⟨k, false, false⟩ := by
  change n.repeat ExtendedMantissa.shiftRightOne _ = _
  induction n generalizing k with
  | zero => simp [Nat.repeat]
  | succ n ih =>
    rw [Nat.repeat, Nat.pow_succ', ← Nat.mul_assoc, ih]
    simp [ExtendedMantissa.shiftRightOne]

theorem shiftToTargetExponent_exact (h : Canonical k t) (n : Nat) :
    shiftToTargetExponent .binary64 (k * 2 ^ n) (t - n) .exact = (⟨k, false, false⟩, t) := by
  have htarget : Format.binary64.targetExponent (totalExponent (k * 2 ^ n) (t - n)) = t := by
    rw [totalExponent_mul h.pos, sub_add_cancel, h.targetExponent]
  have hshift : (t - (t - n)).toNat = n := by omega
  rw [shiftToTargetExponent, htarget, shiftToExponent, hshift, sub_add_cancel]
  exact congrArg (·, t) (shiftRight_exact k n)

theorem roundWithAccuracy_exact (s : Sign) (h : Canonical k t) (n : Nat) :
    roundWithAccuracy .binary64 s (k * 2 ^ n) (t - n) .exact = .finite s k t h.pos := by
  have hagain := shiftToTargetExponent_exact h 0
  rw [Nat.pow_zero, Nat.mul_one, Nat.cast_zero, sub_zero] at hagain
  have hround : (ExtendedMantissa.mk k false false).roundedMantissa = k := rfl
  delta roundWithAccuracy
  dsimp only
  rw [shiftToTargetExponent_exact h n]
  dsimp only
  rw [hround, hagain]
  exact dif_neg h.pos.ne'

/-- Rounding finds the canonical mantissa and exponent of a number that has them. -/
theorem round_exact (s : Sign) (hm : 0 < m) (h : Canonical k t)
    (heq : (m : ℚ) * 2 ^ e = k * 2 ^ t) :
    UnpackedFloat.round .binary64 s m e = .finite s k t h.pos := by
  have htarget : Format.binary64.targetExponent (totalExponent m e) = t := by
    rw [totalExponent_eq hm h.pos heq, h.targetExponent]
  rw [UnpackedFloat.round, htarget, decreaseExponent]
  rcases le_total t e with hle | hle
  · obtain ⟨n, rfl⟩ := Int.le.dest hle
    have hshift : (t + n - t).toNat = n := by omega
    obtain rfl := eq_mul_two_pow heq
    have hexact := roundWithAccuracy_exact s h 0
    rw [Nat.pow_zero, Nat.mul_one, Nat.cast_zero, sub_zero] at hexact
    dsimp only
    rw [hshift, Nat.shiftLeft_eq, add_sub_cancel_right]
    exact hexact
  · obtain ⟨n, rfl⟩ := Int.le.dest hle
    have hshift : (e - (e + n)).toNat = 0 := by omega
    obtain rfl := eq_mul_two_pow heq.symm
    have hexact := roundWithAccuracy_exact s h n
    rw [add_sub_cancel_right] at hexact
    dsimp only
    rw [hshift, Nat.shiftLeft_zero, Nat.cast_zero, sub_zero]
    exact hexact

/-! ## Doubles and the numbers they represent -/

/-- Some double denotes the number. -/
def Representable (q : ℚ) : Prop :=
  ∃ (m : Nat) (e : Int), m < 2 ^ 53 ∧ -1074 ≤ e ∧ e ≤ 971 ∧ |q| = m * 2 ^ e

/-- The unpacked double denotes the number, by canonical parts. -/
inductive Denotes : UnpackedFloat → ℚ → Prop
  | zero (s : Sign) : Denotes (.zero s) 0
  | finite (s : Sign) {m : Nat} {e : Int} (h : Canonical m e) :
    Denotes (.finite s m e h.pos) (signed s (m * 2 ^ e))

/-- The double is finite and denotes the number. -/
def Represents (x : Float) (q : ℚ) : Prop := Denotes x.toModel.unpack q

theorem represents_of_unpack {x : Float} {s : Sign} {hm : 0 < m}
    (h : x.toModel.unpack = .finite s m e hm) : Represents x (signed s (m * 2 ^ e)) := by
  unfold Represents
  rw [h]
  exact .finite s (canonical_of_unpack h)

theorem represents_value {x : Float} (h : x.isFinite = true) : Represents x (value x) := by
  obtain ⟨s, hx⟩ | ⟨s, m, e, hm, hx⟩ := unpack_of_isFinite h
  · rw [value_of_unpack_zero hx, Represents, hx]
    exact .zero s
  · rw [value_of_unpack_finite hx]
    exact represents_of_unpack hx

theorem Denotes.represents {u : UnpackedFloat} {q : ℚ} (h : Denotes u q) :
    Represents (.ofModel (.pack u)) q := by
  change Denotes (Float.Model.pack u).unpack q
  cases h with
  | zero s =>
    rw [unpack_pack_zero]
    exact .zero s
  | finite s h =>
    rw [unpack_pack s h]
    exact .finite s h

theorem denotes_round (s : Sign) (hm : 0 < m) (h : Representable (m * 2 ^ e)) :
    Denotes (UnpackedFloat.round .binary64 s m e) (signed s (m * 2 ^ e)) := by
  have hq : (0 : ℚ) < m * 2 ^ e := by positivity
  obtain ⟨j, f, hlt, hlow, hhigh, habs⟩ := h
  rw [abs_of_pos hq] at habs
  have hj : 0 < j := by
    rcases Nat.eq_zero_or_pos j with rfl | hj
    · rw [habs, Nat.cast_zero, zero_mul] at hq
      exact absurd hq (lt_irrefl 0)
    · exact hj
  obtain ⟨k, t, hcanonical, heq⟩ := exists_canonical hj hlt hlow hhigh
  rw [round_exact s hm hcanonical (habs.trans heq), habs, heq]
  exact .finite s hcanonical

/-- A representable number is represented by what rounding makes of it. -/
theorem denotes_normalize {i : Int} (s : Sign) (h : Representable (i * 2 ^ e)) :
    Denotes (UnpackedFloat.normalize .binary64 i e s) (i * 2 ^ e) := by
  unfold UnpackedFloat.normalize
  split
  · rename_i hi
    obtain ⟨n, rfl⟩ := Int.exists_eq_neg_ofNat (compare_lt_iff_lt.mp hi).le
    have hn : 0 < n := by simpa using compare_lt_iff_lt.mp hi
    push_cast at h ⊢
    rw [neg_mul, Representable, abs_neg] at h
    rw [neg_mul, neg_neg, Int.toNat_natCast]
    exact denotes_round .negative hn h
  · rename_i hi
    obtain rfl := compare_eq_iff_eq.mp hi
    rw [Int.cast_zero, zero_mul]
    exact .zero s
  · rename_i hi
    obtain ⟨n, rfl⟩ := Int.eq_ofNat_of_zero_le (compare_gt_iff_gt.mp hi).le
    have hn : 0 < n := by simpa using compare_gt_iff_gt.mp hi
    exact denotes_round .positive hn h

theorem represents_ofBinary (s : Sign) (h : m < 2 ^ 53) (hlow : -1074 ≤ e) (hhigh : e ≤ 971) :
    Represents (ofBinary s m e) (signed s (m * 2 ^ e)) := by
  have hsigned : signed s (m * 2 ^ e) = (s.apply m : Int) * 2 ^ e := by
    cases s <;> simp [signed, Sign.apply]
  have hnonneg : (0 : ℚ) ≤ m * 2 ^ e := by positivity
  have habs : |signed s (m * 2 ^ e)| = m * 2 ^ e := by
    cases s <;> simp [signed, abs_of_nonneg hnonneg]
  have hrep : Representable (signed s (m * 2 ^ e)) := ⟨m, e, h, hlow, hhigh, habs⟩
  rw [hsigned] at hrep ⊢
  exact (denotes_normalize s hrep).represents

end Double
end Linearizer
