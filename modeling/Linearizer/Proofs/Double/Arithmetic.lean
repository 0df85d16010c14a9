import Linearizer.Proofs.Double.Rounding
import Mathlib.Data.Rat.Floor

/-!
# Arithmetic on doubles

What the operations on finite doubles do to the numbers that the doubles represent. An operation
whose result is representable is exact.

* `Double.Represents.lt_iff` and `Double.Represents.le_iff`: comparison is that of the numbers;
* `Double.Represents.add`: a representable sum is exact;
* `Double.Represents.trunc` and `Double.Represents.rem`: the whole part and the remainder always
  are.
-/

namespace Linearizer
namespace Double

open Float.Model Float.Model.UnpackedFloat

variable {x y : Float} {p q : ℚ} {u v : UnpackedFloat} {m k : Nat} {e t : Int}

theorem signed_mul (s : Sign) (n : Nat) (t : Int) :
    ((s.apply n : Int) : ℚ) * 2 ^ t = signed s (n * 2 ^ t) := by
  cases s <;> simp [signed, Sign.apply]

theorem signed_natCast (s : Sign) (n : Nat) : signed s n = (s.apply n : Int) := by
  cases s <;> simp [signed, Sign.apply]

theorem abs_signed (s : Sign) (q : ℚ) : |signed s q| = |q| := by
  cases s
  · exact abs_neg q
  · rfl

/-- A number with a lower exponent. -/
theorem mul_two_zpow_of_le (m : Nat) (h : t ≤ e) :
    ((m * 2 ^ (e - t).toNat : Nat) : ℚ) * 2 ^ t = m * 2 ^ e := by
  obtain ⟨n, rfl⟩ := Int.le.dest h
  rw [add_sub_cancel_left, Int.toNat_natCast, natCast_mul_two_pow]

/-- A double that represents a number is a zero or has a sign, a mantissa and an exponent. -/
theorem Represents.cases (h : Represents x q) :
    (∃ s, x.toModel.unpack = .zero s ∧ q = 0) ∨
      ∃ s m e, ∃ h : Canonical m e,
        x.toModel.unpack = .finite s m e h.pos ∧ q = signed s (m * 2 ^ e) := by
  unfold Represents at h
  generalize x.toModel.unpack = u at h
  cases h with
  | zero s => exact .inl ⟨s, rfl, rfl⟩
  | finite s h => exact .inr ⟨s, _, _, h, rfl, rfl⟩

theorem Represents.isFinite (h : Represents x q) : x.isFinite = true := by
  change x.toModel.unpack.isFinite = true
  obtain ⟨s, hx, -⟩ | ⟨s, m, e, hm, hx, -⟩ := h.cases
  · rw [hx]
    rfl
  · rw [hx]
    rfl

/-! ## Order -/

theorem Canonical.value_pos (h : Canonical m e) : (0 : ℚ) < m * 2 ^ e :=
  mul_pos (Nat.cast_pos.mpr h.pos) (zpow_pos two_pos e)

/-- A mantissa has at most 53 bits. -/
theorem Canonical.value_lt (h : Canonical m e) (ht : e ≤ t) : (m : ℚ) * 2 ^ e < 2 ^ 53 * 2 ^ t :=
  calc (m : ℚ) * 2 ^ e
    _ < 2 ^ 53 * 2 ^ e := mul_lt_mul_of_pos_right (mod_cast h.lt) (zpow_pos two_pos e)
    _ ≤ 2 ^ 53 * 2 ^ t :=
      mul_le_mul_of_nonneg_left (zpow_le_zpow_right₀ one_le_two ht) (by norm_num)

/-- Of two canonical forms the one with the smaller exponent is the smaller number. -/
theorem Canonical.lt_of_exponent_lt (h : Canonical m e) (h' : Canonical k t) (hlt : e < t) :
    (m : ℚ) * 2 ^ e < k * 2 ^ t := by
  have hk : 2 ^ 52 ≤ k := h'.normal.resolve_right (h.le_exponent.trans_lt hlt).ne'
  calc (m : ℚ) * 2 ^ e
    _ < 2 ^ 53 * 2 ^ e := h.value_lt le_rfl
    _ = 2 ^ 52 * 2 ^ (e + 1) := by
      rw [zpow_add_one₀ two_ne_zero]
      ring
    _ ≤ k * 2 ^ t := by
      gcongr
      · exact_mod_cast hk
      · exact one_le_two
      · exact hlt

/-- Canonical parts are compared as a pair, the exponent first. -/
theorem Canonical.compare_eq (h : Canonical m e) (h' : Canonical k t) :
    (compare e t).then (compare m k) = compare ((m : ℚ) * 2 ^ e) (k * 2 ^ t) := by
  rcases lt_trichotomy e t with hlt | rfl | hgt
  · rw [compare_lt_iff_lt.mpr hlt, compare_lt_iff_lt.mpr (h.lt_of_exponent_lt h' hlt)]
    rfl
  · have hpow : (0 : ℚ) < 2 ^ e := zpow_pos two_pos e
    rw [compare_eq_iff_eq.mpr rfl, Ordering.eq_then]
    rcases lt_trichotomy m k with hlt | rfl | hgt
    · rw [compare_lt_iff_lt.mpr hlt, eq_comm, compare_lt_iff_lt]
      exact mul_lt_mul_of_pos_right (mod_cast hlt) hpow
    · rw [compare_eq_iff_eq.mpr rfl, compare_eq_iff_eq.mpr rfl]
    · rw [compare_gt_iff_gt.mpr hgt, eq_comm, compare_gt_iff_gt]
      exact mul_lt_mul_of_pos_right (mod_cast hgt) hpow
  · rw [compare_gt_iff_gt.mpr hgt, compare_gt_iff_gt.mpr (h'.lt_of_exponent_lt h hgt)]
    rfl

theorem compare_neg_neg (p q : ℚ) : compare (-p) (-q) = (compare p q).swap := by
  rcases lt_trichotomy p q with hlt | rfl | hgt
  · rw [compare_lt_iff_lt.mpr hlt, compare_gt_iff_gt.mpr (neg_lt_neg hlt)]
    rfl
  · rw [compare_eq_iff_eq.mpr rfl, compare_eq_iff_eq.mpr rfl]
    rfl
  · rw [compare_gt_iff_gt.mpr hgt, compare_lt_iff_lt.mpr (neg_lt_neg hgt)]
    rfl

/-- Unpacked doubles are compared as the numbers that they denote. -/
theorem Denotes.compare_eq (hu : Denotes u p) (hv : Denotes v q) :
    u.compare v = some (compare p q) := by
  cases hu with
  | zero s =>
    cases hv with
    | zero s' =>
      rw [compare_eq_iff_eq.mpr rfl]
      rfl
    | finite s' h' =>
      have hpos := h'.value_pos
      cases s' with
      | negative =>
        rw [signed_negative, compare_gt_iff_gt.mpr (neg_lt_zero.mpr hpos)]
        rfl
      | positive =>
        rw [signed_positive, compare_lt_iff_lt.mpr hpos]
        rfl
  | finite s h =>
    have hpos := h.value_pos
    cases hv with
    | zero s' =>
      cases s with
      | negative =>
        rw [signed_negative, compare_lt_iff_lt.mpr (neg_lt_zero.mpr hpos)]
        rfl
      | positive =>
        rw [signed_positive, compare_gt_iff_gt.mpr hpos]
        rfl
    | finite s' h' =>
      have hpos' := h'.value_pos
      cases s with
      | negative =>
        cases s' with
        | negative =>
          -- The larger magnitude is the smaller number.
          change some ((compare _ _).then (compare _ _)).swap = _
          rw [h.compare_eq h']
          exact congrArg some (compare_neg_neg _ _).symm
        | positive =>
          rw [signed_negative, signed_positive,
            compare_lt_iff_lt.mpr ((neg_lt_zero.mpr hpos).trans hpos')]
          rfl
      | positive =>
        cases s' with
        | negative =>
          rw [signed_negative, signed_positive,
            compare_gt_iff_gt.mpr ((neg_lt_zero.mpr hpos').trans hpos)]
          rfl
        | positive => exact congrArg some (h.compare_eq h')

/-- So doubles are ordered as the numbers that they represent. -/
theorem Represents.lt_iff (hx : Represents x p) (hy : Represents y q) : x < y ↔ p < q := by
  have hlt : x < y ↔ (x.toModel.unpack.compare y.toModel.unpack == some .lt) = true :=
    decide_eq_true_iff
  rw [hlt, Denotes.compare_eq hx hy, beq_iff_eq, Option.some.injEq, compare_lt_iff_lt]

theorem Represents.le_iff (hx : Represents x p) (hy : Represents y q) : x ≤ y ↔ p ≤ q := by
  have hle : x ≤ y ↔ (x.toModel.unpack.compare y.toModel.unpack).any (·.isLE) = true :=
    decide_eq_true_iff
  rw [hle, Denotes.compare_eq hx hy, Option.any_some, ← Ordering.ne_gt_iff_isLE]
  exact compare_le_iff_le

/-! ## Addition -/

/-- A sum that is representable is denoted exactly. -/
theorem Denotes.add (hu : Denotes u p) (hv : Denotes v q) (h : Representable (p + q)) :
    Denotes (UnpackedFloat.add .binary64 u v) (p + q) := by
  cases hu with
  | zero s =>
    rw [zero_add]
    cases hv with
    | zero s' =>
      change Denotes (if s == s' then .zero s else .zero .positive) 0
      split
      · exact .zero s
      · exact .zero .positive
    | finite s' h' => exact .finite s' h'
  | finite s hp =>
    rename_i m₁ e₁
    cases hv with
    | zero s' =>
      rw [add_zero]
      exact .finite s hp
    | finite s' hq =>
      rename_i m₂ e₂
      -- Both are brought to the smaller exponent, and their sum is normalized from there.
      have hsum : signed s (m₁ * 2 ^ e₁) + signed s' (m₂ * 2 ^ e₂) =
          ((s.apply (m₁ * 2 ^ (e₁ - min e₁ e₂).toNat : Nat) +
            s'.apply (m₂ * 2 ^ (e₂ - min e₁ e₂).toNat : Nat) : Int) : ℚ) * 2 ^ min e₁ e₂ := by
        rw [Int.cast_add, add_mul, signed_mul, signed_mul, mul_two_zpow_of_le _ (min_le_left _ _),
          mul_two_zpow_of_le _ (min_le_right _ _)]
      rw [hsum] at h ⊢
      unfold UnpackedFloat.add
      simp only [decreaseExponent, Nat.shiftLeft_eq]
      exact denotes_normalize .positive h

/-- The same for packed doubles. -/
theorem Represents.add (hx : Represents x p) (hy : Represents y q) (h : Representable (p + q)) :
    Represents (x + y) (p + q) :=
  (Denotes.add hx hy h).represents

theorem Represents.abs (hx : Represents x q) : Represents x.abs |q| := by
  have habs : Denotes x.toModel.unpack.abs |q| := by
    obtain ⟨s, hzero, rfl⟩ | ⟨s, m, e, h, hfinite, rfl⟩ := hx.cases
    · rw [hzero, abs_zero]
      exact .zero .positive
    · rw [hfinite, abs_signed, abs_of_pos h.value_pos]
      exact .finite .positive h
  exact habs.represents

/-! ## Truncation -/

/-- The number without its fraction. -/
def truncated (q : ℚ) : ℤ := if 0 ≤ q then ⌊q⌋ else ⌈q⌉

theorem truncated_intCast (i : ℤ) : truncated i = i := by
  unfold truncated
  split
  · exact Int.floor_intCast i
  · exact Int.ceil_intCast i

theorem truncated_signed (s : Sign) (h : 0 ≤ q) : truncated (signed s q) = s.apply ⌊q⌋ := by
  unfold truncated
  cases s with
  | positive => exact if_pos h
  | negative =>
    rw [signed_negative, Int.ceil_neg]
    split
    · rename_i hneg
      obtain rfl : q = 0 := by linarith
      rfl
    · rfl

/-- The integral part of a mantissa with an exponent, by shifts. -/
theorem floor_mul_two_zpow (m : Nat) (e : Int) :
    ⌊(m : ℚ) * 2 ^ e⌋ = (m * 2 ^ e.toNat / 2 ^ (-e).toNat : Nat) := by
  obtain ⟨n, rfl | rfl⟩ := e.eq_nat_or_neg
  · have hneg : (-(n : Int)).toNat = 0 := by omega
    rw [hneg, Int.toNat_natCast, Nat.pow_zero, Nat.div_one, zpow_natCast]
    exact_mod_cast Int.floor_natCast (m * 2 ^ n)
  · have hneg : (-(n : Int)).toNat = 0 := by omega
    rw [hneg, neg_neg, Int.toNat_natCast, Nat.pow_zero, Nat.mul_one, zpow_neg, zpow_natCast,
      ← div_eq_mul_inv]
    exact_mod_cast Rat.floor_natCast_div_natCast m (2 ^ n)

/-- Truncation drops the fraction. -/
theorem Represents.trunc (hx : Represents x q) : Represents (trunc x) (truncated q) := by
  obtain ⟨s, hzero, rfl⟩ | ⟨s, m, e, h, hfinite, rfl⟩ := hx.cases
  · have htrunc : Double.trunc x = x := by
      unfold Double.trunc
      rw [hzero]
    rw [htrunc]
    exact_mod_cast hx
  · rw [truncated_signed s h.value_pos.le, floor_mul_two_zpow, ← signed_natCast]
    unfold Double.trunc
    rw [hfinite]
    dsimp only
    split
    · -- A double with such an exponent is whole.
      rename_i he
      obtain ⟨n, rfl⟩ := Int.eq_ofNat_of_zero_le he
      have hneg : (-(n : Int)).toNat = 0 := by omega
      have hwhole := natCast_mul_two_pow m n 0
      rw [zpow_zero, mul_one, zero_add] at hwhole
      rw [hneg, Int.toNat_natCast, Nat.pow_zero, Nat.div_one, hwhole]
      exact hx
    · have he : e.toNat = 0 := by omega
      have hlt : m / 2 ^ (-e).toNat < 2 ^ 53 := (Nat.div_le_self m _).trans_lt h.lt
      have hwhole := represents_ofBinary s hlt (by decide : -1074 ≤ (0 : Int)) (by decide)
      rw [zpow_zero, mul_one] at hwhole
      rw [he, Nat.pow_zero, Nat.mul_one]
      exact hwhole

theorem mantissa_shiftRight (em : ExtendedMantissa) (n : Nat) :
    (em >>> n).mantissa = em.mantissa / 2 ^ n := by
  change (n.repeat ExtendedMantissa.shiftRightOne em).mantissa = _
  induction n with
  | zero => rw [Nat.pow_zero, Nat.div_one]; rfl
  | succ n ih =>
    rw [Nat.pow_succ, ← Nat.div_div_eq_div_mul, ← ih]
    rfl

/-- What denotes a number becomes the integer that the number is truncated to. -/
theorem Denotes.toInt_eq (h : Denotes u q) (low high : Int) : u.toInt low high = truncated q := by
  cases h with
  | zero s => exact (truncated_intCast 0).symm
  | finite s h =>
    rename_i m e
    have hshift : (0 - (e - (e.toNat : Int))).toNat = (-e).toNat := by omega
    rw [truncated_signed s h.value_pos.le, floor_mul_two_zpow]
    change roundToInt s m e = _
    simp only [roundToInt, decreaseExponent, shiftToExponent, sub_zero, Nat.shiftLeft_eq, hshift,
      mantissa_shiftRight]
    rfl

theorem Represents.toInt64_toModel {i : ℤ} (hx : Represents x i) (hlow : -2 ^ 63 ≤ i)
    (hhigh : i < 2 ^ 63) : x.toModel.toInt64.toInt = i := by
  change (Int64.ofIntClamp (x.toModel.unpack.toInt _ _)).toInt = i
  rw [Denotes.toInt_eq hx, truncated_intCast]
  exact Int64.toInt_ofIntClamp hlow (Int.le_sub_one_of_lt hhigh)

theorem Represents.toUInt64 {n : Nat} (hx : Represents x n) (h : n < 2 ^ 64) :
    x.toUInt64.toNat = n := by
  change (UInt64.ofNatClamp (x.toModel.unpack.toInt _ _).toNat).toNat = n
  rw [Denotes.toInt_eq hx, ← Int.cast_natCast, truncated_intCast, Int.toNat_natCast]
  exact UInt64.toNat_ofNatClamp_of_lt h

theorem represents_ofInt64 {n : Int64} (h : Representable n.toInt) :
    Represents (ofInt64 n) n.toInt := by
  have hvalue : (n.toInt : ℚ) * 2 ^ (0 : Int) = n.toInt := by rw [zpow_zero, mul_one]
  rw [← hvalue] at h ⊢
  exact (denotes_normalize .positive h).represents

/-! ## Remainder -/

/-- A remainder has the sign of the dividend. -/
theorem signed_sub_mul (s s' : Sign) {a b r : ℚ} {d : Nat} (h : a = b * d + r) :
    signed s a - (s.apply (s'.apply d) : Int) * signed s' b = signed s r := by
  subst h
  cases s <;> cases s' <;> simp only [signed, Sign.apply] <;> push_cast <;> ring

/-- The remainder differs from the dividend by a multiple of the divisor, and is less than it. -/
theorem Represents.rem (hx : Represents x p) (hy : Represents y q) (hq : q ≠ 0) :
    ∃ k : ℤ, Represents (rem x y) (p - k * q) ∧ |p - k * q| < |q| := by
  obtain ⟨s', -, rfl⟩ | ⟨s', n, f, hn, hyfinite, rfl⟩ := hy.cases
  · exact absurd rfl hq
  obtain ⟨s, hzero, rfl⟩ | ⟨s, m, e, hm, hfinite, rfl⟩ := hx.cases
  · have hrem : Double.rem x y = x := by
      unfold Double.rem
      rw [hzero, hyfinite]
    refine ⟨0, ?_, ?_⟩
    · rw [hrem, Int.cast_zero, zero_mul, sub_zero]
      exact hx
    · rw [Int.cast_zero, zero_mul, sub_zero, abs_zero]
      exact abs_pos.mpr hq
  obtain ⟨unit, hunit⟩ : ∃ unit, unit = min e f := ⟨_, rfl⟩
  obtain ⟨M, hM⟩ : ∃ M, M = m * 2 ^ (e - unit).toNat := ⟨_, rfl⟩
  obtain ⟨N, hN⟩ : ∃ N, N = n * 2 ^ (f - unit).toNat := ⟨_, rfl⟩
  have hp : (m : ℚ) * 2 ^ e = M * 2 ^ unit := by
    rw [hM, mul_two_zpow_of_le m (by omega)]
  have hq : (n : ℚ) * 2 ^ f = N * 2 ^ unit := by
    rw [hN, mul_two_zpow_of_le n (by omega)]
  have hNpos : 0 < N := hN ▸ Nat.mul_pos hn.pos (Nat.two_pow_pos _)
  -- One of the two has the lower exponent, so that its mantissa bounds the remainder.
  have hlt : M % N < 2 ^ 53 := by
    rcases min_choice e f with he | hf
    · have hMm : M = m := by rw [hM, hunit, he, sub_self, Int.toNat_zero, Nat.pow_zero, Nat.mul_one]
      exact (Nat.mod_le M N).trans_lt (hMm ▸ hm.lt)
    · have hNn : N = n := by rw [hN, hunit, hf, sub_self, Int.toNat_zero, Nat.pow_zero, Nat.mul_one]
      exact (Nat.mod_lt M hNpos).trans (hNn ▸ hn.lt)
  have hrem : Double.rem x y = ofBinary s (M % N) unit := by
    unfold Double.rem
    rw [hfinite, hyfinite, hM, hN, hunit]
    rfl
  have hvalue : signed s (m * 2 ^ e) - (s.apply (s'.apply (M / N : Nat)) : Int) *
      signed s' (n * 2 ^ f) = signed s ((M % N : Nat) * 2 ^ unit) := by
    have hdiv : (M : ℚ) = N * (M / N : Nat) + (M % N : Nat) := mod_cast (Nat.div_add_mod M N).symm
    refine signed_sub_mul s s' ?_
    rw [hp, hq, hdiv]
    ring
  refine ⟨s.apply (s'.apply (M / N : Nat)), ?_, ?_⟩
  · rw [hrem, hvalue]
    have := hm.le_exponent
    have := hn.le_exponent
    have := hm.exponent_le
    exact represents_ofBinary s hlt (by omega) (by omega)
  · rw [hvalue, abs_signed, abs_signed, abs_of_nonneg (by positivity), abs_of_pos hn.value_pos, hq]
    exact mul_lt_mul_of_pos_right (mod_cast Nat.mod_lt M hNpos) (zpow_pos two_pos unit)

end Double
end Linearizer
