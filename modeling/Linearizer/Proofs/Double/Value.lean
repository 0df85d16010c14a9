import Linearizer.Decimal.Double
import Mathlib.Algebra.Order.Field.Rat
import Mathlib.Tactic.Ring

/-!
# The numbers that doubles denote

A finite double denotes a rational number, which its bits give: a sign, eleven bits of exponent and
52 bits of fraction. The parts that the arithmetic of doubles works on denote the same number.

* `Double.value` is the number, read from the bits;
* `Double.Canonical` holds of the mantissa and the exponent of a double, and of no other pair that
  denotes the same number;
* `Double.unpack_of_isFinite` and `Double.unpack_pack` go from the bits to these parts and back.
-/

namespace Linearizer
namespace Double

open Float.Model Float.Model.UnpackedFloat

/-! ## Bits -/

/-- The eleven bits after the sign. -/
def exponentBits (x : Float) : Nat := x.toBits.toNat / 2 ^ 52 % 2 ^ 11

/-- The lower 52 bits. -/
def fractionBits (x : Float) : Nat := x.toBits.toNat % 2 ^ 52

/-- The number that the bits of a finite double denote. Where the bits of the exponent are zero the
fraction counts the least double, and else it follows a leading one. -/
def value (x : Float) : ℚ :=
  (if 2 ^ 63 ≤ x.toBits.toNat then -1 else 1) *
    if exponentBits x = 0 then fractionBits x * (2 : ℚ) ^ (-1074 : ℤ)
    else (2 ^ 52 + fractionBits x) * (2 : ℚ) ^ ((exponentBits x : ℤ) - 1075)

/-- The exponent is read from the bits after the sign. -/
theorem toNat_unpackExponent (x : Float) :
    (@unpackExponent .binary64 x.toModel.toBits.toBitVec).toNat = exponentBits x := by
  change (x.toBits.toNat >>> 52) % 2 ^ 11 = _
  rw [Nat.shiftRight_eq_div_pow, exponentBits]

theorem toNat_unpackMantissa (x : Float) :
    (@unpackMantissa .binary64 x.toModel.toBits.toBitVec).toNat = fractionBits x := by
  change (x.toBits.toNat >>> 0) % 2 ^ 52 = _
  rw [Nat.shiftRight_zero, fractionBits]

theorem toNat_unpackSign (x : Float) :
    (@unpackSign .binary64 x.toModel.toBits.toBitVec).toNat = x.toBits.toNat / 2 ^ 63 := by
  change (x.toBits.toNat >>> 63) % 2 ^ 1 = _
  have := x.toBits.toNat_lt
  rw [Nat.shiftRight_eq_div_pow, Nat.mod_eq_of_lt]
  omega

theorem toNat_one_append (m : BitVec 52) : (1#1 ++ m).toNat = 2 ^ 52 + m.toNat := by
  rw [BitVec.toNat_append, ← Nat.shiftLeft_add_eq_or_of_lt m.isLt]
  rfl

theorem one_append_pos {n : Nat} (m : BitVec n) : 0 < (1#1 ++ m).toNat := by simp

/-! ## Parts -/

/-- The mantissa and the exponent are those of a finite double: the mantissa has 53 bits, or less
where the exponent is the least. -/
structure Canonical (m : Nat) (e : Int) : Prop where
  pos : 0 < m
  lt : m < 2 ^ 53
  le_exponent : -1074 ≤ e
  exponent_le : e ≤ 971
  normal : 2 ^ 52 ≤ m ∨ e = -1074

/-- The factor of a sign. -/
def signed (s : Sign) (q : ℚ) : ℚ :=
  match s with
  | .negative => -q
  | .positive => q

theorem signed_negative (q : ℚ) : signed .negative q = -q := rfl

theorem signed_positive (q : ℚ) : signed .positive q = q := rfl

/-- The sign that the highest bit gives. -/
def sign (x : Float) : Sign := if 2 ^ 63 ≤ x.toBits.toNat then .negative else .positive

theorem ofBitVec_unpackSign (x : Float) :
    Sign.ofBitVec (@unpackSign .binary64 x.toModel.toBits.toBitVec) = sign x := by
  have hsign := toNat_unpackSign x
  have hlt := x.toBits.toNat_lt
  unfold Sign.ofBitVec sign
  split
  · rename_i h0
    rw [h0] at hsign
    change 0 = _ at hsign
    rw [if_neg (by omega)]
  · rename_i hne
    rw [if_pos]
    by_contra h
    refine hne (BitVec.eq_of_toNat_eq ?_)
    rw [hsign]
    change _ = 0
    omega

section

variable {x : Float} {s : Sign} {m : Nat} {e : Int} {hm : 0 < m}

theorem unpackExponent_eq_iff {n : Nat} (hn : n < 2 ^ 11) :
    @unpackExponent .binary64 x.toModel.toBits.toBitVec = BitVec.ofNat 11 n ↔
      exponentBits x = n := by
  rw [← toNat_unpackExponent, ← BitVec.toNat_inj]
  change _ = n % 2 ^ 11 ↔ _
  rw [Nat.mod_eq_of_lt hn]

theorem unpackMantissa_eq_zero_iff :
    @unpackMantissa .binary64 x.toModel.toBits.toBitVec = 0#52 ↔ fractionBits x = 0 := by
  rw [← toNat_unpackMantissa, ← BitVec.toNat_inj]
  rfl

/-- The cases of what the bits give, by the exponent and the fraction. -/
theorem unpack_cases (x : Float) :
    (∃ s, x.toModel.unpack = .infinity s) ∨ x.toModel.unpack = .notANumber ∨
      (x.toModel.unpack = .zero (sign x) ∧ exponentBits x = 0 ∧ fractionBits x = 0) ∨
      ∃ m e, ∃ hm : 0 < m, x.toModel.unpack = .finite (sign x) m e hm ∧
        ((exponentBits x = 0 ∧ m = fractionBits x ∧ e = -1074) ∨
          (0 < exponentBits x ∧ exponentBits x < 2047 ∧ m = 2 ^ 52 + fractionBits x ∧
            e = exponentBits x - 1075)) := by
  have hexponent_lt : exponentBits x < 2 ^ 11 := Nat.mod_lt _ (by decide)
  unfold Float.Model.unpack UnpackedFloat.unpack
  dsimp only
  rw [ofBitVec_unpackSign, toNat_unpackExponent]
  by_cases hmax : @unpackExponent .binary64 x.toModel.toBits.toBitVec = -1#11
  · -- The largest exponent stands for infinities and for what is no number.
    rw [if_pos hmax]
    by_cases hfraction : @unpackMantissa .binary64 x.toModel.toBits.toBitVec = 0#52
    · rw [if_pos hfraction]
      exact .inl ⟨_, rfl⟩
    · rw [if_neg hfraction]
      exact .inr (.inl rfl)
  rw [if_neg hmax]
  by_cases hexponent : @unpackExponent .binary64 x.toModel.toBits.toBitVec = 0#11
  · -- The smallest one for zeros and for mantissas without a leading bit.
    have hzero := (unpackExponent_eq_iff (by decide)).mp hexponent
    rw [if_pos hexponent]
    by_cases hfraction : @unpackMantissa .binary64 x.toModel.toBits.toBitVec = 0#52
    · rw [dif_pos hfraction]
      exact .inr (.inr (.inl ⟨rfl, hzero, unpackMantissa_eq_zero_iff.mp hfraction⟩))
    · have hpos : 0 < (@unpackMantissa .binary64 x.toModel.toBits.toBitVec).toNat := by
        rw [toNat_unpackMantissa]
        exact Nat.pos_of_ne_zero (mt unpackMantissa_eq_zero_iff.mpr hfraction)
      rw [dif_neg hfraction]
      refine .inr (.inr (.inr ⟨_, _, hpos, rfl, .inl ⟨hzero, toNat_unpackMantissa x, ?_⟩⟩))
      rw [hzero]
      rfl
  · -- All others for mantissas with a leading bit, which is not stored.
    rw [if_neg hexponent]
    have hzero : exponentBits x ≠ 0 := mt (unpackExponent_eq_iff (by decide)).mpr hexponent
    have hmax : exponentBits x ≠ 2047 := mt (unpackExponent_eq_iff (by decide)).mpr hmax
    refine .inr (.inr (.inr ⟨_, _, one_append_pos _, rfl, .inr ⟨by omega, by omega, ?_, rfl⟩⟩))
    rw [toNat_one_append, toNat_unpackMantissa]

theorem bits_of_unpack_zero (h : x.toModel.unpack = .zero s) :
    s = sign x ∧ exponentBits x = 0 ∧ fractionBits x = 0 := by
  obtain ⟨_, hx⟩ | hx | ⟨hx, bits⟩ | ⟨_, _, _, hx, -⟩ := unpack_cases x <;> rw [hx] at h <;> cases h
  exact ⟨rfl, bits⟩

/-- The sign, the mantissa and the exponent of a finite double from its bits. -/
theorem bits_of_unpack_finite (h : x.toModel.unpack = .finite s m e hm) :
    s = sign x ∧
      ((exponentBits x = 0 ∧ m = fractionBits x ∧ e = -1074) ∨
        (0 < exponentBits x ∧ exponentBits x < 2047 ∧ m = 2 ^ 52 + fractionBits x ∧
          e = exponentBits x - 1075)) := by
  obtain ⟨_, hx⟩ | hx | ⟨hx, -⟩ | ⟨_, _, _, hx, bits⟩ := unpack_cases x <;> rw [hx] at h <;> cases h
  exact ⟨rfl, bits⟩

theorem canonical_of_unpack (h : x.toModel.unpack = .finite s m e hm) : Canonical m e := by
  have hfraction : fractionBits x < 2 ^ 52 := Nat.mod_lt _ (by decide)
  obtain ⟨-, ⟨-, rfl, rfl⟩ | ⟨hpos, hlt, rfl, rfl⟩⟩ := bits_of_unpack_finite h
  · exact ⟨hm, by omega, le_rfl, by decide, .inr rfl⟩
  · exact ⟨hm, by omega, by omega, by omega, .inl (by omega)⟩

theorem value_of_unpack_zero (h : x.toModel.unpack = .zero s) : value x = 0 := by
  obtain ⟨-, hexponent, hfraction⟩ := bits_of_unpack_zero h
  simp [value, hexponent, hfraction]

/-- The value of a finite double from its mantissa and exponent. -/
theorem value_of_unpack_finite (h : x.toModel.unpack = .finite s m e hm) :
    value x = signed s (m * 2 ^ e) := by
  have hsigned (q : ℚ) : (if 2 ^ 63 ≤ x.toBits.toNat then -1 else 1) * q = signed (sign x) q := by
    unfold sign
    split <;> simp [signed]
  obtain ⟨rfl, ⟨hzero, rfl, rfl⟩ | ⟨hpos, hlt, rfl, rfl⟩⟩ := bits_of_unpack_finite h
  · rw [value, hsigned, if_pos hzero]
  · rw [value, hsigned, if_neg (by omega)]
    push_cast
    rfl

/-- A finite double is zero, or has a canonical mantissa and exponent. -/
theorem unpack_of_isFinite (h : x.isFinite = true) :
    (∃ s, x.toModel.unpack = .zero s) ∨
      ∃ s m e, ∃ hm : 0 < m, x.toModel.unpack = .finite s m e hm := by
  change x.toModel.unpack.isFinite = true at h
  cases hx : x.toModel.unpack with
  | zero s => exact .inl ⟨s, rfl⟩
  | finite s m e hm => exact .inr ⟨s, m, e, hm, rfl⟩
  | infinity s =>
    rw [hx] at h
    cases h
  | notANumber =>
    rw [hx] at h
    cases h

end

/-! ## Packing -/

theorem unpack_pack_zero (s : Sign) : (Float.Model.pack (.zero s)).unpack = .zero s := by
  cases s <;> rfl

theorem finite_congr {s s' : Sign} {m m' : Nat} {e e' : Int} {hm : 0 < m} {hm' : 0 < m'}
    (hs : s = s') (hmm : m = m') (he : e = e') :
    (.finite s m e hm : UnpackedFloat) = .finite s' m' e' hm' := by
  subst hs hmm he
  rfl

section

variable {spec : Format} {s : Sign} {e : BitVec spec.exponentBits}
  {m : BitVec spec.mantissaBitsWithoutImplicit}

theorem sign_packComponents : Sign.ofBitVec (unpackSign (packComponents spec s e m)) = s := by
  have highest : unpackSign (packComponents spec s e m) = s.toBitVec := by
    ext i hi
    obtain rfl : i = 0 := by omega
    change (BitVec.cast _ (BitVec.extractLsb (spec.mantissaBitsWithoutImplicit + spec.exponentBits)
      (spec.mantissaBitsWithoutImplicit + spec.exponentBits) (s.toBitVec ++ e ++ m)))[0] = _
    simp [BitVec.getElem_append, Nat.add_comm]
  rw [highest]
  cases s <;> rfl

/-- Packing and unpacking a mantissa with its leading bit. -/
theorem unpack_normal (hmax : e ≠ -1#_) (hzero : e ≠ 0#_) :
    UnpackedFloat.unpack spec (packComponents spec s e m) =
      .finite s (1#1 ++ m).toNat (e.toNat - (spec.exponentBias + spec.mantissaBitsWithoutImplicit))
        (one_append_pos m) := by
  unfold UnpackedFloat.unpack
  dsimp only
  rw [if_neg (by rwa [unpackExponent_packComponents]),
    if_neg (by rwa [unpackExponent_packComponents])]
  refine finite_congr sign_packComponents ?_ ?_
  · rw [unpackMantissa_packComponents]
  · rw [unpackExponent_packComponents]

/-- Packing and unpacking a mantissa without a leading bit. -/
theorem unpack_subnormal (hm : 0 < m.toNat) :
    UnpackedFloat.unpack spec (packComponents spec s 0#_ m) =
      .finite s m.toNat (1 - (spec.exponentBias + spec.mantissaBitsWithoutImplicit)) hm := by
  have hmax : (0#_ : BitVec spec.exponentBits) ≠ -1#_ := by
    rw [BitVec.neg_one_eq_allOnes]
    intro h
    have hzero := congrArg BitVec.toNat h
    have hlt := Nat.pow_lt_pow_right (a := 2) (by decide) spec.he
    rw [BitVec.toNat_zero, BitVec.toNat_allOnes] at hzero
    omega
  have hne : m ≠ 0#_ := by
    rintro rfl
    simp at hm
  unfold UnpackedFloat.unpack
  dsimp only
  rw [if_neg (by rwa [unpackExponent_packComponents]), if_pos unpackExponent_packComponents,
    dif_neg (by rwa [unpackMantissa_packComponents])]
  refine finite_congr sign_packComponents ?_ ?_
  · rw [unpackMantissa_packComponents]
  · rw [unpackExponent_packComponents, BitVec.toNat_zero]
    push_cast
    ring

end

/-- Canonical parts are not changed by packing. -/
theorem unpack_pack (s : Sign) {m : Nat} {e : Int} (h : Canonical m e) :
    (Float.Model.pack (.finite s m e h.pos)).unpack = .finite s m e h.pos := by
  obtain ⟨hpos, hlt, hlow, hhigh, hnormal⟩ := h
  obtain ⟨biased, hbiased⟩ : ∃ b : Nat, (b : Int) = e + 1075 := ⟨(e + 1075).toNat, by omega⟩
  have htoNat : (e + Format.binary64.exponentBias +
      Format.binary64.mantissaBitsWithoutImplicit).toNat = biased := by
    change (e + 1023 + 52).toNat = biased
    omega
  have hlog : m.log2 < 53 := (Nat.log2_lt hpos.ne').mpr hlt
  change UnpackedFloat.unpack .binary64 (UnpackedFloat.pack .binary64 _) = _
  delta UnpackedFloat.pack
  dsimp only
  rw [htoNat, if_neg (by omega)]
  by_cases hm : 2 ^ 52 ≤ m
  · -- A normal mantissa loses its leading one, and gets it back.
    have hlog52 : 52 ≤ m.log2 := (Nat.le_log2 hpos.ne').mpr hm
    have hne {n : Nat} (hn : n < 2 ^ 11) (h : biased ≠ n) :
        BitVec.ofNat 11 biased ≠ BitVec.ofNat 11 n := by
      intro heq
      have := congrArg BitVec.toNat heq
      simp only [BitVec.toNat_ofNat] at this
      omega
    have hmax : BitVec.ofNat 11 biased ≠ -1#11 := hne (n := 2047) (by decide) (by omega)
    have hzero : BitVec.ofNat 11 biased ≠ 0#11 := hne (by decide) (by omega)
    rw [if_pos (by change m.log2 + 1 = 53; omega), unpack_normal hmax hzero]
    refine finite_congr rfl ?_ ?_
    · rw [toNat_one_append, BitVec.toNat_ofNat]
      omega
    · rw [BitVec.toNat_ofNat]
      change ((biased % 2 ^ 11 : Nat) : Int) - (1023 + 52) = e
      omega
  · -- A mantissa below that is stored as it is, with the least exponent.
    have hlog52 : m.log2 < 52 := (Nat.log2_lt hpos.ne').mpr (by omega)
    have htoNat : (BitVec.ofNat 52 m).toNat = m := by
      rw [BitVec.toNat_ofNat]
      omega
    rw [if_neg (by change ¬m.log2 + 1 = 53; omega), unpack_subnormal (by rw [htoNat]; exact hpos)]
    refine finite_congr rfl htoNat ?_
    rw [hnormal.resolve_left hm]
    rfl

end Double
end Linearizer
