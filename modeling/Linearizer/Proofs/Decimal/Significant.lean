import Linearizer.Proofs.Decimal.Layout
import Linearizer.Proofs.Double.Value
import Mathlib.Algebra.Order.Field.Basic
import Mathlib.Algebra.Order.Field.Power
import Mathlib.Tactic.FieldSimp
import Mathlib.Tactic.Linarith

/-!
# Significant digits

A finite double is rounded to a number of significant digits on the decimal grid where it has them,
to the nearest point and to the even one of two.

* `Decimal.Rounds` says that a decimal is a number rounded so;
* `Binary.significant_rounds`: the search finds the grid of every double, and the decimal on it.
-/

namespace Linearizer

/-- The decimal is the number rounded to `count` significant digits, a half to the even side. -/
structure Decimal.Rounds (d : Decimal) (count : Nat) (q : ℚ) : Prop where
  grid_le : 10 ^ (count - 1) * 10 ^ d.exponent ≤ q
  lt_grid : q < 10 ^ count * 10 ^ d.exponent
  near : |d.value - q| ≤ 10 ^ d.exponent / 2
  even : |d.value - q| = 10 ^ d.exponent / 2 → d.units % 2 = 0

theorem ten_pos : (0 : ℚ) < 10 := by norm_num

/-- What is rounded to a number of digits has as many, once a carry is written with its zero in the
exponent. -/
theorem Decimal.Rounds.exists_digits {d : Decimal} {count : Nat} {q : ℚ} (hcount : 0 < count)
    (h : d.Rounds count q) :
    ∃ (n : Nat) (e : Int), 10 ^ (count - 1) ≤ n ∧ n < 10 ^ count ∧ d.value = n * 10 ^ e := by
  have hgrid : (0 : ℚ) < 10 ^ d.exponent := zpow_pos ten_pos d.exponent
  obtain ⟨hbelow, habove⟩ := abs_le.mp h.near
  have hlow : (10 : ℚ) ^ (count - 1) - 1 / 2 ≤ d.units := by
    refine le_of_mul_le_mul_right ?_ hgrid
    have := h.grid_le
    change _ ≤ d.value
    linarith
  have hhigh : (d.units : ℚ) < 10 ^ count + 1 / 2 := by
    refine lt_of_mul_lt_mul_right ?_ hgrid.le
    have := h.lt_grid
    change d.value < _
    linarith
  have hle : 10 ^ (count - 1) ≤ d.units := by
    by_contra hlt
    have : (d.units : ℚ) + 1 ≤ 10 ^ (count - 1) := mod_cast not_le.mp hlt
    linarith
  have hge : d.units ≤ 10 ^ count := by
    by_contra hlt
    have : (10 : ℚ) ^ count + 1 ≤ d.units := mod_cast not_le.mp hlt
    linarith
  -- Rounding up may carry into one more digit, and then all others are zeros.
  rcases hge.lt_or_eq with hlt | heq
  · exact ⟨d.units, d.exponent, hle, hlt, rfl⟩
  · obtain ⟨c, rfl⟩ : ∃ c, count = c + 1 := ⟨count - 1, by omega⟩
    refine ⟨10 ^ c, d.exponent + 1, le_rfl, Nat.pow_lt_pow_right (by decide) c.lt_succ_self, ?_⟩
    rw [Decimal.value, heq, zpow_add_one₀ ten_pos.ne']
    push_cast
    ring

theorem Decimal.Rounds.units_pos {d : Decimal} {count : Nat} {q : ℚ} (hcount : 0 < count)
    (h : d.Rounds count q) : 0 < d.units := by
  obtain ⟨n, e, hn, -, hvalue⟩ := h.exists_digits hcount
  have hpos : (0 : ℚ) < n * 10 ^ e :=
    mul_pos (mod_cast (Nat.pow_pos (by decide)).trans_le hn) (zpow_pos ten_pos e)
  refine Nat.pos_of_ne_zero fun hzero => ?_
  rw [← hvalue, Decimal.value, hzero, Nat.cast_zero, zero_mul] at hpos
  exact absurd hpos (lt_irrefl 0)

/-- The nearest whole number to a quotient. -/
theorem roundHalfEven_near {num den : Nat} (hden : 0 < den) :
    |(roundHalfEven num den : ℚ) - num / den| ≤ 1 / 2 ∧
      (|(roundHalfEven num den : ℚ) - num / den| = 1 / 2 → roundHalfEven num den % 2 = 0) := by
  have hpos : (0 : ℚ) < den := mod_cast hden
  -- The quotient and the rest are atoms from here on.
  obtain ⟨q, hq⟩ : ∃ q, num / den = q := ⟨_, rfl⟩
  obtain ⟨r, hr⟩ : ∃ r, num % den = r := ⟨_, rfl⟩
  have hquotient : (num : ℚ) / den = q + r / den := by
    have hnum : (num : ℚ) = den * q + r := mod_cast hq ▸ hr ▸ (Nat.div_add_mod num den).symm
    rw [hnum]
    field_simp
  have hlt : (r : ℚ) / den < 1 := by
    rw [div_lt_one hpos]
    exact_mod_cast hr ▸ Nat.mod_lt num hden
  have hnonneg : (0 : ℚ) ≤ r / den := by positivity
  unfold roundHalfEven
  simp only [hq, hr, hquotient]
  split
  · rename_i hlow
    have hhalf : (r : ℚ) / den < 1 / 2 := by
      rw [div_lt_div_iff₀ hpos two_pos]
      exact_mod_cast (by omega : r * 2 < 1 * den)
    have habs : |(q : ℚ) - (q + r / den)| = r / den := by
      rw [sub_add_cancel_left, abs_neg, abs_of_nonneg hnonneg]
    rw [habs]
    exact ⟨hhalf.le, fun h => absurd h hhalf.ne⟩
  split
  · rename_i hhigh
    have hhalf : 1 / 2 < (r : ℚ) / den := by
      rw [div_lt_div_iff₀ two_pos hpos]
      exact_mod_cast (by omega : 1 * den < r * 2)
    have habs : |((q + 1 : Nat) : ℚ) - (q + r / den)| = 1 - r / den := by
      rw [Nat.cast_add_one, add_sub_add_left_eq_sub, abs_of_pos (sub_pos.mpr hlt)]
    rw [habs]
    exact ⟨by linarith, fun h => by linarith⟩
  · have hhalf : (r : ℚ) / den = 1 / 2 := by
      rw [div_eq_div_iff hpos.ne' two_ne_zero]
      exact_mod_cast (by omega : r * 2 = 1 * den)
    refine ⟨?_, fun _ => by omega⟩
    rw [hhalf]
    rcases Nat.mod_two_eq_zero_or_one q with h | h
    · rw [h, Nat.add_zero, sub_add_cancel_left, abs_neg, abs_of_pos (by norm_num)]
    · rw [h, Nat.cast_add_one, add_sub_add_left_eq_sub, abs_of_pos (by norm_num)]
      norm_num

namespace Binary

/-- The number that is scaled. -/
def value (b : Binary) : ℚ := b.mantissa * 2 ^ b.exponent

theorem pow_toNat {a : ℚ} (ha : a ≠ 0) (e : Int) : a ^ e.toNat = a ^ e * a ^ (-e).toNat := by
  obtain ⟨n, rfl | rfl⟩ := e.eq_nat_or_neg
  · have hneg : (-(n : Int)).toNat = 0 := by omega
    rw [hneg, Int.toNat_natCast, pow_zero, mul_one, zpow_natCast]
  · have hneg : (-(n : Int)).toNat = 0 := by omega
    rw [hneg, neg_neg, Int.toNat_natCast, pow_zero, zpow_neg, zpow_natCast,
      inv_mul_cancel₀ (pow_ne_zero n ha)]

theorem overPowerOfTen_den_pos (b : Binary) (k : Int) : 0 < (b.overPowerOfTen k).2 :=
  Nat.mul_pos (Nat.two_pow_pos _) (Nat.pow_pos (by decide))

/-- The quotient counts units of the grid. -/
theorem overPowerOfTen_div (b : Binary) (k : Int) :
    ((b.overPowerOfTen k).1 : ℚ) / (b.overPowerOfTen k).2 = b.value / 10 ^ k := by
  have htwo := pow_toNat (two_ne_zero : (2 : ℚ) ≠ 0) b.exponent
  have hten := pow_toNat ten_pos.ne' k
  have hden : ((b.overPowerOfTen k).2 : ℚ) ≠ 0 := by exact_mod_cast (b.overPowerOfTen_den_pos k).ne'
  have hgrid : (10 : ℚ) ^ k ≠ 0 := zpow_ne_zero k ten_pos.ne'
  rw [div_eq_div_iff hden hgrid]
  change ((b.mantissa * 2 ^ b.exponent.toNat * 10 ^ (-k).toNat : Nat) : ℚ) * 10 ^ k =
    b.value * ((2 ^ (-b.exponent).toNat * 10 ^ k.toNat : Nat) : ℚ)
  push_cast
  rw [htwo, hten, value]
  ring

theorem grid_le_iff (b : Binary) (k : Int) (n : Nat) :
    (b.overPowerOfTen k).2 * n ≤ (b.overPowerOfTen k).1 ↔ (n : ℚ) * 10 ^ k ≤ b.value := by
  have hden : (0 : ℚ) < (b.overPowerOfTen k).2 := mod_cast b.overPowerOfTen_den_pos k
  have hgrid : (0 : ℚ) < 10 ^ k := zpow_pos ten_pos k
  rw [← le_div_iff₀ hgrid, ← overPowerOfTen_div, le_div_iff₀ hden, mul_comm]
  exact_mod_cast Iff.rfl

/-- The grids are passed in order. -/
theorem succ_mem_of_gridExponents {before after : List Int} {k : Int}
    (h : gridExponents = before ++ k :: after) (hk : k < 309) : k + 1 ∈ before := by
  have hget {i : Nat} (hi : i < 651) : gridExponents[i]? = some (309 - (i : Int)) := by
    unfold gridExponents
    rw [List.getElem?_map, List.getElem?_range hi]
    rfl
  have hlength : before.length < 651 := by
    have htotal : gridExponents.length = 651 := by
      rw [gridExponents, List.length_map, List.length_range]
    rw [h, List.length_append, List.length_cons] at htotal
    omega
  have hlast : gridExponents[before.length]? = some k := by
    rw [h, List.getElem?_append_right le_rfl, Nat.sub_self]
    rfl
  rw [hget hlength, Option.some.injEq] at hlast
  have hprevious := hget (by omega : before.length - 1 < 651)
  have hsucc : 309 - ((before.length - 1 : Nat) : Int) = k + 1 := by omega
  rw [h, List.getElem?_append_left (by omega), hsucc] at hprevious
  exact List.mem_of_getElem? hprevious

theorem exists_significant {b : Binary} {count : Nat}
    (hlow : 10 ^ (count - 1) * 10 ^ (-341 : Int) ≤ b.value)
    (hhigh : b.value < 10 ^ (count - 1) * 10 ^ (309 : Int)) :
    ∃ k : Int, b.significant count =
        ⟨roundHalfEven (b.overPowerOfTen k).1 (b.overPowerOfTen k).2, k⟩ ∧
      10 ^ (count - 1) * 10 ^ k ≤ b.value ∧ b.value < 10 ^ (count - 1) * 10 ^ (k + 1) := by
  have hgrid (k : Int) : (b.overPowerOfTen k).2 * Nat.pow 10 (count - 1) ≤ (b.overPowerOfTen k).1 ↔
      10 ^ (count - 1) * 10 ^ k ≤ b.value := by
    rw [grid_le_iff]
    exact_mod_cast Iff.rfl
  unfold significant
  simp only [hgrid]
  cases hfound : gridExponents.findSome? _ with
  | none =>
    -- The smallest grid is always fine enough.
    have hlast := List.findSome?_eq_none_iff.mp hfound (-341) (by decide +kernel)
    rw [if_pos hlow] at hlast
    cases hlast
  | some d =>
    obtain ⟨before, k, after, hsplit, hk, hnone⟩ := List.findSome?_eq_some_iff.mp hfound
    split at hk
    · rename_i hle
      -- The grid above is not the first of the list, so it has been tried and was too coarse.
      have hk309 : k < 309 := by
        by_contra hge
        have hpow : (10 : ℚ) ^ (309 : Int) ≤ 10 ^ k :=
          zpow_le_zpow_right₀ (by norm_num) (by omega)
        have hgrid := mul_le_mul_of_nonneg_left hpow (pow_nonneg ten_pos.le (count - 1))
        exact absurd hhigh (not_lt.mpr (hgrid.trans hle))
      refine ⟨k, (Option.some.inj hk).symm, hle, ?_⟩
      have hbefore := hnone (k + 1) (succ_mem_of_gridExponents hsplit hk309)
      split at hbefore
      · cases hbefore
      · exact not_le.mp ‹_›
    · cases hk

/-- The search finds the grid of a number in the range of the doubles. -/
theorem significant_rounds {b : Binary} {count : Nat} (hcount : 0 < count)
    (hlow : 10 ^ (count - 1) * 10 ^ (-341 : Int) ≤ b.value)
    (hhigh : b.value < 10 ^ (count - 1) * 10 ^ (309 : Int)) :
    (b.significant count).Rounds count b.value := by
  obtain ⟨k, hd, hle, hlt⟩ := exists_significant hlow hhigh
  have hgrid : (0 : ℚ) < 10 ^ k := zpow_pos ten_pos k
  have hround := @roundHalfEven_near (b.overPowerOfTen k).1 _ (b.overPowerOfTen_den_pos k)
  rw [overPowerOfTen_div] at hround
  obtain ⟨n, hn⟩ : ∃ n, roundHalfEven (b.overPowerOfTen k).1 (b.overPowerOfTen k).2 = n := ⟨_, rfl⟩
  rw [hn] at hround
  obtain ⟨hnear, heven⟩ := hround
  -- In units of the grid the distance is that to the quotient.
  have hdistance : |(n : ℚ) * 10 ^ k - b.value| = |n - b.value / 10 ^ k| * 10 ^ k := by
    have hscale : (n : ℚ) * 10 ^ k - b.value = (n - b.value / 10 ^ k) * 10 ^ k := by
      rw [sub_mul, div_mul_cancel₀ _ hgrid.ne']
    rw [hscale, abs_mul, abs_of_pos hgrid]
  have hhalf : (10 : ℚ) ^ k / 2 = 1 / 2 * 10 ^ k := by ring
  rw [hd, hn]
  refine ⟨hle, ?_, ?_, ?_⟩
  · obtain ⟨c, rfl⟩ : ∃ c, count = c + 1 := ⟨count - 1, by omega⟩
    have hnext : (10 : ℚ) ^ (c + 1) * 10 ^ k = 10 ^ (c + 1 - 1) * 10 ^ (k + 1) := by
      rw [pow_succ, Nat.add_sub_cancel, zpow_add_one₀ ten_pos.ne']
      ring
    exact hnext ▸ hlt
  · change |(n : ℚ) * 10 ^ k - b.value| ≤ 10 ^ k / 2
    rw [hdistance, hhalf]
    exact mul_le_mul_of_nonneg_right hnear hgrid.le
  · change |(n : ℚ) * 10 ^ k - b.value| = 10 ^ k / 2 → n % 2 = 0
    rw [hdistance, hhalf]
    exact fun h => heven (mul_right_cancel₀ hgrid.ne' h)

end Binary
end Linearizer
