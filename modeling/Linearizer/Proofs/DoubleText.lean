import Linearizer.Proofs.LeadingNumbers
import Linearizer.Proofs.Decimal.Significant
import Linearizer.Proofs.Double.Arithmetic

/-!
# Texts of doubles

The text of a finite double writes what the double is when it is rounded to fourteen significant
digits, and nothing but that: the layouts keep the rounded value, write no zeros that say nothing,
and stay within the grammar of numerals.

* `Number.rendering` is the rounded double, and `Number.rounds_rendering` how it is rounded;
* `Number.general_keeps_value` is the result for all finite doubles and separators.
-/

namespace Linearizer
namespace Number

open Numeral Double Float.Model

variable {x : Float} {context : Context}

/-- The decimal that the text of a double is made from. -/
def rendering (x : Float) : Decimal :=
  match x.toModel.unpack with
  | .finite _ m e _ => (Binary.mk m e).significant precision
  | _ => ⟨0, 0⟩

/-- The sign that is written before a double's digits. -/
def writtenSign : UnpackedFloat.Sign → Option Numeral.Sign
  | .negative => some .minus
  | .positive => none

theorem factor_writtenSign (s : UnpackedFloat.Sign) (q : ℚ) :
    Sign.factor (writtenSign s) * q = signed s q := by
  cases s <;> simp [Sign.factor, writtenSign, signed]

theorem least_on_grid : (10 : ℚ) ^ 13 * 10 ^ (-341 : Int) ≤ 2 ^ (-1074 : Int) := by
  have hnat : 10 ^ 13 * 2 ^ 1074 ≤ 1 * 10 ^ 341 := by decide +kernel
  rw [zpow_neg, zpow_neg, ← div_eq_mul_inv, ← one_div,
    div_le_div_iff₀ (zpow_pos ten_pos _) (zpow_pos two_pos _)]
  exact_mod_cast hnat

theorem greatest_on_grid : (2 : ℚ) ^ 53 * 2 ^ (971 : Int) ≤ 10 ^ 13 * 10 ^ (309 : Int) := by
  have hnat : 2 ^ 53 * 2 ^ 971 ≤ 10 ^ 13 * 10 ^ 309 := by decide +kernel
  exact_mod_cast hnat

/-- Every finite double is within the grids. -/
theorem rounds_of_canonical {m : Nat} {e : Int} (h : Canonical m e) :
    ((Binary.mk m e).significant precision).Rounds precision (m * 2 ^ e) := by
  have hlow : (2 : ℚ) ^ (-1074 : Int) ≤ m * 2 ^ e := calc
    (2 : ℚ) ^ (-1074 : Int) ≤ 2 ^ e := zpow_le_zpow_right₀ one_le_two h.le_exponent
    _ ≤ m * 2 ^ e := le_mul_of_one_le_left (zpow_pos two_pos e).le (mod_cast h.pos)
  exact Binary.significant_rounds (by decide) (least_on_grid.trans hlow)
    ((h.value_lt h.exponent_le).trans_le greatest_on_grid)

theorem rendering_of_unpack {s : UnpackedFloat.Sign} {m : Nat} {e : Int} {hm : 0 < m}
    (hx : x.toModel.unpack = .finite s m e hm) :
    rendering x = (Binary.mk m e).significant precision := by
  rw [rendering, hx]

theorem rounds_rendering (hfinite : x.isFinite = true) (h : value x ≠ 0) :
    (rendering x).Rounds precision |value x| := by
  obtain ⟨s, hx⟩ | ⟨s, m, e, hm, hx⟩ := unpack_of_isFinite hfinite
  · exact absurd (value_of_unpack_zero hx) h
  · have hcanonical := canonical_of_unpack hx
    rw [value_of_unpack_finite hx, abs_signed, abs_of_pos hcanonical.value_pos,
      rendering_of_unpack hx]
    exact rounds_of_canonical hcanonical

theorem withSign_eq (body : List Char) (s : UnpackedFloat.Sign) :
    withSign body s = Sign.text (writtenSign s) ++ body := by
  cases s <;> rfl

theorem toList_general {s : UnpackedFloat.Sign} {m : Nat} {e : Int} {hm : 0 < m}
    (hx : x.toModel.unpack = .finite s m e hm) :
    (general x context).toList =
      Sign.text (writtenSign s) ++ layout (trimmed (rendering x)) context.separator := by
  rw [general, hx, String.toList_ofList, withSign_eq, rendering_of_unpack hx]

theorem exists_writes (hfinite : x.isFinite = true) (hs : Separates context.separator) :
    ∃ p : Spelling, p.sign = writtenSign (sign x) ∧
      p.Writes context.separator (general x context).toList
        (signed (sign x) (rendering x).value) := by
  rw [← factor_writtenSign]
  obtain ⟨s, hx⟩ | ⟨s, m, e, hm, hx⟩ := unpack_of_isFinite hfinite
  · -- A zero has a sign and one digit.
    obtain ⟨rfl, -, -⟩ := bits_of_unpack_zero hx
    have hrendering : rendering x = ⟨0, 0⟩ := by rw [rendering, hx]
    have hzero : Decimal.positional ⟨0, 0⟩ context.separator = ['0'] := by
      simp [Decimal.positional, Decimal.digits]
    have htext : (general x context).toList = Sign.text (writtenSign (sign x)) ++
        Decimal.positional ⟨0, 0⟩ context.separator := by
      rw [general, hx, hzero]
      cases sign x <;> simp [writtenSign, Sign.text]
    rw [htext, hrendering]
    exact ⟨_, rfl, Spelling.writes_ofWhole hs _ le_rfl⟩
  · obtain ⟨rfl, -⟩ := bits_of_unpack_finite hx
    have hrounds := rounds_of_canonical (canonical_of_unpack hx)
    rw [← rendering_of_unpack hx] at hrounds
    obtain ⟨hvalue, hlast⟩ := trimmed_spec (hrounds.units_pos (by decide))
    rw [toList_general hx, ← hvalue, layout]
    -- The layout goes by the exponent: scientific, without places, or with places.
    split
    · exact ⟨_, rfl, Spelling.writes_ofScaled hs _ hlast⟩
    · rcases le_or_gt 0 (trimmed (rendering x)).exponent with hexponent | hexponent
      · exact ⟨_, rfl, Spelling.writes_ofWhole hs _ hexponent⟩
      · exact ⟨_, rfl, Spelling.writes_ofPlaces hs _ hexponent hlast⟩

/-- A text that a spelling writes with a point is read by that spelling. -/
theorem leads_of_writes {p : Spelling} {s : String} {q : ℚ} (h : p.Writes '.' s.toList q) :
    p.text = s.toList ∧ p.Leads (s.toList.dropWhile isPadding) := by
  have htext : p.text = s.toList := h.read.symm.trans (replaceAll_self '.' s.toList)
  have hpadding := dropWhile_isPadding p []
  have hleads : p.Leads (p.text ++ []) := Spelling.leads_iff_stops.mpr (p.stops_of_head? nofun)
  rw [List.append_nil] at hpadding hleads
  refine ⟨htext, ?_⟩
  rw [← htext, hpadding]
  exact hleads

/-- The text of a finite double writes the double rounded to fourteen significant digits, with the
double's sign. With a point for the separator all of it is the number at its start. -/
theorem general_keeps_value (x : Float) (context : Context) (hfinite : x.isFinite = true)
    (hs : Separates context.separator) :
    (value x ≠ 0 → (rendering x).Rounds precision |value x| ∧
      ∃ (n : Nat) (e : Int), 10 ^ 13 ≤ n ∧ n < 10 ^ 14 ∧ (rendering x).value = n * 10 ^ e) ∧
    (value x = 0 → (rendering x).value = 0) ∧
    ∃ p : Spelling, p.sign = writtenSign (sign x) ∧
      p.Writes context.separator (general x context).toList (signed (sign x) (rendering x).value) ∧
      (context.separator = '.' → p.text = (general x context).toList ∧
        p.Leads ((general x context).toList.dropWhile isPadding) ∧
        leading? (general x context) = some p.number) := by
  refine ⟨fun h => ?_, fun h => ?_, ?_⟩
  · have hrounds := rounds_rendering hfinite h
    exact ⟨hrounds, hrounds.exists_digits (by decide)⟩
  · obtain ⟨s, hx⟩ | ⟨s, m, e, hm, hx⟩ := unpack_of_isFinite hfinite
    · rw [rendering, hx, Decimal.value, Nat.cast_zero, zero_mul]
    · have hpos := abs_pos.mpr (canonical_of_unpack hx).value_pos.ne'
      rw [← abs_signed s, ← value_of_unpack_finite hx, h, abs_zero] at hpos
      exact absurd hpos (lt_irrefl 0)
  · obtain ⟨p, hsign, hwrites⟩ := exists_writes hfinite hs
    refine ⟨p, hsign, hwrites, fun hpoint => ?_⟩
    rw [hpoint] at hwrites
    obtain ⟨htext, hleads⟩ := leads_of_writes hwrites
    exact ⟨htext, hleads, leading?_of_leads hleads⟩

theorem general_keeps_value_layouts :
    (∃ p : Spelling, p.sign = some .minus ∧ p.Writes ',' "-1,0E+25".toList (-10 ^ 25)) ∧
    ∃ p : Spelling, p.text = "0.1".toList ∧ leading? "0.1" = some p.number := by
  constructor
  · have htext : general (-1e25) ⟨','⟩ = "-1,0E+25" := by decide +kernel
    have hrendering : rendering (-1e25) = ⟨10 ^ 13, 12⟩ := by decide +kernel
    have hnegative : sign (-1e25) = .negative := if_pos (by decide +kernel)
    have hvalue : signed (sign (-1e25)) (rendering (-1e25)).value = -10 ^ 25 := by
      rw [hnegative, hrendering, signed_negative, Decimal.value]
      norm_num
    obtain ⟨-, -, p, hsign, hwrites, -⟩ := general_keeps_value (-1e25) ⟨','⟩ (by decide +kernel)
      ⟨rfl, by decide, by decide, by decide⟩
    rw [hnegative] at hsign
    rw [htext, hvalue] at hwrites
    exact ⟨p, hsign, hwrites⟩
  · have htext : general 0.1 ⟨'.'⟩ = "0.1" := by decide +kernel
    obtain ⟨-, -, p, -, -, hread⟩ := general_keeps_value 0.1 ⟨'.'⟩ (by decide +kernel)
      ⟨rfl, by decide, by decide, by decide⟩
    obtain ⟨hp, -, hnumber⟩ := hread rfl
    rw [htext] at hp hnumber
    exact ⟨p, hp, hnumber⟩

end Number
end Linearizer
