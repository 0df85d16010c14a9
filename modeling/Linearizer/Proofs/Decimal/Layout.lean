import Linearizer.Proofs.Numeral.Spelling
import Mathlib.Tactic.Ring

/-!
# Layouts of decimals

The layouts of a decimal are spellings of its value.

* `Number.trimmed_spec`: zeros at the end of the units go into the exponent;
* `Numeral.Spelling.Writes` says what a text with its own separator writes;
* `Numeral.Spelling.ofWhole`, `Numeral.Spelling.ofPlaces` and `Numeral.Spelling.ofScaled` are the
  spellings of the layouts, each with a lemma on what it writes.
-/

namespace Linearizer

namespace Numeral

/-! ## Zeros around digits -/

theorem digitsValue_append (a b : List Char) :
    digitsValue (a ++ b) = digitsValue a * 10 ^ b.length + digitsValue b := by
  change Nat.ofDigitChars 10 (a ++ b) 0 = _
  rw [Nat.ofDigitChars_append, Nat.ofDigitChars_eq_ofDigitChars_zero, Nat.mul_comm]
  rfl

theorem digitsValue_zeros (n : Nat) : digitsValue (List.replicate n '0') = 0 := by
  change Nat.ofDigitChars 10 _ 0 = 0
  rw [Nat.ofDigitChars_replicate_zero, Nat.mul_zero]

theorem isDigit_zeros (n : Nat) : ∀ d ∈ List.replicate n '0', d.isDigit = true := by
  intro d hd
  rw [List.eq_of_mem_replicate hd]
  rfl

/-- A power of ten appends zeros. -/
theorem toDigits_mul_pow {a : Nat} (ha : 0 < a) (n : Nat) :
    Nat.toDigits 10 (a * 10 ^ n) = Nat.toDigits 10 a ++ List.replicate n '0' := by
  induction n with
  | zero => simp
  | succ n ih =>
    have hpos : 0 < a * 10 ^ n := Nat.mul_pos ha (Nat.pow_pos (by decide))
    have hlast := Nat.toDigits_append_toDigits (by decide) hpos (by decide : 0 < 10)
    rw [List.replicate_succ', ← List.append_assoc, ← ih, Nat.pow_succ, ← Nat.mul_assoc,
      Nat.mul_comm _ 10]
    exact hlast.symm

end Numeral

open Numeral

/-- The number that a decimal denotes. -/
def Decimal.value (d : Decimal) : ℚ := d.units * 10 ^ d.exponent

/-- The zeros at the end of a list of digits, and what stands in front of them. -/
theorem Number.exists_front (ds : List Char) :
    ∃ front, ds = front ++ List.replicate (ds.reverse.takeWhile (· = '0')).length '0' ∧
      front.getLast? ≠ some '0' := by
  obtain ⟨zeros, hzeros⟩ : ∃ zeros, ds.reverse.takeWhile (· = '0') = zeros := ⟨_, rfl⟩
  have hreplicate : zeros = List.replicate zeros.length '0' := by
    refine List.eq_replicate_iff.mpr ⟨rfl, fun c hc => ?_⟩
    rw [← hzeros] at hc
    exact of_decide_eq_true (List.all_eq_true.mp List.all_takeWhile c hc)
  have hreverse : zeros.reverse = List.replicate zeros.length '0' :=
    (congrArg List.reverse hreplicate).trans List.reverse_replicate
  refine ⟨(ds.reverse.dropWhile (· = '0')).reverse, ?_, ?_⟩
  · rw [hzeros, ← hreverse, ← List.reverse_append, ← hzeros, List.takeWhile_append_dropWhile,
      List.reverse_reverse]
  · rw [List.getLast?_reverse]
    intro hhead
    have hnot := List.head?_dropWhile_not (· = '0') ds.reverse
    rw [hhead] at hnot
    simp at hnot

/-- Trimming moves the zeros at the end of the units to the exponent. -/
theorem Number.trimmed_spec {d : Decimal} (h : 0 < d.units) :
    (trimmed d).value = d.value ∧ (trimmed d).digits.getLast? ≠ some '0' := by
  obtain ⟨front, hdigits, hlast⟩ := exists_front d.digits
  obtain ⟨n, hn⟩ : ∃ n, (d.digits.reverse.takeWhile (· = '0')).length = n := ⟨_, rfl⟩
  rw [hn] at hdigits
  have hunits : d.units = digitsValue front * 10 ^ n := by
    have hvalue : digitsValue d.digits = d.units := digitsValue_toDigits d.units
    rw [hdigits, digitsValue_append, digitsValue_zeros, List.length_replicate] at hvalue
    exact hvalue.symm
  have hpos : 0 < digitsValue front := by
    refine Nat.pos_of_ne_zero fun hzero => ?_
    rw [hzero, Nat.zero_mul] at hunits
    omega
  have htrimmed : trimmed d = ⟨digitsValue front, d.exponent + n⟩ := by
    have hdiv : d.units / Nat.pow 10 n = digitsValue front := by
      rw [hunits]
      exact Nat.mul_div_cancel _ (Nat.pow_pos (by decide))
    unfold trimmed
    simp only [hn, hdiv]
  rw [htrimmed]
  refine ⟨?_, ?_⟩
  · unfold Decimal.value
    rw [hunits, zpow_add₀ (by norm_num), zpow_natCast]
    push_cast
    ring
  · -- The digits that are left are those in front of the zeros.
    have hleft : Nat.toDigits 10 (digitsValue front) = front := by
      rw [Decimal.digits, hunits, toDigits_mul_pow hpos] at hdigits
      exact List.append_cancel_right hdigits
    change (Nat.toDigits 10 _).getLast? ≠ _
    rw [hleft]
    exact hlast

/-! ## Separators -/

namespace Numeral

/-- The character can stand for the point: nothing else in a text of a decimal is like it. -/
structure Separates (separator : Char) : Prop where
  digit : separator.isDigit = false
  plus : separator ≠ '+'
  minus : separator ≠ '-'
  letter : separator ≠ 'E'

/-- The text with one character in another's place. -/
def replaceAll (old new : Char) (t : List Char) : List Char :=
  t.map fun c => if c = old then new else c

section

variable {old new : Char} {t : List Char}

theorem replaceAll_append (t u : List Char) :
    replaceAll old new (t ++ u) = replaceAll old new t ++ replaceAll old new u :=
  List.map_append

theorem replaceAll_of_notMem (h : old ∉ t) : replaceAll old new t = t := by
  have hself : ∀ c ∈ t, (if c = old then new else c) = id c := fun c hc =>
    if_neg (ne_of_mem_of_not_mem hc h)
  exact (List.map_congr_left hself).trans (List.map_id t)

theorem replaceAll_self (c : Char) (t : List Char) : replaceAll c c t = t := by
  have hself : ∀ a ∈ t, (if a = c then c else a) = id a := by
    intro a _
    split
    · exact (‹a = c›).symm
    · rfl
  exact (List.map_congr_left hself).trans (List.map_id t)

/-- A new character is replaced back. -/
theorem replaceAll_replaceAll (h : new ∉ t ∨ new = old) :
    replaceAll new old (replaceAll old new t) = t := by
  have hself : ∀ c ∈ t, (if (if c = old then new else c) = new then old else
      if c = old then new else c) = id c := by
    intro c hc
    by_cases hold : c = old
    · rw [if_pos hold, if_pos rfl, hold, id]
    · rw [if_neg hold, id]
      refine if_neg fun hnew => ?_
      exact h.elim (fun h => h (hnew ▸ hc)) fun h => hold (hnew.trans h)
  exact List.map_map.trans ((List.map_congr_left hself).trans (List.map_id t))

end

namespace Spelling

/-- A fraction ends in a zero only where the zero is all of it, after the one digit of a scaled
numeral. -/
def Trimmed (p : Spelling) : Prop :=
  ∀ ds ∈ p.fraction, ds.getLast? = some '0' →
    ds = ['0'] ∧ p.whole.length = 1 ∧ p.scale.isSome = true

/-- The text writes the number as the numeral, with a separator for the point: the one is the other
with the two characters exchanged. Without a fraction there is no separator. -/
structure Writes (p : Spelling) (separator : Char) (t : List Char) (q : ℚ) : Prop where
  written : replaceAll '.' separator p.text = t
  read : replaceAll separator '.' t = p.text
  value : p.numeral.value = q
  trimmed : p.Trimmed
  separated : p.numeral.fraction = [] → separator ∉ t

theorem mem_signText {s : Option Sign} {c : Char} (h : c ∈ Sign.text s) : c = '+' ∨ c = '-' := by
  rcases s with _ | _ | _ <;> simp_all [Sign.text]

theorem mem_scaleText {s : Scale} {c : Char} (h : c ∈ s.text) :
    c.isDigit = true ∨ c = '+' ∨ c = '-' ∨ c = s.letter := by
  rcases List.mem_append.mp h with h | h
  · rcases List.mem_cons.mp h with rfl | h
    · exact .inr (.inr (.inr rfl))
    · exact .inr ((mem_signText h).imp_right .inl)
  · exact .inl (s.isDigit c h)

/-- The characters of a spelling. -/
theorem mem_text {p : Spelling} {c : Char} (h : c ∈ p.text) :
    c = '.' ∧ p.fraction ≠ none ∨ c.isDigit = true ∨ c = '+' ∨ c = '-' ∨
      ∃ s ∈ p.scale, c = s.letter := by
  rw [text, List.mem_append, List.mem_append, List.mem_append] at h
  rcases h with ((h | h) | h) | h
  · exact .inr (.inr ((mem_signText h).imp_right .inl))
  · exact .inr (.inl (p.isDigit_whole c h))
  · cases hfraction : p.fraction with
    | none =>
      rw [hfraction] at h
      cases h
    | some ds =>
      rw [hfraction] at h
      rcases List.mem_cons.mp h with rfl | h
      · exact .inl ⟨rfl, Option.some_ne_none ds⟩
      · exact .inr (.inl (p.isDigit_fraction ds hfraction c h))
  · cases hscale : p.scale with
    | none =>
      rw [hscale] at h
      cases h
    | some s =>
      rw [hscale] at h
      exact .inr ((mem_scaleText h).imp_right (.imp_right (.imp_right fun h => ⟨s, rfl, h⟩)))

variable {p : Spelling} {separator : Char} {t : List Char} {q : ℚ}

/-- A separator that is not the point, or of which there is none, does not stand in a spelling. -/
theorem notMem_text (hs : Separates separator) (hcapital : ∀ s ∈ p.scale, s.capital = true)
    (h : separator ≠ '.' ∨ p.fraction = none) : separator ∉ p.text := by
  intro hmem
  obtain ⟨rfl, hsome⟩ | hdigit | hplus | hminus | ⟨s, hscale, hletter⟩ := mem_text hmem
  · exact h.elim (fun h => h rfl) hsome
  · rw [hs.digit] at hdigit
    cases hdigit
  · exact hs.plus hplus
  · exact hs.minus hminus
  · rw [Scale.letter, if_pos (hcapital s hscale)] at hletter
    exact hs.letter hletter

theorem point_notMem {l : List Char} (h : ∀ d ∈ l, d.isDigit = true) : '.' ∉ l :=
  fun hmem => nomatch h '.' hmem

/-- What is written, part by part. -/
theorem replaceAll_text (p : Spelling) (separator : Char) :
    replaceAll '.' separator p.text =
      Sign.text p.sign ++ p.whole ++ replaceAll '.' separator (fractionText p.fraction) ++
        scaleText p.scale := by
  have hsign : '.' ∉ Sign.text p.sign := fun h => by
    rcases mem_signText h with h | h <;> cases h
  have hscale : '.' ∉ scaleText p.scale := by
    cases p.scale with
    | none => exact List.not_mem_nil
    | some s =>
      intro h
      obtain hdigit | hplus | hminus | hletter := mem_scaleText h
      · cases hdigit
      · cases hplus
      · cases hminus
      · unfold Scale.letter at hletter
        split at hletter <;> cases hletter
  rw [text, replaceAll_append, replaceAll_append, replaceAll_append, replaceAll_of_notMem hsign,
    replaceAll_of_notMem (point_notMem p.isDigit_whole), replaceAll_of_notMem hscale]

theorem replaceAll_fractionText {ds : List Char} (h : ∀ d ∈ ds, d.isDigit = true) :
    replaceAll '.' separator (fractionText (some ds)) = separator :: ds := by
  change separator :: replaceAll '.' separator ds = _
  rw [replaceAll_of_notMem (point_notMem h)]

/-- A spelling whose point is replaced by the separator writes its value. -/
theorem writes_of_text (hs : Separates separator) (hcapital : ∀ s ∈ p.scale, s.capital = true)
    (hfraction : p.fraction ≠ some []) (hwritten : replaceAll '.' separator p.text = t)
    (hvalue : p.numeral.value = q) (htrimmed : p.Trimmed) : p.Writes separator t q where
  written := hwritten
  read := by
    rw [← hwritten]
    refine replaceAll_replaceAll ?_
    by_cases hpoint : separator = '.'
    · exact .inr hpoint
    · exact .inl (notMem_text hs hcapital (.inl hpoint))
  value := hvalue
  trimmed := htrimmed
  separated hnil := by
    have hnone : p.fraction = none := by
      cases h : p.fraction with
      | none => rfl
      | some ds =>
        rw [numeral, h] at hnil
        exact absurd (h.trans (congrArg some hnil)) hfraction
    have hpoint : '.' ∉ p.text :=
      notMem_text ⟨rfl, by decide, by decide, by decide⟩ hcapital (.inr hnone)
    rw [← hwritten, replaceAll_of_notMem hpoint]
    exact notMem_text hs hcapital (.inr hnone)

end Spelling
end Numeral

/-! ## Layouts -/

/-- The factor of a sign that is written. -/
def Numeral.Sign.factor (s : Option Numeral.Sign) : ℚ := if s = some .minus then -1 else 1

theorem Decimal.digits_ne_nil (d : Decimal) : d.digits ≠ [] := Nat.toDigits_ne_nil

/-- The digits with zeros in front, so that a digit stands before the point. -/
def Decimal.padded (d : Decimal) : List Char :=
  List.replicate ((-d.exponent).toNat + 1 - d.digits.length) '0' ++ d.digits

theorem Decimal.isDigit_padded (d : Decimal) : ∀ c ∈ d.padded, c.isDigit = true := fun c hc =>
  (List.mem_append.mp hc).elim (isDigit_zeros _ c) (isDigit_toDigits d.units c)

theorem Decimal.length_padded (d : Decimal) : (-d.exponent).toNat < d.padded.length := by
  rw [padded, List.length_append, List.length_replicate]
  omega

/-- The digits after the first one, or a zero. -/
def Decimal.after (d : Decimal) : List Char :=
  if d.digits.tail.isEmpty then ['0'] else d.digits.tail

theorem Decimal.after_ne_nil (d : Decimal) : d.after ≠ [] := by
  unfold after
  split
  · nofun
  · exact mt List.isEmpty_iff.mpr ‹_›

theorem Decimal.isDigit_after (d : Decimal) : ∀ c ∈ d.after, c.isDigit = true := by
  unfold after
  intro c hc
  split at hc
  · rw [List.mem_singleton.mp hc]
    rfl
  · exact isDigit_toDigits d.units c (List.mem_of_mem_tail hc)

namespace Numeral.Spelling

variable {separator : Char}

/-- The value of a spelling from its sign, its digits and its scale. -/
theorem value_numeral (p : Spelling) :
    p.numeral.value = Sign.factor p.sign * (digitsValue (p.whole ++ p.fraction.getD []) *
      10 ^ ((p.scale.map Scale.exponent).getD 0 - (p.fraction.getD []).length)) := by
  simp only [Numeral.value, numeral, Sign.factor, decide_eq_true_eq, mul_assoc]

/-- A decimal of whole units, with all its zeros. -/
def ofWhole (s : Option Sign) (d : Decimal) : Spelling where
  sign := s
  whole := d.digits ++ List.replicate d.exponent.toNat '0'
  fraction := none
  scale := none
  isDigit_whole c hc :=
    (List.mem_append.mp hc).elim (isDigit_toDigits d.units c) (isDigit_zeros _ c)
  isDigit_fraction := isDigit_none
  ne_nil := .inl (List.append_ne_nil_of_left_ne_nil d.digits_ne_nil _)

/-- A decimal without places is written as a whole number. -/
theorem writes_ofWhole (hs : Separates separator) (s : Option Sign) {d : Decimal}
    (h : 0 ≤ d.exponent) :
    (ofWhole s d).Writes separator (Sign.text s ++ d.positional separator)
      (Sign.factor s * d.value) := by
  refine writes_of_text hs nofun nofun ?_ ?_ nofun
  · rw [replaceAll_text, Decimal.positional, if_pos h]
    simp [ofWhole, fractionText, scaleText, replaceAll]
  · obtain ⟨n, hn⟩ := Int.eq_ofNat_of_zero_le h
    rw [value_numeral]
    simp [ofWhole, digitsValue_append, digitsValue_zeros, Decimal.value, Decimal.digits,
      digitsValue_toDigits, hn]

/-- A decimal with places after the point. -/
def ofPlaces (s : Option Sign) (d : Decimal) : Spelling where
  sign := s
  whole := d.padded.take (d.padded.length - (-d.exponent).toNat)
  fraction := some (d.padded.drop (d.padded.length - (-d.exponent).toNat))
  scale := none
  isDigit_whole c hc := d.isDigit_padded c (List.mem_of_mem_take hc)
  isDigit_fraction := by
    rintro _ ⟨⟩ c hc
    exact d.isDigit_padded c (List.mem_of_mem_drop hc)
  ne_nil := by
    have hlength := d.length_padded
    refine .inl (List.ne_nil_of_length_pos ?_)
    rw [List.length_take]
    omega

/-- A decimal with places has a separator before them. -/
theorem writes_ofPlaces (hs : Separates separator) (s : Option Sign) {d : Decimal}
    (h : d.exponent < 0) (hlast : d.digits.getLast? ≠ some '0') :
    (ofPlaces s d).Writes separator (Sign.text s ++ d.positional separator)
      (Sign.factor s * d.value) := by
  obtain ⟨n, hn⟩ : ∃ n : Nat, d.exponent = -(n + 1 : Nat) := ⟨(-d.exponent - 1).toNat, by omega⟩
  have hplaces : (-d.exponent).toNat = n + 1 := by omega
  have hlength := d.length_padded
  have hdrop : (d.padded.drop (d.padded.length - (-d.exponent).toNat)).length = n + 1 := by
    rw [List.length_drop]
    omega
  refine writes_of_text hs nofun ?_ ?_ ?_ ?_
  · intro hnil
    rw [Option.some.inj hnil] at hdrop
    cases hdrop
  · rw [replaceAll_text, Decimal.positional, if_neg (by omega), ofPlaces]
    dsimp only
    rw [replaceAll_fractionText fun c hc => d.isDigit_padded c (List.mem_of_mem_drop hc)]
    simp [scaleText, Decimal.padded]
  · rw [value_numeral, ofPlaces]
    dsimp only
    rw [Option.getD_some, List.take_append_drop, hdrop, Decimal.padded, digitsValue_append,
      digitsValue_zeros, Nat.zero_mul, Nat.zero_add, Decimal.digits, digitsValue_toDigits,
      Option.map_none, Option.getD_none, zero_sub, Decimal.value, hn]
  · -- The fraction ends as the digits do.
    rintro _ ⟨⟩ hzero
    rw [List.getLast?_drop, if_neg (by omega), Decimal.padded, List.getLast?_append,
      List.getLast?_eq_some_getLast d.digits_ne_nil, Option.some_or] at hzero
    exact absurd ((List.getLast?_eq_some_getLast d.digits_ne_nil).trans hzero) hlast

/-- A decimal with one digit before the point, and its power of ten. -/
def ofScaled (s : Option Sign) (d : Decimal) : Spelling where
  sign := s
  whole := d.digits.take 1
  fraction := some d.after
  scale := some {
    capital := true
    sign := some (if d.leading < 0 then .minus else .plus)
    digits := Nat.toDigits 10 d.leading.natAbs
    isDigit := isDigit_toDigits d.leading.natAbs
    ne_nil := Nat.toDigits_ne_nil }
  isDigit_whole c hc := isDigit_toDigits d.units c (List.mem_of_mem_take hc)
  isDigit_fraction := by
    rintro _ ⟨⟩
    exact d.isDigit_after
  ne_nil := .inr ⟨d.after, rfl, d.after_ne_nil⟩

/-- The scale of a number in scientific form is the exponent of its first digit. -/
theorem exponent_ofScaled (s : Option Sign) (d : Decimal) :
    ((ofScaled s d).scale.map Scale.exponent).getD 0 = d.leading := by
  change Scale.exponent _ = _
  unfold Scale.exponent
  dsimp only
  rw [digitsValue_toDigits]
  by_cases h : d.leading < 0
  · rw [if_pos h, if_pos rfl]
    omega
  · rw [if_neg h, if_neg nofun]
    omega

/-- Moving the point and scaling back leaves the value. -/
theorem value_ofScaled (s : Option Sign) (d : Decimal) :
    (ofScaled s d).numeral.value = Sign.factor s * d.value := by
  obtain ⟨c, rest, hdigits⟩ := List.exists_cons_of_ne_nil d.digits_ne_nil
  have hunits : digitsValue (c :: rest) = d.units := hdigits ▸ digitsValue_toDigits d.units
  have hleading : d.leading = d.exponent + rest.length := by
    rw [Decimal.leading, hdigits, List.length_cons]
    push_cast
    ring
  rw [value_numeral, exponent_ofScaled, ofScaled]
  dsimp only
  rw [Option.getD_some, Decimal.after, hdigits, hleading, Decimal.value, ← hunits]
  cases rest with
  | nil =>
    -- A single digit gets a zero as its place, which the exponent takes back.
    have hzero : digitsValue [c, '0'] = digitsValue [c] * 10 := digitsValue_append [c] ['0']
    change Sign.factor s * (digitsValue [c, '0'] * 10 ^ (d.exponent + 0 - 1)) = _
    rw [hzero, add_zero, zpow_sub_one₀ (by norm_num)]
    push_cast
    ring
  | cons c' rest =>
    have hplaces : d.exponent + ((c' :: rest).length : Int) - (c' :: rest).length = d.exponent :=
      add_sub_cancel_right _ _
    change Sign.factor s * (digitsValue (c :: c' :: rest) *
      10 ^ (d.exponent + ((c' :: rest).length : Int) - (c' :: rest).length)) = _
    rw [hplaces]

/-- No zero stands at the end of the places. -/
theorem trimmed_ofScaled (s : Option Sign) {d : Decimal} (h : d.digits.getLast? ≠ some '0') :
    (ofScaled s d).Trimmed := by
  rintro _ ⟨⟩ hzero
  obtain ⟨c, rest, hdigits⟩ := List.exists_cons_of_ne_nil d.digits_ne_nil
  cases rest with
  | nil =>
    refine ⟨?_, congrArg (fun ds => (ds.take 1).length) hdigits, rfl⟩
    rw [Decimal.after, hdigits]
    rfl
  | cons c' rest =>
    rw [hdigits] at h
    rw [Decimal.after, hdigits] at hzero
    exact absurd hzero h

/-- A decimal is written in scientific form. -/
theorem writes_ofScaled (hs : Separates separator) (s : Option Sign) {d : Decimal}
    (hlast : d.digits.getLast? ≠ some '0') :
    (ofScaled s d).Writes separator (Sign.text s ++ Number.exponential d separator)
      (Sign.factor s * d.value) := by
  refine writes_of_text hs ?_ ?_ ?_ (value_ofScaled s d) (trimmed_ofScaled s hlast)
  · rintro _ ⟨⟩
    rfl
  · exact fun hnil => d.after_ne_nil (Option.some.inj hnil)
  · rw [replaceAll_text, Number.exponential, ofScaled]
    dsimp only
    rw [replaceAll_fractionText d.isDigit_after, Decimal.after]
    by_cases h : d.leading < 0 <;> simp [scaleText, Scale.text, Scale.letter, Sign.text, h]

end Numeral.Spelling
end Linearizer
