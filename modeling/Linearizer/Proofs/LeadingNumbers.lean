import Linearizer.Proofs.Numeral.Scan

/-!
# The number at the start of a text

What is read at the start of a text is the longest numeral that stands there after the blanks, and
nothing else of the text matters.

- **Two ways to be the longest** (`Numeral.Spelling.leads_iff_stops`): no longer numeral is there,
  and nothing that follows carries the numeral on.
- **The number** (`Number.leading?_recognizes`): an integer when the numeral has neither a point nor
  an exponent and fits into 64 bits, and else the double of the numeral.
-/

namespace Linearizer
namespace Numeral

theorem int64?_eq_some_iff {i : Int} {n : Int64} : int64? i = some n ↔ i = n.toInt := by
  unfold int64?
  rw [Option.ite_none_right_eq_some, Option.some.injEq, Bool.and_eq_true, decide_eq_true_eq,
    decide_eq_true_eq]
  constructor
  · rintro ⟨⟨hmin, hmax⟩, rfl⟩
    exact (Int64.toInt_ofInt_of_le hmin (Int.lt_of_le_of_lt hmax (by decide))).symm
  · rintro rfl
    exact ⟨⟨Int64.minValue_le_toInt n, Int64.toInt_le n⟩, Int64.ofInt_toInt n⟩

namespace Spelling

variable {p q : Spelling} {t u : List Char}

/-- Of the spellings at the front of a text, only one is not carried on by what follows. -/
theorem Stops.append_inj (hp : p.Stops t) (hq : q.Stops u) (h : p.text ++ t = q.text ++ u) :
    t = u := by
  rw [text_append, text_append] at h
  -- The parts of both are what is read there, one after the other.
  have hsign := congrArg signOf h
  rw [signOf_append (p.unsigned_body _), signOf_append (q.unsigned_body _)] at hsign
  have hbody := (Prod.mk.inj hsign).2
  have hwhole := congrArg digitsOf hbody
  have hrest := congrArg afterDigits hbody
  rw [digitsOf_append p.isDigit_whole hp.endsDigits,
    digitsOf_append q.isDigit_whole hq.endsDigits] at hwhole
  rw [afterDigits_append p.isDigit_whole hp.endsDigits,
    afterDigits_append q.isDigit_whole hq.endsDigits] at hrest
  have hfraction := congrArg (fractionOf p.whole) hrest
  rw [fractionOf_append p hp, hwhole, fractionOf_append q hq] at hfraction
  have hscale := (Prod.mk.inj hfraction).2
  have hexponent := congrArg Numeral.exponentOf? hscale
  rw [hp.exponentOf?, hq.exponentOf?] at hexponent
  cases hc : p.scale with
  | none =>
    cases hd : q.scale with
    | none => simpa [hc, hd, scaleText] using hscale
    | some d => simp [hc, hd] at hexponent
  | some c =>
    cases hd : q.scale with
    | none => simp [hc, hd] at hexponent
    | some d =>
      simp only [hc, hd, Option.map_some, Option.some.injEq, Prod.mk.injEq] at hexponent
      exact hexponent.2

/-- Of the spellings at the front of a text, one is the longest. -/
theorem exists_leads (h : ∃ q : Spelling, q.text <+: t) : ∃ p : Spelling, p.Leads t := by
  classical
  have hk : ∃ k, ∃ q : Spelling, q.text <+: t ∧ q.text.length + k = t.length := by
    obtain ⟨q, hq⟩ := h
    exact ⟨t.length - q.text.length, q, hq, Nat.add_sub_of_le hq.length_le⟩
  obtain ⟨p, hp, hlength⟩ := Nat.find_spec hk
  refine ⟨p, hp, fun q hq => ?_⟩
  have hmin := Nat.find_min' hk ⟨q, hq, Nat.add_sub_of_le hq.length_le⟩
  have := hq.length_le
  omega

/-- The longest spelling at the front of a text is the one that nothing carries on. -/
theorem leads_iff_stops : p.Leads (p.text ++ t) ↔ p.Stops t := by
  refine ⟨Leads.stops, fun hp => ?_⟩
  obtain ⟨q, hq⟩ := exists_leads ⟨p, List.prefix_append p.text t⟩
  obtain ⟨u, hu⟩ := hq.front
  obtain rfl : t = u := hp.append_inj (hu ▸ hq).stops hu.symm
  refine ⟨List.prefix_append p.text t, fun r hr => ?_⟩
  rw [← List.append_cancel_right hu]
  exact hq.longest r hr

theorem number_eq_long {n : Int64} (hp : p.IsInteger) (hn : p.numeral.toInt = n.toInt) :
    p.number = .long n := by
  unfold number
  rw [hp.1, hp.2, int64?_eq_some_iff.mpr hn]

theorem number_eq_double (h : p.IsInteger → ∀ n : Int64, p.numeral.toInt ≠ n.toInt) :
    p.number = .double p.numeral.toDouble := by
  unfold number
  split
  · rename_i hf hs hn
    exact absurd (int64?_eq_some_iff.mp hn) (h ⟨hf, hs⟩ _)
  · rfl

end Spelling
end Numeral

namespace Number

open Numeral Spelling

theorem leading?_of_leads {s : String} {p : Spelling}
    (h : p.Leads (s.toList.dropWhile isPadding)) : leading? s = some p.number := by
  obtain ⟨t, ht⟩ := h.front
  exact leading?_of_text ht.symm (Leads.stops (ht ▸ h))

/-- Reading a number recognizes exactly the numerals. No number is read where no numeral stands
after the blanks; otherwise the longest numeral there alone decides which number it is. -/
theorem leading?_recognizes (s : String) :
    (leading? s = none ↔ ∀ p : Spelling, ¬p.text <+: s.toList.dropWhile isPadding) ∧
      ((∃ p : Spelling, p.text <+: s.toList.dropWhile isPadding) →
        ∃ p : Spelling, p.Leads (s.toList.dropWhile isPadding)) ∧
      ∀ p : Spelling, p.Leads (s.toList.dropWhile isPadding) →
        (∀ n : Int64, p.IsInteger → p.numeral.toInt = n.toInt → leading? s = some (.long n)) ∧
        ((p.IsInteger → ∀ n : Int64, p.numeral.toInt ≠ n.toInt) →
          leading? s = some (.double p.numeral.toDouble)) ∧
        ∀ s' : String, p.Leads (s'.toList.dropWhile isPadding) → leading? s' = leading? s := by
  refine ⟨⟨fun h p hp => ?_, fun h => ?_⟩, exists_leads, fun p hp => ⟨fun n hi hn => ?_,
    fun hd => ?_, fun s' hp' => ?_⟩⟩
  · obtain ⟨q, hq⟩ := exists_leads ⟨p, hp⟩
    rw [leading?_of_leads hq] at h
    cases h
  · by_contra hsome
    obtain ⟨n, hn⟩ := Option.ne_none_iff_exists'.mp hsome
    obtain ⟨p, hp⟩ := exists_spelling_of_leading? hn
    exact h p hp
  · rw [leading?_of_leads hp, number_eq_long hi hn]
  · rw [leading?_of_leads hp, number_eq_double hd]
  · rw [leading?_of_leads hp, leading?_of_leads hp']

/-- The least integer, in front of what only looks like an exponent, and a point without digits
after it. -/
theorem leading?_recognizes_extremes :
    (∃ p : Spelling, p.text = "-9223372036854775808".toList ∧
      p.Leads ("\t-9223372036854775808e+x".toList.dropWhile isPadding) ∧
      leading? "\t-9223372036854775808e+x" = some (.long Int64.minValue)) ∧
    ∃ p : Spelling, p.text = "+7.".toList ∧
      p.Leads (" \x0b+7.e-é".toList.dropWhile isPadding) ∧
      leading? " \x0b+7.e-é" = some (.double 7.0) := by
  constructor
  · let p : Spelling := ⟨some .minus, "9223372036854775808".toList, none, none,
      List.all_eq_true.mp (by decide), nofun, .inl (by decide)⟩
    have hp : p.Stops "e+x".toList := {
      digit := by
        rintro _ ⟨⟩
        rfl
      scale := fun _ => exponentOf?_eq_none_iff.mp (by decide)
      point := by
        rintro _ _ ⟨⟩
        decide }
    have hleads : p.Leads ("\t-9223372036854775808e+x".toList.dropWhile isPadding) :=
      leads_iff_stops.mpr hp
    have hvalue : p.numeral.toInt = Int64.minValue.toInt := by decide +kernel
    exact ⟨p, rfl, hleads, ((leading?_recognizes _).2.2 p hleads).1 _ ⟨rfl, rfl⟩ hvalue⟩
  · let p : Spelling := ⟨some .plus, ['7'], some [], none, by simp, by simp, .inl (by decide)⟩
    have hp : p.Stops "e-é".toList := {
      digit := by
        rintro _ ⟨⟩
        rfl
      scale := fun _ => exponentOf?_eq_none_iff.mp (by decide)
      point := by
        rintro ⟨h, -⟩
        cases h }
    have hleads : p.Leads (" \x0b+7.e-é".toList.dropWhile isPadding) := leads_iff_stops.mpr hp
    have hdouble : leading? " \x0b+7.e-é" = some (.double p.numeral.toDouble) :=
      ((leading?_recognizes _).2.2 p hleads).2.1 fun h => by cases h.1
    exact ⟨p, rfl, hleads, hdouble.trans (by decide)⟩

end Number
end Linearizer
