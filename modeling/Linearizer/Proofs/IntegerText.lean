import Linearizer.Proofs.LeadingNumbers
import Linearizer.Proofs.Machine.AliasTargets

/-!
# Integers as text

The text of an integer is read back as that integer, whatever follows it that does not carry on a
numeral. So an integer comes back from every way through text that conversions offer.

* `Numeral.Spelling.ofInt` is the spelling of an integer;
* `Machine.convert_held` runs a conversion on what its source holds;
* `Machine.integers_survive_text` puts them together.
-/

namespace Linearizer
namespace Numeral

namespace Spelling

/-- An integer with a sign where it is negative. -/
def ofInt (i : Int) : Spelling where
  sign := if i < 0 then some .minus else none
  whole := Nat.toDigits 10 i.natAbs
  fraction := none
  scale := none
  isDigit_whole := isDigit_toDigits i.natAbs
  isDigit_fraction := isDigit_none
  ne_nil := .inl Nat.toDigits_ne_nil

theorem text_ofInt (i : Int) : (ofInt i).text = (toString i).toList := by
  rw [Int.toString_eq_repr, Int.repr_eq_if]
  split
  · have hneg : ¬i < 0 := by omega
    have habs : i.natAbs = i.toNat := by omega
    simp [text, ofInt, hneg, habs, Sign.text, fractionText, scaleText]
  · have hneg : i < 0 := by omega
    have habs : i.natAbs = (-i).toNat := by omega
    simp [text, ofInt, hneg, habs, Sign.text, fractionText, scaleText]

theorem toInt_ofInt (i : Int) : (ofInt i).numeral.toInt = i := by
  have habs : digitsValue (ofInt i).numeral.whole = i.natAbs := digitsValue_toDigits i.natAbs
  have hneg : (ofInt i).numeral.negative = true ↔ i < 0 := by
    by_cases h : i < 0 <;> simp [numeral, ofInt, h]
  rw [Numeral.toInt, habs]
  split
  · have := hneg.mp ‹_›
    omega
  · have := mt hneg.mpr ‹_›
    omega

end Spelling
end Numeral

namespace Number

open Numeral

/-- The text of an integer is read as that integer. -/
theorem leading?_toString (n : Int64) {suffix : String}
    (h : ∀ c ∈ suffix.toList.head?, c.isDigit = false ∧ c ≠ '.' ∧ c ≠ 'e' ∧ c ≠ 'E') :
    leading? (toString n.toInt ++ suffix) = some (.long n) := by
  have hs : (toString n.toInt ++ suffix).toList.dropWhile isPadding =
      (Spelling.ofInt n.toInt).text ++ suffix.toList := by
    rw [String.toList_append, ← Spelling.text_ofInt, dropWhile_isPadding]
  rw [leading?_of_text hs (Spelling.stops_of_head? _ h),
    Spelling.number_eq_long ⟨rfl, rfl⟩ (Spelling.toInt_ofInt _)]

end Number

namespace Value

/-- The text of an integer is a string that counts as that integer, and as true when it does. -/
theorem string_text_long (context : Context) (n : Int64) :
    toNumber (.string (text context (.long n))) = .long n ∧
      toLong (.string (text context (.long n))) = n ∧
      toBool (.string (text context (.long n))) = toBool (.long n) := by
  have hread : Number.leading? (text context (.long n)) = some (.long n) := by
    have h : Number.leading? (toString n.toInt ++ "") = some (.long n) :=
      Number.leading?_toString n nofun
    rwa [String.append_empty] at h
  refine ⟨by rw [toNumber, hread]; rfl, by rw [toLong, hread]; rfl, ?_⟩
  by_cases hn : n = 0
  · subst hn
    rfl
  have hempty : text context (.long n) ≠ "" := by
    intro h
    rw [h] at hread
    cases hread
  have hzero : text context (.long n) ≠ "0" := by
    intro h
    rw [h] at hread
    cases hread
    exact hn rfl
  simp [toBool, hempty, hzero, hn]

end Value

/-! ## Conversions -/

namespace Conversion

/-- A hint has no say in the conversion of what has no tag. -/
theorem plan?_eq_of_untagged {source target : Encoding} (h : source.isTagged = false)
    (hint hint' : Hint) : plan? source hint target = plan? source hint' target := by
  have hlower {e : Encoding} (he : source = e ∨ e = .string) (hint : Hint) (target : Encoding) :
      lower? e hint target = (cell e target).map fun steps => ⟨steps, false⟩ := by
    refine lower?_eq_cell ?_ ?_
    all_goals
      rintro rfl
      rcases he with rfl | he
      · cases h
      · cases he
  have ha : source ≠ .alias := by
    rintro rfl
    cases h
  simp only [plan?, ha, false_and, if_false, hlower (.inl rfl), hlower (.inr rfl)]

end Conversion

namespace Machine

open Conversion

variable {context : Context} {source target : Encoding} {hint : Hint} {v : Value}

/-- A conversion turns what its source holds into what its target does. -/
theorem convert_held (hs : source.Holds v)
    (hk : source.isTagged = false ∨ hint.allows v.kind = true)
    (hplan : (plan? source hint target).isSome = true) (ht : ∀ c, target ≠ .object (some c)) :
    convert context (v.slotIn context source) source hint target [] =
      .ok (v.slotIn context target) [] := by
  obtain ⟨c, hc⟩ := Option.isSome_iff_exists.mp hplan
  have hconv : Converts context v source target c.steps := by
    rcases hk with hk | hk
    · have hany : Hint.any.allows v.kind = true := by cases v.kind <;> rfl
      exact plan?_converts hs hany ((plan?_eq_of_untagged hk .any hint).trans hc)
    · exact plan?_converts hs hk hc
  exact convert_of_yields hc (hconv.yields fun cls h => absurd h (ht cls))

/-- Integers survive the way through text. The text of an integer is read as that integer in front
of everything that does not carry on a numeral, the integer comes back from a string, from a buffer
and from a tagged string read as a number, and its text counts as true when it does. -/
theorem integers_survive_text (n : Int64) (context : Context) {suffix : String}
    (hsuffix : ∀ c ∈ suffix.toList.head?, c.isDigit = false ∧ c ≠ '.' ∧ c ≠ 'e' ∧ c ≠ 'E')
    (h₁ h₂ : Hint) {h₃ : Hint} (hstring : h₃.allows .string = true) :
    Number.leading? (Value.text context (.long n) ++ suffix) = some (.long n) ∧
      (convert context (.i64 n) .int64 h₁ .string >>= fun s =>
        convert context s .string h₂ .int64) [] = .ok (.i64 n) [] ∧
      (convert context (.i64 n) .int64 h₁ .string >>= fun s =>
        convert context s .string h₂ .value >>= fun v =>
        convert context v .value h₃ .number) [] = .ok (.number (.long n)) [] ∧
      (convert context (.i64 n) .int64 h₁ .mstring >>= fun s =>
        convert context s .mstring h₂ .int64) [] = .ok (.i64 n) [] ∧
      (Value.string (Value.text context (.long n))).toBool = (Value.long n).toBool := by
  have hread : Number.leading? (Value.text context (.long n) ++ suffix) = some (.long n) :=
    Number.leading?_toString n hsuffix
  obtain ⟨hnumber, hlong, hbool⟩ := Value.string_text_long context n
  have hplan {source target : Encoding} {hint : Hint} (h : source.isTagged = false)
      (hp : (plan? source .any target).isSome = true) : (plan? source hint target).isSome = true :=
    plan?_eq_of_untagged h .any hint ▸ hp
  -- The text is made as a string, and in a buffer.
  have hstr : convert context (.i64 n) .int64 h₁ .string [] =
      .ok (.str (Value.text context (.long n))) [] :=
    convert_held (.int64 n) (.inl rfl) (hplan rfl rfl) nofun
  have hbuffer : convert context (.i64 n) .int64 h₁ .mstring [] =
      .ok (.buffer (Value.text context (.long n))) [] :=
    convert_held (.int64 n) (.inl rfl) (hplan rfl rfl) nofun
  -- From there on, only what the text counts as matters.
  generalize Value.text context (.long n) = text at *
  have hofStr : convert context (.str text) .string h₂ .int64 [] =
      .ok (.i64 (Value.toLong (.string text))) [] :=
    convert_held (.string text) (.inl rfl) (hplan rfl rfl) nofun
  have hofBuffer : convert context (.buffer text) .mstring h₂ .int64 [] =
      .ok (.i64 (Value.toLong (.string text))) [] :=
    convert_held (.mstring text) (.inl rfl) (hplan rfl rfl) nofun
  have hboxed : convert context (.str text) .string h₂ .value [] =
      .ok (.value (.string text)) [] :=
    convert_held (.string text) (.inl rfl) (hplan rfl rfl) nofun
  have hofValue : convert context (.value (.string text)) .value h₃ .number [] =
      .ok (.number (Value.toNumber (.string text))) [] :=
    convert_held (.value (.string text)) (.inr hstring) plan?_ofValue_isSome nofun
  rw [hlong] at hofStr hofBuffer
  rw [hnumber] at hofValue
  refine ⟨hread, ?_, ?_, ?_, hbool⟩
  · simp only [bind, EStateM.bind, hstr, hofStr]
  · simp only [bind, EStateM.bind, hstr, hboxed, hofValue]
  · simp only [bind, EStateM.bind, hbuffer, hofBuffer]

/-- The least integer, with a comma as separator and in front of a letter, where the hint leaves
nothing but strings. -/
theorem least_survives_text :
    (∀ c ∈ "é1".toList.head?, c.isDigit = false ∧ c ≠ '.' ∧ c ≠ 'e' ∧ c ≠ 'E') ∧
      (Hint.only .string).allows .string = true ∧
      Number.leading? (Value.text ⟨','⟩ (.long Int64.minValue) ++ "é1") =
        some (.long Int64.minValue) ∧
      (convert ⟨','⟩ (.i64 Int64.minValue) .int64 .any .string >>= fun s =>
        convert ⟨','⟩ s .string .any .value >>= fun v =>
        convert ⟨','⟩ v .value (.only .string) .number) [] =
          .ok (.number (.long Int64.minValue)) [] := by
  have hsuffix : ∀ c ∈ "é1".toList.head?, c.isDigit = false ∧ c ≠ '.' ∧ c ≠ 'e' ∧ c ≠ 'E' := by
    rintro _ ⟨⟩
    decide
  have hstring : (Hint.only .string).allows .string = true := rfl
  obtain ⟨hread, -, hnumber, -⟩ :=
    integers_survive_text Int64.minValue ⟨','⟩ hsuffix .any .any hstring
  exact ⟨hsuffix, hstring, hread, hnumber⟩

end Machine
end Linearizer
