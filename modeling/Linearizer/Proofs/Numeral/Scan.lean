import Linearizer.Proofs.Numeral.Spelling

/-!
# Numerals at the front of a text

Reading takes the parts of a spelling one after the other, each as far as it goes. What follows the
spelling must not carry it on.

* `Numeral.Spelling.Stops`: what follows a spelling does not carry it on;
* `Numeral.Spelling.Leads.stops`: nothing carries on the longest spelling at the front of a text;
* `Number.leading?_of_text`: the spelling in front of what does not carry it on is what is read.
-/

namespace Linearizer
namespace Numeral

/-! ## Digits -/

/-- The text does not begin with a digit. -/
def EndsDigits (t : List Char) : Prop := ∀ c ∈ t.head?, c.isDigit = false

/-- Digits are taken up to what is no digit. -/
theorem digitsOf_append {ds t : List Char} (h : ∀ d ∈ ds, d.isDigit = true) (ht : EndsDigits t) :
    digitsOf (ds ++ t) = ds := by
  rw [digitsOf, List.takeWhile_append_of_pos h]
  cases t with
  | nil => simp
  | cons c rest => simp [ht c rfl]

theorem afterDigits_append {ds t : List Char} (h : ∀ d ∈ ds, d.isDigit = true)
    (ht : EndsDigits t) : afterDigits (ds ++ t) = t := by
  rw [afterDigits, List.dropWhile_append_of_pos h]
  cases t with
  | nil => rfl
  | cons c rest => simp [ht c rfl]

theorem isDigit_digitsOf (t : List Char) : ∀ d ∈ digitsOf t, d.isDigit = true :=
  List.all_eq_true.mp List.all_takeWhile

theorem digitsOf_append_afterDigits (t : List Char) : digitsOf t ++ afterDigits t = t :=
  List.takeWhile_append_dropWhile

/-! ## Signs -/

/-- The text does not begin with a sign. -/
def Unsigned (t : List Char) : Prop := ∀ c ∈ t.head?, c ≠ '+' ∧ c ≠ '-'

theorem unsigned_of_isDigit {t : List Char} (h : ∀ c ∈ t.head?, c.isDigit = true) :
    Unsigned t := by
  intro c hc
  have hd := h c hc
  constructor
  · rintro rfl
    cases hd
  · rintro rfl
    cases hd

/-- The sign is taken if there is one. -/
theorem signOf_append {sign : Option Sign} {t : List Char} (h : Unsigned t) :
    signOf (Sign.text sign ++ t) = (decide (sign = some .minus), t) := by
  match sign with
  | some .plus => rfl
  | some .minus => rfl
  | none =>
    change signOf t = _
    unfold signOf
    split
    · exact absurd rfl (h '-' rfl).2
    · exact absurd rfl (h '+' rfl).1
    · rfl

/-- What is read as a sign is one that is written. -/
theorem exists_sign (t : List Char) : ∃ sign, Sign.text sign ++ (signOf t).2 = t := by
  unfold signOf
  split
  · exact ⟨some .minus, rfl⟩
  · exact ⟨some .plus, rfl⟩
  · exact ⟨none, rfl⟩

/-! ## Powers of ten -/

/-- No power of ten is at the front of the text. -/
def Unscaled (t : List Char) : Prop := ∀ c : Scale, ¬c.text <+: t

theorem letter_cases (c : Scale) : c.letter = 'e' ∨ c.letter = 'E' := by
  unfold Scale.letter
  cases c.capital
  · exact .inl rfl
  · exact .inr rfl

/-- What is read where a power of ten is written; more digits may follow it. -/
theorem exponentOf?_append (c : Scale) (t : List Char) :
    exponentOf? (c.text ++ t) =
      some (if c.sign = some .minus then -(digitsValue (digitsOf (c.digits ++ t)) : Int)
        else digitsValue (digitsOf (c.digits ++ t)), afterDigits (c.digits ++ t)) := by
  obtain ⟨d, ds, hds⟩ := List.exists_cons_of_ne_nil c.ne_nil
  have hd : d.isDigit = true := c.isDigit d (hds ▸ List.mem_cons_self)
  have hsign : signOf (Sign.text c.sign ++ (c.digits ++ t)) =
      (decide (c.sign = some .minus), c.digits ++ t) := by
    refine signOf_append (unsigned_of_isDigit ?_)
    rw [hds]
    rintro _ ⟨⟩
    exact hd
  have hletter : (c.letter = 'e' || c.letter = 'E') = true := by simpa using letter_cases c
  have hne : (digitsOf (c.digits ++ t)).isEmpty = false := by simp [hds, digitsOf, hd]
  rw [Scale.text_append]
  simp only [exponentOf?, hletter, hsign, hne, decide_eq_true_eq, if_true, Bool.false_eq_true,
    if_false]

/-- A scale is read back, up to what is no digit. -/
theorem exponentOf?_text (c : Scale) {t : List Char} (h : EndsDigits t) :
    exponentOf? (c.text ++ t) = some (c.exponent, t) := by
  rw [exponentOf?_append, digitsOf_append c.isDigit h, afterDigits_append c.isDigit h,
    Scale.exponent]

/-- A power of ten is read just where one is written. -/
theorem exponentOf?_eq_none_iff {t : List Char} : exponentOf? t = none ↔ Unscaled t := by
  constructor
  · rintro h c ⟨rest, rfl⟩
    rw [exponentOf?_append] at h
    cases h
  intro h
  cases t with
  | nil => rfl
  | cons e rest =>
    rw [exponentOf?]
    split
    case isFalse => rfl
    rename_i he
    dsimp only
    split
    case isTrue => rfl
    rename_i hne
    -- The letter is followed by digits, so a power of ten is written here after all.
    obtain ⟨sign, hsign⟩ := exists_sign rest
    let c : Scale := {
      capital := e = 'E'
      sign := sign
      digits := digitsOf (signOf rest).2
      isDigit := isDigit_digitsOf _
      ne_nil := by simpa using hne }
    have hletter : c.letter = e := by
      rcases Bool.or_eq_true_iff.mp he with he | he
      all_goals
        obtain rfl := of_decide_eq_true he
        rfl
    refine absurd ⟨afterDigits (signOf rest).2, ?_⟩ (h c)
    rw [Scale.text_append, hletter, digitsOf_append_afterDigits, hsign]

/-! ## Spellings -/

namespace Spelling

/-- What follows the spelling does not carry it on. -/
structure Stops (p : Spelling) (t : List Char) : Prop where
  digit : EndsDigits t
  scale : p.scale = none → Unscaled t
  point : p.IsInteger → ∀ c ∈ t.head?, c ≠ '.'

/-- What is not a digit, a point or the letter of a power carries no spelling on. -/
theorem stops_of_head? (p : Spelling) {t : List Char}
    (h : ∀ c ∈ t.head?, c.isDigit = false ∧ c ≠ '.' ∧ c ≠ 'e' ∧ c ≠ 'E') : p.Stops t where
  digit c hc := (h c hc).1
  scale _ c := by
    rintro ⟨rest, rfl⟩
    obtain ⟨-, -, he, hE⟩ := h c.letter (by rw [Scale.text_append]; rfl)
    exact (letter_cases c).elim he hE
  point _ c hc := (h c hc).2.1

/-! A spelling is carried on by a digit, a power of ten and a point. -/

/-- Another digit makes a longer spelling. -/
theorem exists_digit (p : Spelling) {d : Char} (hd : d.isDigit = true) :
    ∃ q : Spelling, q.text = p.text ++ [d] := by
  have hmore : ∀ {ds : List Char}, (∀ d ∈ ds, d.isDigit = true) →
      ∀ d' ∈ ds ++ [d], d'.isDigit = true := fun h =>
    List.forall_mem_append.mpr ⟨h, List.forall_mem_singleton.mpr hd⟩
  obtain ⟨sign, whole, fraction, scale, hwhole, hfraction, hne⟩ := p
  cases scale with
  | some c =>
    let more : Scale := ⟨c.capital, c.sign, c.digits ++ [d], hmore c.isDigit, by simp⟩
    exact ⟨⟨sign, whole, fraction, some more, hwhole, hfraction, hne⟩,
      by simp [text, scaleText, Scale.text, Scale.letter, more]⟩
  | none =>
    cases fraction with
    | some ds =>
      refine ⟨⟨sign, whole, some (ds ++ [d]), none, hwhole, ?_, .inr ⟨_, rfl, by simp⟩⟩,
        by simp [text, scaleText, fractionText]⟩
      rintro _ ⟨⟩
      exact hmore (hfraction ds rfl)
    | none =>
      exact ⟨⟨sign, whole ++ [d], none, none, hmore hwhole, isDigit_none, .inl (by simp)⟩,
        by simp [text, scaleText, fractionText]⟩

/-- So does a scale, where there is none yet. -/
theorem exists_scale (p : Spelling) (hp : p.scale = none) (c : Scale) :
    ∃ q : Spelling, q.text = p.text ++ c.text :=
  ⟨{ p with scale := some c }, by simp [text, scaleText, hp]⟩

/-- So does a point after an integer. -/
theorem exists_point (p : Spelling) (hp : p.IsInteger) :
    ∃ q : Spelling, q.text = p.text ++ ['.'] := by
  have hwhole : p.whole ≠ [] := p.ne_nil.resolve_right (by simp [hp.1])
  refine ⟨{ p with fraction := some [], isDigit_fraction := ?_, ne_nil := .inl hwhole }, ?_⟩
  · rintro _ ⟨⟩
    exact List.forall_mem_nil _
  · simp [text, scaleText, fractionText, hp.1, hp.2]

/-- Nothing that follows the longest spelling at the front of a text carries it on. -/
theorem Leads.stops {p : Spelling} {t : List Char} (h : p.Leads (p.text ++ t)) : p.Stops t := by
  -- A spelling that goes on into what follows would be longer.
  have hmore {q : Spelling} {ds : List Char} (rest : List Char) (hq : q.text = p.text ++ ds)
      (ht : ds ++ rest = t) : ds = [] := by
    have hlength := h.longest q ⟨rest, by rw [hq, List.append_assoc, ht]⟩
    rw [hq, List.length_append] at hlength
    exact List.length_eq_zero_iff.mp (by omega)
  constructor
  · intro c hc
    by_contra hd
    obtain ⟨q, hq⟩ := p.exists_digit (eq_true_of_ne_false hd)
    obtain ⟨rest, rfl⟩ := List.head?_eq_some_iff.mp hc
    exact absurd (hmore rest hq rfl) (by simp)
  · rintro hp c ⟨rest, hrest⟩
    obtain ⟨q, hq⟩ := p.exists_scale hp c
    exact absurd (hmore rest hq hrest) (by simp [Scale.text])
  · rintro hp c hc rfl
    obtain ⟨q, hq⟩ := p.exists_point hp
    obtain ⟨rest, rfl⟩ := List.head?_eq_some_iff.mp hc
    exact absurd (hmore rest hq rfl) (by simp)

/-! ## Reading -/

theorem endsDigits_scaleText {scale : Option Scale} {t : List Char} (h : EndsDigits t) :
    EndsDigits (scaleText scale ++ t) := by
  cases scale with
  | none => exact h
  | some c =>
    rintro _ ⟨⟩
    rcases letter_cases c with hc | hc
    all_goals exact hc ▸ rfl

theorem endsDigits_fractionText {fraction : Option (List Char)} {t : List Char}
    (h : EndsDigits t) : EndsDigits (fractionText fraction ++ t) := by
  cases fraction with
  | none => exact h
  | some ds =>
    rintro _ ⟨⟩
    rfl

/-- The fraction is read back, up to what cannot go on with the spelling. -/
theorem fractionOf_append (p : Spelling) {t : List Char} (h : p.Stops t) :
    fractionOf p.whole (fractionText p.fraction ++ (scaleText p.scale ++ t)) =
      (p.fraction, scaleText p.scale ++ t) := by
  have hscale : EndsDigits (scaleText p.scale ++ t) := endsDigits_scaleText h.digit
  cases hp : p.fraction with
  | some ds =>
    have hds := p.isDigit_fraction ds hp
    have hne : ¬(p.whole.isEmpty && ds.isEmpty) = true := by
      simpa [hp, or_iff_not_imp_left] using p.ne_nil
    rw [fractionText, List.cons_append, fractionOf, digitsOf_append hds hscale,
      afterDigits_append hds hscale, if_neg hne]
  | none =>
    -- Neither the letter of a power of ten nor the rest is a point.
    have hpoint : ∀ c ∈ (scaleText p.scale ++ t).head?, c ≠ '.' := by
      cases hc : p.scale with
      | none => exact h.point ⟨hp, hc⟩
      | some c =>
        rintro _ ⟨⟩
        rcases letter_cases c with hc | hc
        all_goals exact hc ▸ (by decide)
    rw [fractionText, List.nil_append]
    generalize scaleText p.scale ++ t = rest at hpoint
    unfold fractionOf
    split
    · exact absurd rfl (hpoint '.' rfl)
    · rfl

/-- What is read as a fraction is one that is written. -/
theorem fractionText_fractionOf (whole t : List Char) :
    fractionText (fractionOf whole t).1 ++ (fractionOf whole t).2 = t := by
  unfold fractionOf
  split
  · split
    · rfl
    · simp [fractionText, digitsOf_append_afterDigits]
  · rfl

/-- A fraction has digits only. -/
theorem isDigit_fractionOf (whole t : List Char) :
    ∀ ds ∈ (fractionOf whole t).1, ∀ d ∈ ds, d.isDigit = true := by
  unfold fractionOf
  split
  · split
    · nofun
    · rintro _ ⟨⟩
      exact isDigit_digitsOf _
  · nofun

/-- No sign stands between the sign of a spelling and its digits. -/
theorem unsigned_body (p : Spelling) (t : List Char) :
    Unsigned (p.whole ++ (fractionText p.fraction ++ t)) := by
  cases hw : p.whole with
  | cons d ds =>
    refine unsigned_of_isDigit ?_
    rintro _ ⟨⟩
    exact p.isDigit_whole d (hw ▸ List.mem_cons_self)
  | nil =>
    obtain ⟨ds, hds, -⟩ := p.ne_nil.resolve_left (absurd hw)
    rw [Option.mem_def.mp hds]
    rintro _ ⟨⟩
    decide

/-- The scale is read back, up to what cannot go on with the spelling. -/
theorem Stops.exponentOf? {p : Spelling} {t : List Char} (h : p.Stops t) :
    exponentOf? (scaleText p.scale ++ t) = p.scale.map fun c => (c.exponent, t) := by
  cases hp : p.scale with
  | none => exact exponentOf?_eq_none_iff.mpr (h.scale hp)
  | some c => exact exponentOf?_text c h.digit

theorem Stops.endsDigits {p : Spelling} {t : List Char} (h : p.Stops t) :
    EndsDigits (fractionText p.fraction ++ (scaleText p.scale ++ t)) :=
  endsDigits_fractionText (endsDigits_scaleText h.digit)

end Spelling
end Numeral

namespace Number

open Numeral Spelling

theorem isPadding_of_isDigit {d : Char} (h : d.isDigit = true) : isPadding d = false := by
  rw [Bool.eq_false_iff]
  intro hp
  simp only [isPadding, Bool.or_eq_true, decide_eq_true_eq] at hp
  rcases hp with ((((rfl | rfl) | rfl) | rfl) | rfl) | rfl
  all_goals cases h

/-- A spelling begins with a sign, a digit or a point, none of which is a blank. -/
theorem dropWhile_isPadding (p : Spelling) (t : List Char) :
    (p.text ++ t).dropWhile isPadding = p.text ++ t := by
  rw [text_append]
  match p.sign with
  | some .plus => rfl
  | some .minus => rfl
  | none =>
    cases hw : p.whole with
    | cons d ds =>
      have hd := isPadding_of_isDigit (p.isDigit_whole d (hw ▸ List.mem_cons_self))
      simp [Sign.text, hd]
    | nil =>
      obtain ⟨ds, hds, -⟩ := p.ne_nil.resolve_left (absurd hw)
      rw [Option.mem_def.mp hds]
      rfl

/-- What is read at the start of a text is the spelling that stands there after the blanks, if
what follows does not carry it on. -/
theorem leading?_of_text {s : String} {p : Spelling} {t : List Char}
    (hs : s.toList.dropWhile isPadding = p.text ++ t) (h : p.Stops t) :
    leading? s = some p.number := by
  have hne : (p.whole.isEmpty && (p.fraction.getD []).isEmpty) = false := by
    rcases p.ne_nil with hne | ⟨ds, hds, hne⟩
    · simp [hne]
    · simp [Option.mem_def.mp hds, hne]
  unfold leading?
  rw [hs, text_append, signOf_append (p.unsigned_body _)]
  simp only [digitsOf_append p.isDigit_whole h.endsDigits,
    afterDigits_append p.isDigit_whole h.endsDigits, fractionOf_append p h, hne, h.exponentOf?,
    Bool.false_eq_true, if_false]
  cases hs : p.scale with
  | some c => cases hf : p.fraction <;> simp [number, numeral, hs, hf]
  | none =>
    cases hf : p.fraction with
    | some ds => simp [number, numeral, hs, hf]
    | none =>
      simp only [number, numeral, hs, hf, Option.map_none, Option.getD_none, Option.isSome_none,
        Bool.false_eq_true, if_false]
      generalize int64? (toInt _) = n
      cases n <;> rfl

/-- Where a number is read, a spelling stands after the blanks. -/
theorem exists_spelling_of_leading? {s : String} {n : Number} (h : leading? s = some n) :
    ∃ p : Spelling, p.text <+: s.toList.dropWhile isPadding := by
  unfold leading? at h
  dsimp only at h
  generalize s.toList.dropWhile isPadding = t at h
  obtain ⟨sign, hsign⟩ := exists_sign t
  generalize (signOf t).2 = body at h hsign
  split at h
  · cases h
  rename_i hne
  -- The mantissa alone is a spelling.
  let p : Spelling := {
    sign := sign
    whole := digitsOf body
    fraction := (fractionOf (digitsOf body) (afterDigits body)).1
    scale := none
    isDigit_whole := isDigit_digitsOf body
    isDigit_fraction := isDigit_fractionOf _ _
    ne_nil := by
      cases hf : (fractionOf (digitsOf body) (afterDigits body)).1 with
      | none => simpa [hf] using hne
      | some ds => simpa [hf, or_iff_not_imp_left] using hne }
  refine ⟨p, (fractionOf (digitsOf body) (afterDigits body)).2, ?_⟩
  rw [text_append]
  simp only [p, scaleText, List.nil_append, fractionText_fractionOf, digitsOf_append_afterDigits,
    hsign]

end Number
end Linearizer
