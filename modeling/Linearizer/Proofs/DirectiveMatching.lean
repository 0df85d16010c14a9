import Linearizer.Proofs.Check.Progress

/-!
# What directives accept

Following directives decides whether lines of the output can be assigned to them. The assignment is
described without positions that move or patterns that wait: both are read off what stands before a
directive.

- **The position** (`resume`): the line after the last one that has been taken.
- **Waiting patterns** (`Standing`): those that should be absent, of the directives since the last
  one that takes a line for a pattern.
- **Assignments** (`Takes`, `Assigns`): what each directive takes.
- **The run** (`Tracks`): position and patterns of a run are those of an assignment, which a step
  extends (`Tracks.step`, `Tracks.exists_step`).

`validate_decides` is the result.
-/

namespace Linearizer
namespace Check

/-- Whether a directive takes a line for a pattern. -/
def Directive.anchors : Directive → Bool
  | .expect _ | .label _ | .next _ => true
  | .absent _ | .empty => false

/-- The line after the last one that directives have taken. -/
def resume (taken : List (Option Nat)) : Nat := (taken.filterMap id).getLast?.elim 0 (· + 1)

/-- After these directives it stands that the pattern should be absent: no line has been taken for
a pattern since the directive that says so. -/
def Standing (directives : List Directive) (pattern : String) : Prop :=
  ∃ earlier later, directives = earlier ++ .absent pattern :: later ∧
    ∀ d ∈ later, d.anchors = false

/-- What a directive takes, after others that lead to the line `start`: the number of a line, or
nothing. -/
def Takes (lines : List String) (before : List Directive) (start : Nat) :
    Directive → Option Nat → Prop
  | .expect pattern, t | .label pattern, t =>
    ∃ n, t = some n ∧ FirstAt lines pattern start n ∧
      ∀ absent, Standing before absent → ∀ m, start ≤ m → m < n → ¬ HoldsAt lines m absent
  | .next pattern, t => t = some start ∧ HoldsAt lines start pattern
  | .absent _, t => t = none
  | .empty, t => t = some start ∧ BlankAt lines start ∨ t = none ∧ lines.length ≤ start

/-- An assignment of lines to directives. -/
structure Assigns (lines : List String) (directives : List Directive)
    (taken : List (Option Nat)) : Prop where
  length_eq : taken.length = directives.length
  takes : ∀ i d t, directives[i]? = some d → taken[i]? = some t →
    Takes lines (directives.take i) (resume (taken.take i)) d t

variable {lines : List String} {directives : List Directive} {taken : List (Option Nat)}
  {d : Directive} {t : Option Nat} {p q : Progress} {pattern : String}

/-! ## One directive more -/

@[simp] theorem resume_concat_some {n : Nat} : resume (taken ++ [some n]) = n + 1 := by
  simp [resume]

@[simp] theorem resume_concat_none : resume (taken ++ [none]) = resume taken := by
  simp [resume]

theorem standing_concat :
    Standing (directives ++ [d]) pattern ↔
      d = .absent pattern ∨ d.anchors = false ∧ Standing directives pattern := by
  constructor
  · rintro ⟨earlier, later, heq, hlater⟩
    rcases concat_eq_append_cons.mp heq with ⟨-, -, rfl⟩ | ⟨rest, rfl, rfl⟩
    · exact .inl rfl
    · exact .inr ⟨hlater d (by simp), earlier, rest, rfl, fun x hx => hlater x (by simp [hx])⟩
  · rintro (rfl | ⟨hd, earlier, later, rfl, hlater⟩)
    · exact ⟨directives, [], rfl, by simp⟩
    · refine ⟨earlier, later ++ [d], by simp, fun x hx => ?_⟩
      rcases List.mem_append.mp hx with hx | hx
      · exact hlater x hx
      · cases List.mem_singleton.mp hx
        exact hd

theorem not_standing_of_anchors (h : d.anchors = true) :
    ¬ Standing (directives ++ [d]) pattern := by
  rw [standing_concat]
  rintro (rfl | ⟨hd, -⟩)
  · cases h
  · rw [h] at hd
    cases hd

theorem assigns_nil : Assigns lines [] [] := ⟨rfl, nofun⟩

theorem Assigns.concat (h : Assigns lines directives taken)
    (ht : Takes lines directives (resume taken) d t) :
    Assigns lines (directives ++ [d]) (taken ++ [t]) := by
  have hlen := h.length_eq
  refine ⟨by simp [hlen], fun i d' t' hd ht' => ?_⟩
  rcases Nat.lt_trichotomy i directives.length with hi | hi | hi
  · rw [List.getElem?_append_left hi] at hd
    rw [List.getElem?_append_left (hlen ▸ hi)] at ht'
    rw [List.take_append_of_le_length (Nat.le_of_lt hi), List.take_append_of_le_length (by omega)]
    exact h.takes i d' t' hd ht'
  · have hi' : i = taken.length := hi.trans hlen.symm
    rw [List.take_left' hi.symm, List.take_left' hi'.symm]
    rw [hi, List.getElem?_concat_length] at hd
    rw [hi', List.getElem?_concat_length] at ht'
    cases hd
    cases ht'
    exact ht
  · rw [List.getElem?_eq_none (by simp; omega)] at hd
    cases hd

theorem Assigns.of_concat {taken' : List (Option Nat)}
    (h : Assigns lines (directives ++ [d]) taken') :
    ∃ taken t, taken' = taken ++ [t] ∧ Assigns lines directives taken ∧
      Takes lines directives (resume taken) d t := by
  have hlen := h.length_eq
  rcases List.eq_nil_or_concat taken' with rfl | ⟨taken, t, rfl⟩
  · simp at hlen
  rw [List.concat_eq_append] at h hlen
  have hlen' : taken.length = directives.length := by simpa using hlen
  refine ⟨taken, t, List.concat_eq_append, ⟨hlen', fun i d' t' hd ht => ?_⟩, ?_⟩
  · have hi : i < directives.length := (List.getElem?_eq_some_iff.mp hd).1
    have := h.takes i d' t' (by rwa [List.getElem?_append_left hi])
      (by rwa [List.getElem?_append_left (hlen' ▸ hi)])
    rwa [List.take_append_of_le_length (Nat.le_of_lt hi),
      List.take_append_of_le_length (by omega)] at this
  · have := h.takes directives.length d t List.getElem?_concat_length
      (hlen' ▸ List.getElem?_concat_length)
    rwa [List.take_left, List.take_left' hlen'] at this

/-! ## The run -/

/-- The run is where an assignment leads. -/
structure Tracks (directives : List Directive) (taken : List (Option Nat)) (p : Progress) :
    Prop where
  position : p.position = resume taken
  absent : ∀ pattern, pattern ∈ p.absent ↔ Standing directives pattern

theorem tracks_nil : Tracks [] [] {} where
  position := rfl
  absent pattern := by simp [Standing]

theorem Tracks.free (h : Tracks directives taken p) {start stop : Nat} :
    Free lines p.absent start stop ↔
      ∀ absent, Standing directives absent →
        ∀ m, start ≤ m → m < stop → ¬ HoldsAt lines m absent := by
  simp only [Free, h.absent]

/-- After a line has been taken for a pattern, no pattern waits. -/
theorem tracks_anchor (hd : d.anchors = true) {n : Nat} :
    Tracks (directives ++ [d]) (taken ++ [some n]) ⟨n + 1, []⟩ where
  position := resume_concat_some.symm
  absent _ := by simp [not_standing_of_anchors hd]

theorem Tracks.absence (h : Tracks directives taken p) (pattern : String) :
    Tracks (directives ++ [.absent pattern]) (taken ++ [none])
      { p with absent := p.absent ++ [pattern] } where
  position := h.position.trans resume_concat_none.symm
  absent other := by
    rw [standing_concat, List.mem_append, h.absent, List.mem_singleton]
    simp [Directive.anchors, or_comm, eq_comm]

/-- A blank line, or none, is taken, and the patterns wait on. -/
theorem Tracks.blank (h : Tracks directives taken p) {position : Nat}
    (hpos : position = resume (taken ++ [t])) :
    Tracks (directives ++ [.empty]) (taken ++ [t]) { p with position } where
  position := hpos
  absent other := by simp [standing_concat, Directive.anchors, h.absent]

/-- A directive that is followed takes what an assignment allows. -/
theorem Tracks.step (h : Tracks directives taken p) (hd : d ≠ .next "")
    (hstep : p.step lines d = .ok q) :
    ∃ t, Takes lines directives (resume taken) d t ∧
      Tracks (directives ++ [d]) (taken ++ [t]) q := by
  cases d with
  | expect pattern | label pattern =>
    obtain ⟨n, hn, hfree, rfl⟩ := Progress.find_eq_ok.mp hstep
    rw [h.position] at hn hfree
    exact ⟨some n, ⟨n, rfl, hn, h.free.mp hfree⟩, tracks_anchor rfl⟩
  | next pattern =>
    obtain ⟨hholds | ⟨rfl, -⟩, rfl⟩ := Progress.takeNext_eq_ok.mp hstep
    · rw [h.position] at hholds ⊢
      exact ⟨some _, ⟨rfl, hholds⟩, tracks_anchor rfl⟩
    · exact absurd rfl hd
  | absent pattern =>
    cases hstep
    exact ⟨none, rfl, h.absence pattern⟩
  | empty =>
    obtain ⟨hblank, rfl⟩ | ⟨hend, rfl⟩ := Progress.takeEmpty_eq_ok.mp hstep
    · rw [h.position] at hblank ⊢
      exact ⟨some _, .inl ⟨rfl, hblank⟩, h.blank resume_concat_some.symm⟩
    · rw [h.position] at hend
      exact ⟨none, .inr ⟨rfl, hend⟩, h.blank (h.position.trans resume_concat_none.symm)⟩

/-- A directive that takes what an assignment allows is followed. -/
theorem Tracks.exists_step (h : Tracks directives taken p)
    (ht : Takes lines directives (resume taken) d t) :
    ∃ q, p.step lines d = .ok q ∧ Tracks (directives ++ [d]) (taken ++ [t]) q := by
  have hpos := h.position
  cases d with
  | expect pattern | label pattern =>
    obtain ⟨n, rfl, hn, hfree⟩ := ht
    rw [← hpos] at hn hfree
    exact ⟨_, Progress.find_eq_ok.mpr ⟨n, hn, h.free.mpr hfree, rfl⟩, tracks_anchor rfl⟩
  | next pattern =>
    obtain ⟨rfl, hholds⟩ := ht
    rw [← hpos] at hholds ⊢
    exact ⟨_, Progress.takeNext_eq_ok.mpr ⟨.inl hholds, rfl⟩, tracks_anchor rfl⟩
  | absent pattern =>
    cases ht
    exact ⟨_, rfl, h.absence pattern⟩
  | empty =>
    rcases ht with ⟨rfl, hblank⟩ | ⟨rfl, hend⟩
    · rw [← hpos] at hblank
      exact ⟨_, Progress.takeEmpty_eq_ok.mpr (.inl ⟨hblank, rfl⟩),
        h.blank (by rw [hpos, resume_concat_some])⟩
    · rw [← hpos] at hend
      exact ⟨_, Progress.takeEmpty_eq_ok.mpr (.inr ⟨hend, rfl⟩),
        h.blank (hpos.trans resume_concat_none.symm)⟩

/-- A run is the run of an assignment. -/
theorem exists_assigns_of_follow (hnext : .next "" ∉ directives)
    (h : follow lines directives = .ok p) :
    ∃ taken, Assigns lines directives taken ∧ Tracks directives taken p := by
  induction directives using List.reverseRecOn generalizing p with
  | nil =>
    cases h
    exact ⟨[], assigns_nil, tracks_nil⟩
  | append_singleton before d ih =>
    obtain ⟨q, hq, hstep⟩ := follow_concat_eq_ok.mp h
    obtain ⟨taken, hassigns, htracks⟩ := ih (fun h => hnext (List.mem_append_left _ h)) hq
    obtain ⟨t, ht, htracks⟩ := htracks.step (fun h => hnext (by simp [h])) hstep
    exact ⟨taken ++ [t], hassigns.concat ht, htracks⟩

/-- An assignment has a run. -/
theorem Assigns.exists_follow (h : Assigns lines directives taken) :
    ∃ p, follow lines directives = .ok p ∧ Tracks directives taken p := by
  induction directives using List.reverseRecOn generalizing taken with
  | nil =>
    cases List.length_eq_zero_iff.mp h.length_eq
    exact ⟨{}, rfl, tracks_nil⟩
  | append_singleton before d ih =>
    obtain ⟨taken, t, rfl, hassigns, ht⟩ := h.of_concat
    obtain ⟨p, hp, htracks⟩ := ih hassigns
    obtain ⟨q, hq, htracks⟩ := htracks.exists_step ht
    exact ⟨q, follow_concat_eq_ok.mpr ⟨p, hp, hq⟩, htracks⟩

/-- Directives, none of them for the next line with an empty pattern, accept an output just if lines
can be assigned to them: to a directive that looks for a pattern the first line from the position on
that holds it, so that no line passed over holds a pattern that stands to be absent; to one for the
next line the line at the position, which holds the pattern; to one for a blank line the line at the
position, if there is one; and if no line from the last position on holds a pattern that stands to
be absent then. -/
theorem validate_decides (output : String) (directives : List Directive)
    (hnext : .next "" ∉ directives) :
    validate output directives = .ok () ↔
      ∃ taken, Assigns ((Text.lines output.toList).map String.ofList) directives taken ∧
        ∀ pattern, Standing directives pattern → ∀ n, resume taken ≤ n →
          ¬ HoldsAt ((Text.lines output.toList).map String.ofList) n pattern := by
  unfold validate validateLines
  generalize (Text.lines output.toList).map String.ofList = lines
  rw [bind_eq_ok_iff]
  constructor
  · rintro ⟨p, hp, hrest⟩
    obtain ⟨taken, hassigns, htracks⟩ := exists_assigns_of_follow hnext hp
    obtain ⟨-, -, hfree⟩ := checkAbsent_eq_ok.mp hrest
    rw [htracks.position] at hfree
    exact ⟨taken, hassigns, fun pattern hp n hn hholds =>
      htracks.free.mp hfree pattern hp n hn hholds.lt_length hholds⟩
  · rintro ⟨taken, hassigns, hrest⟩
    obtain ⟨p, hp, htracks⟩ := hassigns.exists_follow
    -- The end of the output has not been stepped over.
    have hpos : p.position ≤ lines.length := by
      rcases follow_position hp with ⟨hle, -⟩ | ⟨-, hover⟩
      · exact hle
      · exact absurd hover.mem hnext
    refine ⟨p, hp, checkAbsent_eq_ok.mpr ⟨hpos, Nat.le_refl _, ?_⟩⟩
    rw [htracks.position]
    exact htracks.free.mpr fun pattern hp n hn _ => hrest pattern hp n hn

theorem validate_decides_listing :
    let output := "routine f\nentry:\n  \n  ldc.i8 1\n  ret\n"
    let directives : List Directive :=
      [.label "routine f", .next "entry:", .absent "leave", .empty, .expect "ret", .absent "call"]
    .next "" ∉ directives ∧ validate output directives = .ok () ∧
      ∃ taken, Assigns ((Text.lines output.toList).map String.ofList) directives taken ∧
        ∀ pattern, Standing directives pattern → ∀ n, resume taken ≤ n →
          ¬ HoldsAt ((Text.lines output.toList).map String.ofList) n pattern := by
  intro output directives
  have hnext : .next "" ∉ directives := by decide
  have hok : validate output directives = .ok () := by decide +kernel
  exact ⟨hnext, hok, (validate_decides output directives hnext).mp hok⟩

end Check
end Linearizer
