import Mathlib.Data.List.Induction
import Linearizer.Check.Match

/-!
# Following directives

What one directive does to the position and to the patterns that wait, in terms of the lines of the
output alone.

- **Lines** (`HoldsAt`, `BlankAt`, `FirstAt`, `Free`): a pattern stands on a line, a line is blank,
  a line is the first with a pattern, and lines are free of some patterns.
- **One directive** (`Progress.find_eq_ok`, `Progress.takeNext_eq_ok`, `Progress.takeEmpty_eq_ok`):
  just when it is followed, and to where; `Progress.step_error` says what a failure means.
- **Some directives** (`follow_concat`, `follow_error`): a run is taken apart at its last directive.
-/

namespace Linearizer

theorem Text.hasInfix_iff {pattern cs : List Char} :
    hasInfix pattern cs = true ↔ pattern <:+: cs := by
  induction cs with
  | nil => simp [hasInfix]
  | cons c rest ih =>
    rw [hasInfix, Bool.or_eq_true, List.isPrefixOf_iff_prefix, ih, List.infix_cons_iff]

namespace Check

variable {lines absent : List String} {pattern : String} {start stop n : Nat}

/-! ## Lines -/

/-- There is a line of this number, and the pattern stands on it. -/
def HoldsAt (lines : List String) (n : Nat) (pattern : String) : Prop :=
  ∃ line, lines[n]? = some line ∧ pattern.toList <:+: line.toList

/-- There is a line of this number, and it holds nothing but blanks. -/
def BlankAt (lines : List String) (n : Nat) : Prop :=
  ∃ line, lines[n]? = some line ∧ ∀ c ∈ line.toList, Text.isBlank c = true

/-- The line is the first one from `start` on that the pattern stands on. -/
structure FirstAt (lines : List String) (pattern : String) (start n : Nat) : Prop where
  start_le : start ≤ n
  holds : HoldsAt lines n pattern
  first : ∀ m, start ≤ m → m < n → ¬ HoldsAt lines m pattern

/-- None of the patterns stands on a line from `start` up to `stop`. -/
def Free (lines absent : List String) (start stop : Nat) : Prop :=
  ∀ pattern ∈ absent, ∀ m, start ≤ m → m < stop → ¬ HoldsAt lines m pattern

theorem free_self : Free lines absent start start :=
  fun _ _ _ hm hlt => absurd hm (Nat.not_le_of_lt hlt)

theorem contains_iff {line : String} :
    contains pattern line = true ↔ pattern.toList <:+: line.toList :=
  Text.hasInfix_iff

theorem HoldsAt.lt_length (h : HoldsAt lines n pattern) : n < lines.length := by
  obtain ⟨line, hline, -⟩ := h
  exact (List.getElem?_eq_some_iff.mp hline).1

theorem BlankAt.lt_length (h : BlankAt lines n) : n < lines.length := by
  obtain ⟨line, hline, -⟩ := h
  exact (List.getElem?_eq_some_iff.mp hline).1

theorem holdsAt_iff_of_getElem? {line : String} (h : lines[n]? = some line) :
    HoldsAt lines n pattern ↔ contains pattern line = true := by
  simp [HoldsAt, h, contains_iff]

theorem blankAt_iff_of_getElem? {line : String} (h : lines[n]? = some line) :
    BlankAt lines n ↔ isBlankLine line = true := by
  simp [BlankAt, h, isBlankLine]

/-- The search finds the first line with a pattern. -/
theorem findIdx?_eq_some_iff_firstAt {k : Nat} :
    (lines.drop start).findIdx? (contains pattern) = some k ↔
      FirstAt lines pattern start (start + k) := by
  have hline {m : Nat} (hm : m < (lines.drop start).length) :
      contains pattern (lines.drop start)[m] = true ↔ HoldsAt lines (start + m) pattern := by
    refine (holdsAt_iff_of_getElem? ?_).symm
    rw [← List.getElem?_drop, List.getElem?_eq_getElem hm]
  rw [List.findIdx?_eq_some_iff_getElem]
  constructor
  · rintro ⟨hk, hholds, hfirst⟩
    refine ⟨Nat.le_add_right _ _, (hline hk).mp hholds, fun m hm hlt hm' => ?_⟩
    obtain ⟨j, rfl⟩ := Nat.exists_eq_add_of_le hm
    exact hfirst j (by omega) ((hline (by omega)).mpr hm')
  · rintro ⟨-, hholds, hfirst⟩
    have hk : k < (lines.drop start).length := by
      have := hholds.lt_length
      rw [List.length_drop]
      omega
    exact ⟨hk, (hline hk).mpr hholds, fun j hj hc =>
      hfirst (start + j) (by omega) (by omega) ((hline (by omega)).mp hc)⟩

/-! ## Patterns that should be absent -/

/-- Nothing is reported just if no line holds a pattern that should be absent. -/
theorem violation?_eq_none {before : Nat} :
    violation? absent before lines = none ↔
      ∀ pattern ∈ absent, ∀ line ∈ lines, contains pattern line = false := by
  induction lines generalizing before with
  | nil => simp [violation?]
  | cons line rest ih =>
    unfold violation?
    cases hf : absent.find? fun pattern => contains pattern line with
    | some pattern =>
      have hmem := List.mem_of_find?_eq_some hf
      have hcontains := List.find?_some hf
      simp only [reduceCtorEq, false_iff]
      intro h
      have := h pattern hmem line List.mem_cons_self
      simp_all
    | none =>
      simp only [List.find?_eq_none, Bool.not_eq_true] at hf
      simp only [ih, List.forall_mem_cons]
      exact ⟨fun h p hp => ⟨hf p hp, h p hp⟩, fun h p hp => (h p hp).2⟩

/-- What is reported stands on the line that is named. -/
theorem violation?_eq_some {before : Nat} {e : CheckError}
    (h : violation? absent before lines = some e) :
    ∃ pattern ∈ absent, ∃ k line, lines[k]? = some line ∧ contains pattern line = true ∧
      e = .forbidden pattern (before + k + 1) := by
  induction lines generalizing before with
  | nil => cases h
  | cons line rest ih =>
    unfold violation? at h
    cases hf : absent.find? fun pattern => contains pattern line with
    | some pattern =>
      rw [hf] at h
      cases h
      exact ⟨pattern, List.mem_of_find?_eq_some hf, 0, line, rfl, by simpa using List.find?_some hf,
        rfl⟩
    | none =>
      rw [hf] at h
      obtain ⟨pattern, hp, k, line', hk, hc, rfl⟩ := ih h
      exact ⟨pattern, hp, k + 1, line', hk, hc, by rw [Nat.add_assoc before 1 k, Nat.add_comm 1 k]⟩

theorem getElem?_slice {k : Nat} {line : String} :
    ((lines.take stop).drop start)[k]? = some line ↔
      start + k < stop ∧ lines[start + k]? = some line := by
  rw [List.getElem?_drop, List.getElem?_take]
  split <;> simp [*]

/-- Lines are accepted just if they exist and are free of the patterns. -/
theorem checkAbsent_eq_ok :
    checkAbsent lines absent start stop = .ok () ↔
      start ≤ stop ∧ stop ≤ lines.length ∧ Free lines absent start stop := by
  unfold checkAbsent
  split
  next hout =>
    simp only [Bool.or_eq_true, decide_eq_true_eq] at hout
    constructor
    · intro h
      cases h
    · rintro ⟨hs, hl, -⟩
      omega
  next hin =>
    simp only [Bool.or_eq_true, decide_eq_true_eq, not_or, Nat.not_lt] at hin
    have hfree : violation? absent start ((lines.take stop).drop start) = none ↔
        Free lines absent start stop := by
      rw [violation?_eq_none]
      refine forall_congr' fun pattern => imp_congr_right fun _ => ?_
      constructor
      · rintro h m hm hlt ⟨line, hline, hinfix⟩
        obtain ⟨k, rfl⟩ := Nat.exists_eq_add_of_le hm
        have := h line (List.mem_of_getElem? (getElem?_slice.mpr ⟨hlt, hline⟩))
        rw [contains_iff.mpr hinfix] at this
        cases this
      · intro h line hline
        obtain ⟨k, hk⟩ := List.getElem?_of_mem hline
        obtain ⟨hlt, hk⟩ := getElem?_slice.mp hk
        have := h (start + k) (Nat.le_add_right _ _) hlt
        rw [holdsAt_iff_of_getElem? hk] at this
        simpa using this
    rw [← hfree]
    cases violation? absent start ((lines.take stop).drop start) with
    | some e => simp [throw, throwThe, MonadExceptOf.throw]
    | none => simp [hin, pure, Except.pure]

/-- A failure means that lines do not exist or that a pattern stands on one of them. -/
theorem checkAbsent_error {e : CheckError} (h : checkAbsent lines absent start stop = .error e) :
    (e = .pastEnd ∧ (stop < start ∨ lines.length < stop)) ∨
      ∃ pattern ∈ absent, ∃ m, start ≤ m ∧ m < stop ∧ HoldsAt lines m pattern ∧
        e = .forbidden pattern (m + 1) := by
  unfold checkAbsent at h
  split at h
  next hout =>
    cases h
    exact .inl ⟨rfl, by simpa using hout⟩
  next hin =>
    cases hv : violation? absent start ((lines.take stop).drop start) with
    | none =>
      rw [hv] at h
      cases h
    | some e' =>
      rw [hv] at h
      cases h
      obtain ⟨pattern, hp, k, line, hk, hc, rfl⟩ := violation?_eq_some hv
      obtain ⟨hlt, hk⟩ := getElem?_slice.mp hk
      exact .inr ⟨pattern, hp, start + k, Nat.le_add_right _ _, hlt,
        (holdsAt_iff_of_getElem? hk).mpr hc, rfl⟩

/-! ## One directive -/

section Bind

variable {α β : Type} {x : Except CheckError α} {f : α → Except CheckError β} {e : CheckError}

theorem bind_eq_ok_iff {b : β} : x >>= f = .ok b ↔ ∃ a, x = .ok a ∧ f a = .ok b := by
  cases x with
  | error e => exact ⟨nofun, nofun⟩
  | ok a => exact ⟨fun h => ⟨a, rfl, h⟩, fun ⟨_, ha, h⟩ => Except.ok.inj ha ▸ h⟩

theorem bind_error (h : x >>= f = .error e) :
    x = .error e ∨ ∃ a, x = .ok a ∧ f a = .error e := by
  cases x with
  | error e' => exact .inl (congrArg _ (Except.error.inj h))
  | ok a => exact .inr ⟨a, rfl, h⟩

theorem check_then_eq_ok {check : Except CheckError Unit} {a b : α} :
    (do check; return a) = Except.ok b ↔ check = .ok () ∧ a = b := by
  refine bind_eq_ok_iff.trans ⟨fun ⟨_, hc, h⟩ => ⟨hc, Except.ok.inj h⟩, fun ⟨hc, h⟩ => ?_⟩
  exact ⟨(), hc, congrArg _ h⟩

theorem check_then_error {check : Except CheckError Unit} {a : α}
    (h : (do check; return a) = Except.error e) : check = .error e := by
  rcases bind_error h with h | ⟨_, -, h⟩
  · exact h
  · cases h

end Bind

namespace Progress

variable {p q : Progress} {e : CheckError}

/-- A pattern is found on the first line that holds it, if the lines before are free of what
waits. -/
theorem find_eq_ok :
    p.find lines pattern = .ok q ↔
      ∃ n, FirstAt lines pattern p.position n ∧ Free lines p.absent p.position n ∧
        q = ⟨n + 1, []⟩ := by
  unfold find
  split
  next hout =>
    -- The position is behind the output, where no line stands.
    refine ⟨nofun, ?_⟩
    rintro ⟨n, hn, -⟩
    have := hn.start_le
    have := hn.holds.lt_length
    omega
  next hin =>
    cases hk : (lines.drop p.position).findIdx? (contains pattern) with
    -- No line from the position on holds the pattern.
    | none =>
      refine ⟨nofun, ?_⟩
      rintro ⟨n, hn, -⟩
      obtain ⟨k, rfl⟩ := Nat.exists_eq_add_of_le hn.start_le
      rw [findIdx?_eq_some_iff_firstAt.mpr hn] at hk
      cases hk
    | some k =>
      have hfirst := findIdx?_eq_some_iff_firstAt.mp hk
      dsimp only
      rw [check_then_eq_ok, checkAbsent_eq_ok]
      constructor
      · rintro ⟨⟨-, -, hfree⟩, rfl⟩
        exact ⟨p.position + k, hfirst, hfree, rfl⟩
      · rintro ⟨n, hn, hfree, rfl⟩
        -- Two lines that are both the first with the pattern are the same.
        obtain ⟨k', rfl⟩ := Nat.exists_eq_add_of_le hn.start_le
        rw [findIdx?_eq_some_iff_firstAt.mpr hn] at hk
        cases hk
        exact ⟨⟨hn.start_le, Nat.le_of_lt hn.holds.lt_length, hfree⟩, rfl⟩

theorem takeNext_eq :
    p.takeNext lines pattern =
      if contains pattern (lines[p.position]?.getD "") then do
        checkAbsent lines p.absent p.position p.position
        return ⟨p.position + 1, []⟩
      else .error (.nextMismatch pattern (lines[p.position]?.getD "")) := by
  unfold takeNext
  dsimp only
  cases contains pattern (lines[p.position]?.getD "") <;> rfl

/-- A directive for the next line is followed if the pattern stands there. An empty pattern is also
found right behind the last line. -/
theorem takeNext_eq_ok :
    p.takeNext lines pattern = .ok q ↔
      (HoldsAt lines p.position pattern ∨ pattern = "" ∧ p.position = lines.length) ∧
        q = ⟨p.position + 1, []⟩ := by
  have htaken : p.takeNext lines pattern = .ok q ↔
      contains pattern (lines[p.position]?.getD "") = true ∧ p.position ≤ lines.length ∧
        q = ⟨p.position + 1, []⟩ := by
    rw [takeNext_eq]
    split
    next hc =>
      rw [check_then_eq_ok, checkAbsent_eq_ok]
      simp [free_self, hc, eq_comm]
    next hc => simp [hc]
  rw [htaken]
  cases hline : lines[p.position]? with
  | none =>
    -- Behind the last line the text is taken for empty, which only an empty pattern stands in.
    have hlen := List.getElem?_eq_none_iff.mp hline
    have hholds : ¬ HoldsAt lines p.position pattern := fun h => absurd h.lt_length (by omega)
    rw [Option.getD_none, contains_iff]
    simp [hholds, Nat.le_antisymm_iff, hlen, and_assoc]
  | some line =>
    have hlen := (List.getElem?_eq_some_iff.mp hline).1
    rw [Option.getD_some, holdsAt_iff_of_getElem? hline]
    simp [Nat.le_of_lt hlen, Nat.ne_of_lt hlen]

/-- A blank line is taken, and where the output has ended nothing happens. -/
theorem takeEmpty_eq_ok :
    p.takeEmpty lines = .ok q ↔
      BlankAt lines p.position ∧ q = { p with position := p.position + 1 } ∨
        lines.length ≤ p.position ∧ q = p := by
  unfold takeEmpty
  cases hline : lines[p.position]? with
  | none =>
    have hlen := List.getElem?_eq_none_iff.mp hline
    have hblank : ¬ BlankAt lines p.position := fun h => absurd h.lt_length (by omega)
    simp [hblank, hlen, pure, Except.pure, eq_comm]
  | some line =>
    have hlen : ¬ lines.length ≤ p.position :=
      Nat.not_le_of_lt (List.getElem?_eq_some_iff.mp hline).1
    dsimp only
    rw [blankAt_iff_of_getElem? hline]
    split <;> simp [*, pure, Except.pure, throw, throwThe, MonadExceptOf.throw, eq_comm]

/-- Why a pattern may not be found. -/
theorem find_error (h : p.find lines pattern = .error e) :
    (e = .pastEnd ∧ lines.length < p.position) ∨ e = .notFound pattern ∨
      ∃ absent ∈ p.absent, ∃ m, HoldsAt lines m absent ∧ e = .forbidden absent (m + 1) := by
  unfold find at h
  split at h
  next hout =>
    cases h
    exact .inl ⟨rfl, hout⟩
  next hin =>
    cases hk : (lines.drop p.position).findIdx? (contains pattern) with
    | none =>
      rw [hk] at h
      cases h
      exact .inr (.inl rfl)
    | some k =>
      rw [hk] at h
      have hlen := (findIdx?_eq_some_iff_firstAt.mp hk).holds.lt_length
      rcases checkAbsent_error (check_then_error h) with ⟨-, hout⟩ | ⟨absent, ha, m, -, -, hm, rfl⟩
      · omega
      · exact .inr (.inr ⟨absent, ha, m, hm, rfl⟩)

/-- Why the next line may not be the wanted one. -/
theorem takeNext_error (h : p.takeNext lines pattern = .error e) :
    (e = .pastEnd ∧ lines.length < p.position) ∨
      e = .nextMismatch pattern (lines[p.position]?.getD "") := by
  rw [takeNext_eq] at h
  split at h
  · rcases checkAbsent_error (check_then_error h) with ⟨rfl, hout⟩ | ⟨_, _, m, hm, hlt, _⟩
    · exact .inl ⟨rfl, hout.resolve_left (Nat.lt_irrefl _)⟩
    · exact absurd hm (Nat.not_le_of_lt hlt)
  · cases h
    exact .inr rfl

theorem takeEmpty_error (h : p.takeEmpty lines = .error e) : ∃ line, e = .notEmpty line := by
  unfold takeEmpty at h
  split at h
  · cases h
  · split at h
    · cases h
    · cases h
      exact ⟨_, rfl⟩

/-- A directive asks for lines that do not exist only from behind the end, and a pattern that is
reported as forbidden waited and stands on the line that is reported. -/
theorem step_error {d : Directive} (h : p.step lines d = .error e) :
    (e = .pastEnd → lines.length < p.position) ∧
      ∀ pattern n, e = .forbidden pattern n →
        pattern ∈ p.absent ∧ ∃ m, n = m + 1 ∧ HoldsAt lines m pattern := by
  cases d with
  | expect sought | label sought =>
    rcases find_error h with ⟨rfl, hout⟩ | rfl | ⟨pattern, hp, m, hm, rfl⟩
    · exact ⟨fun _ => hout, nofun⟩
    · exact ⟨nofun, nofun⟩
    · refine ⟨nofun, fun _ _ heq => ?_⟩
      cases heq
      exact ⟨hp, m, rfl, hm⟩
  | next pattern =>
    rcases takeNext_error h with ⟨rfl, hout⟩ | rfl
    · exact ⟨fun _ => hout, nofun⟩
    · exact ⟨nofun, nofun⟩
  | absent pattern => cases h
  | empty =>
    obtain ⟨line, rfl⟩ := takeEmpty_error h
    exact ⟨nofun, nofun⟩

/-- What a directive does to the position: it goes over lines that exist, or nowhere, or it steps
over the end, which only a directive for the next line with an empty pattern does. -/
theorem step_position {d : Directive} (h : p.step lines d = .ok q) :
    (p.position < lines.length ∧ q.position ≤ lines.length) ∨
      (d ≠ .next "" ∧ q.position = p.position) ∨
        (d = .next "" ∧ p.position = lines.length ∧ q.position = lines.length + 1) := by
  cases d with
  | expect sought | label sought =>
    obtain ⟨n, hn, -, rfl⟩ := find_eq_ok.mp h
    exact .inl ⟨Nat.lt_of_le_of_lt hn.start_le hn.holds.lt_length, hn.holds.lt_length⟩
  | next pattern =>
    obtain ⟨hholds | ⟨rfl, hend⟩, rfl⟩ := takeNext_eq_ok.mp h
    · exact .inl ⟨hholds.lt_length, hholds.lt_length⟩
    · exact .inr (.inr ⟨rfl, hend, congrArg (· + 1) hend⟩)
  | absent pattern =>
    cases h
    exact .inr (.inl ⟨nofun, rfl⟩)
  | empty =>
    obtain ⟨hblank, rfl⟩ | ⟨-, rfl⟩ := takeEmpty_eq_ok.mp h
    · exact .inl ⟨hblank.lt_length, hblank.lt_length⟩
    · exact .inr (.inl ⟨nofun, rfl⟩)

end Progress

/-! ## Some directives -/

/-- Where an element stands in a list with one more at the end. -/
theorem concat_eq_append_cons {α : Type} {xs before after : List α} {x y : α} :
    xs ++ [x] = before ++ y :: after ↔
      (after = [] ∧ xs = before ∧ x = y) ∨
        ∃ rest, after = rest ++ [x] ∧ xs = before ++ y :: rest := by
  constructor
  · intro h
    rcases List.eq_nil_or_concat after with rfl | ⟨rest, last, rfl⟩
    · obtain ⟨hxs, hx⟩ := List.append_inj' h rfl
      exact .inl ⟨rfl, hxs, List.singleton_inj.mp hx⟩
    · rw [List.concat_eq_append, ← List.cons_append, ← List.append_assoc] at h
      obtain ⟨hxs, hx⟩ := List.append_inj' h rfl
      cases List.singleton_inj.mp hx
      exact .inr ⟨rest, List.concat_eq_append, hxs⟩
  · rintro (⟨rfl, rfl, rfl⟩ | ⟨rest, rfl, rfl⟩)
    · rfl
    · simp

variable {directives : List Directive} {d : Directive} {p q : Progress} {e : CheckError}

theorem follow_append (more : List Directive) :
    follow lines (directives ++ more) =
      follow lines directives >>= fun p => more.foldlM (Progress.step lines) p :=
  List.foldlM_append

/-- A run is taken apart at its last directive. -/
theorem follow_concat :
    follow lines (directives ++ [d]) = follow lines directives >>= fun p => p.step lines d := by
  rw [follow_append]
  congr 1
  funext p
  rw [List.foldlM_cons]
  cases p.step lines d <;> rfl

theorem follow_concat_eq_ok :
    follow lines (directives ++ [d]) = .ok q ↔
      ∃ p, follow lines directives = .ok p ∧ p.step lines d = .ok q := by
  rw [follow_concat, bind_eq_ok_iff]

/-- A run that fails does so at a directive that the ones before it lead to. -/
theorem follow_error (h : follow lines directives = .error e) :
    ∃ before d after p, directives = before ++ d :: after ∧ follow lines before = .ok p ∧
      p.step lines d = .error e := by
  induction directives using List.reverseRecOn with
  | nil => cases h
  | append_singleton before d ih =>
    rw [follow_concat] at h
    rcases bind_error h with h | ⟨p, hp, hstep⟩
    · obtain ⟨earlier, d', later, p, rfl, hp, hstep⟩ := ih h
      exact ⟨earlier, d', later ++ [d], p, by simp, hp, hstep⟩
    · exact ⟨before, d, [], p, rfl, hp, hstep⟩

/-! ## The position -/

/-- A directive for the next line with an empty pattern is come to when no line is left. -/
def Overruns (lines : List String) (directives : List Directive) : Prop :=
  ∃ before after p, directives = before ++ .next "" :: after ∧ follow lines before = .ok p ∧
    p.position = lines.length

theorem Overruns.append (h : Overruns lines directives) (more : List Directive) :
    Overruns lines (directives ++ more) := by
  obtain ⟨before, after, p, rfl, hp, hend⟩ := h
  exact ⟨before, after ++ more, p, by simp, hp, hend⟩

theorem Overruns.mem (h : Overruns lines directives) : .next "" ∈ directives := by
  obtain ⟨before, after, p, rfl, -⟩ := h
  simp

/-- The end is stepped over by the last directive or before it. -/
theorem overruns_concat (hp : follow lines directives = .ok p) :
    Overruns lines (directives ++ [d]) ↔
      Overruns lines directives ∨ d = .next "" ∧ p.position = lines.length := by
  constructor
  · rintro ⟨before, after, q, heq, hq, hend⟩
    rcases concat_eq_append_cons.mp heq with ⟨-, rfl, rfl⟩ | ⟨rest, -, rfl⟩
    · rw [hp] at hq
      cases hq
      exact .inr ⟨rfl, hend⟩
    · exact .inl ⟨before, rest, q, rfl, hq, hend⟩
  · rintro (h | ⟨rfl, hend⟩)
    · exact h.append [d]
    · exact ⟨directives, [], p, rfl, hp, hend⟩

/-- The position stays within the output, or, once a directive has stepped over the end, right
behind it. -/
theorem follow_position (h : follow lines directives = .ok p) :
    (p.position ≤ lines.length ∧ ¬ Overruns lines directives) ∨
      (p.position = lines.length + 1 ∧ Overruns lines directives) := by
  induction directives using List.reverseRecOn generalizing p with
  | nil =>
    cases h
    exact .inl ⟨Nat.zero_le _, fun ⟨before, _, _, heq, _⟩ => by simp at heq⟩
  | append_singleton before d ih =>
    obtain ⟨q, hq, hstep⟩ := follow_concat_eq_ok.mp h
    rw [overruns_concat hq]
    rcases Progress.step_position hstep with ⟨hlt, hle⟩ | ⟨hd, hsame⟩ | ⟨rfl, hend, hover⟩
    · rcases ih hq with ⟨-, hnot⟩ | ⟨hpos, -⟩
      · exact .inl ⟨hle, by rintro (h | ⟨-, h⟩); exacts [hnot h, absurd h (Nat.ne_of_lt hlt)]⟩
      · omega
    · simpa [hsame, hd] using ih hq
    · exact .inr ⟨hover, .inr ⟨rfl, hend⟩⟩

end Check
end Linearizer
