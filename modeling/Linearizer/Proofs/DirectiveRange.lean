import Linearizer.Proofs.Check.Progress

/-!
# Directives stay within the output

No directive asks for lines behind the end of the output, unless one for the next line with an empty
pattern has stepped over the end before it (`Overruns`). What a check reports as forbidden stands in
the output.

- **Behind the end** (`validate_behind`): once the end has been stepped over, the check fails, at
  the latest when the last directive has been followed.
- **Reports** (`absent_of_follow`): the patterns that wait are those that directives name.

`validate_in_range` is the result.
-/

namespace Linearizer
namespace Check

variable {lines : List String} {directives : List Directive} {p : Progress} {e : CheckError}

/-! ## Behind the end -/

theorem Progress.step_behind (h : lines.length < p.position) (d : Directive) :
    (∃ q, p.step lines d = .ok q ∧ q.position = p.position) ∨
      p.step lines d = .error .pastEnd ∨
        ∃ pattern, p.step lines d = .error (.nextMismatch pattern "") := by
  have hnone : lines[p.position]? = none := List.getElem?_eq_none_iff.mpr (Nat.le_of_lt h)
  cases d with
  | expect pattern | label pattern => exact .inr (.inl (if_pos h))
  | next pattern =>
    right
    rw [step, takeNext_eq, hnone, Option.getD_none]
    split
    · left
      rw [checkAbsent, if_pos (by simpa using h)]
      rfl
    · exact .inr ⟨pattern, rfl⟩
  | absent pattern => exact .inl ⟨_, rfl, rfl⟩
  | empty =>
    left
    rw [step, takeEmpty, hnone]
    exact ⟨p, rfl, rfl⟩

/-- From behind the end no directives lead to success. -/
theorem validate_behind (h : lines.length < p.position) (directives : List Directive) :
    let outcome := directives.foldlM (Progress.step lines) p >>= fun q =>
      checkAbsent lines q.absent q.position lines.length
    outcome = .error .pastEnd ∨ ∃ pattern, outcome = .error (.nextMismatch pattern "") := by
  induction directives generalizing p with
  | nil => exact .inl (if_pos (by simpa using h))
  | cons d rest ih =>
    rw [List.foldlM_cons]
    rcases Progress.step_behind h d with ⟨q, hq, hsame⟩ | hpast | ⟨pattern, hmismatch⟩
    · rw [hq]
      exact ih (hsame ▸ h)
    · rw [hpast]
      exact .inl rfl
    · rw [hmismatch]
      exact .inr ⟨pattern, rfl⟩

theorem Overruns.validateLines_fails (h : Overruns lines directives) :
    validateLines lines directives = .error .pastEnd ∨
      ∃ pattern, validateLines lines directives = .error (.nextMismatch pattern "") := by
  obtain ⟨before, after, p, rfl, hp, hend⟩ := h
  have hover : p.step lines (.next "") = .ok ⟨p.position + 1, []⟩ :=
    Progress.takeNext_eq_ok.mpr ⟨.inr ⟨rfl, hend⟩, rfl⟩
  have hrun : validateLines lines (before ++ .next "" :: after) =
      after.foldlM (Progress.step lines) ⟨p.position + 1, []⟩ >>= fun q =>
        checkAbsent lines q.absent q.position lines.length := by
    rw [validateLines, follow_append, hp]
    change (List.foldlM _ _ (.next "" :: after) >>= _) = _
    rw [List.foldlM_cons, hover]
    rfl
  rw [hrun]
  exact validate_behind (by simp [hend]) after

/-! ## Reports -/

theorem Progress.absent_of_step {q : Progress} {d : Directive} (h : p.step lines d = .ok q)
    {pattern : String} (hp : pattern ∈ q.absent) : pattern ∈ p.absent ∨ d = .absent pattern := by
  cases d with
  | expect sought | label sought =>
    obtain ⟨n, -, -, rfl⟩ := find_eq_ok.mp h
    cases hp
  | next sought =>
    obtain ⟨-, rfl⟩ := takeNext_eq_ok.mp h
    cases hp
  | absent other =>
    cases h
    simpa [eq_comm] using hp
  | empty =>
    obtain ⟨-, rfl⟩ | ⟨-, rfl⟩ := takeEmpty_eq_ok.mp h
    · exact .inl hp
    · exact .inl hp

/-- The patterns that wait are named by directives. -/
theorem absent_of_follow (h : follow lines directives = .ok p) {pattern : String}
    (hp : pattern ∈ p.absent) : .absent pattern ∈ directives := by
  induction directives using List.reverseRecOn generalizing p with
  | nil =>
    cases h
    cases hp
  | append_singleton before d ih =>
    obtain ⟨q, hq, hstep⟩ := follow_concat_eq_ok.mp h
    rcases Progress.absent_of_step hstep hp with hp | rfl
    · exact List.mem_append_left _ (ih hq hp)
    · simp

/-- What a failure means: a directive asks for lines that do not exist only when the end has been
stepped over, and a pattern that is reported as forbidden stands on the line that is reported. -/
theorem validateLines_reports (h : validateLines lines directives = .error e) :
    (e = .pastEnd → Overruns lines directives) ∧
      ∀ pattern n, e = .forbidden pattern n →
        .absent pattern ∈ directives ∧ ∃ m, n = m + 1 ∧ HoldsAt lines m pattern := by
  -- Behind the end the position can only be after an overrun.
  have hover {directives : List Directive} {p : Progress} (hp : follow lines directives = .ok p)
      (hlt : lines.length < p.position) : Overruns lines directives := by
    rcases follow_position hp with ⟨hle, -⟩ | ⟨-, h⟩
    · omega
    · exact h
  rcases bind_error h with h | ⟨p, hp, h⟩
  · obtain ⟨before, d, after, p, rfl, hp, hstep⟩ := follow_error h
    obtain ⟨hpast, hforbidden⟩ := Progress.step_error hstep
    refine ⟨fun he => (hover hp (hpast he)).append _, fun pattern n he => ?_⟩
    obtain ⟨hmem, hm⟩ := hforbidden pattern n he
    exact ⟨List.mem_append_left _ (absent_of_follow hp hmem), hm⟩
  · rcases checkAbsent_error h with ⟨rfl, hout⟩ | ⟨absent, hmem, m, -, -, hm, rfl⟩
    · exact ⟨fun _ => hover hp (hout.resolve_right (Nat.lt_irrefl _)), nofun⟩
    · refine ⟨nofun, fun _ _ heq => ?_⟩
      cases heq
      exact ⟨absent_of_follow hp hmem, m, rfl, hm⟩

/-- The position reached by the first directives lies within the output, unless one of them for the
next line with an empty pattern was come to when no line was left. Without such a directive the
check never asks for lines that do not exist; with one it fails. A pattern that is reported as
forbidden is one that a directive names, and stands on the line of the number that is reported,
counted from one. -/
theorem validate_in_range (output : String) (directives : List Directive) :
    let lines := (Text.lines output.toList).map String.ofList
    (∀ before p, before <+: directives → follow lines before = .ok p →
        (p.position ≤ lines.length ↔ ¬ Overruns lines before)) ∧
      (¬ Overruns lines directives → validate output directives ≠ .error .pastEnd) ∧
      (Overruns lines directives → validate output directives = .error .pastEnd ∨
        ∃ pattern, validate output directives = .error (.nextMismatch pattern "")) ∧
      ∀ pattern n, validate output directives = .error (.forbidden pattern n) →
        .absent pattern ∈ directives ∧ 0 < n ∧
          ∃ line, lines[n - 1]? = some line ∧ pattern.toList <:+: line.toList := by
  intro lines
  refine ⟨fun before p _ hp => ?_, fun hnot h => ?_, Overruns.validateLines_fails, ?_⟩
  · rcases follow_position hp with ⟨hle, hnot⟩ | ⟨heq, hover⟩
    · exact iff_of_true hle hnot
    · exact iff_of_false (by omega) (not_not_intro hover)
  · exact hnot ((validateLines_reports h).1 rfl)
  · intro pattern n h
    obtain ⟨hmem, m, rfl, hm⟩ := (validateLines_reports h).2 pattern n rfl
    exact ⟨hmem, Nat.succ_pos m, hm⟩

theorem validate_in_range_forbidden :
    let output := "a\nleave L0\nb\n"
    let directives : List Directive := [.expect "a", .absent "leave", .expect "b"]
    let lines := (Text.lines output.toList).map String.ofList
    (¬ Overruns lines directives ∧ validate output directives ≠ .error .pastEnd) ∧
      validate output directives = .error (.forbidden "leave" 2) ∧
        .absent "leave" ∈ directives ∧ 0 < 2 ∧
          ∃ line, lines[2 - 1]? = some line ∧ "leave".toList <:+: line.toList := by
  intro output directives lines
  obtain ⟨-, hrange, -, hreport⟩ := validate_in_range output directives
  have hnot : ¬ Overruns lines directives := fun h => absurd h.mem (by decide)
  have hforbidden : validate output directives = .error (.forbidden "leave" 2) := by decide +kernel
  exact ⟨⟨hnot, hrange hnot⟩, hforbidden, hreport _ _ hforbidden⟩

end Check
end Linearizer
