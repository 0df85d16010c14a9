import Mathlib.Control.Monad.Basic
import Linearizer.Proofs.Renumbering

/-!
# Lines that say nothing

A line is void when it has nothing but blanks, or when a semicolon is the first other character.
Void lines may be added to a text, or taken out of it, anywhere between its lines: what is read
stays the same, up to the numbers of the lines behind them.

- **Texts** (`Text.Adds k added text text'`): `text'` has the lines of `text` and, behind the first
  `k` of them, the lines `added`.
- **Lines** (`scanFrom_insert`): void lines have no tokens, so that scanning the longer text gives
  the same lines under other numbers.
- **Routines** (`Source.parse_insert`): the same for all that `parse` gives, with the numbers that
  `shift` gives, and for errors.
-/

namespace Linearizer

namespace Text

/-- Whether a line says nothing: it is blank, or a comment takes all of it. -/
def isVoid (line : List Char) : Bool := (trimStart line).head?.all (· = ';')

/-- Whether a text ends where a line does. -/
def isComplete (cs : List Char) : Bool := cs.getLast?.all (· = '\n')

/-- Lines are added to a text (module doc). -/
def Adds (k : Nat) (added : List (List Char)) (text text' : String) : Prop :=
  ∃ before after, before.length = k ∧ lines text.toList = before ++ after ∧
    lines text'.toList = before ++ added ++ after

theorem lines_ne_nil {cs : List Char} (h : cs ≠ []) : lines cs ≠ [] := by
  fun_cases lines cs with
  | case1 => exact absurd rfl h
  | case2 => simp
  | case3 => simp
  | case4 => simp
  | case5 => simp

theorem isComplete_tail {c : Char} {cs : List Char} (h : isComplete (c :: cs) = true) :
    isComplete cs = true := by
  cases cs with
  | nil => rfl
  | cons d cs => exact h

/-- The lines of two texts one after the other, the first of which ends where a line does. -/
theorem lines_append {cs : List Char} (h : isComplete cs = true) (rest : List Char) :
    lines (cs ++ rest) = lines cs ++ lines rest := by
  fun_induction lines cs with
  | case1 => rfl
  | case2 cs ih =>
    simp only [List.cons_append, lines]
    rw [ih (isComplete_tail (isComplete_tail h))]
  | case3 cs ih =>
    simp only [List.cons_append, lines]
    rw [ih (isComplete_tail h)]
  | case4 c cs hcr hn hl ih =>
    cases cs with
    | nil => exact absurd (by simpa [isComplete] using h) hn
    | cons d cs => exact absurd hl (lines_ne_nil (List.cons_ne_nil d cs))
  | case5 c cs hcr hn line others hl ih =>
    cases cs with
    | nil => cases hl
    | cons d cs =>
      -- The second character decides whether the first belongs to the end of a line.
      have hcr' (tail : List Char) (hc : c = '\r') (hd : d :: cs ++ rest = '\n' :: tail) : False :=
        hcr cs hc (by rw [(List.cons.inj hd).1])
      rw [List.cons_append, lines, ih (isComplete_tail h), hl]
      · rfl
      · exact hcr'
      · exact hn

end Text

namespace Source

/-- A void line has no tokens. -/
theorem tokens_of_isVoid {line : List Char} (h : Text.isVoid line = true) :
    tokens line = .ok [] := by
  have within (steps : Nat) : tokensWithin steps line = .ok [] := by
    induction line generalizing steps with
    | nil => cases steps <;> rfl
    | cons c cs ih =>
      cases steps with
      | zero => rfl
      | succ steps =>
        rw [tokensWithin]
        split
        · rename_i blank
          refine ih ?_ steps
          simpa [Text.isVoid, Text.trimStart, blank] using h
        · rename_i blank
          have comment : c = ';' := by simpa [Text.isVoid, Text.trimStart, blank] using h
          rw [if_pos comment]
  exact within _

/-! ## Scanning -/

section Scan

variable {f : Nat → Nat}

/-- A line in front of renumbered ones. -/
theorem scanFrom_cons {n n' : Nat} (hn : f n = n') (cs : List Char) {ls ls' : List (List Char)}
    (h : scanFrom (n' + 1) ls' = renumbered f (List.map (Line.renumber f)) (scanFrom (n + 1) ls)) :
    scanFrom n' (cs :: ls') =
      renumbered f (List.map (Line.renumber f)) (scanFrom n (cs :: ls)) := by
  subst hn
  rw [scanFrom, scanFrom]
  cases tokens cs with
  | error complaint => rfl
  | ok ts =>
    dsimp only
    rw [h]
    cases scanFrom (n + 1) ls with
    | error e => rfl
    | ok others => cases ts <;> rfl

/-- The same lines with all numbers larger by `d`. -/
theorem scanFrom_add {d : Nat} (ls : List (List Char)) {n : Nat} (h : ∀ m, n ≤ m → f m = m + d) :
    scanFrom (n + d) ls = renumbered f (List.map (Line.renumber f)) (scanFrom n ls) := by
  induction ls generalizing n with
  | nil => rfl
  | cons cs ls ih =>
    have rest := ih (n := n + 1) fun m hm => h m (Nat.le_of_succ_le hm)
    rw [Nat.add_right_comm] at rest
    exact scanFrom_cons (h n (Nat.le_refl n)) cs rest

variable {added : List (List Char)} (void : ∀ l ∈ added, Text.isVoid l = true)
include void

/-- Void lines only count. -/
theorem scanFrom_void (ls : List (List Char)) (n : Nat) :
    scanFrom n (added ++ ls) = scanFrom (n + added.length) ls := by
  induction added generalizing n with
  | nil => rfl
  | cons cs added ih =>
    have rest := ih (fun l hl => void l (.tail cs hl)) (n + 1)
    rw [List.cons_append, scanFrom, tokens_of_isVoid (void cs List.mem_cons_self)]
    dsimp only
    rw [rest, List.length_cons, Nat.add_comm added.length, ← Nat.add_assoc]
    cases scanFrom (n + 1 + added.length) ls <;> rfl

theorem scanFrom_insert (before after : List (List Char)) {n : Nat}
    (first : ∀ m, m < n + before.length → f m = m)
    (others : ∀ m, n + before.length ≤ m → f m = m + added.length) :
    scanFrom n (before ++ added ++ after) =
      renumbered f (List.map (Line.renumber f)) (scanFrom n (before ++ after)) := by
  induction before generalizing n with
  | nil =>
    rw [List.nil_append, List.nil_append, scanFrom_void void]
    exact scanFrom_add after others
  | cons cs before ih =>
    rw [List.length_cons, Nat.add_comm before.length, ← Nat.add_assoc] at first others
    exact scanFrom_cons (first n (by omega)) cs (ih first others)

end Scan

/-- The number of a line once `d` lines have come behind line `k`. -/
def shift (k d n : Nat) : Nat := if k < n then n + d else n

/-- Void lines change nothing but numbers: wherever they are added, and they can be added wherever
a line of the text starts. -/
theorem parse_insert {added : List (List Char)} (void : ∀ l ∈ added, Text.isVoid l = true) :
    (∀ k text text', Text.Adds k added text text' →
      parse text' = renumbered (shift k added.length)
        (List.map (Graph.renumber (shift k added.length))) (parse text)) ∧
    ∀ before chunk after : String, Text.isComplete before.toList = true →
      Text.isComplete chunk.toList = true → Text.lines chunk.toList = added →
      Text.Adds (Text.lines before.toList).length added (before ++ after)
        (before ++ chunk ++ after) := by
  constructor
  · rintro k text text' ⟨before, after, rfl, hl, hl'⟩
    -- Lines behind the added ones have larger numbers, those before them the same.
    have scanned := scanFrom_insert (f := shift before.length added.length) void before after
      (n := 1) (fun m hm => if_neg (by omega)) (fun m hm => if_pos (by omega))
    unfold parse scan
    rw [hl, hl', scanned]
    cases scanFrom 1 (before ++ after) with
    | error e => rfl
    | ok ls =>
      have read := routinesWithin_renumber (f := shift before.length added.length) ls.length ls
      change routinesWithin (ls.map _).length (ls.map _) = _
      rw [List.length_map]
      exact read
  · rintro before chunk after hb hc rfl
    refine ⟨Text.lines before.toList, Text.lines after.toList, rfl, ?_, ?_⟩
    · rw [String.toList_append, Text.lines_append hb]
    · rw [String.toList_append, String.toList_append, List.append_assoc, Text.lines_append hb,
        Text.lines_append hc, List.append_assoc]

/-- A routine that echoes a constant before and after the place where its text is parted. -/
def parted : String × String :=
  ("routine parted() \x7b\nentry:\n  echo 1\n", "  echo 2\n  goto entry\n\x7d\n")

/-- What is read, where the second statement stands in the line. -/
def partedAt (line : Nat) : Graph where
  name := "parted"
  blocks := [⟨"entry", false, [⟨.echo (.ofLiteral (.int 1)), some ⟨3, 3⟩⟩,
    ⟨.echo (.ofLiteral (.int 2)), some ⟨line, 3⟩⟩], some (.goto 0)⟩]

/-- A routine whose last edge leads to no block, in two parts. -/
def astray : String × String :=
  ("routine astray() \x7b\nentry:\n  goto next\n", "next:\n  goto gone\n\x7d\n")

theorem parse_parted : parse (parted.1 ++ parted.2) = .ok [partedAt 4] := by decide +kernel

theorem parse_astray : parse (astray.1 ++ astray.2) = .error ⟨5, .unknownBlock "gone"⟩ := by
  decide +kernel

/-- Three void lines. -/
def remarks : String := "; a comment\r\n \t\r\n\n"

/-- The second statement moves from line 4 to line 7, and the first one stays. An error moves from
line 5 to line 8. -/
theorem parse_insert_remarks :
    (∀ l ∈ Text.lines remarks.toList, Text.isVoid l = true) ∧
      parse (parted.1 ++ parted.2) = .ok [partedAt 4] ∧
      parse (parted.1 ++ remarks ++ parted.2) = .ok [partedAt 7] ∧
      parse (astray.1 ++ astray.2) = .error ⟨5, .unknownBlock "gone"⟩ ∧
      parse (astray.1 ++ remarks ++ astray.2) = .error ⟨8, .unknownBlock "gone"⟩ := by
  have void : ∀ l ∈ Text.lines remarks.toList, Text.isVoid l = true := by decide +kernel
  have complete : Text.isComplete parted.1.toList = true ∧
      Text.isComplete astray.1.toList = true ∧ Text.isComplete remarks.toList = true := by
    decide +kernel
  obtain ⟨same, adds⟩ := parse_insert void
  have moved := same _ _ _ (adds parted.1 remarks parted.2 complete.1 complete.2.2 rfl)
  have failed := same _ _ _ (adds astray.1 remarks astray.2 complete.2.1 complete.2.2 rfl)
  rw [parse_parted] at moved
  rw [parse_astray] at failed
  exact ⟨void, parse_parted, moved, parse_astray, failed⟩

end Source
end Linearizer
