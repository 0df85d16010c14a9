import Linearizer.Proofs.BlockLabels
import Linearizer.Proofs.Region.Generation

/-!
# The markers of regions are well bracketed

The markers of a listing are a word of a grammar of brackets: every protected region is opened,
goes through the handlers of its edge in order and then through the code that runs in any case, and
is closed; and between two markers of a region there are whole regions only.

* `Bracketed` and `Guards` are the two rules of the grammar;
* `Closes` says what is still to come where regions are open, and `closes_append` that lawful code
  in front of it leads there;
* `Graph.generate_bracketed` is the result: a word of the grammar when generation succeeds, and the
  start of one when it fails.
-/

namespace Linearizer

open Outline

/-! ## The grammar -/

/-- A marker of a region. That of its start comes with the block whose label stands last before it,
unless another region has been started since. -/
inductive Bracket where
  | beginTry (owner : Option BlockId)
  | beginCatch (cls : ClassId)
  | beginFinally
  | endTry
deriving DecidableEq

/-- The markers of some code, where `block` is the one whose label stands last before it. -/
def brackets (block : Option BlockId) : List Insn → List Bracket
  | [] => []
  | .label (.block b) :: rest => brackets (some b) rest
  | .beginTry :: rest => .beginTry block :: brackets none rest
  | .beginCatch cls :: rest => .beginCatch cls :: brackets block rest
  | .beginFinally :: rest => .beginFinally :: brackets block rest
  | .endTry :: rest => .endTry :: brackets block rest
  | _ :: rest => brackets block rest

mutual

/-- Regions one after the other, each with a guard and with regions inside its parts. -/
inductive Bracketed (g : Graph) : List Bracket → Prop
  | nil : Bracketed g []
  | region {b : BlockId} {block : Block} {body next : BlockId} {handlers : List Handler}
      {cleanup : Option BlockId} {inner guards rest : List Bracket}
      (hb : g.block? b = some block)
      (he : block.edge = some (.protect body handlers cleanup next))
      (guarded : handlers ≠ [] ∨ cleanup ≠ none) (hinner : Bracketed g inner)
      (hguards : Guards g handlers cleanup guards) (hrest : Bracketed g rest) :
      Bracketed g (.beginTry (some b) :: (inner ++ guards ++ .endTry :: rest))

/-- The handlers of a region in order, and then the code that runs in any case. -/
inductive Guards (g : Graph) : List Handler → Option BlockId → List Bracket → Prop
  | nil : Guards g [] none []
  | cleanup {first : BlockId} {inner : List Bracket} (hinner : Bracketed g inner) :
      Guards g [] (some first) (.beginFinally :: inner)
  | handler {h : Handler} {handlers : List Handler} {cleanup : Option BlockId}
      {inner rest : List Bracket} (hinner : Bracketed g inner)
      (hrest : Guards g handlers cleanup rest) :
      Guards g (h :: handlers) cleanup (.beginCatch h.cls :: (inner ++ rest))

end

/-! ## Words that close what is open -/

/-- The marker in front of a part, after the first one. -/
def Part.bracket : Part → Bracket
  | .body => .beginTry none
  | .handler cls => .beginCatch cls
  | .cleanup => .beginFinally

theorem Part.bracket_eq_beginCatch {p : Part} {cls : ClassId} (h : .beginCatch cls = p.marker) :
    p.bracket = .beginCatch cls := by
  cases p <;> cases h
  rfl

theorem Part.bracket_eq_beginFinally {p : Part} (h : .beginFinally = p.marker) :
    p.bracket = .beginFinally := by
  cases p <;> cases h
  rfl

/-- The markers of some parts in order. -/
inductive Parts (g : Graph) : List Region → List Bracket → Prop
  | nil : Parts g [] []
  | cons {r : Region} {rest : List Region} {inner guards : List Bracket}
      (hinner : Bracketed g inner) (hrest : Parts g rest guards) :
      Parts g (r :: rest) (r.part.bracket :: (inner ++ guards))

/-- Where regions are open a word closes them, the innermost one first. -/
def Closes (g : Graph) : List Enclosure → List Bracket → Prop
  | [], word => Bracketed g word
  | ⟨_, rest⟩ :: nest, word =>
    ∃ inner guards after, word = inner ++ guards ++ .endTry :: after ∧ Bracketed g inner ∧
      Parts g rest guards ∧ Closes g nest after

variable {g : Graph} {o : Outline} {nest : List Enclosure} {code : List Insn}
  {word inner guards after : List Bracket}

/-- The parts of a region beside its first one are the guards of its edge. -/
theorem guards_of_parts {owner next : BlockId} {handlers : List Handler} {cleanup : Option BlockId}
    (h : Parts g (Region.split owner next (guardParts handlers cleanup)) word) :
    Guards g handlers cleanup word := by
  induction handlers generalizing word with
  | nil =>
    cases cleanup with
    | none =>
      cases h
      exact .nil
    | some first =>
      cases h with
      | cons hinner hrest =>
        cases hrest
        rw [List.append_nil]
        exact .cleanup hinner
  | cons x xs ih =>
    cases h with
    | cons hinner hrest => exact .handler hinner (ih hrest)

/-- Whole regions may come before what closes the open ones. -/
theorem Closes.region {b : BlockId} {block : Block} {body next : BlockId}
    {handlers : List Handler} {cleanup : Option BlockId} (hb : g.block? b = some block)
    (he : block.edge = some (.protect body handlers cleanup next))
    (guarded : handlers ≠ [] ∨ cleanup ≠ none) (hinner : Bracketed g inner)
    (hguards : Guards g handlers cleanup guards) (h : Closes g nest after) :
    Closes g nest (.beginTry (some b) :: (inner ++ guards ++ .endTry :: after)) := by
  cases nest with
  | nil => exact .region hb he guarded hinner hguards h
  | cons top nest =>
    obtain ⟨inner', guards', after', rfl, hinner', hguards', hafter⟩ := h
    exact ⟨_, guards', after', by simp, .region hb he guarded hinner hguards hinner', hguards',
      hafter⟩

/-- The innermost region goes on with its next part. -/
theorem Closes.next {r next : Region} {rest : List Region}
    (h : Closes g (⟨next, rest⟩ :: nest) word) :
    Closes g (⟨r, next :: rest⟩ :: nest) (next.part.bracket :: word) := by
  obtain ⟨inner, guards, after, rfl, hinner, hparts, hafter⟩ := h
  exact ⟨[], next.part.bracket :: (inner ++ guards), after, rfl, .nil, .cons hinner hparts, hafter⟩

/-- Whatever is open can be closed. -/
theorem exists_closes (g : Graph) (nest : List Enclosure) : ∃ word, Closes g nest word := by
  have parts (rest : List Region) : ∃ guards, Parts g rest guards := by
    induction rest with
    | nil => exact ⟨[], .nil⟩
    | cons r rest ih =>
      obtain ⟨guards, h⟩ := ih
      exact ⟨_, .cons .nil h⟩
  induction nest with
  | nil => exact ⟨[], .nil⟩
  | cons top nest ih =>
    obtain ⟨after, hafter⟩ := ih
    obtain ⟨guards, hguards⟩ := parts top.rest
    exact ⟨guards ++ .endTry :: after, [], guards, after, rfl, .nil, hguards, hafter⟩

/-! ## Lawful code -/

/-- A word that closes what is open behind some lawful code closes, with the markers of the code in
front of it, what is open before. -/
theorem closes_append (h : Lawful g o code) (hw : Closes g (code.foldl (read g) o).nest word) :
    Closes g o.nest (brackets o.block code ++ word) := by
  induction code generalizing o with
  | nil => exact hw
  | cons i rest ih =>
    obtain ⟨ha, hl⟩ := h
    have hrest := ih hl hw
    cases i with
    | label l =>
      cases l with
      | block b => exact hrest
      | fresh n => exact hrest
    | beginTry =>
      have hlen : 2 ≤ (o.own g).length := ha.brackets.1
      cases hown : o.own g with
      | nil =>
        rw [hown] at hlen
        cases hlen
      | cons first parts =>
        obtain ⟨b, block, body, handlers, cleanup, next, hblock, hb, he, -, rfl⟩ := own_eq hown
        -- A region with one part only has no guard.
        have guarded : handlers ≠ [] ∨ cleanup ≠ none := by
          by_contra hn
          obtain ⟨rfl, rfl⟩ : handlers = [] ∧ cleanup = none := by simpa using hn
          rw [hown] at hlen
          simp [guardParts, Region.split] at hlen
        rw [Outline.read, hown] at hrest
        -- The word starts with what is inside the new region and ends with what is behind it.
        obtain ⟨inner, guards, after, heq, hinner, hparts, hafter⟩ := hrest
        have hregion := hafter.region hb he guarded hinner (guards_of_parts hparts)
        rw [← heq, ← hblock] at hregion
        exact hregion
    | beginCatch cls =>
      obtain ⟨r, next, parts, outer, hnest, hmark⟩ := ha.brackets
      have hpart : next.part.bracket = .beginCatch cls := Part.bracket_eq_beginCatch hmark
      rw [Outline.read, hnest] at hrest
      rw [hnest, brackets, ← hpart]
      exact hrest.next
    | beginFinally =>
      obtain ⟨r, next, parts, outer, hnest, hmark⟩ := ha.brackets
      have hpart : next.part.bracket = .beginFinally := Part.bracket_eq_beginFinally hmark
      rw [Outline.read, hnest] at hrest
      rw [hnest, brackets, ← hpart]
      exact hrest.next
    | endTry =>
      obtain ⟨r, outer, hnest⟩ := ha.brackets
      rw [Outline.read, hnest] at hrest
      rw [hnest]
      exact ⟨[], [], _, rfl, .nil, .nil, hrest⟩
    | op | branch | switch | call | ldloc | stloc | ldloca => exact hrest

/-- The markers of the listing of a routine are a word of the grammar, or the start of one when
generation has failed. -/
theorem Graph.generate_bracketed (g : Graph) (options : Options) (registry : Registry) :
    let word := brackets none (g.generate options registry).listing.insns.toList
    match (g.generate options registry).outcome with
    | .ok _ => Bracketed g word
    | .error _ => ∃ rest, Bracketed g (word ++ rest) := by
  have hl := g.generate_lawful options registry
  cases ho : (g.generate options registry).outcome with
  | ok c =>
    have hw : Closes g (g.outline (g.generate options registry).listing.insns.toList).nest [] := by
      rw [nest_eq_nil_of_ok ho]
      exact .nil
    have hword := closes_append hl hw
    rwa [List.append_nil] at hword
  | error d =>
    obtain ⟨rest, hw⟩ := exists_closes g
      (g.outline (g.generate options registry).listing.insns.toList).nest
    exact ⟨rest, closes_append hl hw⟩

example : brackets none (Graph.nestedRegions.generate {} {}).listing.insns.toList =
    [.beginTry (some 1), .beginCatch 0, .beginFinally, .endTry] := by
  decide +kernel

end Linearizer
