import Mathlib.Data.List.Chain
import Linearizer.Graph.Basic

/-!
# Reachable blocks

`Graph.reachable` finds blocks by a search with a stack, on which a block may stand several times,
may be dead, or may not exist. Here the search is shown to end, and what it finds is characterised
by paths.

- **Paths** (`Graph.IsPath`, `Graph.Reached`): live blocks along edges, from the entry.
- **The length of a search** (`Search.Looks`): how many blocks are looked at. No edge is followed
  twice, so that the number of edges bounds it (`Search.looks_finish`).
- **The invariant** (`Search.Explores`): what has been found is reached by a path, and where a path
  goes on from there, the next block is found or on the stack.

`Graph.reachable_lists_paths` puts this together.
-/

namespace Linearizer

variable {g : Graph}

/-! ## Paths -/

namespace Graph

/-- A path of live blocks leads from the entry to the block. -/
inductive Reached (g : Graph) : BlockId → Prop
  | entry (live : g.isLive entry = true) : Reached g entry
  | step {b c : BlockId} (h : Reached g b) (hc : c ∈ g.successors b) (live : g.isLive c = true) :
      Reached g c

/-- The blocks from `a` to `b`, each on an edge from the one before it, all exist and are live. -/
structure IsPath (g : Graph) (a b : BlockId) (path : List BlockId) : Prop where
  starts : path.head? = some a
  ends : path.getLast? = some b
  edges : path.IsChain fun c d => d ∈ g.successors c
  live : ∀ c ∈ path, g.isLive c = true

theorem isLive_iff {b : BlockId} :
    g.isLive b = true ↔ ∃ block, g.block? b = some block ∧ block.dead = false := by
  simp [isLive, Option.any_eq_true]

theorem Reached.isLive {b : BlockId} (h : g.Reached b) : g.isLive b = true := by
  cases h <;> assumption

theorem exists_path_of_reached {b : BlockId} (h : g.Reached b) :
    ∃ path, g.IsPath entry b path := by
  induction h with
  | entry live => exact ⟨[entry], rfl, rfl, .singleton _, by simpa using live⟩
  | @step b c _ hc live ih =>
    obtain ⟨path, starts, ends, edges, all⟩ := ih
    refine ⟨path ++ [c], by simp [starts], by simp, ?_, ?_⟩
    · refine List.isChain_append.mpr ⟨edges, .singleton _, ?_⟩
      simpa [ends] using hc
    · simpa [or_imp, forall_and] using ⟨all, live⟩

/-- A path that starts at a reached block stays among the reached blocks. -/
theorem Reached.of_chain {a : BlockId} {rest : List BlockId} (h : g.Reached a)
    (edges : (a :: rest).IsChain fun c d => d ∈ g.successors c)
    (live : ∀ c ∈ rest, g.isLive c = true) : ∀ c ∈ a :: rest, g.Reached c := by
  induction rest generalizing a with
  | nil => simpa using h
  | cons b rest ih =>
    obtain ⟨hb, edges⟩ := List.isChain_cons_cons.mp edges
    have hreached : g.Reached b := .step h hb (live b List.mem_cons_self)
    intro c hc
    rcases List.mem_cons.mp hc with rfl | hc
    · exact h
    · exact ih hreached edges (fun d hd => live d (List.mem_cons_of_mem _ hd)) c hc

theorem IsPath.reached {b : BlockId} {path : List BlockId} (h : g.IsPath entry b path) :
    g.Reached b := by
  obtain ⟨starts, ends, edges, live⟩ := h
  cases path with
  | nil => cases starts
  | cons a rest =>
    cases starts
    have first : g.Reached entry := .entry (live _ List.mem_cons_self)
    exact first.of_chain edges (fun c hc => live c (List.mem_cons_of_mem _ hc)) b
      (List.mem_of_getLast? ends)

theorem reached_iff {b : BlockId} : g.Reached b ↔ ∃ path, g.IsPath entry b path :=
  ⟨exists_path_of_reached, fun ⟨_, h⟩ => h.reached⟩

end Graph

/-! ## The search -/

namespace Search

/-- On the way from one point of a search to another, `n` blocks are looked at. -/
inductive Looks (g : Graph) : Nat → Search → Search → Prop
  | rest (s : Search) : Looks g 0 s s
  | look {n : Nat} {s t u : Search} (h : s.next? g = some t) (on : Looks g n t u) :
      Looks g (n + 1) s u

theorem Looks.budget_eq {n : Nat} {s t : Search} (h : Looks g n s t) :
    s.budget g = t.budget g + n := by
  induction h with
  | rest s => rfl
  | look h _ ih => rw [budget_next? h, ih, Nat.add_assoc]

/-- A search comes to its end. -/
theorem looks_finish (g : Graph) (s : Search) : ∃ n, Looks g n s (s.finish g) := by
  fun_induction finish g s with
  | case1 s h => exact ⟨0, .rest s⟩
  | case2 s t h ih =>
    obtain ⟨n, on⟩ := ih
    exact ⟨n + 1, .look h on⟩

theorem next?_finish (g : Graph) (s : Search) : (s.finish g).next? g = none := by
  fun_induction finish g s with
  | case1 s h => exact h
  | case2 s t h ih => exact ih

theorem stack_eq_nil {s : Search} (h : s.next? g = none) : s.stack = [] := by
  unfold next? at h
  cases hs : s.stack with
  | nil => rfl
  | cons id rest =>
    rw [hs] at h
    dsimp only at h
    split at h <;> cases h

/-- The search has found only blocks that paths lead to, and will look at the next block of each
path that it has followed so far. -/
structure Explores (g : Graph) (s : Search) : Prop where
  found : ∀ b ∈ s.found, g.Reached b
  stack : ∀ b ∈ s.stack, g.isLive b = true → g.Reached b
  start : g.isLive Graph.entry = true → Graph.entry ∈ s.found ∨ Graph.entry ∈ s.stack
  onward : ∀ b ∈ s.found, ∀ c ∈ g.successors b, g.isLive c = true → c ∈ s.found ∨ c ∈ s.stack

theorem explores_start (g : Graph) : Explores g {} where
  found := by simp
  stack := by
    intro b hb live
    cases List.mem_singleton.mp hb
    exact .entry live
  start _ := .inr List.mem_cons_self
  onward := by simp

theorem Explores.next {s t : Search} (hs : Explores g s) (h : s.next? g = some t) :
    Explores g t := by
  obtain ⟨id, rest, hstack, ⟨hlive, -, rfl⟩ | ⟨hold, rfl⟩⟩ := next?_cases h
  · have hid : g.Reached id := hs.stack id (by simp [hstack]) hlive
    -- What was found or on the stack still is: `id` itself has gone from the stack to the found.
    have keep {b : BlockId} (hb : b ∈ s.found ∨ b ∈ s.stack) :
        b ∈ id :: s.found ∨ b ∈ (g.successors id).reverse ++ rest := by
      rw [hstack, List.mem_cons] at hb
      rcases hb with hb | rfl | hb
      · exact .inl (List.mem_cons_of_mem _ hb)
      · exact .inl List.mem_cons_self
      · exact .inr (List.mem_append_right _ hb)
    refine ⟨?_, ?_, fun live => keep (hs.start live), ?_⟩
    · intro b hb
      rcases List.mem_cons.mp hb with rfl | hb
      · exact hid
      · exact hs.found b hb
    · intro b hb live
      rcases List.mem_append.mp hb with hb | hb
      · exact .step hid (List.mem_reverse.mp hb) live
      · exact hs.stack b (by simp [hstack, hb]) live
    · intro b hb c hc live
      rcases List.mem_cons.mp hb with rfl | hb
      · exact .inr (List.mem_append_left _ (List.mem_reverse.mpr hc))
      · exact keep (hs.onward b hb c hc live)
  · -- A live block that is dropped from the stack has been found before.
    have keep {b : BlockId} (live : g.isLive b = true) (hb : b ∈ s.found ∨ b ∈ s.stack) :
        b ∈ s.found ∨ b ∈ rest := by
      rw [hstack, List.mem_cons] at hb
      rcases hb with hb | rfl | hb
      · exact .inl hb
      · exact .inl (hold live)
      · exact .inr hb
    exact ⟨hs.found, fun b hb => hs.stack b (by simp [hstack, hb]),
      fun live => keep live (hs.start live),
      fun b hb c hc live => keep live (hs.onward b hb c hc live)⟩

theorem Explores.looks {n : Nat} {s t : Search} (hs : Explores g s) (h : Looks g n s t) :
    Explores g t := by
  induction h with
  | rest => exact hs
  | look h _ ih => exact ih (hs.next h)

/-- A search that has come to its end has found the blocks that paths lead to. -/
theorem Explores.mem_found {s : Search} (hs : Explores g s) (h : s.next? g = none)
    {b : BlockId} : b ∈ s.found ↔ g.Reached b := by
  have hnil := stack_eq_nil h
  refine ⟨hs.found b, fun hb => ?_⟩
  induction hb with
  | entry live => simpa [hnil] using hs.start live
  | step _ hc live ih => simpa [hnil] using hs.onward _ ih _ hc live

end Search

/-! ## What is found -/

namespace Graph

/-- The reachable blocks are those that a path of live blocks leads to. -/
theorem mem_reachable {b : BlockId} : b ∈ g.reachable ↔ g.Reached b := by
  obtain ⟨n, looks⟩ := Search.looks_finish g {}
  have hfound : b ∈ (Search.finish g {}).found ↔ g.Reached b :=
    ((Search.explores_start g).looks looks).mem_found (Search.next?_finish g {})
  simp only [reachable, List.mem_filter, List.mem_range, List.contains_iff_mem, hfound,
    and_iff_right_iff_imp]
  exact fun h => lt_size_of_isLive h.isLive

/-- The search through a routine ends after it has looked at no more blocks than the entry and one
for each place that an edge leads to; the blocks that it has found are given in strictly ascending
order, and they are those that a path of existing and live blocks leads to from the entry. -/
theorem reachable_lists_paths (g : Graph) :
    (∃ n last, n ≤ 1 + ((List.range g.size).flatMap g.successors).length ∧
        Search.Looks g n {} last ∧ last.next? g = none ∧
        g.reachable = (List.range g.size).filter last.found.contains) ∧
      g.reachable.Pairwise (· < ·) ∧
      ∀ b, b ∈ g.reachable ↔ ∃ path, g.IsPath entry b path := by
  refine ⟨?_, ?_, fun b => mem_reachable.trans reached_iff⟩
  · obtain ⟨n, looks⟩ := Search.looks_finish g {}
    have hbudget : Search.budget g {} = 1 + ((List.range g.size).flatMap g.successors).length := by
      simp [Search.budget, Search.unfound, Nat.add_comm]
    exact ⟨n, _, by have := looks.budget_eq; omega, looks, Search.next?_finish g {}, rfl⟩
  · exact List.pairwise_lt_range.filter _

end Graph
end Linearizer
