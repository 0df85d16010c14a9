import Mathlib.Data.List.Nodup
import Linearizer.Proofs.Generator.Routine
import Linearizer.Proofs.Graph.Reachable

/-!
# The labels of blocks in a listing

Every block is written at most once, and a dead one never. When generation succeeds, the blocks
that are written are the reachable ones.

* `Finished.reached_of_emitted`: only reachable blocks are written;
* `Finished.emitted_of_reached`: every reachable block is written, if no reachable block has an edge
  behind a statement that ends control, and no switch has two cases with the same integer;
* `Graph.generate_marks_reachable` puts this together for the labels of the listing.
-/

namespace Linearizer

namespace Finished

variable {g : Graph} {options : Options} {registry : Registry} {s₁ s₂ : State} {b : BlockId}

theorem reached_of_emitted (h : Finished g options registry s₁ s₂) (hb : b ∈ s₂.emitted) :
    g.Reached b := by
  have hstart : s₁.Confined g.Reached := by
    refine ⟨?_, ?_⟩
    · simp [h.start.emitted]
    · simp [h.start.scopes]
  refine (h.emits.confined (fun _ _ => .step) hstart ?_).emitted b hb
  exact List.forall_mem_singleton.mpr .entry

theorem emitted_of_reached (h : Finished g options registry s₁ s₂)
    (hterm : ∀ b, g.Reached b → ∀ block ∈ g.block? b, block.endsInTerminal = true →
      block.edge.isNone = true)
    (hcases : ∀ block ∈ g.blocks, ∀ e ∈ block.edge, e.DistinctCases)
    (hb : g.Reached b) : b ∈ s₂.emitted := by
  induction hb with
  | entry live => exact h.emitted_of_seen h.emits.covered.scope live
  | @step b c hb hc live ih =>
    -- The block has been written, so the targets of its edge have been seen.
    cases hblock : g.block? b with
    | none => simp [Graph.successors, hblock] at hc
    | some block =>
      have hdistinct := hcases block (List.mem_of_getElem? hblock)
      have hnew : b ∉ s₁.emitted := by simp [h.start.emitted]
      have hclosed := h.emits.covered.covers.closed b ih hnew block hblock fun _ => hdistinct
      refine h.emitted_of_seen (hclosed c ?_) live
      cases he : block.edge with
      | none => simp [Graph.successors, hblock, he] at hc
      | some e =>
        have hgo : block.endsInTerminal = false := by
          refine Bool.eq_false_iff.mpr fun hend => ?_
          have hnone := hterm b hb block hblock hend
          rw [he] at hnone
          cases hnone
        simpa [Block.targets, hgo, he, Graph.successors, hblock] using hc

end Finished

/-- Whatever becomes of generation, every label of a block stands in the listing at most once and
none is of a dead block. If it succeeds, the blocks of the labels are the reachable ones, provided
that no reachable block has an edge behind a statement that ends control, and no switch has two
cases with the same integer. -/
theorem Graph.generate_marks_reachable (g : Graph) (options : Options) (registry : Registry) :
    (g.generate options registry).listing.blockOrder.Nodup ∧
      (∀ b ∈ (g.generate options registry).listing.blockOrder, g.isLive b = true) ∧
      ((g.generate options registry).outcome.isOk = true →
        (∀ b ∈ g.reachable, ∀ block ∈ g.block? b, block.endsInTerminal = true →
          block.edge.isNone = true) →
        (∀ block ∈ g.blocks, ∀ e ∈ block.edge, e.DistinctCases) →
        ∀ b, b ∈ (g.generate options registry).listing.blockOrder ↔ b ∈ g.reachable) := by
  obtain ⟨s, hs, hl⟩ := g.generate_steps options registry
  have hmarked : s.Marked g := .steps ⟨rfl, List.nodup_nil, by simp⟩ hs
  have horder : (g.generate options registry).listing.blockOrder = s.emitted.reverse := by
    rw [hl, Listing.blockOrder_eq]
    exact hmarked.labels
  refine ⟨?_, ?_, fun hok hterm hcases b => ?_⟩
  · rw [horder]
    exact List.nodup_reverse.mpr hmarked.once
  · rw [horder]
    exact fun b hb => hmarked.live b (List.mem_reverse.mp hb)
  · obtain ⟨s₁, s₂, hfin, -⟩ := generate_result (Generation.result_of_isOk hok)
    rw [hfin.blockOrder_eq, List.mem_reverse, mem_reachable]
    refine ⟨hfin.reached_of_emitted, hfin.emitted_of_reached (fun b hb => ?_) hcases⟩
    exact hterm b (mem_reachable.mpr hb)

/-- A routine with a region whose body leaves it on two ways, a handler that returns, code that runs
in any case, a loop, a dead block and one that nothing leads to. -/
def Graph.nestedRegions : Graph where
  name := "nested"
  vars := [⟨"flag", .param 0, .value, .any⟩]
  classes := ["Failure"]
  blocks := [
    ⟨"entry", false, [], some (.conditional (.var 0 .any) 1 7)⟩,
    ⟨"region", false, [], some (.protect 2 [⟨0, none, 4⟩] (some 5) 6)⟩,
    ⟨"body", false, [], some (.conditional (.var 0 .any) 3 6)⟩,
    ⟨"out", false, [], some (.goto 7)⟩,
    ⟨"handler", false, [⟨.ret none, none⟩], none⟩,
    ⟨"cleanup", false, [], none⟩,
    ⟨"again", false, [], some (.goto 0)⟩,
    ⟨"done", false, [⟨.ret (some (.var 0 .any)), none⟩], none⟩,
    ⟨"dead", true, [], some (.goto 0)⟩,
    ⟨"lost", false, [], some (.goto 0)⟩]

theorem Graph.generate_marks_nestedRegions :
    (nestedRegions.generate {} {}).outcome.isOk = true ∧
      (∀ b ∈ nestedRegions.reachable, ∀ block ∈ nestedRegions.block? b,
        block.endsInTerminal = true → block.edge.isNone = true) ∧
      (∀ block ∈ nestedRegions.blocks, ∀ e ∈ block.edge, e.DistinctCases) ∧
      ∀ b, b ∈ (nestedRegions.generate {} {}).listing.blockOrder ↔ b ∈ nestedRegions.reachable := by
  have hok : (nestedRegions.generate {} {}).outcome.isOk = true := by decide +kernel
  have hterm : ∀ b ∈ nestedRegions.reachable, ∀ block ∈ nestedRegions.block? b,
      block.endsInTerminal = true → block.edge.isNone = true := by decide +kernel
  have hcases : ∀ block ∈ nestedRegions.blocks, ∀ e ∈ block.edge, e.DistinctCases := by
    decide +kernel
  exact ⟨hok, hterm, hcases, (generate_marks_reachable nestedRegions {} {}).2.2 hok hterm hcases⟩

end Linearizer
