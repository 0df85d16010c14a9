import Linearizer.Proofs.Region.Generation
import Linearizer.Proofs.Region.Span

/-!
# Blocks stand in their regions

In a listing of a structured routine the label of a block stands in exactly those regions that the
block lies in.

* `Graph.generate_orderly`: the labels and markers of a listing follow their rules;
* `Graph.generate_contains` is the result: the label of a block stands within the span of every
  region that the block lies in, and in no other region.
-/

namespace Linearizer

theorem Graph.generate_orderly (g : Graph) (options : Options) (registry : Registry) :
    g.Orderly (g.generate options registry).listing.insns.toList := by
  refine ⟨g.generate_lawful options registry, ?_⟩
  have marked : (g.lastState options registry).Marked g :=
    .steps ⟨rfl, List.nodup_nil, by simp⟩ (g.lastState_steps options registry)
  rw [generate_code, marked.labels]
  exact List.nodup_reverse.mpr marked.once

/-- In the listing of a structured routine the label of a block stands between the markers of every
region that the block lies in, and every region that is open there is one of these: none is for a
block that lies in no region. -/
theorem Graph.generate_contains {g : Graph} {options : Options} {registry : Registry}
    (hg : g.Structured) (hok : (g.generate options registry).outcome.isOk = true) :
    let code := (g.generate options registry).listing.insns.toList
    ∀ k b, code[k]? = some (.label (.block b)) →
      (∀ r ∈ g.regions, r.contains b = true → ∃ i j, i < k ∧ k < j ∧ g.Spans code r i j) ∧
      ∀ r ∈ g.openRegions (code.take k), r ∈ g.regions ∧ r.contains b = true := by
  intro code k b hk
  have orderly : g.Orderly code := g.generate_orderly options registry
  have closed : g.openRegions code = [] := by
    cases ho : (g.generate options registry).outcome with
    | ok c =>
      rw [Graph.openRegions, nest_eq_nil_of_ok ho]
      rfl
    | error d =>
      rw [ho] at hok
      cases hok
  obtain ⟨hlt, hb⟩ := List.getElem?_eq_some_iff.mp hk
  have home : g.Home (g.openRegions (code.take k)) b := by
    have houses := (orderly.lawful.admits ⟨k, hlt⟩).houses
    rw [List.get_eq_getElem, hb] at houses
    exact houses hg
  refine ⟨fun r hr hc => ?_, fun r hr => (home r).mp hr⟩
  obtain ⟨i, j, hik, hkj, spans⟩ :=
    orderly.exists_spans closed (Nat.le_of_lt hlt) ((home r).mpr ⟨hr, hc⟩)
  refine ⟨i, j, hik, lt_of_le_of_ne hkj fun he => ?_, spans⟩
  -- The element that ends the part is no label.
  obtain ⟨e, hj, hends⟩ := spans.closed
  rw [← he, hk] at hj
  cases hj
  cases hends

/-- A routine with a region inside another one, loops in both, blocks that are first reached from
the inner region and belong to the outer one or to none, and a handler of two blocks. -/
def Graph.regionInRegion : Graph where
  name := "inner"
  vars := [⟨"flag", .param 0, .value, .any⟩]
  classes := ["Failure"]
  blocks := [
    ⟨"entry", false, [], some (.protect 1 [⟨0, none, 7⟩] none 9)⟩,
    ⟨"outer", false, [], some (.conditional (.var 0 .any) 2 5)⟩,
    ⟨"region", false, [], some (.protect 3 [] (some 4) 5)⟩,
    ⟨"inner", false, [], some (.conditional (.var 0 .any) 6 3)⟩,
    ⟨"cleanup", false, [], none⟩,
    ⟨"again", false, [], some (.conditional (.var 0 .any) 1 9)⟩,
    ⟨"rest", false, [], some (.goto 9)⟩,
    ⟨"handler", false, [], some (.goto 8)⟩,
    ⟨"more", false, [], some (.conditional (.var 0 .any) 7 9)⟩,
    ⟨"done", false, [⟨.ret none, none⟩], none⟩]

/-- The label of the block `inner` stands in the regions of both edges. -/
theorem Graph.regionInRegion_contains :
    regionInRegion.Structured ∧ (regionInRegion.generate {} {}).outcome.isOk = true ∧
      (regionInRegion.generate {} {}).listing.insns.toList[8]? = some (.label (.block 3)) ∧
      regionInRegion.regions.filter (·.contains 3) = [⟨0, .body, 1, 7⟩, ⟨2, .body, 3, 4⟩] ∧
      ∀ r ∈ regionInRegion.regions, r.contains 3 = true → ∃ i j, i < 8 ∧ 8 < j ∧
        regionInRegion.Spans (regionInRegion.generate {} {}).listing.insns.toList r i j := by
  have hg : regionInRegion.Structured := by decide +kernel
  have hok : (regionInRegion.generate {} {}).outcome.isOk = true := by decide +kernel
  have hk : (regionInRegion.generate {} {}).listing.insns.toList[8]? =
      some (.label (.block 3)) := by decide +kernel
  exact ⟨hg, hok, hk, by decide +kernel, (generate_contains hg hok 8 3 hk).1⟩

end Linearizer
