import Linearizer.Proofs.Region.Origin
import Linearizer.Proofs.RegionContainment

/-!
# Branches into regions

Generation does not look where the label of a block stands when it writes a branch to it. So a
listing may have a branch into a region from outside of it, but only for an edge of the routine that
leads into the region from outside of it, other than by its start.

* `Graph.Breaches` says what such an edge is;
* `Graph.generate_breaches` is the result, with which a structured routine has no such branch;
* `Graph.reentered_enters` is about a routine with one.
-/

namespace Linearizer

/-- In front of the element `k` of some code stands the label of a block outside of the region,
whose edge leads to `c` and does not start the region there. -/
def Graph.Breaches (g : Graph) (code : List Insn) (k : Nat) (r : Region) (c : BlockId) : Prop :=
  ∃ b j, j < k ∧ code[j]? = some (.label (.block b)) ∧ r ∉ g.openRegions (code.take j) ∧
    c ∈ g.successors b ∧ ¬ (r.owner = b ∧ r.lo = c)

namespace Graph

variable {g : Graph} {code : List Insn} {k m : Nat} {r : Region} {c : BlockId}

/-- Where control may go on with a block, a region that it does not come from is breached. -/
theorem Leads.breaches (h : g.Leads (code.take k) c) (hr : r ∈ g.regions)
    (out : r ∉ g.openRegions (code.take k)) : g.Breaches code k r c := by
  rw [mem_regions] at hr
  cases h with
  | @edge b site follows =>
    obtain ⟨j, hlt, hj, hopen⟩ := site.before
    refine ⟨b, j, hlt, hj, hopen ▸ out, follows.1, ?_⟩
    rintro ⟨rfl, hlo⟩
    exact follows.2 r hr hlo
  | @start first rest hopen site starts hlo _ =>
    obtain ⟨j, hlt, hj, hrest⟩ := site.before
    rw [hopen, List.mem_cons, not_or] at out
    refine ⟨first.owner, j, hlt, hj, hrest ▸ out.2, hlo ▸ lo_mem_successors starts.1, ?_⟩
    -- The region that starts there is open already.
    rintro ⟨ho, hc⟩
    rw [ho] at hr
    exact out.1 (starts.2 r hr (hc.trans hlo.symm))

/-- In a structured routine no region is breached. -/
theorem Structured.not_breaches (hg : g.Structured) (h : g.Orderly code)
    (hm : code[m]? = some (.label (.block c))) (hin : r ∈ g.openRegions (code.take m)) :
    ¬ g.Breaches code k r c := by
  rintro ⟨b, j, -, hj, out, hc, hne⟩
  obtain ⟨hr, hrc⟩ := (h.home hg hm r).mp hin
  have hrb : r.contains b = false := by
    by_contra hrb
    exact out ((h.home hg hj r).mpr ⟨hr, by simpa using hrb⟩)
  exact hne (hg.entered b (lt_size_of_mem_successors hc) c hc r hr hrc hrb)

/-- Where a listing has a branch from outside of a region to a block whose label stands in it, the
routine has an edge that breaches the region, so that it is not structured. -/
theorem generate_breaches {options : Options} {registry : Registry} {l : Listing}
    (h : (g.generate options registry).result = .ok l) {i : Insn} (hi : l.insns.toList[k]? = some i)
    (hc : .block c ∈ i.targets) (hm : l.insns.toList[m]? = some (.label (.block c)))
    (hin : r ∈ g.openRegions (l.insns.toList.take m))
    (out : r ∉ g.openRegions (l.insns.toList.take k)) :
    g.Breaches l.insns.toList k r c ∧ ¬ g.Structured := by
  obtain ⟨s₁, s₂, hfin, rfl⟩ := generate_result h
  have orderly := g.generate_orderly options registry
  have leads := (hfin.traced.accounts k i (Nat.zero_le k) hi).grounds.targets c hc
  have breaches := leads.breaches (orderly.mem_regions hin) out
  exact ⟨breaches, fun hg => hg.not_breaches orderly hm hin breaches⟩

/-- A routine with a loop back into a protected region that has been left. -/
def reentered : Graph where
  name := "again"
  vars := [⟨"more", .param 0, .bool, .only .bool⟩]
  classes := ["Failure"]
  blocks := [
    ⟨"entry", false, [], some (.protect 1 [⟨0, none, 2⟩] none 3)⟩,
    ⟨"body", false, [], some (.goto 3)⟩,
    ⟨"handler", false, [], some (.goto 3)⟩,
    ⟨"next", false, [], some (.conditional (.var 0 (.only .bool)) 1 4)⟩,
    ⟨"done", false, [⟨.ret none, none⟩], none⟩]

/-- The branch back into the region has been written for the edge of the block `next`. -/
theorem reentered_breaches : ∃ l, (reentered.generate {} {}).result = .ok l ∧
    l.insns.toList[12]? = some (.branch .br (.block 1)) ∧
    l.insns.toList[2]? = some (.label (.block 1)) ∧
    reentered.openRegions (l.insns.toList.take 2) = [⟨0, .body, 1, 2⟩] ∧
    reentered.openRegions (l.insns.toList.take 12) = [] ∧
    reentered.Breaches l.insns.toList 12 ⟨0, .body, 1, 2⟩ 1 ∧ ¬ reentered.Structured := by
  have hok : (reentered.generate {} {}).result = .ok (reentered.generate {} {}).listing :=
    Generation.result_of_isOk (by decide +kernel)
  have hi : (reentered.generate {} {}).listing.insns.toList[12]? =
      some (.branch .br (.block 1)) := by decide +kernel
  have hm : (reentered.generate {} {}).listing.insns.toList[2]? =
      some (.label (.block 1)) := by decide +kernel
  have hin : reentered.openRegions ((reentered.generate {} {}).listing.insns.toList.take 2) =
      [⟨0, .body, 1, 2⟩] := by decide +kernel
  have out : reentered.openRegions ((reentered.generate {} {}).listing.insns.toList.take 12) =
      [] := by decide +kernel
  refine ⟨_, hok, hi, hm, hin, out, generate_breaches hok hi (List.mem_singleton_self _) hm ?_ ?_⟩
  · rw [hin]
    exact List.mem_singleton_self _
  · rw [out]
    exact List.not_mem_nil

/-- A branch of its listing leads into a region that is not open where it stands. -/
theorem reentered_enters : ∃ l, (reentered.generate {} {}).result = .ok l ∧
    ∃ k i c m r, l.insns.toList[k]? = some i ∧ .block c ∈ i.targets ∧
      l.insns.toList[m]? = some (.label (.block c)) ∧
      r ∈ reentered.openRegions (l.insns.toList.take m) ∧
      r ∉ reentered.openRegions (l.insns.toList.take k) :=
  ⟨_, Generation.result_of_isOk (by decide +kernel), 12, .branch .br (.block 1), 1, 2,
    ⟨0, .body, 1, 2⟩, by decide +kernel, List.mem_singleton_self _, by decide +kernel,
    by decide +kernel, by decide +kernel⟩

end Graph
end Linearizer
