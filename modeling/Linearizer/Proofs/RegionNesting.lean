import Mathlib.Data.List.Chain
import Linearizer.Proofs.Region.Origin
import Linearizer.Proofs.RegionContainment

/-!
# The ranges of open regions

A region is opened for the edge of a block that lies in the region around it. Whether its own range
lies there as well is up to the routine (`Graph.Nested`), since generation compares the bounds of
one edge only.

* `Outline.Hangs`: open regions belong to blocks of the regions around them;
* `Graph.generate_nested` is the result: the open regions of a listing belong to blocks of those
  around them, and are nested if those of the routine are;
* `Graph.overhanging_sticks_out` is a routine where an open region is not part of the one around it.
-/

namespace Linearizer

instance : Trans Region.Within Region.Within Region.Within where
  trans h h' b hb := h' b (h b hb)

/-! ## Outlines -/

namespace Outline

variable {g : Graph} {o o' : Outline} {i : Insn}

/-- Every open region, with the parts after it, belongs to a block of the region around it, and ends
in the routine. -/
structure Hangs (g : Graph) (o : Outline) : Prop where
  chain : o.nest.IsChain fun e e' => ∀ r ∈ e.parts, e'.region.contains r.owner = true
  bound : ∀ e ∈ o.nest, ∀ r ∈ e.parts, r.hi ≤ g.size

/-- A region may be started by a block of the innermost one. -/
theorem Hangs.step (h : o.Hangs g) (hs : Step g o i o')
    (hstart : i = .beginTry → ∃ b, o.block = some b ∧ g.Inner (Enclosure.regions o.nest) b ∧
      ∀ r ∈ g.regionsOf b, r.hi ≤ g.size) : o'.Hangs g := by
  cases hs with
  | label => exact ⟨h.chain, h.bound⟩
  | @start nest b first rest hr =>
    obtain ⟨b', hb, inner, hsize⟩ := hstart rfl
    cases hb
    -- All parts of the new region belong to the block, which the innermost region contains.
    have owner (r : Region) (hm : r ∈ first :: rest) : r.owner = b := by
      rw [← hr] at hm
      exact Graph.owner_of_mem_regionsOf hm
    rw [hr] at hsize
    refine ⟨?_, List.forall_mem_cons.mpr ⟨hsize, h.bound⟩⟩
    cases nest with
    | nil => exact .singleton _
    | cons e nest =>
      refine .cons_cons (fun r hm => ?_) h.chain
      rw [owner r hm]
      exact inner
  | @next _ nest r next rest =>
    obtain ⟨hparts, hrest⟩ := List.forall_mem_cons.mp h.bound
    have hbound := fun r' hm => hparts r' (List.mem_cons_of_mem r hm)
    refine ⟨?_, List.forall_mem_cons.mpr ⟨hbound, hrest⟩⟩
    have hchain := h.chain
    cases nest with
    | nil => exact .singleton _
    | cons e nest =>
      rw [List.isChain_cons_cons] at hchain
      exact .cons_cons (fun r' hm => hchain.1 r' (List.mem_cons_of_mem r hm)) hchain.2
  | finish => exact ⟨h.chain.tail, (List.forall_mem_cons.mp h.bound).2⟩
  | silent => exact h

end Outline

/-! ## Listings -/

namespace Graph

variable {g : Graph} {options : Options} {registry : Registry}

theorem Orderly.hangs {code : List Insn} (h : g.Orderly code)
    (hgrounds : ∀ k i, code[k]? = some i → g.Grounds (code.take k) i) (k : Nat) :
    (g.outline (code.take k)).Hangs g := by
  induction k with
  | zero => exact ⟨.nil, nofun⟩
  | succ k ih =>
    cases hi : code[k]? with
    | none =>
      rw [take_succ_eq_self hi]
      exact ih
    | some i =>
      refine ih.step (h.step hi) fun hbegin => ?_
      -- The label of the block that starts the region stands in the same regions.
      obtain ⟨b, hb, site, hsize⟩ := (hgrounds k i hi).start hbegin
      obtain ⟨j, -, hj, hopen⟩ := site.before
      have inner := (hgrounds j _ hj).label b rfl
      rw [hopen] at inner
      exact ⟨b, hb, inner, hsize⟩

theorem Orderly.chain {code : List Insn} (h : g.Orderly code)
    (hgrounds : ∀ k i, code[k]? = some i → g.Grounds (code.take k) i) (k : Nat) :
    (g.openRegions (code.take k)).IsChain fun r r' => r'.contains r.owner = true :=
  (List.isChain_map _).mpr
    ((h.hangs hgrounds k).chain.imp fun e _ he => he e.region List.mem_cons_self)

/-- Where the regions of a routine are nested, so are the open ones. -/
theorem Nested.pairwise {code : List Insn} (hn : g.Nested) (h : g.Orderly code)
    (hgrounds : ∀ k i, code[k]? = some i → g.Grounds (code.take k) i) (k : Nat) :
    (g.openRegions (code.take k)).Pairwise Region.Within := by
  have within : (g.openRegions (code.take k)).IsChain Region.Within :=
    (h.chain hgrounds k).imp_of_mem_imp fun r r' hr hr' hc =>
      hn r (h.mem_regions hr) r' (h.mem_regions hr') hc
  exact within.pairwise

/-- At any place of a listing the open regions belong to blocks of the regions around them, and end
in the routine. If the regions of the routine are nested, so are the open ones. Where the label of a
block stands they are those of the scopes that are open when generation goes on with the block. -/
theorem generate_nested {l : Listing} (h : (g.generate options registry).result = .ok l) (k : Nat) :
    let regions := g.openRegions (l.insns.toList.take k)
    regions.IsChain (fun r r' => r'.contains r.owner = true) ∧ (∀ r ∈ regions, r.hi ≤ g.size) ∧
      (g.Nested → regions.Pairwise Region.Within) ∧
      ∀ b, l.insns.toList[k]? = some (.label (.block b)) → ∃ block s s',
        g.block? b = some block ∧ s.code = l.insns.toList.take (k + 1) ∧
        Emits ⟨g, options⟩ (.body b block) s s' ∧
        s.frames = regions.map Region.frame ++ [(.routine, 0, g.size)] := by
  obtain ⟨s₁, s₂, hfin, rfl⟩ := generate_result h
  intro regions
  have orderly := g.generate_orderly options registry
  have accounts := fun k i => hfin.traced.accounts k i (Nat.zero_le k)
  have hgrounds := fun k i hi => (accounts k i hi).grounds
  refine ⟨orderly.chain hgrounds k, fun r hr => ?_, fun hn => hn.pairwise orderly hgrounds k,
    fun b hb => ?_⟩
  · obtain ⟨e, he, rfl⟩ := List.mem_map.mp hr
    exact (orderly.hangs hgrounds k).bound e he e.region List.mem_cons_self
  · obtain ⟨nest, block, s, s', hblock, heads, hbody, hcode, -⟩ := (accounts k _ hb).body b rfl
    refine ⟨block, s, s', hblock, hcode, hbody, ?_⟩
    rw [heads.sits.frames, ← heads.sits.openRegions_eq, hcode, openRegions_take_succ hb rfl]

/-- The region of the block `region` is open inside that of the entry. -/
theorem regionInRegion_nested : ∃ l, (regionInRegion.generate {} {}).result = .ok l ∧
    regionInRegion.Nested ∧
    regionInRegion.openRegions (l.insns.toList.take 8) = [⟨2, .body, 3, 4⟩, ⟨0, .body, 1, 7⟩] ∧
    (regionInRegion.openRegions (l.insns.toList.take 8)).Pairwise Region.Within := by
  have hok : (regionInRegion.generate {} {}).result = .ok (regionInRegion.generate {} {}).listing :=
    Generation.result_of_isOk (by decide +kernel)
  have hn : regionInRegion.Nested := by decide +kernel
  exact ⟨_, hok, hn, by decide +kernel, (generate_nested hok 8).2.2.1 hn⟩

/-- A routine with a region inside another one that goes on behind its end. -/
def overhanging : Graph where
  name := "overhanging"
  classes := ["Failure"]
  blocks := [
    ⟨"entry", false, [], some (.protect 1 [⟨0, none, 3⟩] none 5)⟩,
    ⟨"body", false, [], some (.protect 2 [⟨0, none, 4⟩] none 6)⟩,
    ⟨"inner", false, [], some (.goto 5)⟩,
    ⟨"handler", false, [], some (.goto 5)⟩,
    ⟨"other", false, [], some (.goto 5)⟩,
    ⟨"next", false, [], some (.goto 6)⟩,
    ⟨"done", false, [⟨.ret none, none⟩], none⟩]

/-- The region of the block `body` is open inside that of the entry, which does not have all its
blocks. -/
theorem overhanging_sticks_out : ∃ l, (overhanging.generate {} {}).result = .ok l ∧
    overhanging.openRegions (l.insns.toList.take 5) = [⟨1, .body, 2, 4⟩, ⟨0, .body, 1, 3⟩] ∧
    ¬ (overhanging.openRegions (l.insns.toList.take 5)).Pairwise Region.Within :=
  ⟨_, Generation.result_of_isOk (by decide +kernel), by decide +kernel, by decide +kernel⟩

end Graph
end Linearizer
