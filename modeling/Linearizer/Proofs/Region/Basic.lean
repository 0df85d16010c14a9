import Mathlib.Data.List.Nodup
import Linearizer.Generator.Routine

/-!
# Protected regions of a routine

An edge that runs a protected region divides a range of blocks into parts: the code that is
protected, the handlers and the code that runs in any case. Each part goes from its first block up
to that of the next one.

- **Regions** (`Region`, `Graph.regions`): the parts of all edges of a routine. Each knows the block
  that its edge leaves.
- **Structured routines** (`Graph.Structured`): regions are nested, and control enters one only at
  its first block and from the edge that it belongs to.
- **Places of blocks** (`Graph.Home`, `Graph.Encloses`, `Graph.Inner`): how a list of regions that
  are open fits a block. In a structured routine what fits a block fits the blocks that it leads to
  (`Graph.Structured.encloses_successor`, `Graph.Structured.encloses_first`).
- **Edges** (`Graph.Follows`, `Graph.Starts`): an edge leads on to a block, or starts a region
  there.
-/

namespace Linearizer

/-! ## Regions -/

/-- What a part of a protected region is for. -/
inductive Part where
  | body
  | handler (cls : ClassId)
  | cleanup
deriving DecidableEq

namespace Part

/-- The kind of the scope of a part. -/
def kind : Part → ScopeKind
  | .body => .body
  | .handler _ => .handler
  | .cleanup => .cleanup

/-- The marker in front of a part. -/
def marker : Part → Insn
  | .body => .beginTry
  | .handler cls => .beginCatch cls
  | .cleanup => .beginFinally

theorem isProtected_iff {p : Part} : p.kind.isProtected = true ↔ p ≠ .cleanup := by
  cases p <;> simp [kind, ScopeKind.isProtected]

theorem kind_eq_cleanup {p : Part} : p.kind = .cleanup ↔ p = .cleanup := by
  cases p <;> simp [kind]

theorem kind_ne_routine (p : Part) : p.kind ≠ .routine := by
  cases p <;> simp [kind]

end Part

/-- A part of a protected region: the blocks from `lo` up to but not including `hi`. -/
structure Region where
  /-- The block whose edge the region belongs to. -/
  owner : BlockId
  /-- What it is for. -/
  part : Part
  /-- Its first block. -/
  lo : BlockId
  /-- The first block after it. -/
  hi : BlockId
deriving DecidableEq

namespace Region

/-- Whether a block lies in the region. -/
def contains (r : Region) (b : BlockId) : Bool := r.lo ≤ b && b < r.hi

/-- What an open scope has of the region. -/
def frame (r : Region) : ScopeKind × BlockId × BlockId := (r.part.kind, r.lo, r.hi)

/-- Every block of `r` lies in `r'`. -/
def Within (r r' : Region) : Prop := ∀ b, r.contains b = true → r'.contains b = true

/-- No block of `r` lies in `r'`. -/
def Apart (r r' : Region) : Prop := ∀ b, r.contains b = true → r'.contains b = false

theorem lt_hi {r : Region} {b : BlockId} (h : r.contains b = true) : b < r.hi := by
  simp only [contains, Bool.and_eq_true, decide_eq_true_eq] at h
  exact h.2

instance (r r' : Region) : Decidable (r.Within r') :=
  decidable_of_iff (∀ b < r.hi, r.contains b = true → r'.contains b = true)
    ⟨fun h b hb => h b (lt_hi hb) hb, fun h b _ => h b⟩

instance (r r' : Region) : Decidable (r.Apart r') :=
  decidable_of_iff (∀ b < r.hi, r.contains b = true → r'.contains b = false)
    ⟨fun h b hb => h b (lt_hi hb) hb, fun h b _ => h b⟩

/-- The regions that start at some blocks, each up to the start of the next one. -/
def split (owner next : BlockId) : List (Part × BlockId) → List Region
  | [] => []
  | (part, lo) :: rest =>
    ⟨owner, part, lo, (rest.map Prod.snd).headD next⟩ :: split owner next rest

variable {owner next : BlockId} {r : Region} {parts : List (Part × BlockId)}

/-- The parts start where they are said to. -/
theorem map_lo_split (owner next : BlockId) (parts : List (Part × BlockId)) :
    (split owner next parts).map lo = parts.map Prod.snd := by
  induction parts with
  | nil => rfl
  | cons p rest ih => simp [split, ih]

/-- All parts of an edge have the block of the edge as their owner. -/
theorem owner_of_mem_split (h : r ∈ split owner next parts) : r.owner = owner := by
  induction parts with
  | nil => cases h
  | cons p rest ih =>
    rcases List.mem_cons.mp h with rfl | h
    · rfl
    · exact ih h

theorem mem_split_append {rest : List (Part × BlockId)} (h : r ∈ split owner next rest) :
    r ∈ split owner next (parts ++ rest) := by
  induction parts with
  | nil => exact h
  | cons p parts ih => exact List.mem_cons_of_mem _ ih

/-- A part of a region whose parts are in order is not empty. -/
theorem lt_of_mem_split (h : Gen.isAscending (parts.map Prod.snd ++ [next]) = true)
    (hr : r ∈ split owner next parts) : r.lo < r.hi := by
  induction parts with
  | nil => cases hr
  | cons p rest ih =>
    cases rest with
    | nil =>
      obtain rfl := List.mem_singleton.mp hr
      simpa [Gen.isAscending] using h
    | cons q rest =>
      simp only [List.map_cons, List.cons_append, Gen.isAscending, Bool.and_eq_true,
        decide_eq_true_eq] at h
      rcases List.mem_cons.mp hr with rfl | hr
      · exact h.1
      · exact ih h.2 hr

end Region

/-- The parts of a protected region beside the protected code, with their first blocks. -/
def guardParts (handlers : List Handler) (cleanup : Option BlockId) : List (Part × BlockId) :=
  handlers.map (fun h => (.handler h.cls, h.target)) ++ cleanup.toList.map fun b => (.cleanup, b)

/-- The regions of an edge that leaves the block `owner`. -/
def Edge.regions (owner : BlockId) : Edge → List Region
  | .protect body handlers cleanup next =>
    Region.split owner next ((.body, body) :: guardParts handlers cleanup)
  | _ => []

theorem map_snd_guardParts (handlers : List Handler) (cleanup : Option BlockId) :
    (guardParts handlers cleanup).map Prod.snd =
      handlers.map Handler.target ++ cleanup.toList := by
  simp [guardParts, Function.comp_def]

/-- A region of an edge starts with one of the successors. -/
theorem Edge.lo_mem_successors {owner : BlockId} {e : Edge} {r : Region}
    (h : r ∈ e.regions owner) : r.lo ∈ e.successors := by
  cases e with
  | protect body handlers cleanup next =>
    have hm := List.mem_map_of_mem (f := Region.lo) h
    rw [regions, Region.map_lo_split, List.map_cons, map_snd_guardParts] at hm
    exact List.mem_append_left [next] hm
  | _ => cases h

namespace Graph

/-- The regions of the edge of a block. -/
def regionsOf (g : Graph) (b : BlockId) : List Region :=
  (((g.block? b).bind (·.edge)).map (Edge.regions b)).getD []

/-- The regions of all edges. -/
def regions (g : Graph) : List Region := (List.range g.size).flatMap g.regionsOf

variable {g : Graph} {r : Region} {b : BlockId}

theorem regionsOf_eq {block : Block} {e : Edge} (hb : g.block? b = some block)
    (he : block.edge = some e) : g.regionsOf b = e.regions b := by
  simp [regionsOf, hb, he]

theorem successors_eq {block : Block} {e : Edge} (hb : g.block? b = some block)
    (he : block.edge = some e) : g.successors b = e.successors := by
  simp [successors, hb, he]

theorem lt_size_of_block? {block : Block} (hb : g.block? b = some block) : b < g.size :=
  (List.getElem?_eq_some_iff.mp hb).1

/-- A block has regions only when its edge runs a protected region. -/
theorem exists_protect (h : g.regionsOf b ≠ []) :
    ∃ block body handlers cleanup next, g.block? b = some block ∧
      block.edge = some (.protect body handlers cleanup next) := by
  cases hb : g.block? b with
  | none => simp [regionsOf, hb] at h
  | some block =>
    cases he : block.edge with
    | none => simp [regionsOf, hb, he] at h
    | some e =>
      rw [regionsOf_eq hb he] at h
      cases e with
      | protect body handlers cleanup next => exact ⟨block, body, handlers, cleanup, next, rfl, he⟩
      | _ => exact absurd rfl h

theorem owner_of_mem_regionsOf (h : r ∈ g.regionsOf b) : r.owner = b := by
  obtain ⟨block, body, handlers, cleanup, next, hb, he⟩ := exists_protect (List.ne_nil_of_mem h)
  rw [regionsOf_eq hb he] at h
  exact Region.owner_of_mem_split h

/-- A region is one of the routine just if it is one of its owner. -/
theorem mem_regions : r ∈ g.regions ↔ r ∈ g.regionsOf r.owner := by
  simp only [regions, List.mem_flatMap, List.mem_range]
  constructor
  · rintro ⟨b, -, h⟩
    rwa [owner_of_mem_regionsOf h]
  · intro h
    obtain ⟨block, _, _, _, _, hb, -⟩ := exists_protect (List.ne_nil_of_mem h)
    exact ⟨r.owner, lt_size_of_block? hb, h⟩

theorem mem_regions_of_mem_regionsOf (h : r ∈ g.regionsOf b) : r ∈ g.regions := by
  rw [mem_regions, owner_of_mem_regionsOf h]
  exact h

/-- A region of a block starts with a successor of the block. -/
theorem lo_mem_successors (h : r ∈ g.regionsOf b) : r.lo ∈ g.successors b := by
  obtain ⟨block, body, handlers, cleanup, next, hb, he⟩ := exists_protect (List.ne_nil_of_mem h)
  rw [regionsOf_eq hb he] at h
  rw [successors_eq hb he]
  exact Edge.lo_mem_successors h

/-- What the generator checks is that the starts of the parts ascend. -/
theorem pairwise_of_isAscending {l : List BlockId} (h : Gen.isAscending l = true) :
    l.Pairwise (· < ·) := by
  rw [← List.isChain_iff_pairwise]
  induction l with
  | nil => exact .nil
  | cons a l ih =>
    cases l with
    | nil => exact .singleton a
    | cons b rest =>
      simp only [Gen.isAscending, Bool.and_eq_true, decide_eq_true_eq] at h
      exact .cons_cons h.1 (ih h.2)

/-! ## Structured routines -/

/-- The regions of an edge lie in every region that the edge leaves a block of. -/
def Nested (g : Graph) : Prop :=
  ∀ r ∈ g.regions, ∀ r' ∈ g.regions, r'.contains r.owner = true → r.Within r'

instance (g : Graph) : Decidable g.Nested :=
  inferInstanceAs (Decidable (∀ r ∈ g.regions, ∀ r' ∈ g.regions,
    r'.contains r.owner = true → r.Within r'))

/-- Regions are nested in each other, and control enters them as it should (module doc). -/
structure Structured (g : Graph) : Prop where
  /-- Regions of two edges do not overlap in part. -/
  laminar : ∀ r ∈ g.regions, ∀ r' ∈ g.regions, r.owner ≠ r'.owner →
    r.Apart r' ∨ r.Within r' ∨ r'.Within r
  /-- No range is a region of two edges. -/
  distinct : ∀ r ∈ g.regions, ∀ r' ∈ g.regions, r.owner ≠ r'.owner → (r.lo, r.hi) ≠ (r'.lo, r'.hi)
  /-- The entry lies in no region. -/
  entry : ∀ r ∈ g.regions, r.contains Graph.entry = false
  /-- The regions of a block lie in the regions around the block. -/
  nested : g.Nested
  /-- Control enters a region by the edge that it belongs to, and at its first block. -/
  entered : ∀ b < g.size, ∀ c ∈ g.successors b, ∀ r ∈ g.regions,
    r.contains c = true → r.contains b = false → r.owner = b ∧ r.lo = c

instance (g : Graph) : Decidable g.Structured :=
  decidable_of_iff
    ((∀ r ∈ g.regions, ∀ r' ∈ g.regions, r.owner ≠ r'.owner →
        r.Apart r' ∨ r.Within r' ∨ r'.Within r) ∧
      (∀ r ∈ g.regions, ∀ r' ∈ g.regions, r.owner ≠ r'.owner → (r.lo, r.hi) ≠ (r'.lo, r'.hi)) ∧
      (∀ r ∈ g.regions, r.contains Graph.entry = false) ∧ g.Nested ∧
      ∀ b < g.size, ∀ c ∈ g.successors b, ∀ r ∈ g.regions,
        r.contains c = true → r.contains b = false → r.owner = b ∧ r.lo = c)
    ⟨fun ⟨h₁, h₂, h₃, h₄, h₅⟩ => ⟨h₁, h₂, h₃, h₄, h₅⟩,
      fun h => ⟨h.laminar, h.distinct, h.entry, h.nested, h.entered⟩⟩

/-! ## Places of blocks -/

/-- The regions that the block lies in are `regions`. -/
def Home (g : Graph) (regions : List Region) (b : BlockId) : Prop :=
  ∀ r, r ∈ regions ↔ r ∈ g.regions ∧ r.contains b = true

/-- The regions that the block lies in are among `regions`. -/
def Encloses (g : Graph) (regions : List Region) (b : BlockId) : Prop :=
  ∀ r ∈ g.regions, r.contains b = true → r ∈ regions

/-- The block lies in the first of `regions`, or anywhere in the routine if there is none. -/
def Inner (g : Graph) (regions : List Region) (b : BlockId) : Prop :=
  match regions with
  | [] => b < g.size
  | r :: _ => r.contains b = true

/-- The edge of `b` leads on to `c`, and does not start a region there. -/
def Follows (g : Graph) (b c : BlockId) : Prop := c ∈ g.successors b ∧ ∀ r ∈ g.regionsOf b, r.lo ≠ c

/-- The region belongs to an edge no other region of which has the same first block. -/
def Starts (g : Graph) (r : Region) : Prop :=
  r ∈ g.regionsOf r.owner ∧ ∀ r' ∈ g.regionsOf r.owner, r'.lo = r.lo → r' = r

/-- In a structured routine the region may be opened inside `regions`. -/
def Enters (g : Graph) (regions : List Region) (r : Region) : Prop :=
  g.Structured → r ∈ g.regions ∧ (∀ r' ∈ regions, r.Within r') ∧ g.Encloses (r :: regions) r.lo

variable {regions : List Region} {c : BlockId}

theorem Home.encloses (h : g.Home regions b) : g.Encloses regions b := fun r hr hc =>
  (h r).mpr ⟨hr, hc⟩

/-- An edge without a region leads on to all its successors. -/
theorem follows_of_regions_eq_nil {block : Block} {e : Edge} (hb : g.block? b = some block)
    (he : block.edge = some e) (hr : e.regions b = []) (hc : c ∈ e.successors) :
    g.Follows b c := by
  rw [Follows, successors_eq hb he, regionsOf_eq hb he, hr]
  exact ⟨hc, nofun⟩

theorem lt_size_of_mem_successors (h : c ∈ g.successors b) : b < g.size := by
  cases hb : g.block? b with
  | none => simp [successors, hb] at h
  | some block => exact lt_size_of_block? hb

namespace Structured

variable (h : g.Structured) (home : g.Home regions b)
include h home

/-- Control cannot enter a region but by its own edge. -/
theorem mem_or_own (hc : c ∈ g.successors b) (hr : r ∈ g.regions) (hrc : r.contains c = true) :
    r ∈ regions ∨ r ∈ g.regionsOf b ∧ r.lo = c := by
  by_cases hb : r.contains b = true
  · exact .inl ((home r).mpr ⟨hr, hb⟩)
  · obtain ⟨ho, hlo⟩ := h.entered b (lt_size_of_mem_successors hc) c hc r hr hrc (by simpa using hb)
    exact .inr ⟨ho ▸ mem_regions.mp hr, hlo⟩

/-- What fits a block fits those that it leads to, apart from the first ones of its own regions. -/
theorem encloses_successor (hc : g.Follows b c) : g.Encloses regions c := by
  intro r hr hrc
  obtain hm | ⟨ho, hlo⟩ := h.mem_or_own home hc.1 hr hrc
  · exact hm
  · exact absurd hlo (hc.2 r ho)

/-- The first block of a region of an edge lies in that one besides. -/
theorem encloses_first (hc : r.lo ∈ g.successors b)
    (unique : ∀ r' ∈ g.regionsOf b, r'.lo = r.lo → r' = r) : g.Encloses (r :: regions) r.lo := by
  intro r' hr' hrc
  obtain hm | ⟨ho, hlo⟩ := h.mem_or_own home hc hr' hrc
  · exact List.mem_cons_of_mem r hm
  · exact List.mem_cons.mpr (.inl (unique r' ho hlo))

/-- The regions of a block lie in all regions around the block. -/
theorem within_of_mem (hr : r ∈ g.regionsOf b) : ∀ r' ∈ regions, r.Within r' := by
  intro r' hr'
  obtain ⟨hg, hc⟩ := (home r').mp hr'
  rw [← owner_of_mem_regionsOf hr] at hc
  exact h.nested r (mem_regions_of_mem_regionsOf hr) r' hg hc

end Structured

section Protect

variable {block : Block} {body next : BlockId} {handlers : List Handler}
  {cleanup : Option BlockId} (hb : g.block? b = some block)
  (he : block.edge = some (.protect body handlers cleanup next))
  (hasc : Gen.isAscending
    (body :: (handlers.map Handler.target ++ cleanup.toList ++ [next])) = true)
  (home : g.Structured → g.Home regions b)
include hb he

theorem map_lo_regionsOf :
    (g.regionsOf b).map Region.lo = body :: (handlers.map Handler.target ++ cleanup.toList) := by
  rw [regionsOf_eq hb he, Edge.regions, Region.map_lo_split, List.map_cons, map_snd_guardParts]

/-- An edge leads on to no block but the one after its regions. -/
theorem eq_next_of_follows (hc : g.Follows b c) : c = next := by
  have hm := hc.1
  rw [successors_eq hb he, Edge.successors, List.mem_append] at hm
  refine List.mem_singleton.mp (hm.resolve_left fun hm => ?_)
  change c ∈ body :: (handlers.map Handler.target ++ cleanup.toList) at hm
  rw [← map_lo_regionsOf hb he] at hm
  obtain ⟨r, hr, hlo⟩ := List.mem_map.mp hm
  exact hc.2 r hr hlo

include hasc

/-- The regions of an edge start at different blocks. -/
theorem nodup_map_lo_regionsOf : ((g.regionsOf b).map Region.lo).Nodup := by
  rw [map_lo_regionsOf hb he]
  exact ((pairwise_of_isAscending hasc).sublist
    (List.sublist_append_left (body :: _) [next])).imp Nat.ne_of_lt

/-- A region of an edge that protects code starts with a block. -/
theorem starts_of_mem_regionsOf (hr : r ∈ g.regionsOf b) : g.Starts r := by
  rw [Starts, owner_of_mem_regionsOf hr]
  exact ⟨hr, fun r' hr' hlo =>
    List.inj_on_of_nodup_map (nodup_map_lo_regionsOf hb he hasc) hr' hr hlo⟩

/-- An edge leads on to the block after its regions. -/
theorem follows_next : g.Follows b next := by
  refine ⟨?_, fun r hr hlo => ?_⟩
  · rw [successors_eq hb he]
    exact List.mem_append_right _ (List.mem_singleton_self next)
  · have hm := List.mem_map_of_mem (f := Region.lo) hr
    rw [map_lo_regionsOf hb he] at hm
    have hasc := pairwise_of_isAscending hasc
    rw [← List.cons_append, List.pairwise_append] at hasc
    exact Nat.ne_of_lt (hasc.2.2 r.lo hm next (List.mem_singleton_self next)) hlo

include home

/-- The regions of an edge may be opened where its block belongs. -/
theorem enters_of_mem_regionsOf (hr : r ∈ g.regionsOf b) : g.Enters regions r := by
  have unique := (starts_of_mem_regionsOf hb he hasc hr).2
  rw [owner_of_mem_regionsOf hr] at unique
  refine fun hg => ⟨mem_regions_of_mem_regionsOf hr, hg.within_of_mem (home hg) hr, ?_⟩
  exact hg.encloses_first (home hg) (lo_mem_successors hr) unique

/-- The block after the regions of an edge lies in no region but those of the block before. -/
theorem encloses_next (hg : g.Structured) : g.Encloses regions next :=
  hg.encloses_successor (home hg) (follows_next hb he hasc)

end Protect

end Graph
end Linearizer
