import Linearizer.Proofs.Region.Scopes

/-!
# Regions during generation

At any time of generation the code that has been written is lawful, and the regions that it is in
are those of the open scopes, up to the moments between a marker and the scope that it belongs to.

- **States** (`State.Stands`): the code is lawful and is in the regions of `nest`, and the open
  scopes are those of `regions`. `State.Inside` is such a state where they agree, `State.Between`
  one where the innermost region has no open scope yet or no longer, and `State.Bare` one without
  any. A state of generation is one of the three (`State.Rests`).
- **Changes**: statements stay inside the regions (`State.Stands.quiets`), a marker opens, goes on
  with or closes the innermost one (`State.Stands.beginTry`, `beginNext`, `endTry`), and a label
  stands where its block belongs (`State.Stands.enter`).
-/

namespace Linearizer

open Outline

/-- Statements leave the outline of the code as it is. -/
theorem Calm.outline_eq {g : Graph} {s s' : State} (h : Calm s s') :
    g.outline s'.code = g.outline s.code := by
  obtain ⟨code, hc, hi⟩ := h.code
  rw [hc, outline_append]
  refine foldl_read_of_isSilent (fun i hm => ?_) _
  obtain hp | he | ⟨slot, label, -, rfl⟩ := hi i hm
  · exact isSilent_of_isPlain hp
  · cases i with
    | op => rfl
    | _ => cases he
  · rfl

/-! ## States -/

namespace State

/-- The code is lawful and in the regions of `nest`. -/
structure Reads (g : Graph) (nest : List Enclosure) (s : State) : Prop where
  lawful : Lawful g {} s.code
  nest : (g.outline s.code).nest = nest
  /-- The exit that returns share has no label of a block. -/
  shared : ∀ exit ∈ s.returnSlot, ∃ n, exit.2 = .fresh n

/-- The code is lawful and in the regions of `nest`; the scopes of `regions` are open (module
doc). -/
structure Stands (g : Graph) (nest : List Enclosure) (regions : List Region) (s : State) : Prop
    extends Reads g nest s where
  scopes : Opens g regions s.scopes

/-- The regions that the code is in are those of the open scopes. -/
abbrev Inside (g : Graph) (nest : List Enclosure) (s : State) : Prop :=
  s.Stands g nest (Enclosure.regions nest)

/-- Beside that, the label of a block was written last. -/
structure At (g : Graph) (nest : List Enclosure) (b : BlockId) (s : State) : Prop where
  inside : s.Inside g nest
  block : (g.outline s.code).block = some b

/-- The innermost region that the code is in has no open scope. -/
abbrev Between (g : Graph) (top : Enclosure) (nest : List Enclosure) (s : State) : Prop :=
  s.Stands g (top :: nest) (Enclosure.regions nest)

/-- The code is lawful and in no region, and no scope is open. -/
structure Bare (g : Graph) (s : State) : Prop extends Reads g [] s where
  closed : s.scopes = []

/-- A state of generation at any time. -/
inductive Rests (g : Graph) (s : State) : Prop
  | inside {nest : List Enclosure} (h : s.Inside g nest)
  | between {top : Enclosure} {nest : List Enclosure} (h : s.Between g top nest)
  | bare (h : s.Bare g)

/-- The open scopes are those of the regions that the code is in. The innermost region may have no
scope yet or no longer, and before and after the blocks of a routine there is none at all. -/
def Agrees (g : Graph) (s : State) : Prop :=
  ∃ regions, (regions = g.openRegions s.code ∨ regions = (g.openRegions s.code).tail) ∧
    (s.frames = regions.map Region.frame ++ [(.routine, 0, g.size)] ∨
      regions = [] ∧ s.frames = [])

end State

namespace State.Reads

variable {g : Graph} {s s' : State} {nest : List Enclosure} {i : Insn}

theorem congr (h : s.Reads g nest) (hc : s'.code = s.code) (hr : s'.returnSlot = s.returnSlot) :
    s'.Reads g nest := by
  refine ⟨?_, ?_, ?_⟩
  · rw [hc]
    exact h.lawful
  · rw [hc]
    exact h.nest
  · rw [hr]
    exact h.shared

/-- An element that finds what it asks for is written. -/
theorem write (h : s.Reads g nest) (ha : (g.outline s.code).Admits g i)
    (hc : s'.code = s.code ++ [i]) (hr : s'.returnSlot = s.returnSlot) :
    s'.Reads g ((g.outline s.code).read g i).nest := by
  refine ⟨?_, ?_, ?_⟩
  · rw [hc, lawful_append]
    exact ⟨h.lawful, ha, trivial⟩
  · rw [hc, outline_append]
    rfl
  · rw [hr]
    exact h.shared

/-- An element that says nothing of regions is written where it is a fitting exit. -/
theorem exit (h : s.Reads g nest) (hi : i.isSilent = true)
    (he : Exits g (Enclosure.regions nest) i) (hc : s'.code = s.code ++ [i])
    (hr : s'.returnSlot = s.returnSlot) : s'.Reads g nest := by
  have ha : (g.outline s.code).Admits g i := admits_of_exits hi (by rw [h.nest]; exact he)
  have hw := h.write ha hc hr
  rwa [read_of_isSilent hi, h.nest] at hw

theorem straight (h : s.Reads g nest) (hs : Straight s s') : s'.Reads g nest := by
  obtain ⟨code, hc, hp⟩ := hs.code
  rw [List.all_eq_true] at hp
  refine ⟨?_, ?_, ?_⟩
  · rw [hc, lawful_append]
    exact ⟨h.lawful, lawful_of_isPlain hp _⟩
  · rw [hs.calm.outline_eq]
    exact h.nest
  · rw [hs.returnSlot]
    exact h.shared

end State.Reads

namespace State.Stands

variable {g : Graph} {s s' : State} {nest : List Enclosure} {regions regions' : List Region}
  {i : Insn} {b : BlockId}

/-- The scopes may change while nothing is written. -/
theorem rescope (h : s.Stands g nest regions) (hs : Opens g regions' s'.scopes)
    (hc : s'.code = s.code) (hr : s'.returnSlot = s.returnSlot) : s'.Stands g nest regions' :=
  ⟨h.toReads.congr hc hr, hs⟩

theorem exit (h : s.Inside g nest) (hi : i.isSilent = true)
    (he : Exits g (Enclosure.regions nest) i) (hs : s'.scopes = s.scopes)
    (hc : s'.code = s.code ++ [i]) (hr : s'.returnSlot = s.returnSlot) : s'.Inside g nest :=
  ⟨h.toReads.exit hi he hc hr, by rw [hs]; exact h.scopes⟩

theorem straight (h : s.Stands g nest regions) (hs : Straight s s') :
    s'.Stands g nest regions :=
  ⟨h.toReads.straight hs, by rw [hs.scopes]; exact h.scopes⟩

theorem scopes_eq (h : s.Stands g nest regions) :
    ∃ outer, s.scopes = s.innermost g :: outer := by
  have ho := h.scopes
  unfold State.innermost
  cases hs : s.scopes with
  | nil =>
    rw [hs] at ho
    cases ho
  | cons scope outer => exact ⟨outer, rfl⟩

theorem inner_iff (h : s.Stands g nest regions) :
    (s.innermost g).contains b = true ↔ g.Inner regions b := by
  obtain ⟨outer, hs⟩ := h.scopes_eq
  have ho := h.scopes
  rw [hs] at ho
  exact ho.contains_iff

/-! ## Statements -/

theorem exists_kind (h : s.Stands g nest regions) {r : Region} (hr : r ∈ regions) :
    ∃ scope ∈ s.scopes, scope.kind = r.part.kind := by
  have hm : r.part.kind ∈ s.scopes.map Scope.kind := by
    rw [h.scopes.map_kind]
    exact List.mem_append_left _ (List.mem_map_of_mem hr)
  exact List.mem_map.mp hm

theorem kind_eq (h : s.Stands g nest regions) {scope : Scope} (hs : scope ∈ s.scopes) :
    scope.kind = .routine ∨ ∃ r ∈ regions, r.part.kind = scope.kind := by
  have hm : scope.kind ∈ s.scopes.map Scope.kind := List.mem_map_of_mem hs
  rw [h.scopes.map_kind, List.mem_append, List.mem_map, List.mem_singleton] at hm
  exact hm.symm

/-- A move that leaves the schedule of blocks alone stays inside the regions. -/
theorem quiet (h : s.Inside g nest) (hq : Quiet g s s') : s'.Inside g nest := by
  cases hq with
  | straight hs => exact h.straight hs
  | throw => exact h.exit (i := .op .throw) rfl trivial rfl (s.code_written _) rfl
  | ret hall =>
    -- Every open region would have a scope, and all scopes are of routines.
    refine h.exit (i := .op .ret) rfl ?_ rfl (s.code_written _) rfl
    refine List.eq_nil_iff_forall_not_mem.mpr fun r hr => ?_
    obtain ⟨scope, hs, hk⟩ := h.exists_kind hr
    rw [hall scope hs] at hk
    exact r.part.kind_ne_routine hk.symm
  | share => exact ⟨⟨h.lawful, h.nest, by simp⟩, h.scopes⟩
  | @leave slot label hslot protect clean =>
    obtain ⟨n, rfl⟩ : ∃ n, label = .fresh n := h.shared (slot, label) hslot
    have hclean : ∀ r ∈ Enclosure.regions nest, r.part ≠ .cleanup := by
      intro r hr hp
      obtain ⟨scope, hs, hk⟩ := h.exists_kind hr
      exact clean scope hs (hk.trans (congrArg Part.kind hp))
    refine h.exit (i := .branch .leave (.fresh n)) rfl ⟨?_, hclean⟩ rfl (s.code_branched _ _) rfl
    -- Some scope is protected, so there is a region around, and the innermost is no cleanup.
    obtain ⟨scope, hs, hp⟩ := protect
    obtain hk | ⟨r, hr, -⟩ := h.kind_eq hs
    · rw [hk] at hp
      cases hp
    · obtain ⟨first, rest, he⟩ := List.exists_cons_of_ne_nil (List.ne_nil_of_mem hr)
      rw [he] at hclean ⊢
      exact ⟨first, rfl, Part.isProtected_iff.mpr (hclean first List.mem_cons_self)⟩
  | finish hk =>
    refine h.exit (i := .op .endfinally) rfl ?_ rfl (s.code_written _) rfl
    obtain ⟨outer, hs⟩ := h.scopes_eq
    have kinds := h.scopes.map_kind
    rw [hs, List.map_cons, hk] at kinds
    cases he : Enclosure.regions nest with
    | nil =>
      rw [he] at kinds
      cases kinds
    | cons r rest =>
      rw [he] at kinds
      exact ⟨r, rfl, Part.kind_eq_cleanup.mp (List.cons.inj kinds).1.symm⟩

theorem quiets (h : s.Inside g nest) (hq : Quiets g s s') : s'.Inside g nest := by
  induction hq with
  | refl => exact h
  | tail _ hq ih => exact ih.quiet hq

/-! ## Markers -/

/-- The first part of the region of the block whose label was read last is started. -/
theorem beginTry (h : s.At g nest b) {first : Region} {rest : List Region}
    (hr : g.regionsOf b = first :: rest) (hne : rest ≠ []) (hd : (first :: rest).Nodup)
    (hs : s'.scopes = s.scopes) (hc : s'.code = s.code ++ [.beginTry])
    (hslot : s'.returnSlot = s.returnSlot) : s'.Between g ⟨first, rest⟩ nest := by
  have own : (g.outline s.code).own g = first :: rest := by
    rw [Outline.own, h.block, ← hr]
    rfl
  have ha : (g.outline s.code).Admits g .beginTry := by
    refine ⟨?_, trivial, trivial⟩
    have hlt := List.length_pos_of_ne_nil hne
    change 2 ≤ ((g.outline s.code).own g).length ∧ ((g.outline s.code).own g).Nodup
    rw [own, List.length_cons]
    exact ⟨by omega, hd⟩
  refine ⟨?_, by rw [hs]; exact h.inside.scopes⟩
  have hw := h.inside.toReads.write ha hc hslot
  rw [Outline.read, own, h.inside.nest] at hw
  exact hw

/-- The innermost region goes on with its next part. -/
theorem beginNext {r next : Region} {rest : List Region}
    (h : s.Between g ⟨r, next :: rest⟩ nest) (hp : next.part ≠ .body)
    (hs : s'.scopes = s.scopes) (hc : s'.code = s.code ++ [next.part.marker])
    (hslot : s'.returnSlot = s.returnSlot) : s'.Between g ⟨next, rest⟩ nest := by
  refine ⟨?_, by rw [hs]; exact h.scopes⟩
  have hw := h.toReads.write (admits_marker h.nest hp) hc hslot
  rw [read_marker hp, h.nest] at hw
  exact hw

/-- The innermost region is closed after its last part. -/
theorem endTry {r : Region} (h : s.Between g ⟨r, []⟩ nest) (hs : s'.scopes = s.scopes)
    (hc : s'.code = s.code ++ [.endTry]) (hslot : s'.returnSlot = s.returnSlot) :
    s'.Inside g nest := by
  have ha : (g.outline s.code).Admits g .endTry := ⟨⟨r, nest, h.nest⟩, trivial, trivial⟩
  refine ⟨?_, by rw [hs]; exact h.scopes⟩
  have hw := h.toReads.write ha hc hslot
  rw [Outline.read, h.nest] at hw
  exact hw

/-- The label of a block that belongs here is written. -/
theorem enter (h : s.Inside g nest) (viaEdge : Bool)
    (home : g.Structured → g.Home (Enclosure.regions nest) b) :
    (s.entered viaEdge b).At g nest b := by
  have ha : (g.outline s.code).Admits g (.label (.block b)) := by
    refine ⟨trivial, trivial, ?_⟩
    rw [h.nest]
    exact home
  have hc := s.code_entered viaEdge b
  refine ⟨⟨?_, h.scopes.unqueue b⟩, ?_⟩
  · have hw := h.toReads.write ha hc (s.returnSlot_unqueue b)
    rw [Outline.read, h.nest] at hw
    exact hw
  · rw [hc, outline_append]
    rfl

end State.Stands

namespace State.Rests

variable {g : Graph} {s : State}

theorem lawful (h : s.Rests g) : Lawful g {} s.code := by
  cases h with
  | inside h => exact h.lawful
  | between h => exact h.lawful
  | bare h => exact h.lawful

theorem agrees (h : s.Rests g) : s.Agrees g := by
  cases h with
  | @inside nest h =>
    refine ⟨Enclosure.regions nest, .inl ?_, .inl h.scopes.map_frame⟩
    rw [Graph.openRegions, h.nest]
  | @between top nest h =>
    refine ⟨Enclosure.regions nest, .inr ?_, .inl h.scopes.map_frame⟩
    rw [Graph.openRegions, h.nest]
    rfl
  | bare h =>
    refine ⟨[], .inl ?_, .inr ⟨rfl, ?_⟩⟩
    · rw [Graph.openRegions, h.nest]
      rfl
    · rw [State.frames, h.closed]
      rfl

end State.Rests

end Linearizer
