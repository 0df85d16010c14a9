import Mathlib.Data.List.Nodup
import Mathlib.Data.List.Pairwise
import Mathlib.Data.Nat.Find
import Linearizer.Proofs.Generator.Schedule
import Linearizer.Proofs.Region.Outline

/-!
# The spans of regions

A region is opened once: it belongs to the edge of a block with one label, and the parts of an edge
come in order. So the places of some code at which a region is open lie between two markers.

- **Steps** (`Outline.Step`): what an element that is lawful as a marker does to an outline.
- **Fresh outlines** (`Outline.Fresh`): the open regions and the parts that come after them differ,
  and belong to blocks whose labels have been read.
- **Awaited regions** (`Outline.Awaits`): those that may still be opened. No region becomes one
  again (`Outline.Awaits.before`), and no open region is one (`Outline.Fresh.not_awaits`).
- **Spans** (`Graph.Spans`): a region that is open somewhere has a span, if none is left open at the
  end (`Graph.Orderly.exists_spans`).
-/

namespace Linearizer

/-- Whether the element ends a part of a region. -/
def Insn.endsPart : Insn → Bool
  | .beginCatch _ | .beginFinally | .endTry => true
  | _ => false

theorem Insn.marks?_of_endsPart {i : Insn} (h : i.endsPart = true) : i.marks? = none := by
  cases i with
  | label => cases h
  | _ => rfl

theorem Insn.marks?_of_isSilent {i : Insn} (h : i.isSilent = true) : i.marks? = none := by
  cases i with
  | label l =>
    cases l with
    | block => cases h
    | fresh => rfl
  | _ => rfl

/-- The part that the code is in and those after it. -/
def Enclosure.parts (e : Enclosure) : List Region := e.region :: e.rest

namespace Outline

/-! ## Steps -/

/-- Reading an element changes an outline in one of these ways. -/
inductive Step (g : Graph) : Outline → Insn → Outline → Prop
  | label {o : Outline} {b : BlockId} : Step g o (.label (.block b)) { o with block := some b }
  | start {nest : List Enclosure} {b : BlockId} {first : Region} {rest : List Region}
      (hr : g.regionsOf b = first :: rest) (hp : first.part = .body)
      (distinct : (first :: rest).Nodup) :
      Step g ⟨some b, nest⟩ .beginTry ⟨none, ⟨first, rest⟩ :: nest⟩
  | next {block : Option BlockId} {nest : List Enclosure} {r next : Region} {rest : List Region}
      {i : Insn} (hm : i = next.part.marker) (he : i.endsPart = true) :
      Step g ⟨block, ⟨r, next :: rest⟩ :: nest⟩ i ⟨block, ⟨next, rest⟩ :: nest⟩
  | finish {block : Option BlockId} {nest : List Enclosure} {r : Region} :
      Step g ⟨block, ⟨r, []⟩ :: nest⟩ .endTry ⟨block, nest⟩
  | silent {o : Outline} {i : Insn} (h : i.isSilent = true) : Step g o i o

variable {g : Graph} {o o' : Outline} {i : Insn} {labels : List BlockId} {r : Region}

theorem step_read (h : o.Brackets g i) : Step g o i (o.read g i) := by
  obtain ⟨block, nest⟩ := o
  cases i with
  | label l =>
    cases l with
    | block => exact .label
    | fresh => exact .silent rfl
  | beginTry =>
    obtain ⟨hlen, distinct⟩ := h
    -- There is a region to start, and the first of them is the body.
    cases hown : own g ⟨block, nest⟩ with
    | nil =>
      rw [hown] at hlen
      cases hlen
    | cons first rest =>
      obtain ⟨b, -, -, -, -, -, rfl, -, -, hp, -⟩ := own_eq hown
      rw [hown] at distinct
      rw [read, hown]
      exact .start hown hp distinct
  | beginCatch cls =>
    obtain ⟨r, next, rest, outer, rfl, hm⟩ := h
    exact .next hm rfl
  | beginFinally =>
    obtain ⟨r, next, rest, outer, rfl, hm⟩ := h
    exact .next hm rfl
  | endTry =>
    obtain ⟨r, outer, rfl⟩ := h
    exact .finish
  | _ => exact .silent rfl

/-! ## Fresh outlines -/

/-- The parts of the open regions differ, and their owners are among the blocks whose labels have
been read, but the last of these if it may still start a region. -/
structure Fresh (labels : List BlockId) (o : Outline) : Prop where
  nodup : (o.nest.flatMap Enclosure.parts).Nodup
  owners : ∀ r ∈ o.nest.flatMap Enclosure.parts, r.owner ∈ labels ∧ o.block ≠ some r.owner
  block : ∀ b ∈ o.block, b ∈ labels

theorem Fresh.step (h : o.Fresh labels) (hs : Step g o i o')
    (hl : (labels ++ i.marks?.toList).Nodup) : o'.Fresh (labels ++ i.marks?.toList) := by
  -- Parts that are left go on to be fresh.
  have remain {block : Option BlockId} {nest nest' : List Enclosure}
      (h : Fresh labels ⟨block, nest⟩)
      (hsub : (nest'.flatMap Enclosure.parts).Sublist (nest.flatMap Enclosure.parts)) :
      Fresh labels ⟨block, nest'⟩ :=
    ⟨h.nodup.sublist hsub, fun r hr => h.owners r (hsub.mem hr), h.block⟩
  cases hs with
  | @label _ b =>
    have hb : b ∉ labels := by
      rw [List.nodup_append] at hl
      exact fun hm => hl.2.2 b hm b (List.mem_singleton_self b) rfl
    refine ⟨h.nodup, fun r hr => ?_, fun c hc => ?_⟩
    · have hr := (h.owners r hr).1
      refine ⟨List.mem_append_left _ hr, fun he => hb ?_⟩
      rw [Option.some.inj he]
      exact hr
    · cases hc
      exact List.mem_append_right _ (List.mem_singleton_self b)
  | @start nest b first rest hr _ distinct =>
    have owner (r : Region) (hm : r ∈ first :: rest) : r.owner = b := by
      rw [← hr] at hm
      exact Graph.owner_of_mem_regionsOf hm
    refine ⟨?_, fun r hm => ?_, nofun⟩
    · rw [List.flatMap_cons, List.nodup_append]
      refine ⟨distinct, h.nodup, fun r hm r' hm' he => ?_⟩
      subst he
      exact (h.owners r hm').2 (congrArg some (owner r hm).symm)
    · rw [List.flatMap_cons, List.mem_append] at hm
      refine ⟨List.mem_append_left _ ?_, nofun⟩
      rcases hm with hm | hm
      · rw [owner r hm]
        exact h.block b rfl
      · exact (h.owners r hm).1
  | @next _ nest r next rest _ _ he =>
    rw [Insn.marks?_of_endsPart he, Option.toList_none, List.append_nil]
    exact remain h (List.sublist_cons_self r _)
  | @finish _ nest r =>
    rw [Insn.marks?_of_endsPart (i := .endTry) rfl, Option.toList_none, List.append_nil]
    exact remain h (List.sublist_cons_self r _)
  | silent hi =>
    rw [Insn.marks?_of_isSilent hi, Option.toList_none, List.append_nil]
    exact h

/-- Only regions of the routine are opened. -/
theorem Step.known (hs : Step g o i o') (h : ∀ r ∈ o.nest.flatMap Enclosure.parts, r ∈ g.regions) :
    ∀ r ∈ o'.nest.flatMap Enclosure.parts, r ∈ g.regions := by
  cases hs with
  | @start _ b first rest hr =>
    rw [List.flatMap_cons]
    refine List.forall_mem_append.mpr ⟨fun r (hm : r ∈ first :: rest) => ?_, h⟩
    rw [← hr] at hm
    exact Graph.mem_regions_of_mem_regionsOf hm
  | next =>
    rw [List.flatMap_cons] at h ⊢
    exact fun r hm => h r (List.mem_cons_of_mem _ hm)
  | finish =>
    rw [List.flatMap_cons] at h
    exact fun r hm => h r (List.mem_append_right _ hm)
  | label => exact h
  | silent => exact h

/-! ## Awaited regions -/

/-- The region may be opened: the label of its owner has not been read, or may still start a region,
or an earlier part is open. -/
def Awaits (labels : List BlockId) (o : Outline) (r : Region) : Prop :=
  r.owner ∉ labels ∨ o.block = some r.owner ∨ r ∈ o.nest.flatMap Enclosure.rest

theorem Awaits.before (hs : Step g o i o') (hl : (labels ++ i.marks?.toList).Nodup)
    (h : o'.Awaits (labels ++ i.marks?.toList) r) : o.Awaits labels r := by
  obtain hn | h := h
  · exact .inl fun hm => hn (List.mem_append_left _ hm)
  cases hs with
  | @label _ b =>
    obtain hb | hr := h
    · left
      intro hm
      rw [← Option.some.inj hb] at hm
      -- The label of a block is read once.
      exact (List.nodup_append.mp hl).2.2 b hm b (List.mem_singleton_self b) rfl
    · exact .inr (.inr hr)
  | @start _ b first rest hown =>
    obtain hb | hr := h
    · cases hb
    rw [List.flatMap_cons, List.mem_append] at hr
    rcases hr with hr | hr
    · have hm : r ∈ g.regionsOf b := hown ▸ List.mem_cons_of_mem first hr
      exact .inr (.inl (congrArg some (Graph.owner_of_mem_regionsOf hm).symm))
    · exact .inr (.inr hr)
  | @next _ _ _ next =>
    exact .inr (h.imp_right (List.mem_cons_of_mem next))
  | finish => exact .inr h
  | silent => exact .inr h

theorem Fresh.not_awaits (h : o.Fresh labels) (hr : r ∈ Enclosure.regions o.nest) :
    ¬ o.Awaits labels r := by
  obtain ⟨e, he, rfl⟩ := List.mem_map.mp hr
  have hm : e.region ∈ o.nest.flatMap Enclosure.parts :=
    List.mem_flatMap_of_mem he List.mem_cons_self
  rintro (hn | hb | hw)
  · exact hn (h.owners _ hm).1
  · exact (h.owners _ hm).2 hb
  · -- A region that is open is no later part of itself or of another one.
    obtain ⟨e', he', hw⟩ := List.mem_flatMap.mp hw
    obtain ⟨each, apart⟩ := List.nodup_flatMap.mp h.nodup
    by_cases heq : e = e'
    · subst heq
      exact (List.nodup_cons.mp (each e he)).1 hw
    · have : Std.Symm (Function.onFun List.Disjoint Enclosure.parts) :=
        ⟨fun _ _ hd => List.disjoint_symm hd⟩
      have hd := apart.forall he he' heq
      exact hd List.mem_cons_self (List.mem_cons_of_mem _ hw)

/-- Only an awaited region is opened, by its marker. -/
theorem Step.opened (hs : Step g o i o') (labels : List BlockId)
    (hr : r ∈ Enclosure.regions o'.nest) :
    r ∈ Enclosure.regions o.nest ∨ i = r.part.marker ∧ o.Awaits labels r := by
  cases hs with
  | @start _ b first rest hown hp =>
    rcases List.mem_cons.mp hr with rfl | hr
    · have hm : r ∈ g.regionsOf b := hown ▸ List.mem_cons_self
      right
      rw [hp]
      exact ⟨rfl, .inr (.inl (congrArg some (Graph.owner_of_mem_regionsOf hm).symm))⟩
    · exact .inl hr
  | @next _ _ _ next _ _ hi =>
    rcases List.mem_cons.mp hr with rfl | hr
    · exact .inr ⟨hi, .inr (.inr List.mem_cons_self)⟩
    · exact .inl (List.mem_cons_of_mem _ hr)
  | finish => exact .inl (List.mem_cons_of_mem _ hr)
  | label => exact .inl hr
  | silent => exact .inl hr

/-- A region is closed by an element that ends a part. -/
theorem Step.closed (hs : Step g o i o') (hr : r ∈ Enclosure.regions o.nest)
    (hn : r ∉ Enclosure.regions o'.nest) : i.endsPart = true := by
  cases hs with
  | label => exact absurd hr hn
  | start => exact absurd (List.mem_cons_of_mem _ hr) hn
  | next _ he => exact he
  | finish => rfl
  | silent => exact absurd hr hn

end Outline

/-! ## Spans -/

namespace Graph

/-- Lawful code in which every label of a block stands once. -/
structure Orderly (g : Graph) (code : List Insn) : Prop where
  lawful : Outline.Lawful g {} code
  labels : (code.filterMap Insn.marks?).Nodup

/-- The region is open between the elements `i` and `j` of some code and nowhere else, the first of
them is its marker and the second one ends a part. -/
structure Spans (g : Graph) (code : List Insn) (r : Region) (i j : Nat) : Prop where
  opened : code[i]? = some r.part.marker
  closed : ∃ e, code[j]? = some e ∧ e.endsPart = true
  mem_iff : ∀ k ≤ code.length, r ∈ g.openRegions (code.take k) ↔ i < k ∧ k ≤ j

/-- Places without a gap that are neither at the start nor at the end lie between two others. -/
theorem exists_interval {P : Nat → Prop} {k n : Nat} (start : ¬ P 0) (hk : P k) (hkn : k ≤ n)
    (stop : ¬ P n) (convex : ∀ a b c, a ≤ b → b ≤ c → P a → P c → P b) :
    ∃ i j, i < k ∧ k ≤ j ∧ j < n ∧ ∀ m ≤ n, P m ↔ i < m ∧ m ≤ j := by
  classical
  have hex : ∃ m, P m := ⟨k, hk⟩
  have first : P (Nat.find hex) := Nat.find_spec hex
  have last : P (Nat.findGreatest P n) := Nat.findGreatest_spec hkn hk
  have pos : 0 < Nat.find hex := Nat.pos_of_ne_zero fun h => start (h ▸ first)
  have hjn : Nat.findGreatest P n < n :=
    lt_of_le_of_ne (Nat.findGreatest_le n) fun h => stop (by rw [← h]; exact last)
  have hik : Nat.find hex ≤ k := Nat.find_min' hex hk
  refine ⟨Nat.find hex - 1, Nat.findGreatest P n, by omega, Nat.le_findGreatest hkn hk, hjn, ?_⟩
  intro m hm
  constructor
  · intro hp
    have hlo : Nat.find hex ≤ m := Nat.find_min' hex hp
    exact ⟨by omega, Nat.le_findGreatest hm hp⟩
  · rintro ⟨hlo, hhi⟩
    exact convex _ m _ (by omega) hhi first last

variable {g : Graph} {code : List Insn} {r : Region} {i : Insn} {k : Nat}

theorem take_succ_eq (hi : code[k]? = some i) : code.take (k + 1) = code.take k ++ [i] := by
  rw [List.take_add_one, hi, Option.toList_some]

theorem take_succ_eq_self (hi : code[k]? = none) : code.take (k + 1) = code.take k := by
  rw [List.take_add_one, hi, Option.toList_none, List.append_nil]

/-- The regions that are open change at a marker only. -/
theorem openRegions_take_succ (hi : code[k]? = some i) (hm : i.isMarker = false) :
    g.openRegions (code.take (k + 1)) = g.openRegions (code.take k) := by
  rw [take_succ_eq hi, openRegions, openRegions, Outline.outline_append]
  cases i with
  | beginTry | beginCatch | beginFinally | endTry => cases hm
  | label l => cases l <;> rfl
  | _ => rfl

namespace Orderly

variable (h : g.Orderly code)
include h

theorem step (hi : code[k]? = some i) :
    Outline.Step g (g.outline (code.take k)) i (g.outline (code.take (k + 1))) := by
  rw [take_succ_eq hi, Outline.outline_append]
  exact Outline.step_read (h.lawful.admits_of_getElem? hi).brackets

theorem labels_take (hi : code[k]? = some i) :
    (code.take (k + 1)).filterMap Insn.marks? =
      (code.take k).filterMap Insn.marks? ++ i.marks?.toList ∧
    ((code.take k).filterMap Insn.marks? ++ i.marks?.toList).Nodup := by
  have heq : (code.take (k + 1)).filterMap Insn.marks? =
      (code.take k).filterMap Insn.marks? ++ i.marks?.toList := by
    rw [take_succ_eq hi, List.filterMap_append]
    cases hm : i.marks? <;> simp [hm]
  refine ⟨heq, ?_⟩
  rw [← heq]
  exact h.labels.sublist ((List.take_sublist _ _).filterMap _)

theorem fresh (k : Nat) :
    (g.outline (code.take k)).Fresh ((code.take k).filterMap Insn.marks?) := by
  induction k with
  | zero => exact ⟨List.nodup_nil, nofun, nofun⟩
  | succ k ih =>
    cases hi : code[k]? with
    | none =>
      rw [take_succ_eq_self hi]
      exact ih
    | some i =>
      obtain ⟨heq, hd⟩ := h.labels_take hi
      rw [heq]
      exact ih.step (h.step hi) hd

theorem parts_mem_regions (k : Nat) :
    ∀ r ∈ (g.outline (code.take k)).nest.flatMap Enclosure.parts, r ∈ g.regions := by
  induction k with
  | zero => exact nofun
  | succ k ih =>
    cases hi : code[k]? with
    | none =>
      rw [take_succ_eq_self hi]
      exact ih
    | some i => exact (h.step hi).known ih

theorem mem_regions (hr : r ∈ g.openRegions (code.take k)) : r ∈ g.regions := by
  obtain ⟨e, he, rfl⟩ := List.mem_map.mp hr
  exact h.parts_mem_regions k _ (List.mem_flatMap_of_mem he List.mem_cons_self)

/-- In a structured routine a block stands where it belongs. -/
theorem home {b : BlockId} (hg : g.Structured) (hk : code[k]? = some (.label (.block b))) :
    g.Home (g.openRegions (code.take k)) b :=
  (h.lawful.admits_of_getElem? hk).houses hg

/-- A region that has been opened is not awaited any more. -/
theorem not_awaits {a c : Nat} (hac : a ≤ c) (ha : r ∈ g.openRegions (code.take a)) :
    ¬ (g.outline (code.take c)).Awaits ((code.take c).filterMap Insn.marks?) r := by
  induction c, hac using Nat.le_induction with
  | base => exact (h.fresh a).not_awaits ha
  | succ c _ ih =>
    cases hi : code[c]? with
    | none =>
      rw [take_succ_eq_self hi]
      exact ih
    | some i =>
      obtain ⟨heq, hd⟩ := h.labels_take hi
      rw [heq]
      exact fun hw => ih (.before (h.step hi) hd hw)

/-- A region that has been closed stays closed. -/
theorem not_mem_openRegions {a b c : Nat} (hab : a ≤ b) (hbc : b ≤ c)
    (ha : r ∈ g.openRegions (code.take a)) (hb : r ∉ g.openRegions (code.take b)) :
    r ∉ g.openRegions (code.take c) := by
  induction c, hbc using Nat.le_induction with
  | base => exact hb
  | succ c hbc ih =>
    cases hi : code[c]? with
    | none =>
      rw [take_succ_eq_self hi]
      exact ih
    | some i =>
      intro hc
      obtain hm | ⟨-, hw⟩ := (h.step hi).opened _ hc
      · exact ih hm
      · exact h.not_awaits (Nat.le_trans hab hbc) ha hw

/-- A region that is open somewhere has a span, if no region is open at the end. -/
theorem exists_spans (hend : g.openRegions code = []) (hk : k ≤ code.length)
    (hr : r ∈ g.openRegions (code.take k)) :
    ∃ i j, i < k ∧ k ≤ j ∧ g.Spans code r i j := by
  have start : r ∉ g.openRegions (code.take 0) := nofun
  have stop : r ∉ g.openRegions (code.take code.length) := by
    rw [List.take_length, hend]
    exact List.not_mem_nil
  -- A region that has been closed is not opened again.
  have convex (a b c : Nat) (hab : a ≤ b) (hbc : b ≤ c) (ha : r ∈ g.openRegions (code.take a))
      (hc : r ∈ g.openRegions (code.take c)) : r ∈ g.openRegions (code.take b) := by
    by_contra hb
    exact h.not_mem_openRegions hab hbc ha hb hc
  obtain ⟨i, j, hik, hkj, hj, hmem⟩ := exists_interval start hr hk stop convex
  refine ⟨i, j, hik, hkj, ?_, ?_, hmem⟩
  · have hi : i < code.length := by omega
    have before := (hmem i (Nat.le_of_lt hi)).not.mpr (by omega)
    have after := (hmem (i + 1) hi).mpr (by omega)
    rw [List.getElem?_eq_getElem hi]
    obtain hm | ⟨heq, -⟩ := (h.step (List.getElem?_eq_getElem hi)).opened [] after
    · exact absurd hm before
    · rw [heq]
  · have before := (hmem j (Nat.le_of_lt hj)).mpr (by omega)
    have after := (hmem (j + 1) hj).not.mpr (by omega)
    exact ⟨_, List.getElem?_eq_getElem hj,
      (h.step (List.getElem?_eq_getElem hj)).closed before after⟩

end Orderly
end Graph
end Linearizer
