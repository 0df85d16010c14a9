import Linearizer.Proofs.Generator.Straight
import Linearizer.Proofs.Region.Basic

/-!
# The outline of some code

The markers of a listing say where the parts of protected regions start and end, and the labels of
blocks say whose regions they are: a region belongs to the edge of the block whose label stands
last before its first marker, and no label stands for two of them. The outline of some code is what
has been read of this at its end.

- **Outlines** (`Outline`, `Graph.outline`): the regions that are open at the end of some code, the
  innermost one first, and the parts that are still to come.
- **Rules** (`Outline.Brackets`, `Outline.Exits`, `Outline.Houses`): what an element asks of the
  outline before it: as a marker, as an exit from regions and as the label of a block.
- **Lawful code** (`Outline.Lawful`): every element finds what it asks for.
-/

namespace Linearizer

/-- Whether the element says nothing of regions: no label of a block and no marker. -/
def Insn.isSilent : Insn → Bool
  | .label (.block _) | .beginTry | .beginCatch _ | .beginFinally | .endTry => false
  | _ => true

/-- A protected region that is open: the part that the code is in, and the parts after it. -/
structure Enclosure where
  /-- The part. -/
  region : Region
  /-- The parts after it. -/
  rest : List Region
deriving DecidableEq

/-- The parts that the code is in, the innermost one first. -/
abbrev Enclosure.regions (nest : List Enclosure) : List Region := nest.map Enclosure.region

/-- What has been read of labels and markers (module doc). -/
structure Outline where
  /-- The block whose label was read last, unless a region has been started since. -/
  block : Option BlockId := none
  /-- The regions that are open, the innermost one first. -/
  nest : List Enclosure := []
deriving DecidableEq

namespace Outline

/-- The regions of the block whose label was read last. -/
def own (g : Graph) (o : Outline) : List Region := o.block.elim [] g.regionsOf

/-- The innermost region goes on with its next part. -/
def advance : List Enclosure → List Enclosure
  | ⟨_, next :: rest⟩ :: outer => ⟨next, rest⟩ :: outer
  | nest => nest

/-- The regions that are open when the first of some parts has been started. -/
def enter (nest : List Enclosure) : List Region → List Enclosure
  | first :: rest => ⟨first, rest⟩ :: nest
  | [] => nest

/-- Reads an element. -/
def read (g : Graph) (o : Outline) : Insn → Outline
  | .label (.block b) => { o with block := some b }
  | .beginTry => { block := none, nest := enter o.nest (o.own g) }
  | .beginCatch _ | .beginFinally => { o with nest := advance o.nest }
  | .endTry => { o with nest := o.nest.tail }
  | _ => o

end Outline

namespace Graph

/-- The outline of some code. -/
def outline (g : Graph) (code : List Insn) : Outline := code.foldl (Outline.read g) {}

/-- The regions that are open behind some code, the innermost one first. -/
def openRegions (g : Graph) (code : List Insn) : List Region :=
  Enclosure.regions (g.outline code).nest

end Graph

/-! ## The rules -/

namespace Outline

variable {g : Graph} {o : Outline} {i : Insn} {code code' : List Insn}

/-- What an element asks for as a marker: a region has a guard, its parts differ and come in order,
and it is closed after the last one. -/
def Brackets (g : Graph) (o : Outline) (i : Insn) : Prop :=
  match i with
  | .beginTry => 2 ≤ (o.own g).length ∧ (o.own g).Nodup
  | .beginCatch _ | .beginFinally =>
    ∃ r next rest outer, o.nest = ⟨r, next :: rest⟩ :: outer ∧ i = next.part.marker
  | .endTry => ∃ r outer, o.nest = ⟨r, []⟩ :: outer
  | _ => True

/-- What an element asks of the open regions as an exit. -/
def Exits (g : Graph) (regions : List Region) : Insn → Prop
  | .op .ret => regions = []
  | .op .endfinally => ∃ r ∈ regions.head?, r.part = .cleanup
  | .branch .leave (.block b) =>
    ∃ r ∈ regions.head?, r.part.kind.isProtected = true ∧ r.contains b = false
  | .branch .leave (.fresh _) =>
    (∃ r ∈ regions.head?, r.part.kind.isProtected = true) ∧ ∀ r ∈ regions, r.part ≠ .cleanup
  | .branch .br (.fresh _) => False
  | .branch _ (.block b) => g.Inner regions b
  | .switch targets => ∀ l ∈ targets, ∃ b, l = .block b ∧ g.Inner regions b
  | _ => True

/-- What an element asks of the open regions as the label of a block of a structured routine. -/
def Houses (g : Graph) (regions : List Region) : Insn → Prop
  | .label (.block b) => g.Structured → g.Home regions b
  | _ => True

/-- An element finds what it asks for. -/
structure Admits (g : Graph) (o : Outline) (i : Insn) : Prop where
  brackets : o.Brackets g i
  exits : Exits g (Enclosure.regions o.nest) i
  houses : Houses g (Enclosure.regions o.nest) i

/-- Every element of some code finds what it asks for, behind what has been read before. -/
def Lawful (g : Graph) : Outline → List Insn → Prop
  | _, [] => True
  | o, i :: rest => o.Admits g i ∧ Lawful g (o.read g i) rest

theorem outline_append (g : Graph) (code code' : List Insn) :
    g.outline (code ++ code') = code'.foldl (read g) (g.outline code) := List.foldl_append

theorem lawful_append :
    Lawful g o (code ++ code') ↔ Lawful g o code ∧ Lawful g (code.foldl (read g) o) code' := by
  induction code generalizing o with
  | nil => simp [Lawful]
  | cons i rest ih => simp [Lawful, ih, and_assoc]

theorem Lawful.admits (h : Lawful g {} code) (k : Fin code.length) :
    (g.outline (code.take k)).Admits g (code.get k) := by
  rw [← List.take_append_drop k code, lawful_append, List.drop_eq_getElem_cons k.isLt] at h
  exact h.2.1

theorem Lawful.admits_of_getElem? {k : Nat} (h : Lawful g {} code) (hi : code[k]? = some i) :
    (g.outline (code.take k)).Admits g i := by
  obtain ⟨hk, rfl⟩ := List.getElem?_eq_some_iff.mp hi
  exact h.admits ⟨k, hk⟩

/-! ## Markers -/

/-- The block whose label was read last has regions only when its edge runs a protected region. -/
theorem own_eq {first : Region} {rest : List Region} (h : o.own g = first :: rest) :
    ∃ b block body handlers cleanup next, o.block = some b ∧ g.block? b = some block ∧
      block.edge = some (.protect body handlers cleanup next) ∧
      first.part = .body ∧ rest = Region.split b next (guardParts handlers cleanup) := by
  unfold Outline.own at h
  cases hb : o.block with
  | none =>
    rw [hb] at h
    cases h
  | some b =>
    rw [hb, Option.elim_some] at h
    obtain ⟨block, body, handlers, cleanup, next, hblock, he⟩ :=
      Graph.exists_protect (List.ne_nil_of_mem (h ▸ List.mem_cons_self))
    rw [Graph.regionsOf_eq hblock he] at h
    obtain ⟨rfl, rfl⟩ := List.cons.inj h
    exact ⟨b, block, body, handlers, cleanup, next, rfl, hblock, he, rfl, rfl⟩

theorem read_marker {p : Part} (h : p ≠ .body) (o : Outline) :
    o.read g p.marker = { o with nest := advance o.nest } := by
  cases p with
  | body => exact absurd rfl h
  | _ => rfl

theorem admits_marker {r next : Region} {rest : List Region} {outer : List Enclosure}
    (h : o.nest = ⟨r, next :: rest⟩ :: outer) (hp : next.part ≠ .body) :
    o.Admits g next.part.marker := by
  cases hn : next.part with
  | body => exact absurd hn hp
  | _ => exact ⟨⟨r, next, rest, outer, h, by rw [hn]⟩, trivial, trivial⟩

/-! ## Elements inside a region -/

theorem read_of_isSilent (h : i.isSilent = true) (o : Outline) : o.read g i = o := by
  cases i with
  | beginTry | beginCatch | beginFinally | endTry => cases h
  | label l =>
    cases l with
    | block => cases h
    | fresh => rfl
  | _ => rfl

theorem foldl_read_of_isSilent (h : ∀ i ∈ code, i.isSilent = true) (o : Outline) :
    code.foldl (read g) o = o := by
  induction code with
  | nil => rfl
  | cons i rest ih =>
    rw [List.forall_mem_cons] at h
    rw [List.foldl_cons, read_of_isSilent h.1, ih h.2]

/-- Such an element asks for something only as an exit. -/
theorem admits_of_exits (h : i.isSilent = true) (he : Exits g (Enclosure.regions o.nest) i) :
    o.Admits g i := by
  cases i with
  | beginTry | beginCatch | beginFinally | endTry => cases h
  | label l =>
    cases l with
    | block => cases h
    | fresh => exact ⟨trivial, he, trivial⟩
  | _ => exact ⟨trivial, he, trivial⟩

theorem isSilent_of_isPlain (h : i.isPlain = true) : i.isSilent = true := by
  cases i with
  | label | beginTry | beginCatch | beginFinally | endTry => cases h
  | _ => rfl

theorem exits_of_isPlain (h : i.isPlain = true) (regions : List Region) : Exits g regions i := by
  cases i with
  | branch | switch => cases h
  | op opcode =>
    cases opcode with
    | ret | endfinally => cases h
    | _ => exact trivial
  | _ => exact trivial

theorem lawful_of_isPlain (h : ∀ i ∈ code, i.isPlain = true) (o : Outline) : Lawful g o code := by
  induction code with
  | nil => exact trivial
  | cons i rest ih =>
    rw [List.forall_mem_cons] at h
    have silent := isSilent_of_isPlain h.1
    refine ⟨admits_of_exits silent (exits_of_isPlain h.1 _), ?_⟩
    rw [read_of_isSilent silent]
    exact ih h.2

end Outline
end Linearizer
