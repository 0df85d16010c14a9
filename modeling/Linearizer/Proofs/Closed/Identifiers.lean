import Mathlib.Data.List.Nodup
import Linearizer.Graph.Basic

/-!
# The identifiers of a routine

A routine names blocks, variables and classes by number, and nothing in the type of a graph keeps a
number from naming nothing.

* `Ids` is a collection of identifiers; the functions named `ids` collect those of expressions,
  statements, edges and whole routines;
* `Ids.In`: a routine has everything that the identifiers name;
* `Graph.Closed`: no name is given twice, and the routine has everything that it names itself;
* `Graph.Extends`: a routine with at least as many blocks, variables and classes, which is closed
  if the first one was.
-/

namespace Linearizer

/-- Identifiers of blocks, variables and classes. -/
structure Ids where
  /-- Blocks. -/
  blocks : List BlockId
  /-- Variables. -/
  vars : List VarId
  /-- Classes. -/
  classes : List ClassId
deriving DecidableEq

namespace Ids

instance : EmptyCollection Ids := ⟨⟨[], [], []⟩⟩

instance : Append Ids :=
  ⟨fun u w => ⟨u.blocks ++ w.blocks, u.vars ++ w.vars, u.classes ++ w.classes⟩⟩

/-- Some blocks. -/
def ofBlocks (l : List BlockId) : Ids := ⟨l, [], []⟩

/-- Some variables. -/
def ofVars (l : List VarId) : Ids := ⟨[], l, []⟩

/-- Some classes. -/
def ofClasses (l : List ClassId) : Ids := ⟨[], [], l⟩

/-- All identifiers of some collections. -/
def gather (l : List Ids) : Ids := l.foldr (· ++ ·) ∅

/-- The routine has everything that the identifiers name. -/
structure In (u : Ids) (g : Graph) : Prop where
  blocks : ∀ b ∈ u.blocks, b < g.size
  vars : ∀ v ∈ u.vars, v < g.vars.length
  classes : ∀ c ∈ u.classes, c < g.classes.length

variable {u w : Ids} {g : Graph}

@[simp] theorem in_empty : (∅ : Ids).In g := ⟨nofun, nofun, nofun⟩

/-- Both lists are in range just if their concatenation is. -/
@[simp] theorem in_append : (u ++ w).In g ↔ u.In g ∧ w.In g := by
  constructor
  · intro h
    refine ⟨⟨?_, ?_, ?_⟩, ⟨?_, ?_, ?_⟩⟩
    · exact fun b hb => h.blocks b (List.mem_append_left _ hb)
    · exact fun v hv => h.vars v (List.mem_append_left _ hv)
    · exact fun c hc => h.classes c (List.mem_append_left _ hc)
    · exact fun b hb => h.blocks b (List.mem_append_right _ hb)
    · exact fun v hv => h.vars v (List.mem_append_right _ hv)
    · exact fun c hc => h.classes c (List.mem_append_right _ hc)
  · rintro ⟨hu, hw⟩
    refine ⟨fun b hb => ?_, fun v hv => ?_, fun c hc => ?_⟩
    · exact (List.mem_append.mp hb).elim (hu.blocks b) (hw.blocks b)
    · exact (List.mem_append.mp hv).elim (hu.vars v) (hw.vars v)
    · exact (List.mem_append.mp hc).elim (hu.classes c) (hw.classes c)

@[simp] theorem in_gather {l : List Ids} : (gather l).In g ↔ ∀ u ∈ l, u.In g := by
  induction l with
  | nil => simp [gather]
  | cons u l ih => simpa [gather] using fun _ => ih

theorem mem_blocks_gather {l : List Ids} {b : BlockId} :
    b ∈ (gather l).blocks ↔ ∃ u ∈ l, b ∈ u.blocks := by
  induction l with
  | nil => simp [gather, EmptyCollection.emptyCollection]
  | cons u l ih =>
    change b ∈ u.blocks ++ (gather l).blocks ↔ _
    simp [ih]

theorem mem_vars_gather {l : List Ids} {v : VarId} :
    v ∈ (gather l).vars ↔ ∃ u ∈ l, v ∈ u.vars := by
  induction l with
  | nil => simp [gather, EmptyCollection.emptyCollection]
  | cons u l ih =>
    change v ∈ u.vars ++ (gather l).vars ↔ _
    simp [ih]

@[simp] theorem in_ofBlocks {l : List BlockId} : (ofBlocks l).In g ↔ ∀ b ∈ l, b < g.size :=
  ⟨In.blocks, fun h => ⟨h, nofun, nofun⟩⟩

@[simp] theorem in_ofVars {l : List VarId} : (ofVars l).In g ↔ ∀ v ∈ l, v < g.vars.length :=
  ⟨In.vars, fun h => ⟨nofun, h, nofun⟩⟩

@[simp] theorem in_ofClasses {l : List ClassId} :
    (ofClasses l).In g ↔ ∀ c ∈ l, c < g.classes.length :=
  ⟨In.classes, fun h => ⟨nofun, nofun, h⟩⟩

end Ids

/-! ## What the parts of a routine name -/

/-- The class that an encoding names. -/
def Encoding.ids : Encoding → Ids
  | .object cls => .ofClasses cls.toList
  | _ => ∅

mutual

/-- The variables and classes that an expression names. -/
def Expr.ids : Expr → Ids
  | .literal _ _ => ∅
  | .var v _ => .ofVars [v]
  | .binary _ left right _ => left.ids ++ right.ids
  | .not e _ => e.ids
  | .array items _ => Expr.listIds items
  | .new c _ => .ofClasses [c]

/-- The variables and classes that some expressions name. -/
def Expr.listIds : List Expr → Ids
  | [] => ∅
  | e :: rest => e.ids ++ Expr.listIds rest

end

/-- What an action names. -/
def Action.ids : Action → Ids
  | .assign v e | .append v e => .ofVars [v] ++ e.ids
  | .echo e | .eval e | .throw e | .ret (some e) => e.ids
  | .ret none => ∅

/-- What a handler names. -/
def Handler.ids (h : Handler) : Ids :=
  .ofClasses [h.cls] ++ .ofVars h.var.toList ++ .ofBlocks [h.target]

/-- What an edge names. -/
def Edge.ids : Edge → Ids
  | .goto target => .ofBlocks [target]
  | .conditional condition ifTrue ifFalse => condition.ids ++ .ofBlocks [ifTrue, ifFalse]
  | .protect body handlers cleanup next =>
    .ofBlocks (body :: cleanup.toList ++ [next]) ++ .gather (handlers.map Handler.ids)
  | .foreach subject next => subject.ids ++ .ofBlocks [next]
  | .moveNext source value key body after =>
    .ofVars (value :: key.toList) ++ .ofBlocks [source, body, after]
  | .switch value cases default =>
    value.ids ++ .ofBlocks (cases.map Case.target ++ [default])

/-- What a block names. -/
def Block.ids (b : Block) : Ids :=
  .gather (b.statements.map (·.action.ids)) ++ .gather (b.edge.toList.map Edge.ids)

/-- What a routine names. -/
def Graph.ids (g : Graph) : Ids :=
  .gather (g.vars.map (·.encoding.ids)) ++ .gather (g.blocks.map Block.ids)

@[simp] theorem Expr.ids_withHint (h : Hint) (e : Expr) : (e.withHint h).ids = e.ids := by
  cases e <;> simp [withHint, ids]

/-- What a routine has, a larger one has as well. -/
theorem Ids.In.mono {u : Ids} {g g' : Graph} (h : u.In g) (hb : g.size ≤ g'.size)
    (hv : g.vars.length ≤ g'.vars.length) (hc : g.classes.length ≤ g'.classes.length) :
    u.In g' :=
  ⟨fun b h' => Nat.lt_of_lt_of_le (h.blocks b h') hb,
    fun v h' => Nat.lt_of_lt_of_le (h.vars v h') hv,
    fun c h' => Nat.lt_of_lt_of_le (h.classes c h') hc⟩

/-! ## Closed routines -/

namespace Graph

/-- No name is given twice, and the routine has everything that it names. -/
structure Closed (g : Graph) : Prop where
  blockNames : (g.blocks.map Block.name).Nodup
  varNames : (g.vars.map Variable.name).Nodup
  classNames : g.classes.Nodup
  ids : g.ids.In g

variable {g g' : Graph}

theorem Closed.block (h : g.Closed) {b : Block} (hb : b ∈ g.blocks) : b.ids.In g :=
  Ids.in_gather.mp (Ids.in_append.mp h.ids).2 _ (List.mem_map_of_mem hb)

/-- A statement of a closed routine names what the routine has. -/
theorem Closed.action (h : g.Closed) {b : Block} (hb : b ∈ g.blocks) {x : Stmt}
    (hx : x ∈ b.statements) : x.action.ids.In g :=
  Ids.in_gather.mp (Ids.in_append.mp (h.block hb)).1 _ (List.mem_map_of_mem hx)

/-- So does an edge. -/
theorem Closed.edge (h : g.Closed) {b : Block} (hb : b ∈ g.blocks) {e : Edge}
    (he : b.edge = some e) : e.ids.In g :=
  Ids.in_gather.mp (Ids.in_append.mp (h.block hb)).2 _ (by simp [he])

/-- In a closed routine a block is found by its name. -/
theorem Closed.successor (h : g.Closed) {b c : BlockId} {block : Block} {e : Edge}
    (hb : g.block? b = some block) (he : block.edge = some e) (hc : c ∈ e.successors) :
    c < g.size := by
  have hids := h.edge (List.mem_of_getElem? hb) he
  cases e with
  | goto target => exact hids.blocks c hc
  | conditional condition ifTrue ifFalse => exact (Ids.in_append.mp hids).2.blocks c hc
  | protect body handlers cleanup next =>
    obtain ⟨hblocks, hhandlers⟩ := Ids.in_append.mp hids
    have htargets : ∀ x ∈ handlers, x.target < g.size := fun x hx =>
      (Ids.in_append.mp (Ids.in_gather.mp hhandlers _ (List.mem_map_of_mem hx))).2.blocks _
        List.mem_cons_self
    simp only [Ids.in_ofBlocks] at hblocks
    simp only [Edge.successors] at hc
    grind
  | «foreach» subject next => exact (Ids.in_append.mp hids).2.blocks c hc
  | moveNext source value key body after =>
    exact (Ids.in_append.mp hids).2.blocks c (List.mem_cons_of_mem source hc)
  | switch value cases default => exact (Ids.in_append.mp hids).2.blocks c hc

/-- A block of a closed routine is found by its name. -/
theorem Closed.findBlock? (h : g.Closed) {i : BlockId} {b : Block} (hb : g.block? i = some b) :
    g.findBlock? b.name = some i := by
  obtain ⟨hi, rfl⟩ := List.getElem?_eq_some_iff.mp hb
  refine List.findIdx?_eq_some_iff_getElem.mpr ⟨hi, by simp, fun j hj => ?_⟩
  have hne := (List.nodup_iff_getElem?_ne_getElem?.mp h.blockNames) j i hj (by simpa using hi)
  have hj' : j < g.blocks.length := Nat.lt_trans hj hi
  simpa [hi, hj'] using hne

/-- Other blocks, not fewer of them, that name what the routine has. -/
theorem Closed.withBlocks (h : g.Closed) {blocks : List Block} (hsize : g.size ≤ blocks.length)
    (names : (blocks.map Block.name).Nodup) (ids : ∀ b ∈ blocks, b.ids.In g) :
    Closed { g with blocks } := by
  have grown {u : Ids} (hu : u.In g) : u.In { g with blocks } :=
    hu.mono hsize (Nat.le_refl _) (Nat.le_refl _)
  refine ⟨names, h.varNames, h.classNames, Ids.in_append.mpr ⟨?_, Ids.in_gather.mpr ?_⟩⟩
  · exact grown (Ids.in_append.mp h.ids).1
  · intro u hu
    obtain ⟨b, hb, rfl⟩ := List.mem_map.mp hu
    exact grown (ids b hb)

/-- A routine that has grown (module doc). -/
structure Extends (g g' : Graph) : Prop where
  blocks : g.size ≤ g'.size
  vars : g.vars.length ≤ g'.vars.length
  classes : g.classes.length ≤ g'.classes.length
  closed : g.Closed → g'.Closed

theorem Extends.refl (g : Graph) : g.Extends g := ⟨Nat.le_refl _, Nat.le_refl _, Nat.le_refl _, id⟩

theorem Extends.trans {g'' : Graph} (h : g.Extends g') (h' : g'.Extends g'') : g.Extends g'' :=
  ⟨Nat.le_trans h.blocks h'.blocks, Nat.le_trans h.vars h'.vars,
    Nat.le_trans h.classes h'.classes, h'.closed ∘ h.closed⟩

end Graph

/-- What is in range stays so when a routine grows. -/
theorem Ids.In.extends {u : Ids} {g g' : Graph} (h : u.In g) (hg : g.Extends g') : u.In g' :=
  h.mono hg.blocks hg.vars hg.classes

end Linearizer
