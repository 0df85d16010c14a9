import Linearizer.Proofs.Generator.Contract
import Linearizer.Proofs.Generator.Emission
import Linearizer.Proofs.Generator.Journal
import Linearizer.Proofs.Region.Basic

/-!
# Invariants of generation

What is to hold throughout a generation is said for each kind of point that it passes, of the state
and of the calls that have been noted so far. Whether it does hold is a matter of the single things
that are done from one point to the next.

- **Points** (`Invariant`): between blocks, with a condition on the stack, inside a block, between
  the parts of a region. The assertions depend on an index, which is the same before and after a
  visit, and on how many visits there is still room for inside each other.
- **Runs** (`Invariant.Meets`): from a state with `P` a computation with a journal goes on to a
  result with `Q`, or fails, and all calls are noted as the invariant has it. The rules follow the
  combinators.
- **Steps** (`Invariant.Kept`): what the single steps have to keep, with a field for each of them.
-/

namespace Linearizer

/-- The block that is visited or scheduled by a call. -/
def Call.block? : Call → Option BlockId
  | .visit _ b | .schedule b | .enqueueOuter b => some b
  | .branchTo .. | .closeScope _ => none

/-- The edge of `b` runs a protected region, whose parts are in order. -/
structure Graph.Guards (g : Graph) (b body : BlockId) (handlers : List Handler)
    (cleanup : Option BlockId) (next : BlockId) : Prop where
  edge : ∃ block, g.block? b = some block ∧
    block.edge = some (.protect body handlers cleanup next)
  guarded : (handlers.isEmpty && cleanup.isNone) = false
  ascending : Gen.isAscending
    (body :: (handlers.map Handler.target ++ cleanup.toList ++ [next])) = true

/-- What is said of a state and of the calls that were noted before it, the last one first. -/
abbrev Assertion := List Call → State → Prop

/-- What is to hold at the points of a generation (module doc). -/
structure Invariant (setting : Setting) where
  /-- What the assertions depend on beside the state, such as the regions that are open. -/
  Index : Type
  /-- Which blocks may come next. -/
  may : Index → BlockId → Prop
  /-- Between blocks, with room for that many visits. -/
  rest (room : Nat) : Index → Assertion
  /-- The condition of a branch is on the stack. -/
  cond (room : Nat) : Index → Assertion
  /-- Inside a block, whose edge is to come. -/
  inBlock (room : Nat) : Index → BlockId → Assertion
  /-- Between the blocks that wait in a scope, of which at most `steps` are to come. -/
  loop (room : Nat) : Index → (steps : Nat) → Assertion
  /-- A part of a region has been marked and is to get its scope, with the parts after it. -/
  owed (room : Nat) : Index → Region → List Region → Assertion
  /-- The scope of a part of a region is closed, with the parts after it. -/
  done (room : Nat) : Index → Region → List Region → Assertion
  /-- Where a call is made. -/
  noted : Call → Assertion
  /-- What a failure leaves. -/
  failed : Fault → Assertion

namespace Invariant

variable {α β : Type} {setting : Setting} {I : Invariant setting} {calls : List Call} {s s₁ : State}

/-! ## Runs with a journal -/

/-- From the calls before it, a journal and what comes after it are as the invariant has it. -/
def Accords (I : Invariant setting) (Q : α → Assertion) :
    List Call → List Moment → EStateM.Result Fault State α → Prop
  | calls, [], .ok a s => Q a calls s
  | calls, [], .error e s => I.failed e calls s
  | calls, x :: rest, r => I.noted x.call calls x.state ∧ Accords I Q (x.call :: calls) rest r

/-- A single run with a journal (module doc). -/
def MeetsFrom (I : Invariant setting) (x : Journaled α) (Q : α → Assertion) : Assertion :=
  fun calls s => I.Accords Q calls (x s).1 (x s).2

/-- Runs with a journal (module doc). -/
def Meets (I : Invariant setting) (P : Assertion) (x : Journaled α) (Q : α → Assertion) : Prop :=
  ∀ calls s, P calls s → I.MeetsFrom x Q calls s

/-- A single run of a computation that notes nothing. -/
def Leads (I : Invariant setting) (m : Gen α) (Q : α → Assertion) : Assertion := fun calls s =>
  Gen.MeetsFrom m (fun a => Q a calls) (fun e => I.failed e calls) s

section Rules

variable {x : Journaled α} {f : α → Journaled β} {m : Gen α} {Q : α → Assertion} {T : β → Assertion}

/-- A run that goes on with another one accords with the invariant if both parts do. -/
theorem Accords.append {noted noted' : List Moment} {a : α} {r : EStateM.Result Fault State β}
    (h : I.Accords Q calls noted (.ok a s))
    (h' : ∀ calls, Q a calls s → I.Accords T calls noted' r) :
    I.Accords T calls (noted ++ noted') r := by
  induction noted generalizing calls with
  | nil => exact h' calls h
  | cons x rest ih => exact ⟨h.1, ih h.2⟩

theorem Accords.error {noted : List Moment} {e : Fault}
    (h : I.Accords Q calls noted (.error e s)) : I.Accords T calls noted (.error e s) := by
  induction noted generalizing calls with
  | nil => exact h
  | cons x rest ih => exact ⟨h.1, ih h.2⟩

theorem Accords.mono {Q' : α → Assertion} (hQ : ∀ a calls s, Q a calls s → Q' a calls s)
    {noted : List Moment} {r : EStateM.Result Fault State α} (h : I.Accords Q calls noted r) :
    I.Accords Q' calls noted r := by
  induction noted generalizing calls with
  | nil =>
    cases r with
    | ok a s => exact hQ a calls s h
    | error e s => exact h
  | cons x rest ih => exact ⟨h.1, ih h.2⟩

/-- What is said of the states that are noted. -/
theorem Accords.noted {noted : List Moment} {r : EStateM.Result Fault State α}
    (h : I.Accords Q calls noted r) : ∀ x ∈ noted, ∃ calls, I.noted x.call calls x.state := by
  induction noted generalizing calls with
  | nil => exact List.forall_mem_nil _
  | cons x rest ih => exact List.forall_mem_cons.mpr ⟨⟨calls, h.1⟩, ih h.2⟩

theorem Accords.of_ok {noted : List Moment} {a : α} (h : I.Accords Q calls noted (.ok a s)) :
    ∃ calls, Q a calls s := by
  induction noted generalizing calls with
  | nil => exact ⟨calls, h⟩
  | cons x rest ih => exact ih h.2

theorem Accords.of_error {noted : List Moment} {e : Fault}
    (h : I.Accords Q calls noted (.error e s)) : ∃ calls, I.failed e calls s := by
  induction noted generalizing calls with
  | nil => exact ⟨calls, h⟩
  | cons x rest ih => exact ih h.2

theorem Leads.mono {Q' : α → Assertion} (h : I.Leads m Q calls s)
    (hQ : ∀ a s, Q a calls s → Q' a calls s) : I.Leads m Q' calls s :=
  Gen.MeetsFrom.mono h hQ fun _ _ he => he

theorem MeetsFrom.pure {a : α} (h : Q a calls s) : I.MeetsFrom (pure a) Q calls s := h

theorem MeetsFrom.fail {e : Fault} {Q : Unit → Assertion} (h : I.failed e calls s) :
    I.MeetsFrom (liftM (Gen.fail e)) Q calls s := h

/-- What is lifted into a journal notes nothing. -/
theorem MeetsFrom.lift (h : I.Leads m Q calls s) : I.MeetsFrom (liftM m) Q calls s := by
  have hm : Gen.MeetsFrom m (fun a => Q a calls) (fun e => I.failed e calls) s := h
  change I.Accords Q calls [] (m s)
  cases hr : m s with
  | ok a s' => exact hm.of_ok hr
  | error e s' => exact hm.of_error hr

/-- One thing after the other. -/
theorem MeetsFrom.bind (h : I.MeetsFrom x Q calls s)
    (hf : ∀ a calls s₁, (x s).2 = .ok a s₁ → Q a calls s₁ → I.MeetsFrom (f a) T calls s₁) :
    I.MeetsFrom (x >>= f) T calls s := by
  have hx : I.Accords Q calls (x s).1 (x s).2 := h
  change I.Accords T calls (Journaled.bind x f s).1 (Journaled.bind x f s).2
  unfold Journaled.bind
  cases hr : x s with
  | mk noted r =>
    rw [hr] at hx
    cases r with
    | ok a s₁ => exact hx.append fun calls hq => hf a calls s₁ (by rw [hr]) hq
    | error e s₁ => exact hx.error

/-- A call is noted first. -/
theorem MeetsFrom.note {c : Call} {f : Unit → Journaled β} (h : I.noted c calls s)
    (hf : I.MeetsFrom (f ()) T (c :: calls) s) : I.MeetsFrom (note c >>= f) T calls s := ⟨h, hf⟩

/-- A first part that notes nothing. -/
theorem MeetsFrom.step (h : I.Leads m Q calls s)
    (hf : ∀ a s₁, m s = .ok a s₁ → Q a calls s₁ → I.MeetsFrom (f a) T calls s₁) :
    I.MeetsFrom (liftM m >>= f) T calls s := by
  have hm : I.MeetsFrom (liftM m) (fun a calls' s₁ => calls' = calls ∧ Q a calls s₁) calls s :=
    .lift (Gen.MeetsFrom.mono h (fun _ _ hq => ⟨rfl, hq⟩) fun _ _ he => he)
  refine hm.bind fun a calls' s₁ hr hq => ?_
  obtain ⟨rfl, hq⟩ := hq
  exact hf a s₁ hr hq

/-- A first part that notes nothing and returns. -/
theorem MeetsFrom.run {a : α} (hr : m s = .ok a s₁) (h : I.MeetsFrom (f a) T calls s₁) :
    I.MeetsFrom (liftM m >>= f) T calls s := by
  refine .step (Q := fun a' _ s' => a' = a ∧ s' = s₁) (Gen.MeetsFrom.to_ok hr ⟨rfl, rfl⟩)
    fun a' s' _ hq => ?_
  obtain ⟨rfl, rfl⟩ := hq
  exact h

theorem MeetsFrom.mono {Q' : α → Assertion} (h : I.MeetsFrom x Q calls s)
    (hQ : ∀ a calls s, Q a calls s → Q' a calls s) : I.MeetsFrom x Q' calls s := Accords.mono hQ h

/-- What is left of a contract without the journal. -/
theorem MeetsFrom.erase (h : I.MeetsFrom x Q calls s) :
    Gen.MeetsFrom (Journaled.erase x) (fun a s => ∃ calls, Q a calls s)
      (fun e s => ∃ calls, I.failed e calls s) s := by
  have hx : I.Accords Q calls (x s).1 (x s).2 := h
  cases hr : Journaled.erase x s with
  | ok a s₁ =>
    rw [show (x s).2 = .ok a s₁ from hr] at hx
    exact .to_ok hr hx.of_ok
  | error e s₁ =>
    rw [show (x s).2 = .error e s₁ from hr] at hx
    exact .to_error hr hx.of_error

/-- A loop whose rounds keep an assertion keeps it. -/
theorem Meets.forM {γ : Type} {P : Assertion} {f : γ → Journaled Unit} (l : List γ)
    (h : ∀ x ∈ l, I.Meets P (f x) fun _ => P) : I.Meets P (l.forM f) fun _ => P := by
  induction l with
  | nil => exact fun _ _ hs => hs
  | cons x l ih =>
    obtain ⟨hx, hl⟩ := List.forall_mem_cons.mp h
    exact fun calls s hs => (hx calls s hs).bind fun _ calls s _ hs => ih hl calls s hs

end Rules

/-! ## Steps -/

/-- The faults of the schedule: a block that may come next is missing, or the layout of the blocks
does not allow for what is to be written. -/
def Raises (I : Invariant setting) (i : I.Index) : Fault → Prop
  | .danglingBlock b => I.may i b ∧ setting.graph.block? b = none
  | .scopeViolation .. | .unguarded | .disordered _ => True
  | _ => False

/-- A scope can be opened where `P` holds, and `Q` holds when it has been closed. -/
def Opens (I : Invariant setting) (n : Nat) (kind : ScopeKind) (first hi : BlockId)
    (P Q : Assertion) : Prop :=
  ∀ calls s, P calls s → ∃ i, I.may i first ∧ I.rest n i calls (s.opened kind first hi) ∧
    ∀ calls s outer, I.rest n i calls s → s.scopes = ⟨kind, first, hi, []⟩ :: outer →
      I.noted (.closeScope kind) calls s ∧
        (s.tape.depth = 0 → Q (.closeScope kind :: calls) { s with scopes := outer }) ∧
        (s.tape.depth ≠ 0 → I.failed (.imbalance s.tape.depth kind) (.closeScope kind :: calls)
          { s with scopes := outer })

section Steps

open Gen

variable (I : Invariant setting)

/-- Calls, visits and blocks that come to wait. -/
structure KeepsVisits : Prop where
  /-- Calls that name a block are made between blocks. -/
  note {c : Call} {b : BlockId} {n : Nat} {i : I.Index} {calls : List Call} {s : State} :
    c.block? = some b → I.may i b → I.rest n i calls s →
      I.noted c calls s ∧ I.rest n i (c :: calls) s
  fails {n : Nat} {i : I.Index} {e : Fault} {calls : List Call} {s : State} :
    I.Raises i e → I.rest n i calls s → I.failed e calls s
  nesting {i : I.Index} {calls : List Call} {s : State} :
    I.rest 0 i calls s → I.failed .nesting calls s
  grow {n : Nat} {i : I.Index} {calls : List Call} {s : State} :
    I.rest n i calls s → I.rest (n + 1) i calls s
  revisit {n : Nat} {i : I.Index} {b : BlockId} {calls : List Call} {s : State} :
    I.may i b → b < setting.graph.size → b ∈ s.emitted → I.rest n i calls s →
      I.rest n i calls (s.revisited b)
  enter {n : Nat} {i : I.Index} {viaEdge : Bool} {b : BlockId} {calls : List Call} {s : State} :
    .visit viaEdge b ∈ calls → I.may i b → setting.graph.isLive b = true → b ∉ s.emitted →
      (s.innermost setting.graph).contains b = true → I.rest (n + 1) i calls s →
      I.inBlock n i b calls (s.entered viaEdge b)
  exit {n : Nat} {i : I.Index} {b : BlockId} {calls : List Call} {s : State} :
    I.may i b → setting.graph.isLive b = true → b ∉ s.emitted →
      (s.innermost setting.graph).hi ≤ b → I.rest n i calls s → I.rest n i calls (s.exited b)
  claim {n : Nat} {i : I.Index} {b : BlockId} {calls : List Call} {s : State} :
    .schedule b ∈ calls → I.may i b → setting.graph.isLive b = true → b ∉ s.emitted →
      (s.innermost setting.graph).contains b = true → I.rest n i calls s →
      I.rest n i calls (s.claimed b)
  defer {n : Nat} {i : I.Index} {b : BlockId} {outer : List Scope} {calls : List Call} {s : State} :
    .enqueueOuter b ∈ calls → I.may i b → setting.graph.isLive b = true → b ∉ s.emitted →
      (s.innermost setting.graph).contains b = false → b ∉ s.queued →
      enqueueIn b s.scopes.tail = some outer → I.rest n i calls s →
      I.rest n i calls (s.deferred b outer)

/-- Conditional branches. -/
structure KeepsBranches : Prop where
  branch {n : Nat} {i : I.Index} {o : BranchOp} {target : BlockId} {calls : List Call} {s : State} :
    o.isConditional = true → I.may i target → I.cond n i calls s →
      I.noted (.branchTo o target) calls s ∧
        ∀ e, I.Raises i e → I.failed e (.branchTo o target :: calls) s
  drop {n : Nat} {i : I.Index} {o : BranchOp} {target : BlockId} {calls : List Call} {s : State} :
    I.cond n i calls s → I.rest n i (.branchTo o target :: calls) (s.written (.op .pop))
  direct {n : Nat} {i : I.Index} {o : BranchOp} {target : BlockId} {calls : List Call} {s : State} :
    o.isConditional = true → I.may i target → setting.graph.isLive target = true →
      (s.innermost setting.graph).contains target = true → I.cond n i calls s →
      I.rest n i (.branchTo o target :: calls) (s.branched o (.block target))
  detour {n : Nat} {i : I.Index} {o : BranchOp} {target : BlockId} {calls : List Call} {s : State} :
    o.isConditional = true → I.may i target → setting.graph.isLive target = true →
      (s.innermost setting.graph).contains target = false → I.cond n i calls s →
      ∃ j, I.may j target ∧ I.rest n j (.branchTo o target :: calls) (s.skipped o.negate) ∧
        ∀ calls s', I.rest n j calls s' →
          I.rest n i calls (s'.written (.label (.fresh s.nextLabel)))

/-- Blocks that wait in a scope. -/
structure KeepsLoops : Prop where
  start {n : Nat} {i : I.Index} {calls : List Call} {s : State} :
    I.rest n i calls s → I.loop n i (setting.graph.size + 1) calls s
  stuck {n : Nat} {i : I.Index} {calls : List Call} {s : State} :
    I.loop n i 0 calls s → I.failed .nesting calls s
  drained {n k : Nat} {i : I.Index} {calls : List Call} {s : State} :
    I.loop n i k calls s → I.rest n i calls s
  skip {n k : Nat} {i : I.Index} {b : BlockId} {calls : List Call} {s s₁ : State} :
    nextPending s = .ok (some b) s₁ → b ∈ s₁.emitted → I.loop n i (k + 1) calls s →
      I.loop n i k calls s₁
  next {n k : Nat} {i : I.Index} {b : BlockId} {calls : List Call} {s s₁ : State} :
    nextPending s = .ok (some b) s₁ → b ∉ s₁.emitted → I.loop n i (k + 1) calls s →
      I.may i b ∧ I.rest n i calls s₁ ∧
        ∀ calls s₂, Emits setting (.visit false b) s₁ s₂ → I.rest n i calls s₂ →
          I.loop n i k calls s₂

/-- Blocks and edges. -/
structure KeepsBlocks : Prop where
  statements {n : Nat} {i : I.Index} {b : BlockId} {block : Block} {calls : List Call} {s : State} :
    setting.graph.block? b = some block → I.inBlock n i b calls s →
      I.Leads (block.statements.forM stmt) (fun _ => I.inBlock n i b) calls s
  leave {n : Nat} {i : I.Index} {b : BlockId} {calls : List Call} {s : State} :
    I.inBlock n i b calls s → I.rest n i calls s
  fallOff {n : Nat} {i : I.Index} {b : BlockId} {calls : List Call} {s : State} :
    I.inBlock n i b calls s → I.Leads (fallOff setting.graph) (fun _ => I.rest n i) calls s
  successor {n : Nat} {i : I.Index} {b c : BlockId} {block : Block} {e : Edge} {calls : List Call}
      {s : State} : setting.graph.block? b = some block → block.edge = some e →
    e.regions b = [] → c ∈ e.successors → I.inBlock n i b calls s → I.may i c
  conditional {n : Nat} {i : I.Index} {b ifTrue ifFalse : BlockId} {block : Block}
      {condition : Expr} {calls : List Call} {s : State} :
    setting.graph.block? b = some block →
      block.edge = some (.conditional condition ifTrue ifFalse) → I.inBlock n i b calls s →
      I.Leads (expr condition .bool) (fun _ => I.cond n i) calls s
  «foreach» {n : Nat} {i : I.Index} {b next : BlockId} {block : Block} {subject : Expr}
      {calls : List Call} {s : State} :
    setting.graph.block? b = some block → block.edge = some (.foreach subject next) →
      I.inBlock n i b calls s →
      I.Leads (acquire subject) (fun slot calls s₁ =>
        I.rest n i calls { s₁ with enumerators := (b, slot) :: s₁.enumerators }) calls s
  moveNext {n : Nat} {i : I.Index} {b source body after : BlockId} {value : VarId}
      {key : Option VarId} {block : Block} {calls : List Call} {s : State} :
    setting.graph.block? b = some block →
      block.edge = some (.moveNext source value key body after) → I.inBlock n i b calls s →
      I.Leads (enumerator source) (fun slot =>
        I.Leads (advance slot) fun _ calls s₁ => ∃ j, I.may j after ∧ I.cond n j calls s₁ ∧
          ∀ calls s₂, I.rest n j calls s₂ →
            I.Leads (storeItem slot value key) (fun _ => I.rest n i) calls s₂) calls s
  chain {n : Nat} {i : I.Index} {b default : BlockId} {value : Expr} {cases : List Case}
      {block : Block} {calls : List Call} {s : State} :
    setting.graph.block? b = some block → block.edge = some (.switch value cases default) →
      I.inBlock n i b calls s →
      I.Leads (select value) (fun scratch calls s₁ => ∃ j, I.rest n j calls s₁ ∧
        (∀ c ∈ cases, I.may j c.target ∧ ∀ calls s₂, I.rest n j calls s₂ →
          I.Leads (compare scratch (value.hint = .only .int64) c) (fun _ => I.cond n j) calls s₂) ∧
        ∀ calls s₂, I.rest n j calls s₂ → I.rest n i calls s₂) calls s
  table {n : Nat} {i : I.Index} {b default : BlockId} {value : Expr} {cases : List Case}
      {range : TableRange} {block : Block} {calls : List Call} {s : State} :
    setting.graph.block? b = some block → block.edge = some (.switch value cases default) →
      TableRange.ofCases? setting.options (s.innermost setting.graph) value cases default =
        some range → I.inBlock n i b calls s →
      I.Leads (tableIndex value range) (fun index calls s₁ => ∃ j, I.may j default ∧
        I.cond n j calls s₁ ∧ ∀ calls s₂, I.rest n j calls s₂ →
          I.Leads (loadIndex index) (fun _ =>
            I.Leads (jump (range.targets setting.graph cases default)) fun _ => I.rest n i)
            calls s₂) calls s

/-- Protected regions. -/
structure KeepsRegions : Prop where
  beginTry {n : Nat} {i : I.Index} {b body next : BlockId} {handlers : List Handler}
      {cleanup : Option BlockId} {r : Region} {parts : List Region} {calls : List Call}
      {s : State} : setting.graph.Guards b body handlers cleanup next →
    setting.graph.regionsOf b = r :: parts → I.inBlock n i b calls s →
      I.owed n i r parts calls (s.written .beginTry)
  catches {n : Nat} {i : I.Index} {b body next hi : BlockId} {handlers : List Handler}
      {cleanup : Option BlockId} {h : Handler} {r : Region} {parts : List Region}
      {calls : List Call} {s : State} : setting.graph.Guards b body handlers cleanup next →
    h ∈ handlers → I.done n i r (⟨b, .handler h.cls, h.target, hi⟩ :: parts) calls s →
      I.Leads (receive h) (fun _ => I.owed n i ⟨b, .handler h.cls, h.target, hi⟩ parts) calls
        (s.written (.beginCatch h.cls))
  cleans {n : Nat} {i : I.Index} {b first next : BlockId} {r : Region} {parts : List Region}
      {calls : List Call} {s : State} :
    I.done n i r (⟨b, .cleanup, first, next⟩ :: parts) calls s →
      I.owed n i ⟨b, .cleanup, first, next⟩ parts calls (s.written .beginFinally)
  endTry {n : Nat} {i : I.Index} {r : Region} {calls : List Call} {s : State} :
    I.done n i r [] calls s → I.rest n i calls (s.written .endTry)
  next_may {n : Nat} {i : I.Index} {b body next : BlockId} {handlers : List Handler}
      {cleanup : Option BlockId} {calls : List Call} {s : State} :
    setting.graph.Guards b body handlers cleanup next → I.inBlock n i b calls s → I.may i next
  opens {n : Nat} {i : I.Index} {r : Region} {parts : List Region} :
    r.lo < r.hi → I.Opens n r.part.kind r.lo r.hi (I.owed n i r parts) (I.done n i r parts)

/-- Every step keeps the invariant (module doc). -/
structure Kept : Prop extends KeepsVisits I, KeepsBranches I, KeepsLoops I, KeepsBlocks I,
  KeepsRegions I

end Steps

end Invariant
end Linearizer
