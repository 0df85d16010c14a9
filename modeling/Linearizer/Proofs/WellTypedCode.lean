import Linearizer.Proofs.Generator.Routine
import Linearizer.Proofs.StackDiscipline
import Linearizer.Proofs.Typing.Value

/-!
# Generated code is well typed

The functions of generation agree on the encodings of what they leave on the stack and find there,
so that every instruction of a listing finds entries of the shapes that it needs.

* the `*_types` lemmas are about statements and the straight-line parts of edges, the `*_finds`
  lemmas about those that tell where they have stored something;
* `Gen.typed` is the invariant: visits, scopes and regions start and end with an empty stack, a
  handler starts with an object and a conditional branch takes a truth value. `Gen.typed_kept` says
  that generation keeps it;
* `Graph.generate_well_typed` is the result for the listing of a routine.
-/

namespace Linearizer

theorem State.stored_unqueue (s : State) (b : BlockId) : (s.unqueue b).stored = s.stored := by
  unfold State.unqueue
  split <;> rfl

namespace Gen

variable {g g' : Graph} {known : List Encoding} {σ : List Shape}

/-! ## Statements and returns -/

theorem freshLabel_types : Types g known σ (fun _ => σ) freshLabel := fun _ typed =>
  ⟨typed.congr rfl rfl, trivial⟩

/-- The value goes to the caller, or through a local variable to the shared exit. -/
theorem returnTop_types : Types g known [.value] (fun _ => []) returnTop := by
  have leave {known : List Encoding} (shared : LocalId × Label)
      (declared : g.Declares known (.slot shared.1) .value) :
      Types g known [.value] (fun _ => []) (do
        put (.stloc shared.1)
        branch .leave shared.2) :=
    (stloc_types declared).bind fun _ => goto_types rfl shared.2
  unfold returnTop
  refine Finds.get_bind fun s typed => ?_
  by_cases hc : s.scopes.any (·.kind = .cleanup) = true
  · rw [if_pos hc]
    exact Finds.throw_bind _ _
  rw [if_neg hc]
  dsimp only
  by_cases hp : (!s.scopes.any (·.kind.isProtected)) = true
  · rw [if_pos hp]
    exact op_types rfl
  rw [if_neg hp]
  -- The shared exit has a local variable for tagged values, or gets one now.
  cases found : s.returnSlot with
  | some shared => exact leave shared (typed.returned found)
  | none =>
    refine (declare_finds .value).bind fun slot known' _ declared => ?_
    refine freshLabel_types.bind fun label => ?_
    refine Types.bind (keep_types declared (fun _ => rfl) fun s x hx => ?_) fun _ => ?_
    · grind [State.stored]
    · exact leave (slot, label) declared

theorem nullValue_types : Types g known σ (fun _ => .value :: σ) (call .nullValue) :=
  call_types rfl

/-- Falling off the end of a routine returns null. -/
theorem fallOff_types : Types g known [] (fun _ => []) (fallOff g') := by
  refine Finds.read (fun s => ⟨_, currentScope_run g' s⟩) fun scope => ?_
  split
  · exact op_types rfl
  · exact nullValue_types.bind fun _ => returnTop_types

/-- A statement starts and ends with an empty stack. -/
theorem action_types (x : Action) : Types g known [] (fun _ => []) (action x) := by
  cases x with
  | assign v e => exact assign_types v e
  | append v e => exact append_types v e
  | echo e => exact (expr_types e .string).bind fun _ => call_types rfl
  | eval e => exact (natural_types e known []).bind fun _ => op_types rfl
  | ret value =>
    cases value with
    | none => exact nullValue_types.bind fun _ => returnTop_types
    | some e => exact (expr_types e .value).bind fun _ => returnTop_types
  | throw e => exact (expr_types e (.object none)).bind fun _ => op_types rfl

theorem stmt_types (x : Stmt) : Types g known [] (fun _ => []) (stmt x) :=
  Types.bind (Types.modify (fun _ => rfl) fun _ => rfl) fun _ => action_types x.action

theorem exitBranch_types (b : BlockId) : Types g known [] (fun _ => []) (exitBranch b) := by
  refine Finds.read (fun s => ⟨s, get_run s⟩) fun s => ?_
  cases he : exitTo s.scopes b with
  | branch o =>
    refine goto_types ?_ (.block b)
    simpa [BranchOp.pops] using exitTo_pops he
  | endfinally => exact op_types rfl

/-! ## Parts of edges -/

/-- An item of an enumeration is a value and is stored as one. -/
theorem storeCurrent_types {slot : LocalId}
    (declared : g.Declares known (.slot slot) (.object none))
    {h : Helper} (hr : h.retype? (h.context ++ [.object]) = some [.value]) (v : VarId) :
    Types g known [] (fun _ => []) (storeCurrent slot h v) := by
  refine (ldloc_types declared).bind fun _ => Types.bind (call_types hr) fun _ => ?_
  exact (place_finds v).bind fun p known' _ place => storeTop_types place .value .any

/-- The enumerator is stored in a local variable for objects. -/
theorem acquire_finds (subject : Expr) :
    Finds g known [] (fun _ => [])
      (fun locals slot => g.Declares locals (.slot slot) (.object none)) (acquire subject) := by
  refine (expr_types subject .value).bind fun _ => Types.bind (call_types rfl) fun _ => ?_
  refine (declare_finds (.object none)).bind fun slot known' _ declared => ?_
  exact Types.bind (stloc_types declared) fun _ => slot_finds declared

theorem advance_types {slot : LocalId} (declared : g.Declares known (.slot slot) (.object none)) :
    Types g known [] (fun _ => [.int32]) (advance slot) :=
  (ldloc_types declared).bind fun _ => call_types rfl

theorem storeItem_types {slot : LocalId} (declared : g.Declares known (.slot slot) (.object none))
    (value : VarId) (key : Option VarId) :
    Types g known [] (fun _ => []) (storeItem slot value key) := by
  refine (storeCurrent_types declared rfl value).bind fun _ => ?_
  cases key with
  | none => exact Types.pure rfl
  | some k => exact storeCurrent_types declared rfl k

/-- How the value of a switch is held while it is compared. -/
def scratchEncoding (isInt : Bool) : Encoding := if isInt then .int64 else .value

/-- The value of a switch is stored in a local variable of its encoding. -/
theorem select_finds (value : Expr) :
    Finds g known [] (fun _ => [])
      (fun locals scratch =>
        g.Declares locals (.slot scratch) (scratchEncoding (value.hint = .only .int64)))
      (select value) := by
  have select_eq : select value = (do
      expr value (scratchEncoding (value.hint = .only .int64))
      let scratch ← temp (scratchEncoding (value.hint = .only .int64))
      put (.stloc scratch)
      return scratch) := by
    simp [select, scratchEncoding]
  rw [select_eq]
  refine (expr_types value _).bind fun _ => (temp_finds _).bind fun scratch known' _ declared => ?_
  exact Types.bind (stloc_types declared) fun _ => slot_finds declared

/-- A comparison leaves a truth value. -/
theorem compare_types {scratch : LocalId} {isInt : Bool}
    (declared : g.Declares known (.slot scratch) (scratchEncoding isInt)) (c : Case) :
    Types g known [] (fun _ => [.int32]) (compare scratch isInt c) := by
  have loose (l : Literal) : Types g known [.value] (fun _ => [.int32]) (do
      expr (.ofLiteral l) .value
      call .looseEquals) :=
    (expr_types _ .value).bind fun _ => call_types rfl
  unfold compare
  refine (ldloc_types declared).bind fun _ => ?_
  split
  · exact Types.bind (op_types rfl) fun _ => op_types rfl
  · -- A constant that is no integer is compared as a value, also with an integer.
    rename_i isInt _ _ _
    cases isInt with
    | true => exact (convert_types .int64 _ .value).bind fun _ => loose _
    | false => exact loose _

/-- The index into a table is stored as an integer, and the test of its range leaves a truth
value. -/
theorem tableIndex_finds (value : Expr) (range : TableRange) :
    Finds g known [] (fun _ => [.int32])
      (fun locals index => g.Declares locals (.slot index) .int64) (tableIndex value range) := by
  have rest : Finds g known [.int64] (fun _ => [.int32])
      (fun locals index => g.Declares locals (.slot index) .int64) (do
        let index ← temp .int64
        put (.stloc index)
        put (.ldloc index)
        op (.ldcI8 (.ofNat range.size))
        op .cltUn
        return index) := by
    refine (temp_finds .int64).bind fun index known' _ declared => ?_
    refine Types.bind (stloc_types declared) fun _ => Types.bind (ldloc_types declared) fun _ => ?_
    refine Types.bind (op_types rfl) fun _ => Types.bind (op_types rfl) fun _ => ?_
    exact slot_finds declared
  unfold tableIndex
  refine (expr_types value .int64).bind fun _ => ?_
  dsimp only
  split
  · exact Types.bind (op_types rfl) fun _ => Types.bind (op_types rfl) fun _ => rest
  · exact rest

theorem loadIndex_types {index : LocalId} (declared : g.Declares known (.slot index) .int64) :
    Types g known [] (fun _ => [.int32]) (loadIndex index) :=
  (ldloc_types declared).bind fun _ => op_types rfl

theorem jump_types (targets : List BlockId) :
    Types g known [.int32] (fun _ => []) (jump targets) :=
  (count_types _).bind fun _ => put_types .switch

/-- A handler takes the object that was caught. -/
theorem receive_types (h : Handler) : Types g known [.object] (fun _ => []) (receive h) := by
  unfold receive
  refine Types.bind (Types.modify (fun _ => rfl) fun _ => rfl) fun _ => ?_
  cases h.var with
  | none => exact op_types rfl
  | some v =>
    exact (place_finds v).bind fun p known' _ place =>
      storeTop_types place (.object (some h.cls)) (.only .object)

/-- A variable of the routine is stored where it is declared. -/
theorem declarePlace_types {v : Variable} (hv : v ∈ g.vars) :
    Types g known [] (fun _ => []) (declarePlace v) := by
  have keep {known : List Encoding} {storage : Storage}
      (declared : g.Declares known storage v.encoding) :
      Types g known [] (fun _ => []) (modify fun s =>
        { s with places := s.places ++ [⟨storage, v.encoding, v.hint⟩] } : Gen Unit) := by
    refine keep_types declared (fun _ => rfl) fun s x hx => ?_
    grind [State.stored]
  have slot : Finds g known [] (fun _ => [])
      (fun locals storage => g.Declares locals storage v.encoding)
      (Storage.slot <$> declare v.encoding) := fun _ typed => typed.declare v.encoding
  unfold declarePlace
  split
  · exact slot.bind fun storage known' _ declared => keep declared
  · rename_i home
    exact keep ⟨v, hv, home, rfl⟩
  · rename_i home
    exact keep ⟨v, hv, home, rfl, rfl⟩

/-- The exit that returns share loads a value and returns it. -/
theorem sharedReturn_types : Types g known [] (fun _ => []) sharedReturn := by
  refine Finds.get_bind fun s typed => ?_
  cases found : s.returnSlot with
  | none => exact Types.pure rfl
  | some shared =>
    refine Types.bind (put_types .label) fun _ => ?_
    exact (ldloc_types (typed.returned found)).bind fun _ => op_types rfl

/-! ## Generation -/

section Generation

variable {setting : Setting} {s : State} {calls : List Call}

/-- The stack is empty between blocks, and holds a truth value before a branch. At a point at least
the local variables of the index are declared. -/
def typed (setting : Setting) : Invariant setting where
  Index := List Encoding
  may _ _ := True
  rest _ known _ s := s.Typed setting.graph known []
  cond _ known _ s := s.Typed setting.graph known [.int32]
  inBlock _ known _ _ s := s.Typed setting.graph known []
  loop _ known _ _ s := s.Typed setting.graph known []
  owed _ known _ _ _ s := s.Typed setting.graph known []
  done _ known _ _ _ s := s.Typed setting.graph known []
  noted _ _ _ := True
  failed _ _ _ := True

/-- What code does to the types of the stack, as a step of the invariant. -/
theorem Types.leads {α : Type} {m : Gen α} {τ : List Shape}
    (h : Types setting.graph known σ (fun _ => τ) m) (hs : s.Typed setting.graph known σ) :
    (typed setting).Leads m (fun _ _ s => s.Typed setting.graph known τ) calls s :=
  (h s hs).mono (fun _ _ hs' => hs'.1) fun _ _ _ => trivial

/-- A scope that is opened or closed writes nothing and declares nothing. -/
theorem typed_opens {n : Nat} {kind : ScopeKind} {first hi : BlockId} :
    (typed setting).Opens n kind first hi (fun _ s => s.Typed setting.graph known [])
      fun _ s => s.Typed setting.graph known [] := by
  intro calls s hs
  have opened : (s.opened kind first hi).Typed setting.graph known [] := by
    refine hs.congr ?_ (State.stored_unqueue _ first)
    rw [State.tape_opened]
  refine ⟨known, trivial, opened, fun calls s outer hs _ => ?_⟩
  exact ⟨trivial, fun _ => hs.congr rfl rfl, fun _ => trivial⟩

/-- Labels and exits find an empty stack. -/
theorem typed_keepsVisits : (typed setting).KeepsVisits where
  note _ _ hs := ⟨trivial, hs⟩
  fails _ _ := trivial
  nesting _ := trivial
  grow hs := hs
  revisit {_ _ b _ s} _ _ _ hs := by
    have exited := exitBranch_types b
      { s with counters := { s.counters with backEdges := s.counters.backEdges + 1 } }
      (hs.congr rfl rfl)
    exact (exited.of_ok (exitBranch_run b _)).1
  enter {_ known _ b _ s} _ _ _ _ _ hs := by
    have unqueued : (s.unqueue b).Typed setting.graph known [] :=
      hs.congr (congrArg Tape.listing (s.tape_unqueue b)) (s.stored_unqueue b)
    exact (unqueued.put .label).congr rfl rfl
  exit {_ _ b _ s} _ _ _ _ hs := ((exitBranch_types b s hs).of_ok (exitBranch_run b s)).1
  claim {_ _ b _ s} _ _ _ _ _ hs :=
    hs.congr (congrArg Tape.listing (s.tape_unqueue b)) (s.stored_unqueue b)
  defer _ _ _ _ _ _ _ hs := hs.congr rfl rfl

/-- A branch takes a truth value. -/
theorem typed_keepsBranches : (typed setting).KeepsBranches where
  branch _ _ _ := ⟨trivial, fun _ _ => trivial⟩
  drop hs := hs.put (.op rfl)
  direct {_ _ _ target _ s} ho _ _ _ hs := (branch_types ho (.block target) s hs).1
  detour {_ known o _ _ s} ho _ _ _ hs := by
    have skip := branch_types (negate_isConditional ho) (.fresh s.nextLabel)
      { s with nextLabel := s.nextLabel + 1 } (hs.congr rfl rfl)
    exact ⟨known, trivial, skip.1, fun _ _ hs' => hs'.put .label⟩

theorem typed_keepsLoops : (typed setting).KeepsLoops := by
  refine .of_take rfl (fun _ => trivial) fun hn hs => ⟨trivial, ?_⟩
  obtain ⟨scope, outer, rest, -, -, rfl⟩ := nextPending_some hn
  exact hs.congr rfl rfl

/-- Statements and edges find what they need on the stack. -/
theorem typed_keepsBlocks : (typed setting).KeepsBlocks where
  statements _ hs := (Types.forM _ fun x _ => stmt_types x).leads hs
  leave hs := hs
  fallOff hs := fallOff_types.leads hs
  successor _ _ _ _ _ := trivial
  conditional {_ _ _ _ _ _ condition _ _} _ _ hs := (expr_types condition .bool).leads hs
  «foreach» {_ _ _ _ _ subject _ s} _ _ hs := by
    refine (acquire_finds subject s hs).mono (fun slot s₁ hs₁ => ?_) fun _ _ he => he
    -- What is stored is what was stored before, and the enumerator.
    refine hs₁.1.change rfl fun x hx => ?_
    have split : x ∈ s₁.stored ∨ x = (.slot slot, .object none) := by
      grind [State.stored]
    refine split.imp_right ?_
    rintro rfl
    exact hs₁.2
  moveNext {_ _ _ source _ _ value key _ _ s} _ _ hs := by
    cases hr : enumerator source s with
    | error e s' => exact MeetsFrom.to_error hr trivial
    | ok slot s' =>
      obtain ⟨found, rfl⟩ := enumerator_ok hr
      have declared := hs.enumerator found
      refine MeetsFrom.to_ok hr (((advance_types declared).leads hs.here).mono
        fun _ s₁ hs₁ => ⟨_, trivial, hs₁, fun calls s₂ hs₂ => ?_⟩)
      exact ((storeItem_types declared value key).leads hs₂).mono
        fun _ _ hs₃ => hs₃.forget hs.grows
  chain {_ _ _ _ value _ _ _ s} _ _ hs := by
    refine (select_finds value s hs).mono (fun scratch s₁ hs₁ => ?_) fun _ _ he => he
    refine ⟨s₁.locals, hs₁.1.here, fun c _ => ⟨trivial, fun calls s₂ hs₂ => ?_⟩, fun _ _ hs₂ => ?_⟩
    · exact (compare_types hs₁.2 c).leads hs₂
    · exact hs₂.forget hs₁.1.grows
  table {_ _ _ _ value _ range _ _ s} _ _ _ hs := by
    refine (tableIndex_finds value range s hs).mono (fun index s₁ hs₁ => ?_) fun _ _ he => he
    refine ⟨s₁.locals, trivial, hs₁.1.here, fun calls s₂ hs₂ => ?_⟩
    refine ((loadIndex_types hs₁.2).leads hs₂).mono fun _ s₃ hs₃ => ?_
    exact ((jump_types _).leads hs₃).mono fun _ _ hs₄ => hs₄.forget hs₁.1.grows

/-- A handler finds an object, the other parts of a region an empty stack. -/
theorem typed_keepsRegions : (typed setting).KeepsRegions where
  beginTry _ _ hs := hs.put .beginTry
  catches {_ _ _ _ _ _ _ _ h _ _ _ _} _ _ hs := (receive_types h).leads (hs.put .beginCatch)
  cleans hs := hs.put .beginFinally
  endTry hs := hs.put .endTry
  next_may _ _ := trivial
  opens _ := typed_opens

/-- Generation keeps code well typed. -/
theorem typed_kept : (typed setting).Kept :=
  { typed_keepsVisits, typed_keepsBranches, typed_keepsLoops, typed_keepsBlocks,
    typed_keepsRegions with }

/-- The code of a routine leads from the empty stack to the empty stack. -/
theorem routine_typed (hs : s.Typed setting.graph known []) :
    (typed setting).MeetsFrom (Journaled.routine setting)
      (fun _ _ s => s.Typed setting.graph known []) [] s :=
  typed_kept.routine_meets (fun _ => trivial)
    ((Types.forM _ fun _ hv => declarePlace_types hv).leads hs) (fun _ => typed_opens)
    fun _ _ hs => sharedReturn_types.leads hs

end Generation

end Gen

/-! ## Listings -/

theorem State.typed_start (g : Graph) (registry : Registry) :
    ({ registry } : State).Typed g [] [] :=
  ⟨List.nil_prefix, .nil, nofun⟩

/-- The listing of a routine whose variables have different names is well typed: from the empty
stack each of its elements finds what it needs, and the stack is empty at the end. Storage is
declared with a single encoding, unless parameters share a number. -/
theorem Graph.generate_well_typed {g : Graph} {options : Options} {registry : Registry}
    {l : Listing} (names : (g.vars.map Variable.name).Nodup)
    (h : (g.generate options registry).result = .ok l) :
    Flows (g.Declares l.locals.toList) [] l.insns.toList [] ∧
      ∀ storage e e', g.Declares l.locals.toList storage e →
        g.Declares l.locals.toList storage e' →
        e = e' ∨ ∃ i, storage = .argument i ∧
          ∃ v ∈ g.vars, ∃ w ∈ g.vars, v ≠ w ∧ v.home = .param i ∧ w.home = .param i := by
  refine ⟨?_, fun storage e e' => Declares.unique names⟩
  have run : (Gen.typed ⟨g, options⟩).MeetsFrom (Journaled.routine ⟨g, options⟩)
      (fun _ _ s => s.Typed g [] []) [] { registry } :=
    Gen.routine_typed (State.typed_start g registry)
  have accords := generate_accords run
  unfold Generation.result at h
  cases ho : (g.generate options registry).outcome with
  | error d =>
    rw [ho] at h
    cases h
  | ok c =>
    rw [ho] at h accords
    cases h
    rw [g.generate_listing options registry]
    obtain ⟨-, hs⟩ := accords
    exact hs.flows

/-- A routine that writes through an alias in a field of the context, appends to a buffer and keeps
the exception that a handler catches. -/
def Graph.ledger : Graph where
  name := "ledger"
  vars := [
    ⟨"total", .global, .alias, .any⟩,
    ⟨"rate", .param 0, .number, .number⟩,
    ⟨"log", .frame, .mstring, .only .string⟩,
    ⟨"cause", .global, .value, .any⟩]
  classes := ["Failure"]
  blocks := [
    ⟨"entry", false, [], some (.protect 1 [⟨0, some 3, 2⟩] none 3)⟩,
    ⟨"body", false,
      [⟨.assign 0 (.ofBinary (.arithmetic .add) (.var 1 .number) (.ofLiteral (.int 1))), none⟩,
       ⟨.append 2 (.var 1 .number), none⟩], some (.goto 3)⟩,
    ⟨"handler", false, [], some (.goto 3)⟩,
    ⟨"done", false, [⟨.ret (some (.var 0 .any)), none⟩], none⟩]

theorem Graph.ledger_well_typed : ∃ l, (ledger.generate {} {}).result = .ok l ∧
    (ledger.vars.map Variable.name).Nodup ∧ .op (.stfld "Value") ∈ l.insns ∧
    .ldloc 1 ∈ l.insns ∧ .beginCatch 0 ∈ l.insns ∧
    Flows (ledger.Declares l.locals.toList) [] l.insns.toList [] := by
  have hok : (ledger.generate {} {}).result = .ok (ledger.generate {} {}).listing :=
    Generation.result_of_isOk (by decide +kernel)
  have names : (ledger.vars.map Variable.name).Nodup := by decide
  have cell : .op (.stfld "Value") ∈ (ledger.generate {} {}).listing.insns := by decide +kernel
  have spilled : .ldloc 1 ∈ (ledger.generate {} {}).listing.insns := by decide +kernel
  have caught : .beginCatch 0 ∈ (ledger.generate {} {}).listing.insns := by decide +kernel
  exact ⟨_, hok, names, cell, spilled, caught, (generate_well_typed names hok).1⟩

end Linearizer
