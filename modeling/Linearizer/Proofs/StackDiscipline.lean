import Linearizer.Proofs.Generator.Routine
import Linearizer.Proofs.Stack.Value

/-!
# The discipline of the evaluation stack

The code of a block takes from the stack all that it puts there, so that the stack is empty wherever
a block, a region or a branch starts or ends, and no scope is ever closed with entries on the stack.

* the `*_shifts` lemmas say how statements and the straight-line parts of edges change the depth of
  the stack;
* `Gen.settled` is the invariant: visits, scopes and regions start and end with an empty stack, and
  a conditional branch takes its condition. `Gen.settled_kept` says that generation keeps it;
* `Graph.generate_keeps_stack` is the result for the listing of any routine, up to where generation
  may have failed, and for every state that generation is seen in.
-/

namespace Linearizer
namespace Gen

variable {g : Graph}

/-! ## Statements and returns -/

/-- A conditional branch takes its condition, any other takes nothing. -/
theorem branch_shifts (o : BranchOp) (target : Label) : Shifts o.pops 0 (branch o target) := by
  refine (count_shifts _).bind fun _ => put_shifts rfl ?_
  simp [Insn.settle?, Insn.effect?, Effect.after?]

theorem freshLabel_shifts {a : Nat} : Shifts a a freshLabel := fun _ hs => hs

/-- The value goes to the caller, or through a local variable to the shared exit. -/
theorem returnTop_shifts : Shifts 1 0 returnTop := by
  have leave (shared : LocalId × Label) : Shifts 1 0 (do
      put (.stloc shared.1)
      branch .leave shared.2) :=
    (stloc_shifts shared.1).bind fun _ => branch_shifts .leave shared.2
  unfold returnTop
  refine Shifts.get_bind fun s => ?_
  by_cases hc : s.scopes.any (·.kind = .cleanup) = true
  · rw [if_pos hc]
    exact Shifts.throw_bind (by simp) _
  rw [if_neg hc]
  dsimp only
  by_cases hp : (!s.scopes.any (·.kind.isProtected)) = true
  · rw [if_pos hp]
    exact op_shifts .ret
  rw [if_neg hp]
  cases s.returnSlot with
  | some shared => exact leave shared
  | none =>
    refine (declare_shifts .value).bind fun slot => freshLabel_shifts.bind fun label => ?_
    exact (Shifts.modify fun _ => rfl).bind fun _ => leave (slot, label)

theorem nullValue_shifts {k : Nat} : Shifts k (k + 1) (call .nullValue) :=
  call_shifts .nullValue (n := 0) rfl

/-- A routine or region that control falls off from ends with an empty stack. -/
theorem fallOff_shifts : Shifts 0 0 (fallOff g) := fun s hs => by
  refine MeetsFrom.read (currentScope_run g s) ?_
  split
  · exact op_shifts .endfinally s hs
  · exact (nullValue_shifts.bind fun _ => returnTop_shifts) s hs

/-- A statement leaves the stack as it was. -/
theorem action_shifts (x : Action) : Shifts 0 0 (action x) := by
  cases x with
  | assign v e => exact assign_shifts v e
  | append v e => exact append_shifts v e
  | echo e => exact (expr_shifts e _).bind fun _ => call_shifts .echo (n := 1) rfl
  | eval e => exact (natural_shifts 0 e).bind fun _ => op_shifts .pop
  | ret value =>
    cases value with
    | none => exact nullValue_shifts.bind fun _ => returnTop_shifts
    | some e => exact (expr_shifts e _).bind fun _ => returnTop_shifts
  | throw e => exact (expr_shifts e _).bind fun _ => op_shifts .throw

theorem stmt_shifts (x : Stmt) : Shifts 0 0 (stmt x) := by
  refine Shifts.bind (b := 0) ?_ fun _ => action_shifts x.action
  exact Shifts.modify fun _ => rfl

/-- No branch out of a scope is conditional. -/
theorem exitTo_pops {scopes : List Scope} {b : BlockId} {o : BranchOp}
    (h : exitTo scopes b = .branch o) : o.pops = 0 := by
  unfold exitTo at h
  split at h
  · cases h
    rfl
  · split at h
    · cases h
    · split at h <;> cases h <;> rfl

theorem exitBranch_shifts (b : BlockId) : Shifts 0 0 (exitBranch b) := by
  refine Shifts.get_bind fun s => ?_
  cases he : exitTo s.scopes b with
  | branch o =>
    have hbranch := branch_shifts o (.block b)
    rw [exitTo_pops he] at hbranch
    exact hbranch
  | endfinally => exact op_shifts .endfinally

/-! ## Parts of edges -/

/-- An item of an enumeration is put on the stack and stored. -/
theorem storeCurrent_shifts (slot : LocalId) {h : Helper} (hn : h.arity = 1 + h.needsContext.toNat)
    (hr : h.returns = true) (v : VarId) : Shifts 0 0 (storeCurrent slot h v) := by
  have hcall := call_shifts (k := 0) h hn
  rw [hr] at hcall
  refine (ldloc_shifts slot).bind fun _ => hcall.bind fun _ => ?_
  exact (place_shifts v).bind fun p => storeTop_shifts p _ _

theorem acquire_shifts (subject : Expr) : Shifts 0 0 (acquire subject) := by
  refine (expr_shifts subject _).bind fun _ => ?_
  refine (call_shifts .getEnumerator (n := 1) rfl).bind fun _ => ?_
  refine (declare_shifts _).bind fun slot => (stloc_shifts slot).bind fun _ => ?_
  exact Shifts.pure slot

theorem enumerator_shifts {a : Nat} (source : BlockId) : Shifts a a (enumerator source) := by
  refine Shifts.get_bind fun s => ?_
  split
  · exact Shifts.pure _
  · exact Shifts.throw nofun

theorem advance_shifts (slot : LocalId) : Shifts 0 1 (advance slot) :=
  (ldloc_shifts slot).bind fun _ => call_shifts .moveNext (n := 1) rfl

theorem storeItem_shifts (slot : LocalId) (value : VarId) (key : Option VarId) :
    Shifts 0 0 (storeItem slot value key) := by
  refine (storeCurrent_shifts slot rfl rfl value).bind fun _ => ?_
  cases key with
  | none => exact Shifts.pure ()
  | some k => exact storeCurrent_shifts slot rfl rfl k

theorem select_shifts (value : Expr) : Shifts 0 0 (select value) := by
  refine (expr_shifts value _).bind fun _ => (temp_shifts _).bind fun scratch => ?_
  exact (stloc_shifts scratch).bind fun _ => Shifts.pure scratch

/-- A comparison leaves its result on the stack. -/
theorem compare_shifts (scratch : LocalId) (isInt : Bool) (c : Case) :
    Shifts 0 1 (compare scratch isInt c) := by
  have loose (l : Literal) : Shifts 1 1 (do
      expr (.ofLiteral l) .value
      call .looseEquals) :=
    (expr_shifts (k := 1) _ _).bind fun _ => call_shifts .looseEquals (n := 2) rfl
  unfold compare
  refine (ldloc_shifts scratch).bind fun _ => ?_
  split
  · exact (op_shifts (.ldcI8 _)).bind fun _ => op_shifts .ceq
  · split
    · exact (convert_shifts _ _ _).bind fun _ => loose _
    · exact loose _

/-- The test of an index leaves its result on the stack. -/
theorem tableIndex_shifts (value : Expr) (range : TableRange) :
    Shifts 0 1 (tableIndex value range) := by
  have rest : Shifts 1 1 (do
      let index ← temp .int64
      put (.stloc index)
      put (.ldloc index)
      op (.ldcI8 (.ofNat range.size))
      op .cltUn
      return index) := by
    refine (temp_shifts _).bind fun index => (stloc_shifts (k := 0) index).bind fun _ => ?_
    refine (ldloc_shifts index).bind fun _ => (op_shifts (.ldcI8 _)).bind fun _ => ?_
    exact (op_shifts .cltUn).bind fun _ => Shifts.pure index
  unfold tableIndex
  refine (expr_shifts value _).bind fun _ => ?_
  dsimp only
  split
  · exact (op_shifts (.ldcI8 _)).bind fun _ => (op_shifts .sub).bind fun _ => rest
  · exact rest

theorem loadIndex_shifts (index : LocalId) : Shifts 0 1 (loadIndex index) :=
  (ldloc_shifts index).bind fun _ => op_shifts .convI4

theorem jump_shifts (targets : List BlockId) : Shifts 1 0 (jump targets) :=
  (count_shifts _).bind fun _ => put_shifts rfl rfl

/-- The code of a handler starts with the exception on the stack. -/
theorem receive_settled (h : Handler) {s : State} (hs : s.tape.Settled 0) :
    MeetsFrom (receive h) (fun _ s' => s'.tape.Settled 0) Stopped
      (s.written (.beginCatch h.cls)) := by
  have caught : ((s.written (.beginCatch h.cls)).tape.assume 1).Settled 1 :=
    hs.follow (i := .beginCatch h.cls) rfl
  unfold receive
  refine .of_run (run_bind (modify_run _ _) _) ?_
  cases h.var with
  | some v => exact ((place_shifts v).bind fun p => storeTop_shifts p _ _) _ caught
  | none => exact op_shifts (k := 0) .pop _ caught

theorem declarePlace_shifts (v : Variable) : Shifts 0 0 (declarePlace v) := by
  have place {m : Gen Storage} (h : Shifts 0 0 m) : Shifts 0 0 (do
      let storage ← m
      modify fun s => { s with places := s.places ++ [⟨storage, v.encoding, v.hint⟩] }) :=
    h.bind fun _ => Shifts.modify fun _ => rfl
  unfold declarePlace
  split
  · exact place ((declare_shifts _).bind fun _ => Shifts.pure _)
  · exact place (Shifts.pure _)
  · exact place (Shifts.pure _)

theorem sharedReturn_shifts : Shifts 0 0 sharedReturn := by
  refine Shifts.get_bind fun s => ?_
  split
  · refine (put_shifts rfl rfl).bind fun _ => (ldloc_shifts _).bind fun _ => ?_
    exact op_shifts .ret
  · exact Shifts.pure ()

/-! ## Generation -/

variable {setting : Setting} {calls : List Call} {s : State}

/-- The stack is empty between blocks and between the parts of a region, and holds the condition
before a branch. -/
def settled (setting : Setting) : Invariant setting where
  Index := Unit
  may _ _ := True
  rest _ _ _ s := s.tape.Settled 0
  cond _ _ _ s := s.tape.Settled 1
  inBlock _ _ _ _ s := s.tape.Settled 0
  loop _ _ _ _ s := s.tape.Settled 0
  owed _ _ _ _ _ s := s.tape.Settled 0
  done _ _ _ _ _ s := s.tape.Settled 0
  noted _ _ s := ∃ n, s.tape.Settled n
  failed e _ s := Stopped e s

/-- No fault of the schedule is about the stack. -/
theorem settled_fails {n : Nat} {e : Fault} (he : (settled setting).Raises () e)
    (hs : s.tape.Settled n) : Stopped e s := by
  refine ⟨?_, n, hs⟩
  rintro depth kind rfl
  exact he

/-- A scope is closed with an empty stack. -/
theorem settled_opens {n : Nat} {kind : ScopeKind} {first hi : BlockId} :
    (settled setting).Opens n kind first hi (fun _ s => s.tape.Settled 0)
      fun _ s => s.tape.Settled 0 := by
  intro calls s hs
  have opened : (s.opened kind first hi).tape.Settled 0 := by
    rwa [State.tape_opened]
  refine ⟨(), trivial, opened, fun calls s outer hs _ => ?_⟩
  exact ⟨⟨0, hs⟩, fun _ => hs, fun hd => absurd hs.depth hd⟩

/-- Labels and exits keep the stack empty. -/
theorem settled_keepsVisits : (settled setting).KeepsVisits where
  note _ _ hs := ⟨⟨0, hs⟩, hs⟩
  fails he hs := settled_fails he hs
  nesting hs := ⟨by simp, 0, hs⟩
  grow hs := hs
  revisit {_ _ b _ s} _ _ _ hs := by
    have exited := exitBranch_shifts b
      { s with counters := { s.counters with backEdges := s.counters.backEdges + 1 } } hs
    exact exited.of_ok (exitBranch_run b _)
  enter {_ _ _ b _ s} _ _ _ _ _ hs := by
    have label : ((s.unqueue b).tape.put (.label (.block b))).Settled 0 := by
      rw [s.tape_unqueue]
      exact hs.put rfl rfl
    exact label
  exit {_ _ b _ s} _ _ _ _ hs := (exitBranch_shifts b s hs).of_ok (exitBranch_run b s)
  claim {_ _ b _ s} _ _ _ _ _ hs := by
    have unqueued : (s.unqueue b).tape.Settled 0 := by
      rwa [s.tape_unqueue]
    exact unqueued
  defer _ _ _ _ _ _ _ hs := hs

/-- A branch takes the condition, whether it stays in the scope or jumps over an exit. -/
theorem settled_keepsBranches : (settled setting).KeepsBranches where
  branch _ _ hs := ⟨⟨1, hs⟩, fun _ he => settled_fails he hs⟩
  drop {_ _ _ _ _ s} hs := op_shifts (k := 0) .pop s hs
  direct {_ _ o target _ s} ho _ _ _ hs := by
    have taken := branch_shifts o (.block target)
    rw [BranchOp.pops, ho] at taken
    exact taken s hs
  detour {_ _ o _ _ s} ho _ _ _ hs := by
    have taken := branch_shifts o.negate (.fresh s.nextLabel)
    rw [BranchOp.pops, negate_isConditional ho] at taken
    have skip : (s.skipped o.negate).tape.Settled 0 :=
      -- The branch is turned round, so it takes the same condition.
      taken { s with nextLabel := s.nextLabel + 1 } hs
    exact ⟨(), trivial, skip, fun _ s' hs' => put_shifts (i := .label _) rfl rfl s' hs'⟩

/-- Taking a block that waits has nothing to do with the stack. -/
theorem settled_keepsLoops : (settled setting).KeepsLoops := by
  refine .of_take rfl (fun hs => ⟨by simp, 0, hs⟩) fun hn hs => ⟨trivial, ?_⟩
  obtain ⟨scope, outer, rest, -, -, rfl⟩ := nextPending_some hn
  exact hs

/-- Asking for the next item leaves a condition, and storing the item an empty stack. -/
theorem settled_moveNext {slot : LocalId} {value : VarId} {key : Option VarId} {n : Nat}
    {after : BlockId} (hs : s.tape.Settled 0) :
    (settled setting).Leads (advance slot) (fun _ calls s₁ => ∃ j,
      (settled setting).may j after ∧ (settled setting).cond n j calls s₁ ∧
        ∀ calls s₂, (settled setting).rest n j calls s₂ →
          (settled setting).Leads (storeItem slot value key) (fun _ => (settled setting).rest n ())
            calls s₂) calls s := by
  have hadvance : (settled setting).Leads (advance slot) (fun _ => (settled setting).cond n ())
    calls s := advance_shifts slot s hs
  exact hadvance.mono fun _ s₁ hs₁ =>
    ⟨(), trivial, hs₁, fun _ s₂ hs₂ => storeItem_shifts slot value key s₂ hs₂⟩

/-- Statements and edges keep the stack empty, up to the conditions of branches. -/
theorem settled_keepsBlocks : (settled setting).KeepsBlocks where
  statements {_ _ _ block _ s} _ hs :=
    Shifts.forM block.statements (fun x _ => stmt_shifts x) s hs
  leave hs := hs
  fallOff {_ _ _ _ s} hs := fallOff_shifts s hs
  successor _ _ _ _ _ := trivial
  conditional {_ _ _ _ _ _ condition _ s} _ _ hs :=
    expr_shifts (k := 0) condition .bool s hs
  «foreach» {_ _ _ _ _ subject _ s} _ _ hs := acquire_shifts subject s hs
  moveNext {n i _ source _ _ _ _ _ calls s} _ _ hs := by
    have henumerator : (settled setting).Leads (enumerator source)
      (fun _ => (settled setting).rest n i) calls s := enumerator_shifts source s hs
    exact henumerator.mono fun _ _ hs₁ => settled_moveNext hs₁
  chain {n i _ _ value _ _ calls s} _ _ hs := by
    have hselect : (settled setting).Leads (select value)
      (fun _ => (settled setting).rest n i) calls s := select_shifts value s hs
    exact hselect.mono fun scratch s₁ hs₁ => ⟨(), hs₁, fun c _ =>
      ⟨trivial, fun _ s₂ hs₂ => compare_shifts scratch _ c s₂ hs₂⟩, fun _ _ hs₂ => hs₂⟩
  table {n i _ _ value _ range _ calls s} _ _ _ hs := by
    have hindex : (settled setting).Leads (tableIndex value range)
      (fun _ => (settled setting).cond n i) calls s := tableIndex_shifts value range s hs
    refine hindex.mono fun index s₁ hs₁ => ⟨(), trivial, hs₁, fun calls s₂ hs₂ => ?_⟩
    exact (loadIndex_shifts index s₂ hs₂).mono
      (fun _ s₃ hs₃ => jump_shifts _ s₃ hs₃) fun _ _ he => he

/-- A region and its parts start with an empty stack, except that a handler starts with what it
caught. -/
theorem settled_keepsRegions : (settled setting).KeepsRegions where
  beginTry {_ _ _ _ _ _ _ _ _ _ s} _ _ hs := put_shifts (i := .beginTry) rfl rfl s hs
  catches {_ _ _ _ _ _ _ _ h _ _ _ _} _ _ hs := receive_settled h hs
  cleans {_ _ _ _ _ _ _ _ s} hs := put_shifts (i := .beginFinally) rfl rfl s hs
  endTry {_ _ _ _ s} hs := put_shifts (i := .endTry) rfl rfl s hs
  next_may _ _ := trivial
  opens _ := settled_opens

/-- Generation keeps the discipline of the stack. -/
theorem settled_kept : (settled setting).Kept :=
  { settled_keepsVisits, settled_keepsBranches, settled_keepsLoops, settled_keepsBlocks,
    settled_keepsRegions with }

/-- The stack is empty when generation starts and when it ends. -/
theorem routine_settled (hs : s.tape.Settled 0) :
    (settled setting).MeetsFrom (Journaled.routine setting) (fun _ _ s => s.tape.Settled 0) []
      s := by
  have declared : (settled setting).Leads (setting.graph.vars.forM declarePlace)
      (fun _ _ s => s.tape.Settled 0) [] s :=
    Shifts.forM setting.graph.vars (fun v _ => declarePlace_shifts v) s hs
  exact settled_kept.routine_meets (fun _ => ⟨by simp, 0, hs⟩) declared
    (fun _ => settled_opens) fun calls s hs => sharedReturn_shifts s hs

end Gen

/-! ## Listings -/

/-- What an element asks of the number of entries before and after it. -/
def Insn.KeepsStack (i : Insn) (before after : Int) : Prop :=
  0 ≤ before ∧ 0 ≤ after ∧ (∀ e ∈ i.effect?, e.pops ≤ before) ∧
    match i with
    | .label _ | .beginTry | .beginFinally | .endTry => before = 0 ∧ after = 0
    | .beginCatch _ => before = 0 ∧ after = 1
    | .branch _ _ | .switch _ => after = 0
    | .op _ | .call _ | .ldloc _ | .stloc _ | .ldloca _ => True

/-- What can be executed at some depth keeps to it. -/
theorem Insn.keepsStack_of_settle? {i : Insn} {a b : Nat} (h : i.settle? a = some b) :
    i.KeepsStack a b := by
  refine ⟨Int.natCast_nonneg a, Int.natCast_nonneg b, ?_, ?_⟩
  · intro e he
    simp only [Option.mem_def] at he
    simp only [settle?, he, Effect.after?, Option.ite_none_left_eq_some,
      Option.ite_none_right_eq_some] at h
    exact Int.ofNat_le.mpr h.2.1
  · cases i with
    | beginCatch cls =>
      obtain ⟨rfl, rfl⟩ : a = 0 ∧ 1 = b := by simpa [settle?, effect?, caught] using h
      exact ⟨rfl, rfl⟩
    | _ => simp_all [settle?, effect?, caught, isBranch, Effect.after?]

/-- Code that can be executed from an empty stack keeps to the depths that are found by following
it. -/
theorem keepsStack_of_balance? {code : List Insn} {n : Nat} (h : balance? 0 code = some n)
    (k : Fin code.length) :
    (code.get k).KeepsStack (Tape.retrace (code.take k)).depth
      (Tape.retrace (code.take (k + 1))).depth := by
  have hsplit : code.take (k + 1) = code.take k ++ [code.get k] := by simp
  rw [← List.take_append_drop (k + 1) code, balance?_append, Option.bind_eq_some_iff] at h
  obtain ⟨b, hb, -⟩ := h
  rw [Tape.depth_retrace hb]
  rw [hsplit, balance?_append, Option.bind_eq_some_iff] at hb
  obtain ⟨a, ha, hi⟩ := hb
  rw [Tape.depth_retrace ha]
  exact Insn.keepsStack_of_settle? (balance?_singleton a _ ▸ hi)

namespace Graph

variable (g : Graph) (options : Options) (registry : Registry)

theorem routine_settled : (Gen.settled ⟨g, options⟩).MeetsFrom (Journaled.routine ⟨g, options⟩)
    (fun _ _ s => s.tape.Settled 0) [] { registry } := Gen.routine_settled ⟨rfl, rfl⟩

/-- Where generation ends, the depth that is recorded is the one that the code leaves. -/
theorem lastState_settled : ∃ n, (g.lastState options registry).tape.Settled n := by
  have accords := generate_accords (g.routine_settled options registry)
  cases ho : (g.generate options registry).outcome with
  | ok c =>
    rw [ho] at accords
    obtain ⟨-, hs⟩ := accords
    exact ⟨0, hs⟩
  | error d =>
    rw [ho] at accords
    obtain ⟨-, -, hs⟩ := accords
    exact hs

/-- No scope is closed with entries on the stack. -/
theorem fault_ne_imbalance {d : Diagnostic} (h : (g.generate options registry).outcome = .error d)
    (depth : Int) (kind : ScopeKind) : d.fault ≠ .imbalance depth kind := by
  have accords := generate_accords (g.routine_settled options registry)
  rw [h] at accords
  obtain ⟨-, hstop, -⟩ := accords
  exact hstop depth kind

end Graph

/-- The listing of any routine, also of one whose generation failed, keeps the discipline of the
stack at every element, as the tape has counted it all along; and generation never fails because a
scope is closed with entries on the stack. -/
theorem Graph.generate_keeps_stack (g : Graph) (options : Options) (registry : Registry) :
    let code := (g.generate options registry).listing.insns.toList
    (g.lastState options registry).tape =
        { Tape.retrace code with listing := (g.generate options registry).listing } ∧
      (∀ x ∈ (Journaled.routine ⟨g, options⟩ { registry }).1,
        x.state.tape = { Tape.retrace x.state.code with listing := x.state.tape.listing }) ∧
      (∀ k : Fin code.length,
        (code.get k).KeepsStack (Tape.retrace (code.take k)).depth
          (Tape.retrace (code.take (k + 1))).depth) ∧
      ∀ d, (g.generate options registry).outcome = .error d →
        ∀ depth kind, d.fault ≠ .imbalance depth kind := by
  obtain ⟨n, hn⟩ := g.lastState_settled options registry
  refine ⟨?_, fun x hx => ?_, ?_, fun d hd => g.fault_ne_imbalance options registry hd⟩
  · rw [g.generate_listing options registry]
    exact hn.counted
  · obtain ⟨-, n, hx⟩ := Invariant.Accords.noted (g.routine_settled options registry) x hx
    exact hx.counted
  · rw [g.generate_listing options registry]
    exact keepsStack_of_balance? hn.balance

end Linearizer
