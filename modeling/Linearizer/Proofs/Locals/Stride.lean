import Linearizer.Proofs.Generator.Emission
import Linearizer.Proofs.Generator.Routine
import Linearizer.Proofs.Locals.Value

/-!
# How code with local variables is written

A successful generation is a sequence of deeds, each of which uses local variables in one way.

- **Strides** (`Stride`, `Strides`): ordinary code is written, a local variable is declared, a
  return goes through the one that returns share, or an enumeration is started or asked for
  something.
- **Held values** (`Spill`): the three calls that hold a value for a moment. `Spill.valued_or_spilt`
  says what they write.
- **Deeds** (`Deed`, `Deeds`): what generation does in one place, such a call or anything else, with
  all that it changes: the state after a deed follows from the one before. A deed that is no such
  call is a sequence of strides (`Deed.spill_or_strides`).
- **Courses** (`Emits.deeds`): the task of a visit, a scope and so on is a sequence of deeds. An
  edge is written behind the label of its block (`State.StandsIn`), and an enumeration is not
  started twice since a block is written once (`State.Enlisted`).
- **Routines** (`Gen.routine_deeds`): so is a whole run.
-/

namespace Linearizer

/-- The block whose label was written last. -/
def lastBlock? (code : List Insn) : Option BlockId := (code.filterMap Insn.marks?).getLast?

/-- The edge of a block. -/
def Graph.edge? (g : Graph) (b : BlockId) : Option Edge := (g.block? b).bind (·.edge)

open Gen in
/-- A call that may hold a value for a moment: a store to a place, or the choice of a case of a
switch, by comparisons or through a table. -/
inductive Spill (setting : Setting) : State → State → Prop
  | store {p : Place} {source : Encoding} {hint : Hint} {s s' : State} (hp : p ∈ s.places)
      (h : storeTop p source hint s = .ok () s') : Spill setting s s'
  | chain {value : Expr} {isInt : Bool} {cases : List Case} {scratch : LocalId} {s s₁ s' : State}
      (hv : select value s = .ok scratch s₁)
      (hcases : Emits setting (.cases scratch isInt cases) s₁ s') : Spill setting s s'
  | table {value : Expr} {range : TableRange} {default : BlockId} {index : LocalId}
      {s s₁ s₂ s' : State} (hi : tableIndex value range s = .ok index s₁)
      (hbranch : Emits setting (.branch .brfalse default) s₁ s₂)
      (hj : loadIndex index s₂ = .ok () s') : Spill setting s s'

/-- Code is written that uses local variables in one way (module doc). -/
inductive Stride (setting : Setting) : State → State → Prop
  | ordinary {code : List Insn} {s s' : State} (hc : s'.code = s.code ++ code)
      (hi : ∀ i ∈ code, i.Ordinary s.allotment.homes) (ha : s'.allotment = s.allotment) :
      Stride setting s s'
  /-- A local variable is declared for something else than an enumerator. -/
  | allot {s s' : State} (hc : s'.code = s.code) (he : s'.enumerators = s.enumerators)
      (ha : s.allotment.Grows s'.allotment) : Stride setting s s'
  /-- A return stores its value, or the exit that returns share loads it. -/
  | share {i : Insn} {slot : LocalId} {label : Label} {s s' : State}
      (hr : s.returnSlot = some (slot, label)) (hi : i = .stloc slot ∨ i = .ldloc slot)
      (hc : s'.code = s.code ++ [i]) (ha : s'.allotment = s.allotment) : Stride setting s s'
  /-- An enumeration is started. -/
  | acquire {b next : BlockId} {subject : Expr} {code : List Insn} {n : Nat} {s s' : State}
      (he : setting.graph.edge? b = some (.foreach subject next)) (hb : lastBlock? s.code = some b)
      (new : b ∉ s.enumerators.map Prod.fst)
      (hc : s'.code = s.code ++ (code ++ [.call ⟨n, .getEnumerator⟩, .stloc s.allotment.count]))
      (hi : ∀ i ∈ code, i.marks? = none ∧ i.Ordinary s.allotment.homes)
      (ha : s'.allotment = { s.allotment with
        enumerators := (b, s.allotment.count) :: s.allotment.enumerators
        count := s.allotment.count + 1 }) : Stride setting s s'
  /-- An enumeration is moved on, or asked for its item or the key of it. -/
  | ask {b source body after : BlockId} {value : VarId} {key : Option VarId} {slot : LocalId}
      {callee : HelperRef} {s s' : State}
      (he : setting.graph.edge? b = some (.moveNext source value key body after))
      (hb : lastBlock? s.code = some b) (hl : (source, slot) ∈ s.enumerators)
      (hc : s'.code = s.code ++ [.ldloc slot, .call callee]) (ha : s'.allotment = s.allotment) :
      Stride setting s s'

/-- A sequence of strides. -/
abbrev Strides (setting : Setting) : State → State → Prop := Relation.ReflTransGen (Stride setting)

theorem Appends.strides {setting : Setting} {s s' : State} (h : Valued s s') :
    Strides setting s s' := by
  obtain ⟨code, hc, hi⟩ := h.code
  exact .single (.ordinary hc (fun i mem => (hi i mem).2.resolve_right id) h.allotment)

/-! ## Conditional branches -/

namespace Gen

variable {g : Graph} {also : Insn → Prop}

theorem defer_appends {b : BlockId} {s s' : State} (h : defer b s = .ok () s') :
    Appends also s s' := by
  obtain ⟨-, rfl⟩ | ⟨-, outer, -, rfl⟩ := defer_ok h
  · exact .refl _
  · exact .of_code_eq rfl rfl rfl

theorem schedule_appends {b : BlockId} {s s' : State}
    (h : (schedule g b : Gen Unit) s = .ok () s') :
    Appends also s s' := by
  obtain ⟨block, -, ⟨-, rfl⟩ | ⟨-, -, ⟨-, rfl⟩ | ⟨-, ho⟩⟩⟩ := schedule_ok h
  · exact .refl _
  · exact .of_code_eq (by simp [State.code, State.claimed]) (s.allotment_claimed b)
      (by simp [State.claimed])
  · exact defer_appends ho

theorem schedules_append {targets : List BlockId} {s s' : State}
    (h : (targets.forM (schedule g) : Gen Unit) s = .ok () s') : Appends also s s' := by
  induction targets generalizing s with
  | nil =>
    cases h
    exact .refl _
  | cons b rest ih =>
    obtain ⟨_, s₁, h₁, h₂⟩ := bind_ok h
    exact (schedule_appends h₁).trans (ih h₂)

theorem nextPending_appends {b : BlockId} {s s' : State} (h : nextPending s = .ok (some b) s') :
    Appends also s s' := by
  obtain ⟨scope, outer, rest, -, -, rfl⟩ := nextPending_some h
  exact .of_code_eq rfl rfl rfl

end Gen

section Changes

variable {also : Insn → Prop} (s : State)

theorem Appends.exited (b : BlockId) : Appends also s (s.exited b) :=
  .of_code_concat (s.code_exited b) (s.allotment_exited b) rfl (marks?_exitInsn _ _)
    (.inl (ordinary_exitInsn _ _ _))

theorem Appends.revisited (b : BlockId) : Appends also s (s.revisited b) :=
  .of_code_concat (s.code_revisited b) (s.allotment_revisited b) rfl (marks?_exitInsn _ _)
    (.inl (ordinary_exitInsn _ _ _))

theorem Appends.branched (o : BranchOp) (l : Label) : Appends also s (s.branched o l) :=
  .of_code_concat (s.code_branched o l) (s.allotment_branched o l) rfl rfl
    (.inl (.of_none rfl rfl))

theorem Appends.marker {i : Insn} (hi : i.isMarker = true) : Appends also s (s.written i) := by
  cases i with
  | beginTry | beginCatch | beginFinally | endTry => exact .written s rfl (.inl (.of_none rfl rfl))
  | _ => cases hi

end Changes

open Gen in
/-- A branch writes no label of a block and uses no local variables: a block that a detour leads to
is not written there. -/
theorem Emits.branch_appends {setting : Setting} {o : BranchOp} {target : BlockId} {s s' : State}
    {also : Insn → Prop} (h : Emits setting (.branch o target) s s') : Appends also s s' := by
  cases h with
  | drop _ _ hp => exact (op_appends _).of_ok hp
  | direct _ _ _ _ hs => exact (Appends.branched s _ _).trans (schedule_appends hs)
  | @detour _ _ _ _ s₁ _ _ _ out _ hvisit =>
    have skipped : Appends also s (s.skipped o.negate) :=
      .of_code_concat (s.code_skipped _) (s.allotment_skipped _) rfl rfl (.inl (.of_none rfl rfl))
    have visited : Appends also (s.skipped o.negate) s₁ := by
      cases hvisit with
      | revisit => exact .revisited _ target
      | pass => exact .refl _
      | enter _ _ _ within =>
        have within : (s.innermost setting.graph).contains target = true := within
        rw [out] at within
        cases within
      | leave _ _ _ _ hq => exact (Appends.exited _ target).trans (defer_appends hq)
    exact (skipped.trans visited).trans (.written s₁ rfl (.inl (.of_none rfl rfl)))

theorem Emits.cases_appends {setting : Setting} {scratch : LocalId} {isInt : Bool}
    {cases : List Case} {s s' : State} (h : Emits setting (.cases scratch isInt cases) s s') :
    Appends (Insn.Loads scratch) s s' := by
  induction cases generalizing s with
  | nil =>
    cases h
    exact .refl _
  | cons c rest ih =>
    cases h with
    | case hc hbranch hrest =>
      exact (((Gen.compare_appends _ _ _).of_ok hc).trans hbranch.branch_appends).trans (ih hrest)

/-- A call that may hold a value uses the variables of the routine only, or one local variable
beside them. -/
theorem Spill.valued_or_spilt {setting : Setting} {s s' : State} (h : Spill setting s s') :
    Valued s s' ∨ ∃ t, Spilt t s s' := by
  cases h with
  | store hp h => exact Gen.storeTop_spilt hp h
  | chain hv hcases => exact .inr ⟨_, (Gen.select_spilt hv).hold hcases.cases_appends⟩
  | table hi hbranch hj =>
    have indexed := (Gen.tableIndex_spilt hi).hold hbranch.branch_appends
    exact .inr ⟨_, indexed.hold ((Gen.loadIndex_appends _).of_ok hj)⟩

/-! ## Statements and returns -/

namespace Gen

variable {g : Graph} {setting : Setting}

theorem Does.strides {α : Type} {m : Gen α} (h : Does Valued m) : Does (Strides setting) m :=
  fun s => (h s).mono fun _ hv => hv.strides

/-- A return to the shared exit, once there is one. -/
theorem leave_strides {slot : LocalId} {label : Label} {s : State}
    (h : s.returnSlot = some (slot, label)) :
    DoesFrom (Strides setting) (do put (.stloc slot); branch .leave label) s := by
  have stored : Strides setting s (s.written (.stloc slot)) :=
    .single (.share h (.inl rfl) (s.code_written _) (s.allotment_written _))
  exact stored.trans (Appends.branched _ .leave label).strides

theorem returnTop_strides : Does (Strides setting) returnTop := by
  intro s
  obtain hr | ⟨-, hr⟩ | ⟨-, -, slot, label, s₁, hr, ⟨hslot, rfl⟩ | ⟨hnone, rfl, rfl, rfl⟩⟩ :=
    returnTop_cases s
  · exact .to_error hr .refl
  · exact .of_run hr .refl ((op_appends .ret).strides s)
  · exact .of_run hr .refl (leave_strides hslot)
  · -- The shared exit is declared now, with the next local variable.
    have grows : s.allotment.Grows { s.allotment with
        returnSlot := some (s.allotment.count, .fresh s.nextLabel)
        count := s.allotment.count + 1 } := .exit hnone
    have declared : Strides setting s { s with
        tape := (s.tape.declare .value).2
        nextLabel := s.nextLabel + 1
        returnSlot := some (s.tape.listing.locals.size, .fresh s.nextLabel) } := by
      refine .single (.allot rfl rfl ?_)
      simpa [State.allotment, Tape.declare] using grows
    exact .of_run hr declared (leave_strides rfl)

theorem fallOff_strides : Does (Strides setting) (fallOff g) := by
  intro s
  unfold fallOff
  refine DoesFrom.read (currentScope_run g s) ?_
  split
  · exact (op_appends _).strides s
  · exact ((call_appends rfl).strides.bind fun _ => returnTop_strides) s

theorem action_strides (a : Action) : Does (Strides setting) (action a) := by
  cases a with
  | assign v e => exact (assign_valued v e).strides
  | append v e => exact (append_valued v e).strides
  | echo e => exact ((expr_valued e _).bind fun _ => call_appends rfl).strides
  | eval e => exact ((natural_valued e).bind fun _ => op_appends _).strides
  | ret value =>
    cases value with
    | none => exact (call_appends rfl).strides.bind fun _ => returnTop_strides
    | some e => exact (expr_valued e _).strides.bind fun _ => returnTop_strides
  | throw e => exact ((expr_valued e _).bind fun _ => op_appends _).strides

theorem stmt_strides (x : Stmt) : Does (Strides setting) (stmt x) := by
  refine (Does.modify fun s => ?_).bind fun _ => action_strides _
  exact Appends.strides (.of_code_eq rfl rfl rfl)

theorem statements_strides (l : List Stmt) : Does (Strides setting) (l.forM stmt) :=
  Does.forM l fun x _ => stmt_strides x

end Gen

/-! ## What stays the same inside a block -/

/-- Neither is the label of a block written nor an enumeration started. -/
structure Lingers (s s' : State) : Prop where
  marks : s'.code.filterMap Insn.marks? = s.code.filterMap Insn.marks?
  emitted : s'.emitted = s.emitted
  enumerators : s'.enumerators = s.enumerators

theorem Appends.lingers {also : Insn → Prop} {s s' : State} (h : Appends also s s') :
    Lingers s s' := ⟨h.marks, h.emitted, h.enumerators⟩

theorem Straight.lingers {s s' : State} (h : Straight s s') : Lingers s s' :=
  ⟨h.calm.filterMap_marks?, h.emitted, h.enumerators⟩

theorem Quiets.lingers {g : Graph} {s s' : State} (h : Quiets g s s') : Lingers s s' := by
  refine ⟨h.calm.filterMap_marks?, h.calm.emitted, ?_⟩
  induction h with
  | refl => rfl
  | tail _ hq ih =>
    refine Eq.trans ?_ ih
    cases hq with
    | straight h => exact h.enumerators
    | _ => rfl

theorem Spill.lingers {setting : Setting} {s s' : State} (h : Spill setting s s') :
    Lingers s s' := by
  obtain h | ⟨t, h⟩ := h.valued_or_spilt
  · exact h.lingers
  · obtain ⟨before, after, hc, hb, ha⟩ := h.code
    have hn : (before ++ .stloc t :: after).filterMap Insn.marks? = [] := by
      refine List.filterMap_eq_nil_iff.mpr fun i mem => ?_
      obtain mem | rfl | mem := by simpa using mem
      · exact (hb i mem).1
      · rfl
      · exact (ha i mem).1
    refine ⟨?_, h.emitted, h.enumerators⟩
    rw [hc, List.filterMap_append, hn, List.append_nil]

namespace State

/-- Code is written behind the label of a block that has started no enumeration. -/
structure StandsIn (b : BlockId) (s : State) : Prop where
  last : lastBlock? s.code = some b
  written : b ∈ s.emitted
  idle : b ∉ s.enumerators.map Prod.fst

/-- The blocks that have started an enumeration have been written. -/
def Enlisted (s : State) : Prop := ∀ x ∈ s.enumerators, x.1 ∈ s.emitted

variable {b : BlockId} {s s' : State}

theorem StandsIn.lingers (h : s.StandsIn b) (hs : Lingers s s') : s'.StandsIn b := by
  refine ⟨?_, ?_, ?_⟩
  · rw [lastBlock?, hs.marks]
    exact h.last
  · rw [hs.emitted]
    exact h.written
  · rw [hs.enumerators]
    exact h.idle

theorem Enlisted.lingers (h : s.Enlisted) (hs : Lingers s s') : s'.Enlisted := by
  unfold Enlisted
  rw [hs.enumerators, hs.emitted]
  exact h

theorem Enlisted.entered (h : s.Enlisted) (viaEdge : Bool) (b : BlockId) :
    (s.entered viaEdge b).Enlisted := by
  intro x hx
  have old : x ∈ s.enumerators := by simpa [State.entered] using hx
  rw [emitted_entered]
  exact .tail b (h x old)

theorem StandsIn.of_entered (h : s.Enlisted) (viaEdge : Bool) (new : b ∉ s.emitted) :
    (s.entered viaEdge b).StandsIn b := by
  refine ⟨by simp [lastBlock?, Insn.marks?], by simp, ?_⟩
  have enumerators : (s.entered viaEdge b).enumerators = s.enumerators := by
    simp [State.entered]
  rw [enumerators]
  intro mem
  obtain ⟨x, hx, rfl⟩ := List.mem_map.mp mem
  exact new (h x hx)

end State

/-! ## Enumerations -/

namespace Gen

variable {setting : Setting} {b source body after : BlockId} {value : VarId}
  {key : Option VarId} {slot : LocalId} {s s' : State}

theorem place_ok {v : VarId} {p : Place} (h : place v s = .ok p s') : s' = s ∧ p ∈ s.places := by
  unfold place at h
  rw [run_bind (get_run s)] at h
  cases hv : s.places[v]? with
  | none =>
    rw [hv] at h
    cases h
  | some q =>
    rw [hv] at h
    cases h
    exact ⟨rfl, List.mem_of_getElem? hv⟩

/-- The subject of an enumeration is evaluated and its enumerator stored. -/
theorem acquire_strides {subject : Expr} {next : BlockId}
    (he : setting.graph.edge? b = some (.foreach subject next)) (hb : s.StandsIn b)
    (h : acquire subject s = .ok slot s') :
    Strides setting s { s' with enumerators := (b, slot) :: s'.enumerators } := by
  obtain ⟨_, s₁, hv, h⟩ := bind_ok h
  have valued := (expr_valued _ _).of_ok hv
  obtain ⟨code, hcode, hi⟩ := valued.code
  obtain ⟨n, s₂, hcall, hc₂, ha₂, -⟩ := callDirect_code .getEnumerator (s₁.written (.op .ldctx))
  rw [State.allotment_written, valued.allotment] at ha₂
  have called : call .getEnumerator s₁ = .ok () s₂ := hcall
  rw [run_bind called] at h
  cases h
  -- The call declares nothing, so the enumerator gets the next local variable.
  have count : s₂.tape.listing.locals.size = s.allotment.count := congrArg Allotment.count ha₂
  have written : (((s₂.tape.declare (.object none)).2).put
      (.stloc s₂.tape.listing.locals.size)).listing.insns.toList =
        s.code ++ ((code ++ [.op .ldctx]) ++
          [.call ⟨n, .getEnumerator⟩, .stloc s.allotment.count]) := by
    have put : (((s₂.tape.declare (.object none)).2).put
        (.stloc s₂.tape.listing.locals.size)).listing.insns.toList =
          s₂.code ++ [.stloc s₂.tape.listing.locals.size] := Tape.toList_put _ _
    rw [put, hc₂, State.code_written, hcode, count]
    simp
  refine .single (.acquire he hb.last hb.idle written (fun i mem => ?_) ?_)
  · obtain mem | mem := List.mem_append.mp mem
    · exact ⟨(hi i mem).1, (hi i mem).2.resolve_right id⟩
    · rw [List.mem_singleton.mp mem]
      exact ⟨rfl, .of_none rfl rfl⟩
  · rw [← ha₂]
    simp [State.allotment, Tape.locals_put]

/-- The enumerator of the block that an enumeration was started in is loaded and given to a
helper. -/
theorem ask_strides {h : Helper} (hh : h.needsContext = false)
    (he : setting.graph.edge? b = some (.moveNext source value key body after))
    (hb : s.StandsIn b) (hl : (source, slot) ∈ s.enumerators)
    (hr : (do put (.ldloc slot); call h : Gen Unit) s = .ok () s') : Strides setting s s' := by
  obtain ⟨n, s₁, hcall, hc, ha, -⟩ := callDirect_code h (s.written (.ldloc slot))
  have called : (do put (.ldloc slot); call h : Gen Unit) s = .ok () s₁ := by
    unfold call
    rw [hh]
    exact hcall
  cases hr.symm.trans called
  have written : s'.code = s.code ++ [.ldloc slot, .call ⟨n, h⟩] := by
    rw [hc, State.code_written, List.append_assoc]
    rfl
  exact .single (.ask he hb.last hl written (ha.trans (s.allotment_written _)))

end Gen

/-! ## Declarations and the shared exit -/

namespace Gen

variable {setting : Setting}

theorem declarePlace_strides (v : Variable) : Does (Strides setting) (declarePlace v) := by
  intro s
  unfold declarePlace
  cases v.home with
  | frame =>
    have grows : s.allotment.Grows { s.allotment with
        places := s.allotment.places ++ [⟨.slot s.allotment.count, v.encoding, v.hint⟩]
        count := s.allotment.count + 1 } := .frame rfl
    refine DoesFrom.to_ok rfl (.single (.allot rfl rfl ?_))
    simpa [State.allotment, Tape.declare] using grows
  | param | global => exact DoesFrom.to_ok rfl (.single (.allot rfl rfl (.elsewhere rfl)))

theorem sharedReturn_strides : Does (Strides setting) sharedReturn := by
  intro s
  unfold sharedReturn
  refine DoesFrom.read (get_run s) ?_
  cases hr : s.returnSlot with
  | none => exact DoesFrom.pure () s
  | some shared =>
    obtain ⟨slot, label⟩ := shared
    have labelled : Strides setting s (s.written (.label label)) := by
      refine .single (.ordinary (s.code_written _) ?_ (s.allotment_written _))
      intro i mem
      rw [List.mem_singleton.mp mem]
      exact .of_none rfl rfl
    have loaded : Strides setting (s.written (.label label))
        ((s.written (.label label)).written (.ldloc slot)) :=
      .single (.share hr (.inr rfl) (State.code_written _ _) (State.allotment_written _ _))
    have returned : Valued ((s.written (.label label)).written (.ldloc slot))
        (((s.written (.label label)).written (.ldloc slot)).written (.op .ret)) :=
      .written _ rfl (.inl (.of_none rfl rfl))
    exact DoesFrom.to_ok rfl ((labelled.trans loaded).trans returned.strides)

end Gen

/-! ## Deeds -/

open Gen in
/-- One thing that generation does, with all that it changes (module doc). -/
inductive Deed (setting : Setting) : State → State → Prop
  | declare {v : Variable} {s s' : State} (hv : v ∈ setting.graph.vars)
      (h : declarePlace v s = .ok () s') : Deed setting s s'
  -- Blocks
  | revisit {b : BlockId} {s : State} (he : b ∈ s.emitted) : Deed setting s (s.revisited b)
  | enter {viaEdge : Bool} {b : BlockId} {block : Block} {s : State}
      (hb : setting.graph.block? b = some block) (new : b ∉ s.emitted) (hd : block.dead = false)
      (within : (s.innermost setting.graph).contains b = true) :
      Deed setting s (s.entered viaEdge b)
  | leave {b : BlockId} {block : Block} {s s' : State}
      (hb : setting.graph.block? b = some block) (new : b ∉ s.emitted) (hd : block.dead = false)
      (out : (s.innermost setting.graph).hi ≤ b) (hq : defer b (s.exited b) = .ok () s') :
      Deed setting s s'
  | statements {b : BlockId} {block : Block} {s s' : State}
      (hb : setting.graph.block? b = some block) (stands : s.StandsIn b)
      (hs : block.statements.forM stmt s = .ok () s') : Deed setting s s'
  | fallOff {b : BlockId} {s s' : State} (he : setting.graph.edge? b = none)
      (stands : s.StandsIn b) (hf : Gen.fallOff setting.graph s = .ok () s') : Deed setting s s'
  -- Scopes
  | opened {kind : ScopeKind} {first hi : BlockId} {s : State} (lt : first < hi) :
      Deed setting s (s.opened kind first hi)
  | take {b : BlockId} {s s' : State} (hn : nextPending s = .ok (some b) s') : Deed setting s s'
  | closed {s : State} (empty : ∀ scope outer, s.scopes = scope :: outer → scope.pending = [])
      (hd : s.tape.depth = 0) : Deed setting s { s with scopes := s.scopes.tail }
  -- Edges
  | test {b ifTrue ifFalse : BlockId} {condition : Expr} {s s' : State}
      (he : setting.graph.edge? b = some (.conditional condition ifTrue ifFalse))
      (stands : s.StandsIn b) (hc : expr condition .bool s = .ok () s') : Deed setting s s'
  | branch {b target : BlockId} {o : BranchOp} {s s' : State} (stands : s.StandsIn b)
      (h : Emits setting (.branch o target) s s') : Deed setting s s'
  | acquire {b next : BlockId} {subject : Expr} {slot : LocalId} {s s' : State}
      (he : setting.graph.edge? b = some (.foreach subject next)) (stands : s.StandsIn b)
      (ha : Gen.acquire subject s = .ok slot s') :
      Deed setting s { s' with enumerators := (b, slot) :: s'.enumerators }
  | ask {b source body after : BlockId} {value : VarId} {key : Option VarId} {slot : LocalId}
      {h : Helper} {s s' : State} (hh : h.needsContext = false)
      (he : setting.graph.edge? b = some (.moveNext source value key body after))
      (stands : s.StandsIn b) (hl : (source, slot) ∈ s.enumerators)
      (hr : (do put (.ldloc slot); call h : Gen Unit) s = .ok () s') : Deed setting s s'
  | spill {s s' : State} (h : Spill setting s s') : Deed setting s s'
  | jump {b default : BlockId} {value : Expr} {cases : List Case} {range : TableRange}
      {s s' : State} (he : setting.graph.edge? b = some (.switch value cases default))
      (stands : s.StandsIn b)
      (hs : ((range.targets setting.graph cases default).forM (schedule setting.graph) : Gen Unit)
        (s.tabled (range.targets setting.graph cases default)) = .ok () s') : Deed setting s s'
  -- Protected regions
  | mark {i : Insn} {s : State} (hi : i.isMarker = true) : Deed setting s (s.written i)
  | caught {s : State} : Deed setting s { s with tape := s.tape.assume 1 }
  | dropped {s s' : State} (hp : op .pop s = .ok () s') : Deed setting s s'
  | share {s s' : State} (h : sharedReturn s = .ok () s') : Deed setting s s'

/-- A sequence of deeds. -/
abbrev Deeds (setting : Setting) : State → State → Prop := Relation.ReflTransGen (Deed setting)

open Gen in
/-- A deed holds a value for a moment, or uses local variables in the other ways. -/
theorem Deed.spill_or_strides {setting : Setting} {s s' : State} (h : Deed setting s s') :
    Spill setting s s' ∨ Strides setting s s' := by
  cases h with
  | spill h => exact .inl h
  | declare _ h => exact .inr ((declarePlace_strides _).of_ok h)
  | @revisit b => exact .inr (Appends.revisited s b).strides
  | @enter viaEdge b =>
    refine .inr (.single (.ordinary (s.code_entered viaEdge b) ?_ (s.allotment_entered b viaEdge)))
    intro i mem
    rw [List.mem_singleton.mp mem]
    exact .of_none rfl rfl
  | @leave b _ _ _ _ _ _ _ hq =>
    have left : Valued s s' := (Appends.exited s b).trans (defer_appends hq)
    exact .inr left.strides
  | statements _ _ hs => exact .inr ((statements_strides _).of_ok hs)
  | fallOff _ _ hf => exact .inr (fallOff_strides.of_ok hf)
  | @opened kind first hi =>
    have opened : Valued s (s.opened kind first hi) :=
      .of_code_eq (s.code_opened _ _ _) (s.allotment_opened _ _ _) (s.emitted_opened _ _ _)
    exact .inr opened.strides
  | take hn =>
    have taken : Valued s s' := nextPending_appends hn
    exact .inr taken.strides
  | closed =>
    have closed : Valued s { s with scopes := s.scopes.tail } := .of_code_eq rfl rfl rfl
    exact .inr closed.strides
  | test _ _ hc => exact .inr ((expr_valued _ _).strides.of_ok hc)
  | branch _ h =>
    have branched : Valued s s' := h.branch_appends
    exact .inr branched.strides
  | acquire he stands ha => exact .inr (acquire_strides he stands ha)
  | ask hh he stands hl hr => exact .inr (ask_strides hh he stands hl hr)
  | @jump _ default _ cases range _ _ _ _ hs =>
    have tabled : Valued s (s.tabled (range.targets setting.graph cases default)) :=
      .of_code_concat (s.code_tabled _) (s.allotment_tabled _) rfl rfl (.inl (.of_none rfl rfl))
    exact .inr (tabled.trans (schedules_append hs)).strides
  | mark hi =>
    have marked : Valued s _ := .marker s hi
    exact .inr marked.strides
  | caught =>
    have caught : Valued s { s with tape := s.tape.assume 1 } := .of_code_eq rfl rfl rfl
    exact .inr caught.strides
  | dropped hp => exact .inr ((op_appends _).strides.of_ok hp)
  | share h => exact .inr (sharedReturn_strides.of_ok h)

/-! ## Stores -/

namespace Gen

variable {setting : Setting} {b source body after : BlockId} {value : VarId}
  {key : Option VarId} {slot : LocalId} {s s' : State}

theorem storeCurrent_deeds {h : Helper} (hh : h.needsContext = false) {v : VarId}
    (he : setting.graph.edge? b = some (.moveNext source value key body after))
    (hb : s.StandsIn b) (hl : (source, slot) ∈ s.enumerators)
    (hr : storeCurrent slot h v s = .ok () s') : Deeds setting s s' := by
  have asks : storeCurrent slot h v = (do put (.ldloc slot); call h) >>= fun _ =>
      place v >>= fun p => storeTop p .value .any := by
    rw [bind_assoc]
    rfl
  rw [asks] at hr
  obtain ⟨_, s₁, hask, hr⟩ := bind_ok hr
  obtain ⟨p, s₂, hplace, hstore⟩ := bind_ok hr
  obtain ⟨rfl, hp⟩ := place_ok hplace
  exact .tail (.single (.ask hh he hb hl hask)) (.spill (.store hp hstore))

theorem storeItem_deeds
    (he : setting.graph.edge? b = some (.moveNext source value key body after))
    (hb : s.StandsIn b) (hl : (source, slot) ∈ s.enumerators)
    (hr : storeItem slot value key s = .ok () s') : Deeds setting s s' := by
  obtain ⟨_, s₁, hvalue, hr⟩ := bind_ok hr
  have stored := storeCurrent_deeds rfl he hb hl hvalue
  have lingers := ((storeCurrent_straight _ rfl _).of_ok hvalue).lingers
  cases key with
  | none =>
    cases hr
    exact stored
  | some k =>
    rw [← lingers.enumerators] at hl
    exact stored.trans (storeCurrent_deeds rfl he (hb.lingers lingers) hl hr)

theorem receive_deeds (h : Handler) (hr : receive h s = .ok () s') : Deeds setting s s' := by
  unfold receive at hr
  obtain ⟨_, s₁, hm, hr⟩ := bind_ok hr
  cases hm
  have assumed : Deeds setting s { s with tape := s.tape.assume 1 } := .single .caught
  cases hv : h.var with
  | some v =>
    rw [hv] at hr
    obtain ⟨p, s₂, hplace, hstore⟩ := bind_ok hr
    obtain ⟨rfl, hp⟩ := place_ok hplace
    exact assumed.tail (.spill (.store hp hstore))
  | none =>
    rw [hv] at hr
    exact assumed.tail (.dropped hr)

end Gen

/-! ## Courses -/

/-- What an edge and the rest of a block rely on. -/
def Task.Placed (g : Graph) (s : State) : Task → Prop
  | .body b block => g.block? b = some block ∧ s.StandsIn b
  | .edge b e => g.edge? b = some e ∧ s.StandsIn b
  | _ => True

/-- The course of a task is a sequence of deeds; those of a branch and of the cases of a switch are
parts of one. -/
def Task.Follows (setting : Setting) (s s' : State) : Task → Prop
  | .branch _ _ | .cases _ _ _ => True
  | _ => Deeds setting s s' ∧ s'.Enlisted

open Gen in
theorem Emits.deeds {setting : Setting} {task : Task} {s s' : State}
    (h : Emits setting task s s') :
    task.Placed setting.graph s → s.Enlisted → task.Follows setting s s' := by
  have edge_eq {b : BlockId} {block : Block} (hb : setting.graph.block? b = some block) :
      setting.graph.edge? b = block.edge := by
    simp [Graph.edge?, hb]
  induction h with
  | revisit _ hm => exact fun _ he => ⟨.single (.revisit hm), he⟩
  | pass => exact fun _ he => ⟨.refl, he⟩
  | @enter viaEdge b block s s' hb new hd within hbody ih =>
    intro _ he
    obtain ⟨hs, he'⟩ := ih ⟨hb, .of_entered he viaEdge new⟩ (he.entered viaEdge b)
    exact ⟨.head (.enter hb new hd within) hs, he'⟩
  | leave hb new hd out hq =>
    intro _ he
    have left : Valued _ _ := (Appends.exited _ _).trans (defer_appends hq)
    exact ⟨.single (.leave hb new hd out hq), he.lingers left.lingers⟩
  | stop hs =>
    rintro ⟨hb, stands⟩ he
    exact ⟨.single (.statements hb stands hs),
      he.lingers (Quiets.lingers (g := setting.graph) ((statements_quiets _).of_ok hs))⟩
  | goOn hs _ hedge _ ih =>
    rintro ⟨hb, stands⟩ he
    have lingers := Quiets.lingers (g := setting.graph) ((statements_quiets _).of_ok hs)
    obtain ⟨hs', he'⟩ :=
      ih ⟨(edge_eq hb).trans hedge, stands.lingers lingers⟩ (he.lingers lingers)
    exact ⟨.head (.statements hb stands hs) hs', he'⟩
  | fallOff hs _ hedge hf =>
    rintro ⟨hb, stands⟩ he
    have lingers := Quiets.lingers (g := setting.graph) ((statements_quiets _).of_ok hs)
    have falls : Deed setting _ _ :=
      .fallOff ((edge_eq hb).trans hedge) (stands.lingers lingers) hf
    refine ⟨.head (.statements hb stands hs) (.single falls), ?_⟩
    exact (he.lingers lingers).lingers (fallOff_quiets.of_ok hf).lingers
  | drop | direct | detour | noCase | case => exact fun _ _ => trivial
  | @scope kind first hi s s₁ s' lt hvisit hdrain empty hd ihv ihd =>
    intro _ he
    have opened : Valued s (s.opened kind first hi) :=
      .of_code_eq (s.code_opened _ _ _) (s.allotment_opened _ _ _) (s.emitted_opened _ _ _)
    obtain ⟨hs₁, he₁⟩ := ihv trivial (he.lingers opened.lingers)
    obtain ⟨hs₂, he₂⟩ := ihd trivial he₁
    exact ⟨.head (.opened lt) ((hs₁.trans hs₂).tail (.closed empty hd)), he₂⟩
  | drained => exact fun _ he => ⟨.refl, he⟩
  | skip hn _ _ ih =>
    intro _ he
    have taken : Valued _ _ := nextPending_appends hn
    obtain ⟨hs, he'⟩ := ih trivial (he.lingers taken.lingers)
    exact ⟨.head (.take hn) hs, he'⟩
  | next hn _ _ _ ihv ihr =>
    intro _ he
    have taken : Valued _ _ := nextPending_appends hn
    obtain ⟨hs₁, he₁⟩ := ihv trivial (he.lingers taken.lingers)
    obtain ⟨hs₂, he₂⟩ := ihr trivial he₁
    exact ⟨.head (.take hn) (hs₁.trans hs₂), he₂⟩
  | goto _ ih => exact fun _ he => ih trivial he
  | conditional hc hbranch _ _ ihv =>
    rintro ⟨hedge, stands⟩ he
    have tested : Valued _ _ := (expr_valued _ _).of_ok hc
    have branched : Valued _ _ := hbranch.branch_appends
    obtain ⟨hs, he'⟩ := ihv trivial ((he.lingers tested.lingers).lingers branched.lingers)
    have branches : Deed setting _ _ := .branch (stands.lingers tested.lingers) hbranch
    exact ⟨.head (.test hedge stands hc) (.head branches hs), he'⟩
  | @«foreach» b next subject slot s s₁ s' ha hvisit ih =>
    rintro ⟨hedge, stands⟩ he
    have lingers := ((acquire_straight _).of_ok ha).lingers
    have listed : State.Enlisted { s₁ with enumerators := (b, slot) :: s₁.enumerators } :=
      List.forall_mem_cons.mpr ⟨(stands.lingers lingers).written, he.lingers lingers⟩
    obtain ⟨hs, he'⟩ := ih trivial listed
    exact ⟨.head (.acquire hedge stands ha) hs, he'⟩
  | @moveNext b source body after value key slot s s₁ s₂ s₃ s' hl ha hbranch hs hvisit _ ih =>
    rintro ⟨hedge, stands⟩ he
    obtain ⟨before, rest, split, -⟩ := List.lookup_eq_some_iff.mp hl
    have listed : (source, slot) ∈ s.enumerators := by simp [split]
    have lingers₁ := ((advance_straight _).of_ok ha).lingers
    have stands₁ := stands.lingers lingers₁
    have branched : Valued s₁ s₂ := hbranch.branch_appends
    have listed₂ : (source, slot) ∈ s₂.enumerators := by
      rwa [branched.enumerators, lingers₁.enumerators]
    -- Storing the item uses the enumerator again, which is still the same.
    have stored := storeItem_deeds hedge (stands₁.lingers branched.lingers) listed₂ hs
    have lingers₃ := ((storeItem_straight _ _ _).of_ok hs).lingers
    obtain ⟨hs', he'⟩ :=
      ih trivial (((he.lingers lingers₁).lingers branched.lingers).lingers lingers₃)
    exact ⟨.head (.ask rfl hedge stands listed ha) (.head (.branch stands₁ hbranch)
      (stored.trans hs')), he'⟩
  | chain _ hv hcases _ _ ih =>
    intro _ he
    have spill := Spill.chain hv hcases
    obtain ⟨hs, he'⟩ := ih trivial (he.lingers spill.lingers)
    exact ⟨.head (.spill spill) hs, he'⟩
  | @table _ _ _ _ _ _ _ _ s₂ s₃ s₄ s' _ hi hbranch hj hs _ _ ih =>
    rintro ⟨hedge, stands⟩ he
    have spill := Spill.table hi hbranch hj
    have tabled : Valued s₃ s₄ := by
      refine Appends.trans ?_ (schedules_append hs)
      exact .of_code_concat (s₃.code_tabled _) (s₃.allotment_tabled _) rfl rfl
        (.inl (.of_none rfl rfl))
    obtain ⟨hs', he'⟩ := ih trivial ((he.lingers spill.lingers).lingers tabled.lingers)
    have jumps : Deed setting s₃ s₄ := .jump hedge (stands.lingers spill.lingers) hs
    exact ⟨.head (.spill spill) (.head jumps hs'), he'⟩
  | @protect b body next hi handlers cleanup ends s s₁ s₂ s₃ s' _ _ _ _ _ _ _ ihb ihh ihc ihv =>
    intro _ he
    obtain ⟨hs₁, he₁⟩ := ihb trivial he
    obtain ⟨hs₂, he₂⟩ := ihh trivial he₁
    obtain ⟨hs₃, he₃⟩ := ihc trivial he₂
    obtain ⟨hs₄, he₄⟩ := ihv trivial he₃
    -- The marker at the end, and what comes behind the region.
    have closes : Deeds setting s₃ s' := .head (.mark rfl) hs₄
    exact ⟨.head (.mark rfl) (hs₁.trans (hs₂.trans (hs₃.trans closes))), he₄⟩
  | noHandler => exact fun _ he => ⟨.refl, he⟩
  | @handler h hi rest s s₁ s₂ s' hc _ _ ihs ihr =>
    intro _ he
    have opened : Valued s (s.written (.beginCatch h.cls)) := .marker s rfl
    have lingers := ((receive_straight h).of_ok hc).lingers
    obtain ⟨hs₁, he₁⟩ := ihs trivial ((he.lingers opened.lingers).lingers lingers)
    obtain ⟨hs₂, he₂⟩ := ihr trivial he₁
    exact ⟨.head (.mark rfl) ((receive_deeds h hc).trans (hs₁.trans hs₂)), he₂⟩
  | noCleanup => exact fun _ he => ⟨.refl, he⟩
  | @cleanup first next s s' _ ih =>
    intro _ he
    obtain ⟨hs, he'⟩ := ih trivial he
    exact ⟨.head (.mark rfl) hs, he'⟩

/-! ## Routines -/

namespace Gen

variable {setting : Setting}

theorem declarePlaces_deeds {vars : List Variable} (sub : vars ⊆ setting.graph.vars) {s s' : State}
    (h : vars.forM declarePlace s = .ok () s') : Deeds setting s s' := by
  induction vars generalizing s with
  | nil =>
    cases h
    exact .refl
  | cons v rest ih =>
    obtain ⟨hv, hrest⟩ := List.cons_subset.mp sub
    obtain ⟨_, s₁, h₁, h₂⟩ := bind_ok h
    exact .head (.declare hv h₁) (ih hrest h₂)

/-- A run of a whole routine that returns is a sequence of deeds. -/
theorem routine_deeds {s s' : State} (hs : s.scopes = []) (he : s.enumerators = [])
    (h : routine setting s = .ok () s') : Deeds setting s s' := by
  obtain ⟨s₁, s₂, hplaces, hemits, -, -, hshared⟩ := routine_course hs h
  have straight := (Does.forM (R := Straight) _ fun v _ => declarePlace_straight v).of_ok hplaces
  have listed : s₁.Enlisted := by simp [State.Enlisted, straight.enumerators, he]
  obtain ⟨blocks, -⟩ := hemits.deeds trivial listed
  exact ((declarePlaces_deeds (List.Subset.refl _) hplaces).trans blocks).tail (.share hshared)

end Gen
end Linearizer
