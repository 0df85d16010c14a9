import Linearizer.Proofs.Generator.Pieces
import Linearizer.Proofs.Generator.Routine

/-!
# What is counted

The counters of a routine are changed beside the elements that they count, and describe the listing
in the end.

- **Elements** (`Insn.isTable`, `Insn.opens`, `Insn.isInstruction`): what the counters count.
- **Invariant** (`State.Tallied owed lead`): the counters describe what has been written, but for
  `owed` parts of regions whose scope is still to be opened; and at least `lead` blocks have been
  written behind no other one. `Tallies` is a change that keeps this.
- **Courses** (`Emits.tallied`): every task keeps the invariant, where a scope gets the part that
  was owed.
- **Routines** (`Graph.generate_statistics`): the result. A routine whose first block is written has
  a block behind no other one, the first.
-/

namespace Linearizer

namespace Insn

/-- Whether the element jumps through a table. -/
def isTable : Insn → Bool
  | .switch _ => true
  | _ => false

/-- Whether the element opens a part of a protected region. -/
def opens : Insn → Bool
  | .beginTry | .beginCatch _ | .beginFinally => true
  | _ => false

/-- Whether the element is neither a label nor a marker of a region. -/
def isInstruction : Insn → Bool
  | .label _ => false
  | i => !i.isMarker

/-- Whether the element counts as an instruction at most. -/
def isUncounted : Insn → Bool
  | .op _ | .ldloc _ | .stloc _ | .ldloca _ | .endTry | .label (.fresh _) => true
  | _ => false

theorem isUncounted_of_isPlain {i : Insn} (h : i.isPlain = true) (hc : i.callee? = none) :
    i.isUncounted = true := by
  cases i with
  | op | ldloc | stloc | ldloca => rfl
  | call => cases hc
  | _ => cases h

end Insn

theorem Tape.emitted_put (t : Tape) (i : Insn) :
    (t.put i).emitted = t.emitted + i.isInstruction.toNat := by
  cases i <;> rfl

@[simp] theorem State.counters_unqueue (s : State) (b : BlockId) :
    (s.unqueue b).counters = s.counters := by
  unfold unqueue
  split <;> rfl

/-- The counters describe the code (module doc). -/
structure State.Tallied (owed lead : Nat) (s : State) : Prop where
  blocks : s.counters.blocksEmitted = s.code.countP (·.marks?.isSome)
  branches : s.counters.branches = s.code.countP Insn.isBranch
  tables : s.counters.jumpTables = s.code.countP Insn.isTable
  calls : s.counters.helperCalls = s.code.countP (·.callee?.isSome)
  scopes : s.counters.scopesOpened + owed = s.code.countP Insn.opens
  instructions : s.tape.emitted = s.code.countP Insn.isInstruction
  specialized : s.counters.specialized ≤ s.counters.conversions
  byAddress : s.counters.byAddress ≤ s.counters.conversions
  lead : s.counters.fallthroughs + lead ≤ s.counters.blocksEmitted

/-- A change after which the counters describe the code if they did before. -/
def Tallies (s s' : State) : Prop := ∀ owed lead, s.Tallied owed lead → s'.Tallied owed lead

instance : IsPreorder State Tallies where
  refl _ _ _ h := h
  trans _ _ _ h h' owed lead hs := h' owed lead (h owed lead hs)

namespace State.Tallied

variable {owed lead : Nat} {s s' : State}

/-- Nothing is written, and only transfers back and outwards are counted. -/
theorem congr (h : s.Tallied owed lead) (code : s'.code = s.code)
    (emitted : s'.tape.emitted = s.tape.emitted)
    (same : ∃ d b, s'.counters = { s.counters with deferred := d, backEdges := b }) :
    s'.Tallied owed lead := by
  obtain ⟨d, b, hc⟩ := same
  have instructions := h.instructions
  rw [← emitted, ← code] at instructions
  refine ⟨?_, ?_, ?_, ?_, ?_, instructions, ?_, ?_, ?_⟩
  all_goals rw [hc]
  · exact code ▸ h.blocks
  · exact code ▸ h.branches
  · exact code ▸ h.tables
  · exact code ▸ h.calls
  · exact code ▸ h.scopes
  · exact h.specialized
  · exact h.byAddress
  · exact h.lead

theorem mono (h : s.Tallied owed lead) {lead' : Nat} (hl : lead' ≤ lead) : s.Tallied owed lead' :=
  { h with lead := Nat.le_trans (Nat.add_le_add_left hl _) h.lead }

/-- An element is written, and each counter counts it if it is of its form. -/
theorem put (h : s.Tallied owed lead) (i : Insn) {owed' lead' : Nat}
    (tape : s'.tape = s.tape.put i)
    (blocks : s'.counters.blocksEmitted = s.counters.blocksEmitted + i.marks?.isSome.toNat)
    (branches : s'.counters.branches = s.counters.branches + i.isBranch.toNat)
    (tables : s'.counters.jumpTables = s.counters.jumpTables + i.isTable.toNat)
    (calls : s'.counters.helperCalls = s.counters.helperCalls + i.callee?.isSome.toNat)
    (scopes : s'.counters.scopesOpened + owed' = s.counters.scopesOpened + owed + i.opens.toNat)
    (specialized : s'.counters.specialized ≤ s'.counters.conversions)
    (byAddress : s'.counters.byAddress ≤ s'.counters.conversions)
    (lead : s'.counters.fallthroughs + lead' ≤ s'.counters.blocksEmitted) :
    s'.Tallied owed' lead' := by
  have code : s'.code = s.code ++ [i] := by
    unfold State.code
    rw [tape, Tape.toList_put]
  -- Each counter goes up just where its number of elements does.
  have count (p : Insn → Bool) : s'.code.countP p = s.code.countP p + (p i).toNat := by
    rw [code, List.countP_append, List.countP_singleton]
    cases p i <;> rfl
  refine ⟨?_, ?_, ?_, ?_, ?_, ?_, specialized, byAddress, lead⟩
  · rw [count, ← h.blocks, blocks]
  · rw [count, ← h.branches, branches]
  · rw [count, ← h.tables, tables]
  · rw [count, ← h.calls, calls]
  · rw [count, ← h.scopes, scopes]
  · rw [count, ← h.instructions, tape, Tape.emitted_put]

/-- An element that no counter is about, but which may be an instruction. -/
theorem written (h : s.Tallied owed lead) {i : Insn} (hi : i.isUncounted = true) :
    (s.written i).Tallied owed lead := by
  have plain : i.marks?.isSome = false ∧ i.isBranch = false ∧ i.isTable = false ∧
      i.callee?.isSome = false ∧ i.opens = false := by
    cases i with
    | label l =>
      cases l with
      | block b => cases hi
      | fresh n => exact ⟨rfl, rfl, rfl, rfl, rfl⟩
    | op | ldloc | stloc | ldloca | endTry => exact ⟨rfl, rfl, rfl, rfl, rfl⟩
    | _ => cases hi
  obtain ⟨hm, hb, ht, hc, ho⟩ := plain
  refine h.put i rfl ?_ ?_ ?_ ?_ ?_ h.specialized h.byAddress h.lead
  · rw [hm]; rfl
  · rw [hb]; rfl
  · rw [ht]; rfl
  · rw [hc]; rfl
  · rw [ho]; rfl

/-- The part of a region that a marker opens is owed a scope. -/
theorem marked (h : s.Tallied 0 lead) {i : Insn} (ho : i.opens = true) :
    (s.written i).Tallied 1 lead := by
  cases i with
  | beginTry => exact h.put .beginTry rfl rfl rfl rfl rfl rfl h.specialized h.byAddress h.lead
  | beginCatch c =>
    exact h.put (.beginCatch c) rfl rfl rfl rfl rfl rfl h.specialized h.byAddress h.lead
  | beginFinally =>
    exact h.put .beginFinally rfl rfl rfl rfl rfl rfl h.specialized h.byAddress h.lead
  | _ => cases ho

theorem branched (h : s.Tallied owed lead) (o : BranchOp) (l : Label) :
    (s.branched o l).Tallied owed lead :=
  h.put (.branch o l) rfl rfl rfl rfl rfl rfl h.specialized h.byAddress h.lead

theorem skipped (h : s.Tallied owed lead) (o : BranchOp) : (s.skipped o).Tallied owed lead :=
  h.put (.branch o (.fresh s.nextLabel)) rfl rfl rfl rfl rfl rfl h.specialized h.byAddress h.lead

theorem tabled (h : s.Tallied owed lead) (targets : List BlockId) :
    (s.tabled targets).Tallied owed lead :=
  h.put (.switch (targets.map .block)) rfl rfl rfl rfl rfl rfl h.specialized h.byAddress h.lead

/-- A branch out of a scope is counted, and the end of a cleanup is no branch. -/
theorem exited (h : s.Tallied owed lead) (b : BlockId) : (s.exited b).Tallied owed lead := by
  have insn : exitInsn s.scopes b = .op .endfinally ∨ ∃ o l, exitInsn s.scopes b = .branch o l := by
    unfold exitInsn
    cases Gen.exitTo s.scopes b with
    | branch o => exact .inr ⟨o, _, rfl⟩
    | endfinally => exact .inl rfl
  refine h.put (exitInsn s.scopes b) rfl ?_ rfl ?_ ?_ ?_ h.specialized h.byAddress h.lead
  all_goals
    obtain hi | ⟨o, l, hi⟩ := insn <;> rw [hi] <;> rfl

theorem revisited (h : s.Tallied owed lead) (b : BlockId) : (s.revisited b).Tallied owed lead := by
  have counted : State.Tallied owed lead { s with counters := { s.counters with
      backEdges := s.counters.backEdges + 1 } } := h.congr rfl rfl ⟨_, _, rfl⟩
  exact counted.exited b

theorem unqueue (h : s.Tallied owed lead) (b : BlockId) : (s.unqueue b).Tallied owed lead :=
  h.congr (by simp [State.code]) (by simp)
    ⟨s.counters.deferred, s.counters.backEdges, s.counters_unqueue b⟩

/-- A block that is written behind no other one adds to the lead. -/
theorem entered (h : s.Tallied owed lead) (viaEdge : Bool) (b : BlockId) :
    (s.entered viaEdge b).Tallied owed (lead + (!viaEdge).toNat) := by
  refine (h.unqueue b).put (.label (.block b)) rfl rfl rfl rfl rfl rfl ?_ ?_ ?_
  · exact (h.unqueue b).specialized
  · exact (h.unqueue b).byAddress
  · have := h.lead
    cases viaEdge <;> simp [State.entered] <;> omega

/-- A new scope is counted, except for that of the routine. -/
theorem opened (kind : ScopeKind) (first hi : BlockId)
    (h : s.Tallied (kind != ScopeKind.routine).toNat lead) :
    (s.opened kind first hi).Tallied 0 lead := by
  have counted : State.Tallied 0 lead { s with counters := { s.counters with
      scopesOpened := s.counters.scopesOpened + (kind != ScopeKind.routine).toNat } } :=
    ⟨h.blocks, h.branches, h.tables, h.calls, h.scopes, h.instructions, h.specialized, h.byAddress,
      h.lead⟩
  exact (counted.unqueue first).congr rfl rfl ⟨_, _, rfl⟩

end State.Tallied

/-! ## Code of values -/

namespace Gen

theorem put_tallies {i : Insn} (h : i.isUncounted = true) : Does Tallies (put i) := fun _ _ _ hs =>
  hs.written h

theorem callDirect_tallies (h : Helper) : Does Tallies (callDirect h) := fun s _ _ hs =>
  hs.put (.call ((s.registry.after (s.peers.headD [])).resolve h).1) rfl rfl rfl rfl rfl rfl
    hs.specialized hs.byAddress hs.lead

/-- A change that neither writes nor counts. -/
theorem modify_tallies {f : State → State} (h : ∀ s, (f s).code = s.code ∧
    (f s).tape.emitted = s.tape.emitted ∧ (f s).counters = s.counters) :
    Does Tallies (modify f : Gen Unit) := fun s _ _ hs =>
  hs.congr (h s).1 (h s).2.1 ⟨_, _, (h s).2.2⟩

theorem place_tallies (v : VarId) : Does Tallies (place v) := by
  unfold place
  refine Does.get_bind fun s => ?_
  split
  · exact Does.pure _
  · exact Does.throw _

theorem declare_tallies (e : Encoding) : Does Tallies (declare e) :=
  fun _ _ _ hs => hs.congr rfl rfl ⟨_, _, rfl⟩

theorem temp_tallies (e : Encoding) : Does Tallies (temp e) := by
  unfold temp
  refine Does.get_bind fun s => ?_
  split
  · exact Does.pure _
  · refine (declare_tallies e).bind fun id => ?_
    exact Does.bind (modify_tallies fun _ => ⟨rfl, rfl, rfl⟩) fun _ => Does.pure id

/-- Values, stores and the parts of edges count what they write, and conversions. -/
theorem tallies_parts : Parts (fun _ => True) fun α (m : Gen α) => Does Tallies m where
  pure := Does.pure
  bind := Does.bind
  unconvertible _ _ _ := Does.throw _
  place _ := place_tallies _
  put hi hc := put_tallies (Insn.isUncounted_of_isPlain hi hc)
  callDirect _ := callDirect_tallies _
  conversion c _ _ _ hs :=
    ⟨hs.blocks, hs.branches, hs.tables, hs.calls, hs.scopes, hs.instructions,
      Nat.add_le_add hs.specialized (Bool.toNat_le c.specialized), Nat.le_succ_of_le hs.byAddress,
      hs.lead⟩
  address c _ _ _ hs :=
    ⟨hs.blocks, hs.branches, hs.tables, hs.calls, hs.scopes, hs.instructions,
      Nat.add_le_add hs.specialized (Bool.toNat_le c.specialized), Nat.succ_le_succ hs.byAddress,
      hs.lead⟩
  declare := declare_tallies
  temp := temp_tallies
  assume := modify_tallies fun _ => ⟨rfl, rfl, rfl⟩

/-! ## Statements and returns -/

theorem branch_tallies (o : BranchOp) (l : Label) : Does Tallies (branch o l) := fun _ _ _ hs =>
  hs.branched o l

/-- Statements count what they write as well. -/
theorem tallies_acts : Acts (fun _ => True) fun α (m : Gen α) => Does Tallies m where
  toParts := tallies_parts
  span _ := modify_tallies fun _ => ⟨rfl, rfl, rfl⟩
  throw := put_tallies rfl
  returnTop := tallies_parts.returnTop Does.get_bind (Does.throw _) (put_tallies rfl)
    (fun _ _ _ hs => hs.congr rfl rfl ⟨_, _, rfl⟩)
    (fun _ => modify_tallies fun _ => ⟨rfl, rfl, rfl⟩) fun l => branch_tallies .leave l

theorem fallOff_tallies (g : Graph) : Does Tallies (fallOff g) := fun s => by
  refine DoesFrom.read (currentScope_run g s) ?_
  split
  · exact put_tallies rfl s
  · exact ((tallies_parts.call rfl).bind fun _ => tallies_acts.returnTop) s

/-! ## Blocks that wait -/

theorem defer_tallies {b : BlockId} {s s' : State} (h : defer b s = .ok () s') :
    Tallies s s' := by
  obtain ⟨-, rfl⟩ | ⟨-, outer, -, rfl⟩ := defer_ok h
  · exact refl_of Tallies _
  · exact fun _ _ hs => hs.congr rfl rfl ⟨_, _, rfl⟩

/-- To schedule a block writes nothing, and counts at most that it is put off. -/
theorem schedule_tallies {g : Graph} {b : BlockId} {s s' : State}
    (h : (schedule g b : Gen Unit) s = .ok () s') :
    Tallies s s' := by
  obtain ⟨block, -, ⟨-, rfl⟩ | ⟨-, -, ⟨-, rfl⟩ | ⟨-, ho⟩⟩⟩ := schedule_ok h
  · exact refl_of Tallies _
  · exact fun _ _ hs => (hs.unqueue b).congr rfl rfl ⟨_, _, rfl⟩
  · exact defer_tallies ho

/-- The same for all targets of a table. -/
theorem schedules_tally {g : Graph} {targets : List BlockId} {s s' : State}
    (h : (targets.forM (schedule g) : Gen Unit) s = .ok () s') : Tallies s s' := by
  induction targets generalizing s with
  | nil =>
    cases h
    exact refl_of Tallies _
  | cons b rest ih =>
    obtain ⟨_, s₁, h₁, h₂⟩ := bind_ok h
    exact trans_of Tallies (schedule_tallies h₁) (ih h₂)

theorem nextPending_tallies {b : BlockId} {s s' : State} (h : nextPending s = .ok (some b) s') :
    Tallies s s' := by
  obtain ⟨scope, outer, rest, -, -, rfl⟩ := nextPending_some h
  exact fun _ _ hs => hs.congr rfl rfl ⟨_, _, rfl⟩

end Gen

/-! ## Courses -/

/-- How many parts of regions have been opened for the scope that a task starts with. -/
def Task.owed : Task → Nat
  | .scope kind _ _ => (kind != ScopeKind.routine).toNat
  | _ => 0

open Gen in
/-- Every task keeps the counters in step with the code. -/
theorem Emits.tallied {setting : Setting} {task : Task} {s s' : State}
    (h : Emits setting task s s') {lead : Nat} (hs : s.Tallied task.owed lead) :
    s'.Tallied 0 lead := by
  induction h generalizing lead with
  | revisit => exact hs.revisited _
  | pass | drained | noCase | noHandler | noCleanup => exact hs
  | @enter viaEdge b block s s' _ _ _ _ _ ih =>
    exact (ih (hs.entered viaEdge b)).mono (Nat.le_add_right _ _)
  | leave _ _ _ _ hq => exact defer_tallies hq _ _ (hs.exited _)
  | stop hst => exact (tallies_acts.statements fun _ _ _ _ => trivial).of_ok hst _ _ hs
  | goOn hst _ _ _ ih =>
    exact ih ((tallies_acts.statements fun _ _ _ _ => trivial).of_ok hst _ _ hs)
  | fallOff hst _ _ hf =>
    have hstatements := (tallies_acts.statements fun _ _ _ _ => trivial).of_ok hst _ _ hs
    exact (fallOff_tallies _).of_ok hf _ _ hstatements
  | drop _ _ hp => exact (put_tallies rfl).of_ok hp _ _ hs
  | direct _ _ _ _ hsched => exact schedule_tallies hsched _ _ (hs.branched _ _)
  | detour _ _ _ _ _ _ ih => exact (ih (hs.skipped _)).written rfl
  | scope _ _ _ _ _ ihv ihd => exact (ihd (ihv (hs.opened _ _ _))).congr rfl rfl ⟨_, _, rfl⟩
  | skip hn _ _ ih => exact ih (nextPending_tallies hn _ _ hs)
  | next hn _ _ _ ihv ih => exact ih (ihv (nextPending_tallies hn _ _ hs))
  | goto _ ih => exact ih hs
  | conditional hc _ _ ihb ihv =>
    exact ihv (ihb ((tallies_parts.expr (fun _ _ => trivial) _).of_ok hc _ _ hs))
  | «foreach» ha _ ih =>
    have hacquired := (tallies_parts.acquire fun _ _ => trivial).of_ok ha _ _ hs
    exact ih (hacquired.congr rfl rfl ⟨_, _, rfl⟩)
  | moveNext _ ha _ hst _ ihb ihv =>
    have hbranch := ihb ((tallies_parts.advance _).of_ok ha _ _ hs)
    exact ihv ((tallies_parts.storeItem _ trivial fun _ _ => trivial).of_ok hst _ _ hbranch)
  | chain _ hv _ _ ihc ihv =>
    exact ihv (ihc ((tallies_parts.select fun _ _ => trivial).of_ok hv _ _ hs))
  | table _ hi _ hj hsched _ ihb ihv =>
    have hindex := ihb ((tallies_parts.tableIndex (fun _ _ => trivial) _).of_ok hi _ _ hs)
    have hjump := ((tallies_parts.loadIndex _).of_ok hj _ _ hindex).tabled
    exact ihv (schedules_tally hsched _ _ (hjump _))
  | case hc _ _ ihb ihr => exact ihr (ihb ((tallies_parts.compare _ _ _).of_ok hc _ _ hs))
  | protect _ _ _ _ _ _ _ ihb ihh ihc ihv =>
    exact ihv ((ihc (ihh (ihb (hs.marked rfl)))).written rfl)
  | handler hc _ _ ihs ihr =>
    exact ihr (ihs ((tallies_parts.receive fun _ _ => trivial).of_ok hc _ _ (hs.marked rfl)))
  | cleanup _ ih => exact ih (hs.marked rfl)

/-- Nothing is written once no block waits. -/
theorem Emits.drain_eq {setting : Setting} {s s' : State} (h : Emits setting .drain s s')
    (idle : ∀ scope outer, s.scopes = scope :: outer → scope.pending = []) : s' = s := by
  have nothing {b : BlockId} {s₁ : State} (hn : Gen.nextPending s = .ok (some b) s₁) : False := by
    obtain ⟨scope, outer, rest, hs, hp, -⟩ := Gen.nextPending_some hn
    rw [idle scope outer hs] at hp
    cases hp
  cases h with
  | drained => rfl
  | skip hn => exact (nothing hn).elim
  | next hn => exact (nothing hn).elim

/-- The first block of a routine is written behind no other one, or nothing is written. -/
theorem Emits.routine_tallied {setting : Setting} {first hi : BlockId} {s s' : State}
    (h : Emits setting (.scope .routine first hi) s s') (hs : s.Tallied 0 0)
    (new : s.emitted = []) :
    s'.Tallied 0 1 ∨ s'.Tallied 0 0 ∧ s'.code = s.code ∧ s'.returnSlot = s.returnSlot := by
  cases h with
  | @scope _ _ _ _ s₁ s₂ lt hvisit hdrain _ _ =>
    have hopened := State.Tallied.opened .routine first hi hs
    cases hvisit with
    | revisit _ he => simp [new] at he
    | pass =>
      have := hdrain.drain_eq fun scope outer hsc => by
        rw [State.scopes_opened] at hsc
        cases hsc
        rfl
      subst this
      refine .inr ⟨hopened.congr rfl rfl ⟨_, _, rfl⟩, s.code_opened .routine first hi, ?_⟩
      exact s.returnSlot_opened .routine first hi
    | enter _ _ _ _ hbody =>
      refine .inl ((hdrain.tallied ?_).congr rfl rfl ⟨_, _, rfl⟩)
      exact hbody.tallied (hopened.entered false first)
    | leave _ _ _ out =>
      have : hi ≤ first := by simpa [State.innermost] using out
      exact absurd lt (Nat.not_lt.mpr this)

/-- The exit that returns share has a label of no block. -/
theorem Gen.sharedReturn_tallies {s s' : State} (fresh : s.ExitIsFresh)
    (h : sharedReturn s = .ok () s') : Tallies s s' := by
  unfold sharedReturn at h
  rw [run_bind (get_run s)] at h
  cases hr : s.returnSlot with
  | none =>
    rw [hr] at h
    cases h
    exact refl_of Tallies _
  | some shared =>
    rw [hr] at h
    obtain ⟨n, -, hl⟩ := fresh _ _ hr
    have exit : Does Tallies (do put (.label shared.2); put (.ldloc shared.1); op .ret) := by
      rw [hl]
      exact (put_tallies rfl).bind fun _ => (put_tallies rfl).bind fun _ => put_tallies rfl
    exact exit.of_ok h

/-- Places of variables are not counted. -/
theorem Gen.declarePlace_tallies (v : Variable) : Does Tallies (declarePlace v) := by
  have place {m : Gen Storage} (h : Does Tallies m) : Does Tallies (do
      let storage ← m
      modify fun s => { s with places := s.places ++ [⟨storage, v.encoding, v.hint⟩] }) :=
    h.bind fun _ => modify_tallies fun _ => ⟨rfl, rfl, rfl⟩
  unfold declarePlace
  split
  · exact place ((declare_tallies _).bind fun _ => Does.pure _)
  · exact place (Does.pure _)
  · exact place (Does.pure _)

/-- Nothing is written before the first block. -/
theorem Gen.declarePlaces_code {vars : List Variable} {s s' : State}
    (h : vars.forM declarePlace s = .ok () s') : s'.code = s.code := by
  induction vars generalizing s with
  | nil =>
    cases h
    rfl
  | cons v vars ih =>
    obtain ⟨_, s₁, h₁, h₂⟩ := bind_ok h
    refine (ih h₂).trans ?_
    unfold declarePlace at h₁
    cases hh : v.home <;> rw [hh] at h₁ <;> cases h₁ <;> rfl

namespace Graph

variable {g : Graph} {options : Options} {registry : Registry} {c : Counters}

/-- The counters describe the code in the end of a successful generation. -/
theorem lastState_tallied (h : (g.generate options registry).outcome = .ok c) :
    (g.lastState options registry).Tallied 0 1 ∨
      (g.lastState options registry).Tallied 0 0 ∧ (g.lastState options registry).code = [] := by
  obtain ⟨s₁, s₂, h₁, hemits, hsteps, -, hshared⟩ := Gen.routine_course rfl (generate_run h).1
  have start : State.Tallied 0 0 { registry } :=
    ⟨rfl, rfl, rfl, rfl, rfl, rfl, Nat.le_refl _, Nat.le_refl _, Nat.le_refl _⟩
  have declared := (Gen.Does.forM _ fun v _ => Gen.declarePlace_tallies v).of_ok h₁ 0 0 start
  have straight := (Gen.Does.forM _ fun v _ => Gen.declarePlace_straight v).of_ok h₁
  have fresh : s₂.ExitIsFresh := by
    refine hsteps.numbers.exitIsFresh fun _ _ hr => ?_
    rw [straight.returnSlot] at hr
    cases hr
  have last := Gen.sharedReturn_tallies fresh hshared
  obtain hs | ⟨hs, hcode, hslot⟩ := hemits.routine_tallied declared straight.emitted
  · exact .inl (last 0 1 hs)
  · refine .inr ⟨last 0 0 hs, ?_⟩
    have hexit : s₂.sharedExit = [] := by
      unfold State.sharedExit
      rw [hslot, straight.returnSlot]
    rw [Gen.sharedReturn_code hshared, hexit, hcode, Gen.declarePlaces_code h₁]
    rfl

/-- What is counted in a successful generation describes its listing, and all blocks are written
behind another one but the first, if any is written. -/
theorem generate_statistics (h : (g.generate options registry).outcome = .ok c) :
    let listing := (g.generate options registry).listing
    c.blocksEmitted = listing.blockOrder.length ∧
      c.branches = listing.branchCount ∧
      c.jumpTables = listing.insns.toList.countP Insn.isTable ∧
      c.helperCalls = listing.calls.length ∧
      c.scopesOpened = listing.insns.toList.countP Insn.opens ∧
      c.instructions = listing.insns.toList.countP Insn.isInstruction ∧
      c.specialized ≤ c.conversions ∧
      c.byAddress ≤ c.conversions ∧
      (c.fallthroughs < c.blocksEmitted ∨ listing.insns = #[]) := by
  have code := g.generate_code options registry
  have tallied : (g.lastState options registry).Tallied 0 0 :=
    (lastState_tallied h).elim (·.mono (Nat.zero_le 1)) And.left
  -- The first block is entered without an edge, if there is one.
  have first : c.fallthroughs < c.blocksEmitted ∨
      (g.generate options registry).listing.insns = #[] := by
    rw [(generate_run h).2]
    obtain hs | ⟨-, hnil⟩ := lastState_tallied h
    · exact .inl hs.lead
    · exact .inr (Array.toList_eq_nil_iff.mp (code.trans hnil))
  obtain ⟨-, rfl⟩ := generate_run h
  refine ⟨?_, ?_, ?_, ?_, ?_, ?_, tallied.specialized, tallied.byAddress, first⟩
  · rw [Listing.blockOrder_eq, code, List.length_filterMap_eq_countP]
    exact tallied.blocks
  · rw [Listing.branchCount, code]
    exact tallied.branches
  · rw [code]
    exact tallied.tables
  · change _ = ((g.generate options registry).listing.insns.toList.filterMap Insn.callee?).length
    rw [code, List.length_filterMap_eq_countP]
    exact tallied.calls
  · rw [code]
    exact tallied.scopes
  · rw [code]
    exact tallied.instructions

/-- A protected region around a jump through a table, with a conversion through an address. -/
def counted : Graph where
  name := "counted"
  vars := [⟨"n", .frame, .int64, .only .int64⟩, ⟨"x", .frame, .value, .any⟩]
  classes := ["Failure"]
  blocks := [
    ⟨"entry", false, [], some (.protect 1 [⟨0, some 1, 5⟩] (some 6) 7)⟩,
    ⟨"body", false, [], some (.switch (.var 0 (.only .int64))
      [⟨.int 0, 2⟩, ⟨.int 1, 3⟩, ⟨.int 2, 2⟩, ⟨.int 3, 3⟩] 4)⟩,
    ⟨"even", false, [⟨.echo (.var 1 .any), none⟩], some (.goto 4)⟩,
    ⟨"odd", false, [⟨.assign 0 (.var 1 .any), none⟩], some (.goto 4)⟩,
    ⟨"done", false, [], some (.goto 7)⟩,
    ⟨"handler", false, [], some (.goto 7)⟩,
    ⟨"cleanup", false, [], none⟩,
    ⟨"next", false, [], none⟩]

/-- The counters of such a routine. -/
theorem counted_statistics : ∃ c, (counted.generate {} {}).outcome = .ok c ∧
    c.blocksEmitted = 8 ∧ c.branches = 6 ∧ c.jumpTables = 1 ∧ c.scopesOpened = 3 ∧
    c.byAddress = 2 ∧ c.fallthroughs < 8 ∧
    c.helperCalls = (counted.generate {} {}).listing.calls.length ∧
    c.instructions = (counted.generate {} {}).listing.insns.toList.countP Insn.isInstruction := by
  have counts : (counted.generate {} {}).outcome.toOption.map
      (fun c => (c.blocksEmitted, c.branches, c.jumpTables, c.scopesOpened, c.byAddress)) =
        some (8, 6, 1, 3, 2) := by decide +kernel
  have filled : (counted.generate {} {}).listing.insns ≠ #[] := by decide +kernel
  cases ho : (counted.generate {} {}).outcome with
  | error d =>
    rw [ho] at counts
    cases counts
  | ok c =>
    rw [ho] at counts
    simp only [Except.toOption, Option.map_some, Option.some.injEq, Prod.mk.injEq] at counts
    obtain ⟨hblocks, hbranches, htables, hscopes, haddress⟩ := counts
    obtain ⟨-, -, -, hcalls, -, hinsns, -, -, hfirst⟩ := generate_statistics ho
    rw [hblocks] at hfirst
    exact ⟨c, rfl, hblocks, hbranches, htables, hscopes, haddress, hfirst.resolve_right filled,
      hcalls, hinsns⟩

end Graph
end Linearizer
