import Linearizer.Proofs.Generator.Walk

/-!
# The moves of generation

Whatever generation does to the state is one of a few moves, each with the condition under which
it is made. A run of any function of `Gen`, also one that fails, is a sequence of moves, so what
every move keeps holds of the state at any time.

- **Writing** (`State.MayWrite`): which elements may be written beside the code of statements and
  the labels of blocks: exits to blocks, conditional branches, tables, markers of regions.
- **Moves** (`Move`): those that leave the schedule alone (`quiet`), the label of a block
  (`enter`), a block that comes to wait in an outer scope (`defer`) or in the innermost one
  (`claim`), a block taken from those that wait (`take`), scopes that are opened and closed.
  Counters are left out: a move may change them in any way.
- **Runs** (`Steps`): `Gen.routine_steps` says that generation makes moves and nothing else. Inside
  a routine a scope is open at any time, which `Within` keeps beside the moves.
-/

namespace Linearizer

/-- Whether the element is a marker of a protected region. -/
def Insn.isMarker : Insn → Bool
  | .beginTry | .beginCatch _ | .beginFinally | .endTry => true
  | _ => false

namespace State

/-- A branch may lead to the block from the innermost scope: it has been written, or the scope
leaves it to an outer one. -/
def MayExit (g : Graph) (s : State) (b : BlockId) : Prop :=
  b ∈ s.emitted ∨ (g.isLive b = true ∧ b ∉ s.emitted ∧ (s.innermost g).hi ≤ b)

/-- The elements that may be written beside the code of statements and the labels of blocks. -/
inductive MayWrite (g : Graph) (s : State) : Insn → Prop
  | exit {b : BlockId} (h : s.MayExit g b) : s.MayWrite g (exitInsn s.scopes b)
  /-- A conditional branch inside the innermost scope. -/
  | conditional {o : BranchOp} {b : BlockId} (ho : o.isConditional = true)
      (live : g.isLive b = true) (within : (s.innermost g).contains b = true) :
      s.MayWrite g (.branch o (.block b))
  /-- A conditional branch over an exit. -/
  | skip {o : BranchOp} {n : Nat} (ho : o.isConditional = true) (hn : n < s.nextLabel) :
      s.MayWrite g (.branch o (.fresh n))
  | land {n : Nat} (hn : n < s.nextLabel) : s.MayWrite g (.label (.fresh n))
  | table {targets : List BlockId}
      (within : ∀ b ∈ targets, (s.innermost g).contains b = true) :
      s.MayWrite g (.switch (targets.map .block))
  | marker {i : Insn} (h : i.isMarker = true) : s.MayWrite g i

end State

/-- A move of generation (module doc). -/
inductive Move (g : Graph) : State → State → Prop
  | quiet {s s' : State} (h : Quiet g s s') : Move g s s'
  | write {s : State} {c : Counters} {i : Insn} (h : s.MayWrite g i) :
      Move g s { s with tape := s.tape.put i, counters := c }
  | fresh {s : State} : Move g s { s with nextLabel := s.nextLabel + 1 }
  | enumerate {s : State} {b : BlockId} {slot : LocalId} :
      Move g s { s with enumerators := (b, slot) :: s.enumerators }
  | enter {s : State} {viaEdge : Bool} {b : BlockId} (live : g.isLive b = true)
      (new : b ∉ s.emitted) (within : (s.innermost g).contains b = true) :
      Move g s (s.entered viaEdge b)
  | defer {s : State} {b : BlockId} {outer : List Scope}
      (live : g.isLive b = true) (new : b ∉ s.emitted)
      (out : (s.innermost g).contains b = false) (idle : b ∉ s.queued)
      (h : Gen.enqueueIn b s.scopes.tail = some outer) : Move g s (s.deferred b outer)
  | claim {s : State} {b : BlockId} (hs : s.scopes ≠ []) (live : g.isLive b = true)
      (new : b ∉ s.emitted) (within : (s.innermost g).contains b = true) : Move g s (s.claimed b)
  | take {s : State} {scope : Scope} {outer : List Scope} {b : BlockId} {rest : List BlockId}
      (hs : s.scopes = scope :: outer) (hp : scope.pending = b :: rest) :
      Move g s { s with
        scopes := { scope with pending := rest } :: outer
        queued := s.queued.filter (· != b) }
  | opened {s : State} {kind : ScopeKind} {first hi : BlockId} (h : first < hi)
      (whole : kind = .routine → hi = g.size) : Move g s (s.opened kind first hi)
  | closed {s : State} {scope : Scope} {outer : List Scope} (hs : s.scopes = scope :: outer)
      (hp : scope.pending = []) : Move g s { s with scopes := outer }

/-- A sequence of moves. -/
abbrev Steps (g : Graph) : State → State → Prop := Relation.ReflTransGen (Move g)

theorem Quiets.steps {g : Graph} {s s' : State} (h : Quiets g s s') : Steps g s s' :=
  Relation.ReflTransGen.mono (fun _ _ => Move.quiet) _ _ h

/-- A move makes new labels at most. -/
theorem Move.numbers {g : Graph} {s s' : State} (h : Move g s s') : Numbers s s' := by
  cases h with
  | quiet h => exact h.calm.numbers
  | fresh => exact ⟨Nat.le_succ _, .inl rfl⟩
  | enter | claim => exact .of_eq (by simp [State.entered, State.claimed]) (by
      simp [State.entered, State.claimed])
  | opened => exact .of_eq (by simp) (by simp)
  | _ => exact .of_eq rfl rfl

theorem Steps.numbers {g : Graph} {s s' : State} (h : Steps g s s') : Numbers s s' := by
  induction h with
  | refl => exact .of_eq rfl rfl
  | tail _ hm ih => exact ih.trans hm.numbers

/-- What has been written stays. -/
theorem Move.grows {g : Graph} {s s' : State} (h : Move g s s') : s.code <+: s'.code := by
  have of_put {i : Insn} (hc : s'.code = s.code ++ [i]) : s.code <+: s'.code :=
    hc ▸ List.prefix_append _ _
  have of_eq (hc : s'.code = s.code) : s.code <+: s'.code := hc ▸ List.prefix_refl _
  cases h with
  | quiet h => exact h.calm.grows
  | write => exact of_put (Tape.toList_put _ _)
  | enter => exact of_put (s.code_entered _ _)
  | claim => exact of_eq (by simp [State.code, State.claimed])
  | opened => exact of_eq (s.code_opened _ _ _)
  | fresh | enumerate | defer | take | closed => exact of_eq rfl

/-- Code is only added to. -/
theorem Steps.grows {g : Graph} {s s' : State} (h : Steps g s s') : s.code <+: s'.code := by
  induction h with
  | refl => exact List.prefix_refl _
  | tail _ hm ih => exact ih.trans hm.grows

/-! ## Inside a scope -/

theorem State.scopes_ne_nil {s s' : State} (h : s'.frames = s.frames) (hs : s.scopes ≠ []) :
    s'.scopes ≠ [] := by
  intro hn
  rw [State.frames, hn, List.map_nil] at h
  exact hs (List.map_eq_nil_iff.mp h.symm)

/-- The shared exit is written where no scope is open. -/
theorem Gen.sharedReturn_steps {g : Graph} {s : State} (hs : s.scopes = []) (hf : s.ExitIsFresh) :
    DoesFrom (Steps g) sharedReturn s := by
  unfold sharedReturn
  refine DoesFrom.read (get_run s) ?_
  cases hr : s.returnSlot with
  | none => exact DoesFrom.pure _ _
  | some shared =>
    obtain ⟨slot, label⟩ := shared
    obtain ⟨n, hn, rfl⟩ := hf slot label hr
    refine DoesFrom.bind (.single (.write (c := s.counters) (.land hn))) fun _ s₁ h₁ => ?_
    cases h₁
    refine DoesFrom.bind (.single (.quiet (.straight ?_))) fun _ s₂ h₂ => ?_
    · exact (put_straight rfl rfl).of_ok rfl
    · cases h₂
      exact .single (.quiet (.ret (by simp [hs])))

/-! ## What moves keep -/

/-- A property of states that moves may keep, where there is room for a number of visits, a number
of blocks may still be taken from a scope, or a failure has happened. -/
structure Moving (setting : Setting) where
  holds (room : Nat) : State → Prop
  left (steps : Nat) : State → Prop
  failed : Fault → State → Prop

namespace Moving

variable {setting : Setting}

/-- The property is kept by moves, and by blocks that are written and taken from a scope. -/
structure Kept (M : Moving setting) : Prop where
  move {n : Nat} {s s' : State} : Move setting.graph s s' → M.holds n s → M.holds n s'
  enter {n : Nat} {viaEdge : Bool} {b : BlockId} {s : State} :
    setting.graph.isLive b = true → b ∉ s.emitted →
      (s.innermost setting.graph).contains b = true → M.holds (n + 1) s →
      M.holds n (s.entered viaEdge b)
  grow {n : Nat} {s : State} : M.holds n s → M.holds (n + 1) s
  fails {n : Nat} {e : Fault} {s : State} : e.isNesting = false → M.holds n s → M.failed e s
  nesting {s : State} : M.holds 0 s → M.failed .nesting s
  start {n : Nat} {s : State} : M.holds n s → M.left (setting.graph.size + 1) s
  stuck {n : Nat} {s : State} : M.holds n s → M.left 0 s → M.failed .nesting s
  skip {n k : Nat} {b : BlockId} {s s₁ : State} : Gen.nextPending s = .ok (some b) s₁ →
    b ∈ s₁.emitted → M.holds n s → M.left (k + 1) s → M.left k s₁
  next {n k : Nat} {b : BlockId} {s s₁ s₂ : State} : Gen.nextPending s = .ok (some b) s₁ →
    b ∉ s₁.emitted → Emits setting (.visit false b) s₁ s₂ → M.holds n s → M.holds n s₂ →
      M.left (k + 1) s → M.left k s₂

/-- The property holds where some scopes are open and some labels are in use. -/
structure Stands (M : Moving setting) (n : Nat)
    (i : List (ScopeKind × BlockId × BlockId) × Nat) (s : State) : Prop where
  holds : M.holds n s
  frames : s.frames = i.1
  labels : i.2 ≤ s.nextLabel

/-- The property at the points of a generation. -/
def invariant (M : Moving setting) : Invariant setting where
  Index := List (ScopeKind × BlockId × BlockId) × Nat
  may i _ := i.1 ≠ []
  rest n i _ s := M.Stands n i s
  cond n i _ s := M.Stands n i s
  inBlock n i _ _ s := M.Stands n i s ∧ i.1 ≠ []
  loop n i k _ s := M.Stands n i s ∧ M.left k s
  owed n i _ _ _ s := M.Stands n i s
  done n i _ _ _ s := M.Stands n i s
  noted c _ s := (∃ n, M.holds n s) ∧ s.scopes ≠ [] ∧
    ∀ kind, c = .closeScope kind → ∃ lo hi outer, s.scopes = ⟨kind, lo, hi, []⟩ :: outer
  failed e _ s := M.failed e s

section Kept

variable {M : Moving setting} (hM : M.Kept) {n : Nat}
  {i : List (ScopeKind × BlockId × BlockId) × Nat} {s s' : State} {calls : List Call}

theorem Stands.scopes_ne_nil (h : M.Stands n i s) (hi : i.1 ≠ []) : s.scopes ≠ [] := by
  intro hn
  refine hi ?_
  rw [← h.frames, State.frames, hn, List.map_nil]

include hM

/-- A move that leaves the ranges of the scopes keeps the assertion. -/
theorem Stands.move (h : M.Stands n i s) (hm : Move setting.graph s s')
    (hf : s'.frames = s.frames) : M.Stands n i s' :=
  ⟨hM.move hm h.holds, hf.trans h.frames, Nat.le_trans h.labels hm.numbers.nextLabel⟩

theorem Stands.write (h : M.Stands n i s) {c : Counters} {x : Insn}
    (hw : s.MayWrite setting.graph x) :
    M.Stands n i { s with tape := s.tape.put x, counters := c } :=
  Stands.move hM h (.write hw) rfl

/-- What every move keeps, all moves of a run keep. -/
theorem steps (hs : Steps setting.graph s s') (h : M.holds n s) : M.holds n s' := by
  induction hs with
  | refl => exact h
  | tail _ hm ih => exact hM.move hm ih

theorem Stands.steps (h : M.Stands n i s) (hs : Steps setting.graph s s')
    (hf : s'.frames = s.frames) : M.Stands n i s' :=
  ⟨Moving.steps hM hs h.holds, hf.trans h.frames, Nat.le_trans h.labels hs.numbers.nextLabel⟩

/-- A scope is opened around a block and closed when none waits. -/
theorem opens {kind : ScopeKind} {first hi : BlockId} (lt : first < hi)
    (whole : kind = .routine → hi = setting.graph.size) :
    M.invariant.Opens n kind first hi (fun _ => M.Stands n i) fun _ => M.Stands n i := by
  intro calls s hs
  refine ⟨((kind, first, hi) :: i.1, i.2), List.cons_ne_nil _ _, ⟨?_, ?_, ?_⟩, ?_⟩
  · exact hM.move (.opened lt whole) hs.holds
  · rw [State.frames, State.scopes_opened, List.map_cons, ← hs.frames, ← s.frames_unqueue first]
    rfl
  · rw [State.nextLabel_opened]
    exact hs.labels
  · intro calls s outer hs hscopes
    have hclosed : M.Stands n i { s with scopes := outer } := by
      refine ⟨hM.move (.closed hscopes rfl) hs.holds, ?_, hs.labels⟩
      have hf := hs.frames
      rw [State.frames, hscopes, List.map_cons] at hf
      exact (List.cons.inj hf).2
    refine ⟨⟨⟨n, hs.holds⟩, by simp [hscopes], fun kind' hk => ?_⟩, fun _ => hclosed, fun _ => ?_⟩
    · cases hk
      exact ⟨first, hi, outer, hscopes⟩
    · exact hM.fails rfl hclosed.holds

/-- Visits, from the moves that they make. -/
theorem keepsVisits : M.invariant.KeepsVisits where
  note {c b n i calls s} hc hmay hs := by
    refine ⟨⟨⟨n, hs.holds⟩, hs.scopes_ne_nil hmay, fun kind hk => ?_⟩, hs⟩
    rw [hk] at hc
    cases hc
  fails {n i e calls s} he hs := by
    refine hM.fails ?_ hs.holds
    cases e with
    | nesting => cases he
    | _ => rfl
  nesting hs := hM.nesting hs.holds
  grow hs := ⟨hM.grow hs.holds, hs.frames, hs.labels⟩
  revisit _ _ he hs := hs.write hM (.exit (.inl he))
  enter {n i viaEdge b calls s} _ hmay live new within hs := by
    refine ⟨⟨hM.enter live new within hs.holds, ?_, ?_⟩, hmay⟩
    · exact (s.frames_unqueue b).trans hs.frames
    · simpa [State.entered] using hs.labels
  exit _ live new out hs := hs.write hM (.exit (.inr ⟨live, new, out⟩))
  claim {n i b calls s} _ hmay live new within hs :=
    hs.move hM (.claim (hs.scopes_ne_nil hmay) live new within) (s.frames_claimed b)
  defer _ _ live new out idle ho hs :=
    hs.move hM (.defer live new out idle ho) (Gen.deferred_frames ho)

/-- Conditional branches, from the moves that they make. -/
theorem keepsBranches : M.invariant.KeepsBranches where
  branch {n i o target calls s} _ hmay hs :=
    ⟨⟨⟨n, hs.holds⟩, hs.scopes_ne_nil hmay, nofun⟩, fun e he => (keepsVisits hM).fails he hs⟩
  drop hs := hs.move hM (.quiet (.straight ((Gen.op_straight rfl).of_ok rfl))) rfl
  direct ho _ live within hs := hs.write hM (.conditional ho live within)
  detour {n i o target calls s} ho hmay _ _ hs := by
    have hfresh : M.Stands n i { s with nextLabel := s.nextLabel + 1 } := hs.move hM .fresh rfl
    have hskip : M.Stands n i (s.skipped o.negate) :=
      hfresh.write hM (.skip (Gen.negate_isConditional ho) (Nat.lt_succ_self _))
    refine ⟨(i.1, s.nextLabel + 1), hmay, ⟨hskip.holds, hskip.frames, Nat.le_refl _⟩, ?_⟩
    intro calls s' hs'
    have hland : s.nextLabel < s'.nextLabel := hs'.labels
    have hs'' : M.Stands n i s' :=
      ⟨hs'.holds, hs'.frames, Nat.le_trans hs.labels (Nat.le_of_lt hland)⟩
    exact hs''.write hM (.land hland)

/-- Taking the blocks that wait, as long as there is room for it. -/
theorem keepsLoops : M.invariant.KeepsLoops where
  start hs := ⟨hs, hM.start hs.holds⟩
  stuck hs := hM.stuck hs.1.holds hs.2
  drained hs := hs.1
  skip {n k i b calls s s₁} hn he hs := by
    obtain ⟨scope, outer, rest, hscopes, hp, rfl⟩ := Gen.nextPending_some hn
    exact ⟨hs.1.move hM (.take hscopes hp) (by simp [State.frames, hscopes]),
      hM.skip hn he hs.1.holds hs.2⟩
  next {n k i b calls s s₁} hn new hs := by
    obtain ⟨scope, outer, rest, hscopes, hp, rfl⟩ := Gen.nextPending_some hn
    have hi : i.1 ≠ [] := by
      rw [← hs.1.frames, State.frames, hscopes]
      exact List.cons_ne_nil _ _
    refine ⟨hi, hs.1.move hM (.take hscopes hp) (by simp [State.frames, hscopes]), ?_⟩
    exact fun calls s₂ hemits hs₂ =>
      ⟨hs₂, hM.next hn new hemits hs.1.holds hs₂.holds hs.2⟩

/-- Statements and edges, which only write. -/
theorem keepsStraight : M.invariant.KeepsStraight fun i b =>
    ∀ s : State, s.frames = i.1 → (s.innermost setting.graph).contains b = true where
  straight h hs := hs.move hM (.quiet (.straight h)) h.frames
  quiets h hs := ⟨hs.1.steps hM h.steps h.calm.frames, hs.2⟩
  cond hs := hs
  leave hs := hs.1
  fails he hs := hM.fails he hs.holds
  successor _ _ _ _ hs := hs.2
  remember hs := hs.move hM .enumerate rfl
  chosen hc hs s' hf := by
    rwa [State.contains_innermost_congr (hf.trans hs.1.frames.symm)]
  tabled {n i targets calls s} ht hs := hs.write hM (.table fun b hb => ht b hb s hs.frames)

/-- The markers of a region, and the scopes of its parts. -/
theorem keepsRegions : M.invariant.KeepsRegions where
  beginTry _ _ hs := hs.1.write hM (c := _) (.marker rfl)
  catches {n i b body next hi handlers cleanup h r parts calls s} _ _ hs := by
    refine .of_straight (Gen.receive_straight h) (Gen.Finishes.parts.receive fun _ _ => trivial)
      (fun s' hr => ?_) fun e s' hs he => hM.fails he hs.holds
    have hs : M.Stands n i (s.written (.beginCatch h.cls)) :=
      hs.write hM (c := s.counters) (.marker rfl)
    exact hs.move hM (.quiet (.straight hr)) hr.frames
  cleans hs := hs.write hM (c := _) (.marker rfl)
  endTry hs := hs.write hM (c := _) (.marker rfl)
  next_may _ hs := hs.2
  opens {n i r parts} lt := opens hM lt fun hk => absurd hk r.part.kind_ne_routine

/-- What every move keeps, generation keeps. -/
theorem kept : M.invariant.Kept :=
  { keepsVisits hM, keepsBranches hM, keepsLoops hM, (keepsStraight hM).blocks,
    keepsRegions hM with }

/-- The run of a whole routine, which starts where no scope is open. -/
theorem routine_meets {start : State} (hs : start.scopes = [])
    (h : M.holds (setting.graph.size + 1) start)
    (fresh : ∀ {n : Nat} {s : State}, M.holds n s → s.ExitIsFresh) :
    M.invariant.MeetsFrom (Journaled.routine setting) (fun _ _ => M.holds (setting.graph.size + 1))
      [] start := by
  have hdeclare : Gen.Does Straight (setting.graph.vars.forM Gen.declarePlace) :=
    .forM _ fun v _ => Gen.declarePlace_straight v
  have declared (s' : State) (hr : Straight start s') :
      M.Stands (setting.graph.size + 1) ([], 0) s' :=
    ⟨hM.move (.quiet (.straight hr)) h, by rw [hr.frames, State.frames, hs, List.map_nil],
      Nat.zero_le _⟩
  refine (kept hM).routine_meets (fun _ => hM.fails rfl h) ?_
    (fun lt => opens hM (i := ([], 0)) lt fun _ => rfl) fun calls s hs => ?_
  · exact .of_straight hdeclare (.forM _ Gen.declarePlace_finishes) declared
      fun _ _ hs he => hM.fails he hs.holds
  · have closed : s.scopes = [] := List.map_eq_nil_iff.mp hs.frames
    have hsteps := Gen.sharedReturn_steps (g := setting.graph) closed (fresh hs.holds)
    cases hr : Gen.sharedReturn s with
    | ok a s' => exact Gen.MeetsFrom.to_ok hr (steps hM (hsteps.of_ok hr) hs.holds)
    | error e s' =>
      have he := (Gen.sharedReturn_finishes s trivial).of_error hr
      exact Gen.MeetsFrom.to_error hr (hM.fails he (steps hM (hsteps.of_error hr) hs.holds))

end Kept
end Moving

/-! ## Routines -/

namespace Gen

variable {setting : Setting} {start : State}

/-- Moves lead from a state to all points of a generation. -/
def reached (setting : Setting) (start : State) : Moving setting where
  holds _ s := Steps setting.graph start s
  left _ _ := True
  failed _ s := Steps setting.graph start s

/-- To be reached by moves is kept by moves. -/
theorem reached_kept : (reached setting start).Kept where
  move hm hs := hs.tail hm
  enter live new within hs := hs.tail (.enter live new within)
  grow hs := hs
  fails _ hs := hs
  nesting hs := hs
  start _ := trivial
  stuck hs _ := hs
  skip _ _ _ _ := trivial
  next _ _ _ _ _ _ := trivial

/-- A computation with a journal that keeps to what can be reached makes moves, and so does the
one without. -/
theorem steps_of_meets {α : Type} {x : Journaled α} {calls : List Call} {s : State} {n : Nat}
    {i : List (ScopeKind × BlockId × BlockId) × Nat}
    (h : (reached setting s).invariant.MeetsFrom x (fun _ _ => (reached setting s).Stands n i)
      calls s) : DoesFrom (Steps setting.graph) (Journaled.erase x) s :=
  h.erase.does (fun _ _ ⟨_, hs⟩ => hs.holds) fun _ _ ⟨_, hs⟩ => hs

theorem reached_start (n : Nat) (s : State) : (reached setting s).Stands n (s.frames, 0) s :=
  ⟨.refl, rfl, Nat.zero_le _⟩

/-- A scope makes moves. -/
theorem scope_steps (depth : Nat) {kind : ScopeKind} {first hi : BlockId} (lt : first < hi)
    (whole : kind = .routine → hi = setting.graph.size) (s : State) :
    DoesFrom (Steps setting.graph) (scope setting (visit setting depth) kind first hi) s := by
  have hI : (reached setting s).invariant.Kept := Moving.kept reached_kept
  have h := steps_of_meets (hI.scope_meets (hI.visit_carries depth)
    (Moving.opens reached_kept lt whole) [] s (reached_start depth s))
  rwa [Journaled.erase_scope, Journaled.eraseVisit_visit] at h

/-- So does the rest of a block. -/
theorem blockBody_steps (depth : Nat) {b : BlockId} {block : Block} {s : State}
    (hb : setting.graph.block? b = some block) (hs : s.scopes ≠ []) :
    DoesFrom (Steps setting.graph) (blockBody setting (visit setting depth) b block) s := by
  have hI : (reached setting s).invariant.Kept := Moving.kept reached_kept
  have active : s.frames ≠ [] := fun hn => hs (List.map_eq_nil_iff.mp hn)
  have h := steps_of_meets (hI.blockBody_meets (hI.visit_carries depth) hb [] s
    ⟨reached_start depth s, active⟩)
  rwa [Journaled.erase_blockBody, Journaled.eraseVisit_visit] at h

/-- Generation of a routine makes moves and nothing else, also when it fails. -/
theorem routine_steps (setting : Setting) {s : State} (hs : s.scopes = [])
    (hr : s.returnSlot = none) : DoesFrom (Steps setting.graph) (routine setting) s := by
  have fresh {n : Nat} {s' : State} (h : (reached setting s).holds n s') : s'.ExitIsFresh :=
    Steps.numbers h |>.exitIsFresh fun slot label hl => by
      rw [hr] at hl
      cases hl
  have h : (reached setting s).invariant.MeetsFrom (Journaled.routine setting) _ [] s :=
    Moving.routine_meets reached_kept hs .refl fresh
  rw [← Journaled.erase_routine]
  exact h.erase.does (fun _ _ ⟨_, hs⟩ => hs) fun _ _ ⟨_, hs⟩ => hs

end Gen
end Linearizer
