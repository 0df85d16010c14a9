import Linearizer.Proofs.Generator.Walk
import Linearizer.Proofs.Statistics

/-!
# Journals that explain the state

A journal is of use only if no call is missing from it. Whatever can be seen of the schedule is
traced back to calls that were noted before, at every moment of a journal and in the end.

- **States** (`State.Explained owed`): blocks that have been written, blocks that wait, conditional
  branches to blocks and scopes that are not open any more have their calls, where `owed` parts of
  regions are still to get their scope.
- **Journals** (`Journaled.Complete`): at each moment the calls before it explain the state.
- **Generation** (`Gen.explained`): that the calls explain the state is an invariant, which every
  step keeps; `Journaled.routine_complete` is the result for routines.
-/

namespace Linearizer

/-- Whether the end of a scope is noted. -/
def Call.isClose : Call → Bool
  | .closeScope _ => true
  | _ => false

/-- Whether no call has to be noted for an element: it opens no part of a region and is no
conditional branch to a block. -/
def Insn.isFree : Insn → Bool
  | .branch o (.block _) => !o.isConditional
  | i => !i.opens

theorem Insn.opens_of_isFree {i : Insn} (h : i.isFree = true) : i.opens = false := by
  cases i with
  | beginTry | beginCatch | beginFinally => cases h
  | _ => rfl

theorem Insn.isFree_of_isPlain {i : Insn} (h : i.isPlain = true) : i.isFree = true := by
  cases i with
  | op | call | ldloc | stloc | ldloca => rfl
  | _ => cases h

theorem Insn.isFree_of_isEnd {i : Insn} (h : i.isEnd = true) : i.isFree = true := by
  cases i with
  | op => rfl
  | _ => cases h

theorem Insn.isFree_exitInsn (scopes : List Scope) (b : BlockId) :
    (exitInsn scopes b).isFree = true := by
  unfold exitInsn
  cases he : Gen.exitTo scopes b with
  | endfinally => rfl
  | branch o =>
    unfold Gen.exitTo at he
    split at he
    · cases he
      rfl
    · split at he
      · cases he
      · split at he <;> cases he <;> rfl

/-! ## States -/

/-- The calls explain the state (module doc). -/
structure State.Explained (owed : Nat) (calls : List Call) (s : State) : Prop where
  written : ∀ b ∈ s.emitted, ∃ viaEdge, .visit viaEdge b ∈ calls
  waiting : ∀ b ∈ s.queued, .schedule b ∈ calls ∨ .enqueueOuter b ∈ calls
  branches : ∀ o b, o.isConditional = true →
    s.code.count (.branch o (.block b)) ≤ calls.count (.branchTo o b)
  /-- The scopes of the routine and of the parts of regions are open, or their ends were noted. -/
  closed : s.code.countP Insn.opens < s.scopes.length + calls.countP Call.isClose + owed

namespace State.Explained

variable {owed : Nat} {calls : List Call} {s s' : State} {b : BlockId}

theorem mono (h : s.Explained owed calls) {owed' : Nat} (ho : owed ≤ owed') :
    s.Explained owed' calls :=
  { h with closed := Nat.lt_of_lt_of_le h.closed (Nat.add_le_add_left ho _) }

/-- One more call explains no less. -/
theorem cons (h : s.Explained owed calls) (c : Call) : s.Explained owed (c :: calls) where
  written b hb := (h.written b hb).imp fun _ => .tail c
  waiting b hb := (h.waiting b hb).imp (.tail c) (.tail c)
  branches o b ho := Nat.le_trans (h.branches o b ho) List.count_le_count_cons
  closed := by
    have hclosed := h.closed
    rw [List.countP_cons]
    omega

/-- Free elements are written, and a block that is new among those that have been written or that
wait has its call. -/
theorem change (h : s.Explained owed calls)
    (code : ∃ code, s'.code = s.code ++ code ∧ ∀ i ∈ code, i.isFree = true)
    (written : ∀ b ∈ s'.emitted, b ∈ s.emitted ∨ ∃ viaEdge, .visit viaEdge b ∈ calls)
    (waiting : ∀ b ∈ s'.queued, b ∈ s.queued ∨ .schedule b ∈ calls ∨ .enqueueOuter b ∈ calls)
    (frames : s'.frames = s.frames) : s'.Explained owed calls := by
  obtain ⟨code, hcode, hfree⟩ := code
  have hlength : s'.scopes.length = s.scopes.length := by
    simpa [State.frames] using congrArg List.length frames
  refine ⟨fun b hb => (written b hb).elim (h.written b) id,
    fun b hb => (waiting b hb).elim (h.waiting b) id, fun o b ho => ?_, ?_⟩
  · have hnone : code.count (.branch o (.block b)) = 0 := by
      refine List.count_eq_zero.mpr fun hm => ?_
      have := hfree _ hm
      simp [Insn.isFree, ho] at this
    rw [hcode, List.count_append, hnone]
    exact h.branches o b ho
  · have hnone : code.countP Insn.opens = 0 := by
      refine List.countP_eq_zero.mpr fun i hm => ?_
      simp [Insn.opens_of_isFree (hfree i hm)]
    rw [hcode, List.countP_append, hnone, hlength]
    exact h.closed

/-- Where nothing is scheduled, nothing has to be explained. -/
theorem calm (h : s.Explained owed calls) (hc : Calm s s') : s'.Explained owed calls := by
  obtain ⟨code, hcode, hi⟩ := hc.code
  refine h.change ⟨code, hcode, fun i hm => ?_⟩ ?_ ?_ hc.frames
  · obtain hp | he | ⟨slot, label, -, rfl⟩ := hi i hm
    · exact Insn.isFree_of_isPlain hp
    · exact Insn.isFree_of_isEnd he
    · cases label <;> rfl
  · rw [hc.emitted]
    exact fun _ => .inl
  · rw [hc.queued]
    exact fun _ => .inl

/-- A free element is written. -/
theorem put (h : s.Explained owed calls) {i : Insn} (hi : i.isFree = true)
    (code : s'.code = s.code ++ [i]) (emitted : s'.emitted = s.emitted)
    (queued : s'.queued = s.queued) (scopes : s'.scopes = s.scopes) : s'.Explained owed calls := by
  refine h.change ⟨[i], code, by simpa using hi⟩ ?_ ?_ (by simp [frames, scopes])
  · rw [emitted]
    exact fun _ => .inl
  · rw [queued]
    exact fun _ => .inl

theorem unqueue (h : s.Explained owed calls) (b : BlockId) :
    (s.unqueue b).Explained owed calls := by
  refine h.change ⟨[], by simp [code], by simp⟩ ?_ ?_ (s.frames_unqueue b)
  · rw [emitted_unqueue]
    exact fun _ => .inl
  · rw [queued_unqueue]
    exact fun c hc => .inl (List.mem_filter.mp hc).1

/-- A block that is written is explained by its visit. -/
theorem entered (h : s.Explained owed calls) {viaEdge : Bool} (hc : .visit viaEdge b ∈ calls) :
    (s.entered viaEdge b).Explained owed calls := by
  refine (h.unqueue b).change ⟨[.label (.block b)], Tape.toList_put _ _, ?_⟩ ?_ (fun _ => .inl) rfl
  · exact List.forall_mem_singleton.mpr rfl
  intro c hm
  obtain rfl | hm := List.mem_cons.mp hm
  · exact .inr ⟨viaEdge, hc⟩
  · exact .inl hm

/-- A block that waits in the innermost scope is explained by being scheduled. -/
theorem claimed (h : s.Explained owed calls) (hc : .schedule b ∈ calls) :
    (s.claimed b).Explained owed calls := by
  refine (h.unqueue b).change ⟨[], by simp [code, State.claimed], by simp⟩ (fun _ => .inl) ?_ ?_
  · intro c hm
    obtain rfl | hm := List.mem_cons.mp hm
    · exact .inr (.inl hc)
    · exact .inl hm
  · rw [frames_claimed, frames_unqueue]

/-- One that is put off is explained by being enqueued outside. -/
theorem deferred (h : s.Explained owed calls) (hc : .enqueueOuter b ∈ calls) {outer : List Scope}
    (ho : Gen.enqueueIn b s.scopes.tail = some outer) :
    (s.deferred b outer).Explained owed calls := by
  refine h.change ⟨[], by simp [code, State.deferred], by simp⟩ (fun _ => .inl) ?_
    (Gen.deferred_frames ho)
  intro c hm
  obtain rfl | hm := List.mem_cons.mp hm
  · exact .inr (.inr hc)
  · exact .inl hm

/-- A scope is opened for the part of a region that is owed one. -/
theorem opened (h : s.Explained (owed + 1) calls) (kind : ScopeKind) (first hi : BlockId) :
    (s.opened kind first hi).Explained owed calls := by
  obtain ⟨written, waiting, branches, closed⟩ := h.unqueue first
  refine ⟨?_, ?_, ?_, ?_⟩
  · rwa [emitted_opened, ← s.emitted_unqueue first]
  · rwa [queued_opened]
  · simpa [code] using branches
  · simp only [code, tape_opened, tape_unqueue, scopes_opened, List.length_cons] at closed ⊢
    omega

/-- The end of a scope has been noted. -/
theorem closed_tail (h : s.Explained owed calls) (kind : ScopeKind) :
    ({ s with scopes := s.scopes.tail }).Explained owed (.closeScope kind :: calls) where
  written := (h.cons _).written
  waiting := (h.cons _).waiting
  branches := (h.cons _).branches
  closed := by
    have hclosed := h.closed
    simp only [code, List.length_tail, List.countP_cons, Call.isClose, if_true] at hclosed ⊢
    omega

/-- A part of a region is owed a scope. -/
theorem marked (h : s.Explained owed calls) {i : Insn} (hi : i.opens = true) :
    (s.written i).Explained (owed + 1) calls where
  written := h.written
  waiting := h.waiting
  branches o b ho := by
    have hne : i ≠ .branch o (.block b) := by
      rintro rfl
      cases hi
    rw [code_written, List.count_append, List.count_singleton, if_neg (by simpa using hne)]
    exact h.branches o b ho
  closed := by
    have hclosed := h.closed
    rw [code_written, List.countP_append, List.countP_singleton, if_pos hi]
    change _ < s.scopes.length + _ + _
    omega

/-- A branch that has been asked for. -/
theorem branched (h : s.Explained owed calls) (o : BranchOp) (b : BlockId) :
    (s.branched o (.block b)).Explained owed (.branchTo o b :: calls) where
  written := (h.cons _).written
  waiting := (h.cons _).waiting
  branches o' b' ho := by
    have hle := h.branches o' b' ho
    rw [code_branched, List.count_append, List.count_singleton, List.count_cons]
    by_cases heq : o = o' ∧ b = b'
    · simpa [heq] using hle
    · simpa [heq] using hle
  closed := by
    rw [code_branched, List.countP_append, List.countP_singleton]
    exact (h.cons _).closed

end State.Explained

/-! ## Journals -/

/-- The calls that were noted before explain the state of each moment of a journal and the one in
the end, where a failure may leave one part of a region without a scope. -/
def Journaled.Complete {α : Type} (owed : Nat) (calls : List Call) :
    List Moment → EStateM.Result Fault State α → Prop
  | [], .ok _ s => s.Explained owed calls
  | [], .error _ s => s.Explained 1 calls
  | x :: rest, r => x.state.Explained 0 calls ∧ Complete owed (x.call :: calls) rest r

namespace Gen

/-- At each point of a generation the calls so far explain the state. -/
def explained (setting : Setting) : Invariant setting where
  Index := Unit
  may _ _ := True
  rest _ _ calls s := s.Explained 0 calls
  cond _ _ calls s := s.Explained 0 calls
  inBlock _ _ _ calls s := s.Explained 0 calls
  loop _ _ _ calls s := s.Explained 0 calls
  owed _ _ _ _ calls s := s.Explained 1 calls
  done _ _ _ _ calls s := s.Explained 0 calls
  noted _ calls s := s.Explained 0 calls
  failed _ calls s := s.Explained 1 calls

variable {setting : Setting}

/-- Visits are noted before they write anything. -/
theorem explained_visits : (explained setting).KeepsVisits where
  note _ _ hs := ⟨hs, hs.cons _⟩
  fails _ hs := hs.mono (Nat.zero_le 1)
  nesting hs := hs.mono (Nat.zero_le 1)
  grow hs := hs
  revisit {_ _ b _ s} _ _ _ hs :=
    hs.put (Insn.isFree_exitInsn _ b) (s.code_revisited b) rfl rfl rfl
  enter hc _ _ _ _ hs := hs.entered hc
  exit {_ _ b _ s} _ _ _ _ hs := hs.put (Insn.isFree_exitInsn _ b) (s.code_exited b) rfl rfl rfl
  claim hc _ _ _ _ hs := hs.claimed hc
  defer hc _ _ _ _ _ ho hs := hs.deferred hc ho

/-- So are conditional branches. -/
theorem explained_branches : (explained setting).KeepsBranches where
  branch _ _ hs := ⟨hs, fun _ _ => (hs.cons _).mono (Nat.zero_le 1)⟩
  drop hs := (hs.cons _).put (i := .op .pop) rfl (State.code_written _ _) rfl rfl rfl
  direct {_ _ o target _ _} _ _ _ _ hs := hs.branched o target
  detour {_ _ o target _ s} _ _ _ _ hs := by
    refine ⟨(), trivial, (hs.cons _).put rfl (s.code_skipped _) rfl rfl rfl, fun _ s' hs' => ?_⟩
    exact hs'.put rfl (s'.code_written _) rfl rfl rfl

theorem explained_loops : (explained setting).KeepsLoops := by
  refine .of_take rfl (fun hs => hs.mono (Nat.zero_le 1)) fun hn hs => ⟨trivial, ?_⟩
  obtain ⟨scope, outer, rest, hscopes, -, rfl⟩ := nextPending_some hn
  refine hs.change ⟨[], by simp [State.code], by simp⟩ (fun _ => .inl) ?_ ?_
  · exact fun c hc => .inl (List.mem_filter.mp hc).1
  · simp [State.frames, hscopes]

/-- Statements and edges write nothing that has to be explained. -/
theorem explained_straight : (explained setting).KeepsStraight fun _ _ => True where
  straight h hs := hs.calm h.calm
  quiets h hs := hs.calm h.calm
  cond hs := hs
  leave hs := hs
  fails _ hs := hs.mono (Nat.zero_le 1)
  successor _ _ _ _ _ := trivial
  remember hs := ⟨hs.written, hs.waiting, hs.branches, hs.closed⟩
  chosen _ _ := trivial
  tabled {_ _ targets _ s} _ hs := hs.put rfl (s.code_tabled targets) rfl rfl rfl

/-- A scope is opened for a part of a region that is owed one, and its end is noted. -/
theorem explained_opens {n : Nat} {kind : ScopeKind} {first hi : BlockId} :
    (explained setting).Opens n kind first hi (fun calls s => s.Explained 1 calls)
      fun calls s => s.Explained 0 calls := by
  intro calls s hs
  refine ⟨(), trivial, hs.opened kind first hi, fun calls s outer hs hscopes => ?_⟩
  have hclosed : ({ s with scopes := outer }).Explained 0 (.closeScope kind :: calls) := by
    have htail := hs.closed_tail kind
    rwa [hscopes, List.tail_cons] at htail
  exact ⟨hs, fun _ => hclosed, fun _ => hclosed.mono (Nat.zero_le 1)⟩

/-- A marker owes a scope, and the end of the scope is noted. -/
theorem explained_regions : (explained setting).KeepsRegions where
  beginTry _ _ hs := hs.marked rfl
  catches {_ _ _ _ _ _ _ _ h _ _ _ _} _ _ hs := by
    refine .of_straight (receive_straight h) (Finishes.parts.receive fun _ _ => trivial)
      (fun s' hr => ?_) fun _ _ hs _ => hs
    exact (hs.marked (i := .beginCatch h.cls) rfl).calm hr.calm
  cleans hs := hs.marked rfl
  endTry {_ _ _ _ s} hs := hs.put rfl (s.code_written .endTry) rfl rfl rfl
  next_may _ _ := trivial
  opens _ := explained_opens

/-- Generation does nothing that its calls do not explain. -/
theorem explained_kept : (explained setting).Kept :=
  { explained_visits, explained_branches, explained_loops, explained_straight.blocks,
    explained_regions with }

theorem sharedReturn_explained {calls : List Call} {s : State} (hs : s.Explained 0 calls) :
    (explained setting).Leads sharedReturn (fun _ calls s => s.Explained 0 calls) calls s := by
  refine Gen.MeetsFrom.read (get_run s) ?_
  split
  · rename_i slot label _
    have hlabel : (s.written (.label label)).Explained 0 calls :=
      hs.put rfl (s.code_written _) rfl rfl rfl
    have hload : ((s.written (.label label)).written (.ldloc slot)).Explained 0 calls :=
      hlabel.put rfl (State.code_written _ _) rfl rfl rfl
    exact hload.put rfl (State.code_written _ (.op .ret)) rfl rfl rfl
  · exact hs

end Gen

namespace Journaled

theorem complete_of_accords {setting : Setting} {calls : List Call} {noted : List Moment}
    {r : EStateM.Result Fault State Unit}
    (h : (Gen.explained setting).Accords (fun _ calls s => s.Explained 0 calls) calls noted r) :
    Complete 0 calls noted r := by
  induction noted generalizing calls with
  | nil => cases r <;> exact h
  | cons x rest ih => exact ⟨h.1, ih h.2⟩

/-- Before anything is noted, the routine is owed its scope. -/
theorem routine_complete (setting : Setting) {start : State} (hs : start.Explained 1 []) :
    Complete 0 [] (routine setting start).1 (routine setting start).2 := by
  have hdeclare : Gen.Does Straight (setting.graph.vars.forM Gen.declarePlace) :=
    .forM _ fun v _ => Gen.declarePlace_straight v
  have declares : (Gen.explained setting).Leads (setting.graph.vars.forM Gen.declarePlace)
      (fun _ calls s => s.Explained 1 calls) [] start :=
    .of_straight hdeclare (.forM _ Gen.declarePlace_finishes) (fun _ h => hs.calm h.calm)
      fun _ _ hs _ => hs
  exact complete_of_accords (Gen.explained_kept.routine_meets (fun _ => hs) declares
    (fun _ => Gen.explained_opens) fun _ _ => Gen.sharedReturn_explained)

end Journaled
end Linearizer
