import Linearizer.Proofs.Generator.Effect

/-!
# Changes of the state

What the functions that schedule blocks do to the state, as functions on states, and what a run of
one of them that returns can have done.

* `State.entered`, `State.opened`, `State.exited`, `State.skipped`, `State.claimed` and
  `State.deferred` are the changes;
* the `*_run` lemmas give the run of a function, and the `*_ok` lemmas the cases of a run that
  returns;
* `State.frames` is what stays of the open scopes while blocks come to wait in them.
-/

namespace Linearizer

/-- The element that transfers control to a block. -/
def exitInsn (scopes : List Scope) (b : BlockId) : Insn :=
  match Gen.exitTo scopes b with
  | .branch o => .branch o (.block b)
  | .endfinally => .op .endfinally

/-- A block of the innermost scope is reached by a plain branch. -/
theorem exitInsn_of_contains {scope : Scope} {outer : List Scope} {b : BlockId}
    (h : scope.contains b = true) : exitInsn (scope :: outer) b = .branch .br (.block b) := by
  simp [exitInsn, Gen.exitTo, h]

namespace State

/-- The innermost open scope; the whole routine when none is open. -/
def innermost (g : Graph) (s : State) : Scope :=
  match s.scopes with
  | scope :: _ => scope
  | [] => ⟨.routine, 0, g.size, []⟩

/-- The open scopes without the blocks that wait in them. -/
def frames (s : State) : List (ScopeKind × BlockId × BlockId) :=
  s.scopes.map fun scope => (scope.kind, scope.lo, scope.hi)

/-- The state in which a block does not wait. -/
def unqueue (s : State) (b : BlockId) : State :=
  if s.queued.contains b then
    { s with
      queued := s.queued.filter (· != b)
      scopes := s.scopes.map (·.dequeue b) }
  else s

/-- The state after an element has been written. -/
def written (s : State) (i : Insn) : State := { s with tape := s.tape.put i }

/-- The state after the label of a block has been written. -/
def entered (s : State) (viaEdge : Bool) (b : BlockId) : State :=
  let s := s.unqueue b
  { s with
    emitted := b :: s.emitted
    tape := s.tape.put (.label (.block b))
    counters := { s.counters with
      fallthroughs := s.counters.fallthroughs + viaEdge.toNat
      blocksEmitted := s.counters.blocksEmitted + 1 } }

/-- The state after a scope has been opened. -/
def opened (s : State) (kind : ScopeKind) (first hi : BlockId) : State :=
  let c := { s.counters with
    scopesOpened := s.counters.scopesOpened + (kind != ScopeKind.routine).toNat }
  let s := { s with counters := c }.unqueue first
  { s with scopes := ⟨kind, first, hi, []⟩ :: s.scopes }

/-- The state after control has been transferred to a block. -/
def exited (s : State) (b : BlockId) : State :=
  let i := exitInsn s.scopes b
  { s with
    tape := s.tape.put i
    counters := { s.counters with branches := s.counters.branches + i.isBranch.toNat } }

/-- The state after control has been transferred to a block that has been written. -/
def revisited (s : State) (b : BlockId) : State :=
  { s with counters := { s.counters with backEdges := s.counters.backEdges + 1 } }.exited b

/-- The state after a branch to a label. -/
def branched (s : State) (o : BranchOp) (l : Label) : State :=
  { s with
    tape := s.tape.put (.branch o l)
    counters := { s.counters with branches := s.counters.branches + 1 } }

/-- The state after a branch to a label that was not used before. -/
def skipped (s : State) (o : BranchOp) : State :=
  { s with nextLabel := s.nextLabel + 1 }.branched o (.fresh s.nextLabel)

/-- The state after a jump through a table. -/
def tabled (s : State) (targets : List BlockId) : State :=
  { s with
    tape := s.tape.put (.switch (targets.map .block))
    counters := { s.counters with
      branches := s.counters.branches + 1
      jumpTables := s.counters.jumpTables + 1 } }

/-- The state in which a block waits in the innermost scope. -/
def claimed (s : State) (b : BlockId) : State :=
  let s := s.unqueue b
  { s with
    scopes := s.scopes.modifyHead (·.enqueue b)
    queued := b :: s.queued }

/-- The state in which a block waits in one of the scopes around the innermost one, which are now
`outer`. -/
def deferred (s : State) (b : BlockId) (outer : List Scope) : State :=
  { s with
    scopes := s.scopes.take 1 ++ outer
    queued := b :: s.queued
    counters := { s.counters with deferred := s.counters.deferred + 1 } }

/-! ## Fields of the changed states -/

section Unqueue

variable (s : State) (b : BlockId)

@[simp] theorem tape_unqueue : (s.unqueue b).tape = s.tape := by
  unfold unqueue
  split <;> rfl

@[simp] theorem emitted_unqueue : (s.unqueue b).emitted = s.emitted := by
  unfold unqueue
  split <;> rfl

@[simp] theorem returnSlot_unqueue : (s.unqueue b).returnSlot = s.returnSlot := by
  unfold unqueue
  split <;> rfl

@[simp] theorem nextLabel_unqueue : (s.unqueue b).nextLabel = s.nextLabel := by
  unfold unqueue
  split <;> rfl

@[simp] theorem places_unqueue : (s.unqueue b).places = s.places := by
  unfold unqueue
  split <;> rfl

@[simp] theorem enumerators_unqueue : (s.unqueue b).enumerators = s.enumerators := by
  unfold unqueue
  split <;> rfl

/-- A block that does not wait is in no list of those that do. -/
theorem queued_unqueue : (s.unqueue b).queued = s.queued.filter (· != b) := by
  unfold unqueue
  split
  · rfl
  · rename_i h
    refine (List.filter_eq_self.mpr fun a ha => ?_).symm
    rw [bne_iff_ne]
    rintro rfl
    exact h (by simpa using ha)

/-- Taking a block out of the queues leaves the scopes and their ranges as they are. -/
@[simp] theorem frames_unqueue : (s.unqueue b).frames = s.frames := by
  unfold unqueue
  split
  · simp [frames, Scope.dequeue]
  · rfl

end Unqueue

section Opened

variable (s : State) (kind : ScopeKind) (first hi : BlockId)

/-- A new scope stands around its first block, which waits nowhere any more. -/
@[simp] theorem scopes_opened :
    (s.opened kind first hi).scopes = ⟨kind, first, hi, []⟩ :: (s.unqueue first).scopes := by
  unfold opened unqueue
  split <;> rfl

@[simp] theorem queued_opened : (s.opened kind first hi).queued = (s.unqueue first).queued := by
  unfold opened unqueue
  split <;> rfl

@[simp] theorem emitted_opened : (s.opened kind first hi).emitted = s.emitted := by
  simp [opened]

@[simp] theorem tape_opened : (s.opened kind first hi).tape = s.tape := by simp [opened]

@[simp] theorem returnSlot_opened : (s.opened kind first hi).returnSlot = s.returnSlot := by
  simp [opened]

@[simp] theorem nextLabel_opened : (s.opened kind first hi).nextLabel = s.nextLabel := by
  simp [opened]

@[simp] theorem places_opened : (s.opened kind first hi).places = s.places := by simp [opened]

end Opened

section Code

variable (s : State)

@[simp] theorem code_written (i : Insn) : (s.written i).code = s.code ++ [i] := Tape.toList_put _ _

@[simp] theorem code_entered (viaEdge : Bool) (b : BlockId) :
    (s.entered viaEdge b).code = s.code ++ [.label (.block b)] := by
  simp [code, entered]

@[simp] theorem code_exited (b : BlockId) :
    (s.exited b).code = s.code ++ [exitInsn s.scopes b] := Tape.toList_put _ _

@[simp] theorem code_revisited (b : BlockId) :
    (s.revisited b).code = s.code ++ [exitInsn s.scopes b] := Tape.toList_put _ _

@[simp] theorem code_branched (o : BranchOp) (l : Label) :
    (s.branched o l).code = s.code ++ [.branch o l] := Tape.toList_put _ _

@[simp] theorem code_skipped (o : BranchOp) :
    (s.skipped o).code = s.code ++ [.branch o (.fresh s.nextLabel)] := Tape.toList_put _ _

@[simp] theorem code_tabled (targets : List BlockId) :
    (s.tabled targets).code = s.code ++ [.switch (targets.map .block)] := Tape.toList_put _ _

@[simp] theorem code_opened (kind : ScopeKind) (first hi : BlockId) :
    (s.opened kind first hi).code = s.code := by
  simp [code]

end Code

@[simp] theorem emitted_entered (s : State) (viaEdge : Bool) (b : BlockId) :
    (s.entered viaEdge b).emitted = b :: s.emitted := by
  simp [entered]

@[simp] theorem queued_entered (s : State) (viaEdge : Bool) (b : BlockId) :
    (s.entered viaEdge b).queued = s.queued.filter (· != b) := s.queued_unqueue b

/-! ## The frames of the open scopes -/

/-- Which blocks the innermost scope has follows from the ranges of the scopes. -/
theorem contains_innermost_congr {g : Graph} {s s' : State} (h : s'.frames = s.frames)
    (b : BlockId) : (s'.innermost g).contains b = (s.innermost g).contains b := by
  unfold frames at h
  unfold innermost
  cases hs : s.scopes <;> cases hs' : s'.scopes <;> simp_all [Scope.contains]

theorem frames_claimed (s : State) (b : BlockId) : (s.claimed b).frames = s.frames := by
  rw [← s.frames_unqueue b]
  cases hs : (s.unqueue b).scopes <;> simp [claimed, frames, hs, Scope.enqueue]

end State

namespace Gen

variable {g : Graph}

/-- Generation alone has nobody to tell of its calls. -/
theorem note_bind {α : Type} (c : Call) (f : Unit → Gen α) : (note c >>= f) = f () := rfl

/-- To enqueue a block changes no range of a scope. -/
theorem enqueueIn_frames {b : BlockId} {scopes outer : List Scope}
    (h : enqueueIn b scopes = some outer) :
    outer.map (fun scope => (scope.kind, scope.lo, scope.hi)) =
      scopes.map fun scope => (scope.kind, scope.lo, scope.hi) := by
  induction scopes generalizing outer with
  | nil => cases h
  | cons scope rest ih =>
    unfold enqueueIn at h
    split at h
    · cases h
      simp [Scope.enqueue]
    · obtain ⟨rest', hr, rfl⟩ := Option.map_eq_some_iff.mp h
      simp [ih hr]

/-! ## Reading the state -/

/-- The innermost scope is read without changing anything. -/
theorem currentScope_run (g : Graph) (s : State) :
    currentScope g s = .ok (s.innermost g) s := by
  cases s with
  | mk _ _ scopes =>
    cases scopes <;> rfl

theorem isEmitted_run (b : BlockId) (s : State) :
    isEmitted b s = .ok (s.emitted.contains b) s := rfl

@[simp] theorem contains_eq_false {l : List BlockId} {b : BlockId} :
    l.contains b = false ↔ b ∉ l := by
  simp

/-- A block that exists and is not dead is live. -/
theorem isLive_eq_true {b : BlockId} {block : Block} (h : g.block? b = some block)
    (hd : block.dead = false) : g.isLive b = true := by
  simp [Graph.isLive, h, hd]

/-! ## Blocks that wait -/

/-- The branch to a block behind the innermost scope always succeeds. -/
theorem exitBranch_run (b : BlockId) (s : State) : exitBranch b s = .ok () (s.exited b) := by
  unfold exitBranch State.exited exitInsn
  rw [run_bind (get_run s)]
  cases exitTo s.scopes b <;> rfl

/-- A block that is left to an outer scope waits already, or comes to wait there. -/
theorem defer_ok {b : BlockId} {s s' : State} (h : defer b s = .ok () s') :
    b ∈ s.queued ∧ s' = s ∨
      b ∉ s.queued ∧ ∃ outer, enqueueIn b s.scopes.tail = some outer ∧ s' = s.deferred b outer := by
  unfold defer at h
  rw [run_bind (get_run s)] at h
  by_cases hq : s.queued.contains b = true
  · rw [if_pos hq] at h
    cases h
    exact .inl ⟨by simpa using hq, rfl⟩
  · rw [if_neg hq] at h
    refine .inr ⟨by simpa using hq, ?_⟩
    cases ho : enqueueIn b s.scopes.tail with
    | some outer =>
      simp only [ho] at h
      cases h
      exact ⟨outer, rfl, rfl⟩
    | none =>
      cases hl : s.scopes.getLast? <;> simp only [ho, hl] at h <;> cases h

/-- Putting a block off fails only where no scope around has room for it, and then changes
nothing. -/
theorem defer_error {b : BlockId} {e : Fault} {s s' : State} (h : defer b s = .error e s') :
    s' = s ∧ ∃ kind lo, e = .scopeViolation b kind lo := by
  unfold defer at h
  rw [run_bind (get_run s)] at h
  by_cases hq : s.queued.contains b = true
  · rw [if_pos hq] at h
    cases h
  · rw [if_neg hq] at h
    cases ho : enqueueIn b s.scopes.tail with
    | some outer =>
      simp only [ho] at h
      cases h
    | none =>
      cases hl : s.scopes.getLast? <;> simp only [ho, hl] at h <;> cases h <;>
        exact ⟨rfl, _, _, rfl⟩

theorem deferred_frames {b : BlockId} {s : State} {outer : List Scope}
    (h : enqueueIn b s.scopes.tail = some outer) : (s.deferred b outer).frames = s.frames := by
  have := enqueueIn_frames h
  cases hs : s.scopes <;> simp_all [State.frames, State.deferred]

/-- Putting a block off changes no range of a scope. -/
theorem defer_frames {b : BlockId} {s s' : State} (h : defer b s = .ok () s') :
    s'.frames = s.frames := by
  obtain ⟨-, rfl⟩ | ⟨-, outer, ho, rfl⟩ := defer_ok h
  · rfl
  · exact deferred_frames ho

/-- A block that is seen to, case by case: it does not exist, needs no place to wait, waits in the
innermost scope, or is left to an outer one. -/
theorem schedule_run (g : Graph) (b : BlockId) (s : State) :
    (schedule g b : Gen Unit) s =
      match g.block? b with
      | none => .error (.danglingBlock b) s
      | some block =>
        if block.dead = true ∨ b ∈ s.emitted then .ok () s
        else if (s.innermost g).contains b then .ok () (s.claimed b)
        else defer b s := by
  unfold schedule
  simp only [note_bind, monadLift_self]
  cases hb : g.block? b with
  | none => rfl
  | some block =>
    dsimp only
    rw [run_bind (isEmitted_run b s)]
    by_cases he : block.dead = true ∨ b ∈ s.emitted
    · rw [if_pos he, if_pos (by simpa using he)]
      rfl
    rw [if_neg he, if_neg (by simpa using he), run_bind (currentScope_run g s)]
    by_cases hc : (s.innermost g).contains b = true
    · rw [if_pos hc, if_pos hc]
      rfl
    · rw [if_neg hc, if_neg hc]
      rfl

/-- A block that is seen to needs no place to wait, waits in the innermost scope, or is left to an
outer one. -/
theorem schedule_ok {b : BlockId} {s s' : State} (h : (schedule g b : Gen Unit) s = .ok () s') :
    ∃ block, g.block? b = some block ∧
      ((block.dead = true ∨ b ∈ s.emitted) ∧ s' = s ∨
        block.dead = false ∧ b ∉ s.emitted ∧
          ((s.innermost g).contains b = true ∧ s' = s.claimed b ∨
            (s.innermost g).contains b = false ∧ defer b s = .ok () s')) := by
  rw [schedule_run] at h
  cases hb : g.block? b with
  | none =>
    rw [hb] at h
    cases h
  | some block =>
    simp only [hb] at h
    refine ⟨block, rfl, ?_⟩
    split at h
    · rename_i he
      cases h
      exact .inl ⟨he, rfl⟩
    rename_i he
    obtain ⟨hd, hnew⟩ := not_or.mp he
    refine .inr ⟨by simpa using hd, hnew, ?_⟩
    split at h
    · rename_i hc
      cases h
      exact .inl ⟨hc, rfl⟩
    · rename_i hc
      exact .inr ⟨by simpa using hc, h⟩

/-- Scheduling a block changes no range of a scope. -/
theorem schedule_frames {b : BlockId} {s s' : State} (h : (schedule g b : Gen Unit) s = .ok () s') :
    s'.frames = s.frames := by
  obtain ⟨block, -, ⟨-, rfl⟩ | ⟨-, -, ⟨-, rfl⟩ | ⟨-, ho⟩⟩⟩ := schedule_ok h
  · rfl
  · exact s.frames_claimed b
  · exact defer_frames ho

theorem nextPending_run_nil {s : State} (hs : s.scopes = []) : nextPending s = .ok none s := by
  cases s
  subst hs
  rfl

/-- No block is taken from a scope where none waits. -/
theorem nextPending_run_empty {s : State} {scope : Scope} {outer : List Scope}
    (hs : s.scopes = scope :: outer) (hp : scope.pending = []) :
    nextPending s = .ok none s := by
  cases s
  cases scope
  subst hs hp
  rfl

/-- The block that waits first is taken. -/
theorem nextPending_run_cons {s : State} {scope : Scope} {outer : List Scope} {b : BlockId}
    {rest : List BlockId} (hs : s.scopes = scope :: outer) (hp : scope.pending = b :: rest) :
    nextPending s = .ok (some b) { s with
      scopes := { scope with pending := rest } :: outer
      queued := s.queued.filter (· != b) } := by
  cases s
  cases scope
  subst hs hp
  rfl

/-- Taking a block that waits never fails. -/
theorem nextPending_returns (s : State) : ∃ next s', nextPending s = .ok next s' := by
  cases hs : s.scopes with
  | nil => exact ⟨_, _, nextPending_run_nil hs⟩
  | cons scope outer =>
    cases hp : scope.pending with
    | nil => exact ⟨_, _, nextPending_run_empty hs hp⟩
    | cons b rest => exact ⟨_, _, nextPending_run_cons hs hp⟩

/-- If no block is taken, none waits, and nothing has changed. -/
theorem nextPending_none {s s' : State} (h : nextPending s = .ok none s') :
    s' = s ∧ ∀ scope outer, s.scopes = scope :: outer → scope.pending = [] := by
  cases hs : s.scopes with
  | nil =>
    rw [nextPending_run_nil hs] at h
    cases h
    exact ⟨rfl, fun _ _ h => nomatch h⟩
  | cons scope outer =>
    cases hp : scope.pending with
    | nil =>
      rw [nextPending_run_empty hs hp] at h
      cases h
      exact ⟨rfl, fun _ _ h => by cases h; exact hp⟩
    | cons b rest =>
      rw [nextPending_run_cons hs hp] at h
      cases h

/-- The block that is taken was the first to wait, and nothing else has changed. -/
theorem nextPending_some {s s' : State} {b : BlockId} (h : nextPending s = .ok (some b) s') :
    ∃ scope outer rest, s.scopes = scope :: outer ∧ scope.pending = b :: rest ∧
      s' = { s with
        scopes := { scope with pending := rest } :: outer
        queued := s.queued.filter (· != b) } := by
  cases hs : s.scopes with
  | nil =>
    rw [nextPending_run_nil hs] at h
    cases h
  | cons scope outer =>
    cases hp : scope.pending with
    | nil =>
      rw [nextPending_run_empty hs hp] at h
      cases h
    | cons c rest =>
      rw [nextPending_run_cons hs hp] at h
      cases h
      exact ⟨scope, outer, rest, rfl, hp, rfl⟩

section Visits

variable {setting : Setting} {visit : Visit}

/-! ## Scopes and blocks -/

/-- Nothing waits in the innermost scope after it has been drained. -/
theorem drain_ok {n : Nat} {s s' : State} (h : drain visit n s = .ok () s') :
    ∀ scope outer, s'.scopes = scope :: outer → scope.pending = [] := by
  induction n generalizing s with
  | zero => exact (throw_ok h).elim
  | succ n ih =>
    obtain ⟨next, s₁, hn, hr⟩ := bind_ok h
    cases next with
    | none =>
      cases hr
      obtain ⟨rfl, hp⟩ := nextPending_none hn
      exact hp
    | some b =>
      obtain ⟨e, s₂, -, hd⟩ := bind_ok hr
      dsimp only at hd
      split at hd
      · obtain ⟨_, s₃, -, hd⟩ := bind_ok hd
        exact ih hd
      · exact ih hd

theorem openScope_run (kind : ScopeKind) (first hi : BlockId) (s : State) :
    openScope kind first hi s = .ok () (s.opened kind first hi) := by
  cases kind <;> rfl

/-- What a scope does is done in the state in which it has been opened. -/
theorem scope_run (kind : ScopeKind) (first hi : BlockId) (s : State) :
    scope setting visit kind first hi s =
      (scopeBody setting visit first >>= fun _ => closeScope kind) (s.opened kind first hi) :=
  run_bind (openScope_run kind first hi s) _

/-- A scope is closed in any case; values that are left on the stack are a fault. -/
theorem closeScope_run (kind : ScopeKind) (s : State) :
    closeScope kind s =
      if s.tape.depth != 0 then
        .error (.imbalance s.tape.depth kind) { s with scopes := s.scopes.tail }
      else .ok () { s with scopes := s.scopes.tail } := by
  unfold closeScope
  rw [run_bind (modify_run _ s), run_bind (get_run _)]
  dsimp only
  split <;> rfl

/-- Entering a block always succeeds. -/
theorem enter_run (viaEdge : Bool) (b : BlockId) (s : State) :
    enter viaEdge b s = .ok () (s.entered viaEdge b) := by
  cases viaEdge <;> rfl

/-- The visit of a block, case by case: it does not exist, it has been written, it is dead, it lies
before the innermost scope, in it or after it. -/
theorem visitWith_run (setting : Setting) (visit : Visit) (viaEdge : Bool) (b : BlockId)
    (s : State) :
    visitWith setting visit viaEdge b s =
      match setting.graph.block? b with
      | none => .error (.danglingBlock b) s
      | some block =>
        let scope := s.innermost setting.graph
        if b ∈ s.emitted then .ok () (s.revisited b)
        else if block.dead then .ok () s
        else if b < scope.lo then .error (.scopeViolation b scope.kind scope.lo) s
        else if b < scope.hi then blockBody setting visit b block (s.entered viaEdge b)
        else defer b (s.exited b) := by
  unfold visitWith
  simp only [note_bind, monadLift_self]
  cases hb : setting.graph.block? b with
  | none => rfl
  | some block =>
    dsimp only
    rw [run_bind (isEmitted_run b s)]
    by_cases he : b ∈ s.emitted
    · rw [if_pos he, if_pos (by simpa using he)]
      exact exitBranch_run b _
    rw [if_neg he, if_neg (by simpa using he)]
    by_cases hd : block.dead = true
    · rw [if_pos hd, if_pos hd]
      rfl
    rw [if_neg hd, if_neg hd, run_bind (currentScope_run _ s)]
    by_cases hl : b < (s.innermost setting.graph).lo
    · rw [if_pos hl, if_pos hl]
      rfl
    rw [if_neg hl, if_neg hl]
    by_cases hh : b < (s.innermost setting.graph).hi
    · rw [if_pos hh, if_pos hh]
      exact run_bind (enter_run viaEdge b s) _
    · rw [if_neg hh, if_neg hh]
      exact run_bind (exitBranch_run b s) _

/-! ## Edges -/

theorem negate_isConditional {o : BranchOp} (h : o.isConditional = true) :
    o.negate.isConditional = true := by
  cases o <;> exact h

/-- A conditional branch, case by case: its target does not exist, is dead, lies before the
innermost scope, in it or elsewhere. -/
theorem branchTo_run (setting : Setting) (visit : Visit) (o : BranchOp) (target : BlockId)
    (s : State) :
    branchTo setting visit o target s =
      match setting.graph.block? target with
      | none => .error (.danglingBlock target) s
      | some block =>
        let scope := s.innermost setting.graph
        if block.dead then op .pop s
        else if target ∉ s.emitted ∧ target < scope.lo then
          .error (.scopeViolation target scope.kind scope.lo) s
        else if scope.contains target then
          (schedule setting.graph target : Gen Unit) (s.branched o (.block target))
        else (visit true target >>= fun _ => put (.label (.fresh s.nextLabel)))
          (s.skipped o.negate) := by
  unfold branchTo
  simp only [note_bind, monadLift_self]
  cases hb : setting.graph.block? target with
  | none => rfl
  | some block =>
    dsimp only
    by_cases hd : block.dead = true
    · rw [if_pos hd, if_pos hd]
    rw [if_neg hd, if_neg hd, run_bind (currentScope_run _ s), run_bind (isEmitted_run target s)]
    by_cases hl : target ∉ s.emitted ∧ target < (s.innermost setting.graph).lo
    · rw [if_pos hl, if_pos (by simpa using hl)]
      rfl
    rw [if_neg hl, if_neg (by simpa using hl)]
    by_cases hc : (s.innermost setting.graph).contains target = true
    · rw [if_pos hc, if_pos hc]
      rfl
    · -- A branch cannot leave the scope, so it is turned round and jumps over a visit.
      rw [if_neg hc, if_neg hc]
      rfl

/-- A conditional branch drops its condition, stays in the innermost scope, or jumps over an
exit. -/
theorem branchTo_ok {o : BranchOp} {target : BlockId} {s s' : State}
    (h : branchTo setting visit o target s = .ok () s') :
    ∃ block, setting.graph.block? target = some block ∧
      (block.dead = true ∧ op .pop s = .ok () s' ∨
        block.dead = false ∧
          ((s.innermost setting.graph).contains target = true ∧
              (schedule setting.graph target : Gen Unit) (s.branched o (.block target)) = .ok () s' ∨
            (s.innermost setting.graph).contains target = false ∧
              (target ∈ s.emitted ∨ (s.innermost setting.graph).lo ≤ target) ∧
              ∃ s₁, visit true target (s.skipped o.negate) = .ok () s₁ ∧
                s' = { s₁ with tape := s₁.tape.put (.label (.fresh s.nextLabel)) })) := by
  rw [branchTo_run] at h
  cases hb : setting.graph.block? target with
  | none =>
    rw [hb] at h
    cases h
  | some block =>
    simp only [hb] at h
    refine ⟨block, rfl, ?_⟩
    split at h
    · rename_i hd
      exact .inl ⟨hd, h⟩
    rename_i hd
    refine .inr ⟨by simpa using hd, ?_⟩
    split at h
    · cases h
    rename_i hl
    split at h
    · rename_i hc
      exact .inl ⟨hc, h⟩
    · rename_i hc
      refine .inr ⟨by simpa using hc, ?_, ?_⟩
      · -- The target was not refused, so it has been written or does not lie before the scope.
        simp only [not_and, Nat.not_lt] at hl
        exact Classical.or_iff_not_imp_left.mpr hl
      · obtain ⟨_, s₁, hv, hp⟩ := bind_ok h
        cases hp
        exact ⟨s₁, hv, rfl⟩

theorem isAscending_cons {a b : BlockId} {rest : List BlockId}
    (h : isAscending (a :: b :: rest) = true) : a < b ∧ isAscending (b :: rest) = true := by
  simpa [isAscending] using h

/-- The end of an ascending list is ascending. -/
theorem isAscending_append_right {l r : List BlockId} (h : isAscending (l ++ r) = true) :
    isAscending r = true := by
  induction l with
  | nil => exact h
  | cons a l ih =>
    refine ih ?_
    cases hl : l ++ r with
    | nil => rfl
    | cons b rest =>
      rw [List.cons_append, hl] at h
      exact (isAscending_cons h).2

/-- The local variable of an enumerator is looked up without changing anything. -/
theorem enumerator_ok {source : BlockId} {slot : LocalId} {s s' : State}
    (h : enumerator source s = .ok slot s') : s.enumerators.lookup source = some slot ∧ s' = s := by
  unfold enumerator at h
  rw [run_bind (get_run s)] at h
  cases hl : s.enumerators.lookup source with
  | none =>
    simp only [hl] at h
    cases h
  | some found =>
    simp only [hl] at h
    cases h
    exact ⟨rfl, rfl⟩

/-- An enumeration that has not been started is a fault, and nothing has changed then. -/
theorem enumerator_error {source : BlockId} {e : Fault} {s s' : State}
    (h : enumerator source s = .error e s') : s' = s := by
  unfold enumerator at h
  rw [run_bind (get_run s)] at h
  cases hl : s.enumerators.lookup source with
  | none =>
    simp only [hl] at h
    cases h
    rfl
  | some found =>
    simp only [hl] at h
    cases h

/-- A switch is compiled to a jump table just if its cases have a range for one. -/
theorem switch_run (b : BlockId) (value : Expr) (cases : List Case) (default : BlockId)
    (s : State) :
    edge setting visit b (.switch value cases default) s =
      match TableRange.ofCases? setting.options (s.innermost setting.graph) value cases default with
      | some range => jumpTable setting visit value cases default range s
      | none => compareChain setting visit value cases default s := by
  unfold edge
  simp only [monadLift_self]
  rw [run_bind (currentScope_run _ s)]
  cases TableRange.ofCases? setting.options (s.innermost setting.graph) value cases default <;> rfl

end Visits

end Gen
end Linearizer
