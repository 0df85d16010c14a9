import Linearizer.Proofs.Generator.Move

/-!
# The schedule at any time

What holds of the state after any sequence of moves from the start, so also where generation fails.

- **Labels** (`State.Marked`): the labels of blocks in the code are those of the blocks that have
  been written, in order, each once and of a live block.
- **Waiting blocks** (`State.Waiting`): a block that waits is in the list of an open scope, so that
  none waits when all scopes have been closed (`State.Waiting.queued_eq_nil`).
-/

namespace Linearizer

/-- The block that an element is the label of. -/
def Insn.marks? : Insn → Option BlockId
  | .label (.block b) => some b
  | _ => none

theorem Listing.blockOrder_eq (l : Listing) : l.blockOrder = l.insns.toList.filterMap Insn.marks? :=
  rfl

/-! ## Labels of blocks -/

theorem Insn.marks?_of_isPlain {i : Insn} (h : i.isPlain = true) : i.marks? = none := by
  cases i with
  | label => cases h
  | _ => rfl

theorem Insn.marks?_of_isEnd {i : Insn} (h : i.isEnd = true) : i.marks? = none := by
  cases i with
  | label => cases h
  | _ => rfl

theorem marks?_exitInsn (scopes : List Scope) (b : BlockId) :
    (exitInsn scopes b).marks? = none := by
  unfold exitInsn
  split <;> rfl

/-- No element but a label of a block marks a block, and labels are written by entering one. -/
theorem State.MayWrite.marks? {g : Graph} {s : State} {i : Insn} (h : s.MayWrite g i) :
    i.marks? = none := by
  cases h with
  | exit => exact marks?_exitInsn _ _
  | marker h =>
    cases i with
    | label => cases h
    | _ => rfl
  | _ => rfl

/-- Where nothing is scheduled, no label of a block is written. -/
theorem Calm.filterMap_marks? {s s' : State} (h : Calm s s') :
    s'.code.filterMap Insn.marks? = s.code.filterMap Insn.marks? := by
  obtain ⟨code, hc, hi⟩ := h.code
  have hn : code.filterMap Insn.marks? = [] := by
    refine List.filterMap_eq_nil_iff.mpr fun i hm => ?_
    obtain hp | he | ⟨slot, label, -, rfl⟩ := hi i hm
    · exact Insn.marks?_of_isPlain hp
    · exact Insn.marks?_of_isEnd he
    · rfl
  rw [hc, List.filterMap_append, hn, List.append_nil]

/-- The labels of blocks in the code are those of the blocks that have been written. -/
structure State.Marked (g : Graph) (s : State) : Prop where
  labels : s.code.filterMap Insn.marks? = s.emitted.reverse
  once : s.emitted.Nodup
  live : ∀ b ∈ s.emitted, g.isLive b = true

namespace State.Marked

variable {g : Graph} {s s' : State}

theorem congr (h : s.Marked g) (hc : s'.code.filterMap Insn.marks? = s.code.filterMap Insn.marks?)
    (he : s'.emitted = s.emitted) : s'.Marked g :=
  ⟨by rw [hc, he, h.labels], by rw [he]; exact h.once, by rw [he]; exact h.live⟩

/-- One move keeps the labels in step with the blocks that count as written. -/
theorem move (h : s.Marked g) (hm : Move g s s') : s'.Marked g := by
  cases hm with
  | quiet hq => exact h.congr hq.calm.filterMap_marks? hq.calm.emitted
  | @write c i hw =>
    refine h.congr ?_ rfl
    have hc : { s with tape := s.tape.put i, counters := c }.code = s.code ++ [i] :=
      Tape.toList_put _ _
    rw [hc, List.filterMap_append, List.filterMap_cons_none hw.marks?]
    exact List.append_nil _
  | @enter viaEdge b live new _ =>
    have he := s.emitted_entered viaEdge b
    refine ⟨?_, ?_, ?_⟩
    · rw [State.code_entered, he, List.filterMap_append, h.labels, List.reverse_cons]
      rfl
    · rw [he]
      exact List.nodup_cons.mpr ⟨new, h.once⟩
    · rw [he]
      exact List.forall_mem_cons.mpr ⟨live, h.live⟩
  | claim => exact h.congr (by simp [State.code, State.claimed]) (by simp [State.claimed])
  | opened => exact h.congr (by simp) (by simp)
  | _ => exact h.congr rfl rfl

/-- So do all moves of a run. -/
theorem steps (h : s.Marked g) (hs : Steps g s s') : s'.Marked g := by
  induction hs with
  | refl => exact h
  | tail _ hm ih => exact ih.move hm

end State.Marked

/-! ## Waiting blocks -/

namespace Scope

/-- A block that is inserted is one more in the list. -/
@[simp] theorem mem_insert {b c : BlockId} {l : List BlockId} :
    c ∈ insert b l ↔ c = b ∨ c ∈ l := by
  induction l with
  | nil => simp [insert]
  | cons a rest ih =>
    unfold insert
    split
    · simp
    · split
      · rename_i h
        simp [h]
      · simp only [List.mem_cons, ih]
        exact or_left_comm

end Scope

/-- A block is in the list of one of the scopes. -/
def Scope.Pending (scopes : List Scope) (b : BlockId) : Prop := ∃ scope ∈ scopes, b ∈ scope.pending

namespace Scope

variable {scope : Scope} {scopes outer : List Scope} {b c : BlockId}

@[simp] theorem not_pending_nil : ¬ Pending [] c := by simp [Pending]

@[simp] theorem pending_cons :
    Pending (scope :: scopes) c ↔ c ∈ scope.pending ∨ Pending scopes c := by
  simp [Pending]

/-- A block that is taken out of all queues waits nowhere. -/
@[simp] theorem pending_dequeue :
    Pending (scopes.map (·.dequeue b)) c ↔ Pending scopes c ∧ c ≠ b := by
  induction scopes with
  | nil => simp
  | cons scope rest ih =>
    rw [List.map_cons, pending_cons, pending_cons, ih]
    simp [dequeue, or_and_right]

/-- A block comes to wait in the first scope that it lies in, and the others stay where they are. -/
theorem pending_enqueueIn (h : Gen.enqueueIn b scopes = some outer) :
    Pending outer c ↔ c = b ∨ Pending scopes c := by
  induction scopes generalizing outer with
  | nil => cases h
  | cons scope rest ih =>
    unfold Gen.enqueueIn at h
    split at h
    · cases h
      simp [enqueue, or_assoc]
    · obtain ⟨rest', hr, rfl⟩ := Option.map_eq_some_iff.mp h
      simp [ih hr, or_left_comm]

theorem pending_modifyHead (h : scopes ≠ []) :
    Pending (scopes.modifyHead (·.enqueue b)) c ↔ c = b ∨ Pending scopes c := by
  cases scopes with
  | nil => exact absurd rfl h
  | cons scope rest => simp [enqueue, or_assoc]

/-- A block that is put off waits in some scope around. -/
theorem pending_take_append (h : Gen.enqueueIn b scopes.tail = some outer) :
    Pending (scopes.take 1 ++ outer) c ↔ c = b ∨ Pending scopes c := by
  cases scopes with
  | nil => cases h
  | cons scope rest =>
    rw [List.tail_cons] at h
    simp [pending_enqueueIn h, or_left_comm]

end Scope

theorem State.pending_unqueue {s : State} {b c : BlockId} (hc : Scope.Pending s.scopes c)
    (hne : c ≠ b) : Scope.Pending (s.unqueue b).scopes c := by
  unfold State.unqueue
  split
  · exact Scope.pending_dequeue.mpr ⟨hc, hne⟩
  · exact hc

theorem State.pending_of_unqueue {s : State} {b c : BlockId}
    (hc : Scope.Pending (s.unqueue b).scopes c) : Scope.Pending s.scopes c := by
  unfold State.unqueue at hc
  split at hc
  · exact (Scope.pending_dequeue.mp hc).1
  · exact hc

theorem State.pending_of_claimed {s : State} {b c : BlockId}
    (hc : Scope.Pending (s.claimed b).scopes c) : c = b ∨ Scope.Pending s.scopes c := by
  by_cases hn : (s.unqueue b).scopes = []
  · rw [State.claimed, hn] at hc
    exact absurd hc Scope.not_pending_nil
  · exact ((Scope.pending_modifyHead hn).mp hc).imp_right State.pending_of_unqueue

/-- Every block that waits is in the list of an open scope. -/
def State.Waiting (s : State) : Prop := ∀ b ∈ s.queued, Scope.Pending s.scopes b

namespace State.Waiting

variable {g : Graph} {s s' : State}

/-- Without scopes no block waits. -/
theorem queued_eq_nil (h : s.Waiting) (hs : s.scopes = []) : s.queued = [] := by
  refine List.eq_nil_iff_forall_not_mem.mpr fun b hb => ?_
  obtain ⟨scope, hm, -⟩ := h b hb
  rw [hs] at hm
  cases hm

theorem unqueue (h : s.Waiting) (b : BlockId) : (s.unqueue b).Waiting := by
  intro c hc
  rw [State.queued_unqueue, List.mem_filter] at hc
  exact State.pending_unqueue (h c hc.1) (by simpa using hc.2)

/-- One move keeps every block that counts as waiting in a scope. -/
theorem move (h : s.Waiting) (hm : Move g s s') : s'.Waiting := by
  cases hm with
  | quiet hq =>
    intro b hb
    rw [hq.calm.queued] at hb
    rw [hq.calm.scopes]
    exact h b hb
  | @enter viaEdge b => exact h.unqueue b
  | defer _ _ _ _ ho =>
    intro c hc
    exact (Scope.pending_take_append ho).mpr ((List.mem_cons.mp hc).imp_right (h c))
  | @claim b hne =>
    intro c hc
    have hf : (s.unqueue b).scopes ≠ [] := State.scopes_ne_nil (s.frames_unqueue b) hne
    exact (Scope.pending_modifyHead hf).mpr ((List.mem_cons.mp hc).imp_right (h.unqueue b c))
  | @take scope outer b rest hs hp =>
    intro c hc
    obtain ⟨hc, hne⟩ := List.mem_filter.mp hc
    have hw := h c hc
    -- It is not the block that was taken, so it is in the rest of the list or further out.
    rw [hs, Scope.pending_cons, hp, List.mem_cons] at hw
    exact Scope.pending_cons.mpr (hw.imp_left fun hc => hc.resolve_left (by simpa using hne))
  | @opened kind first hi =>
    intro c hc
    rw [State.queued_opened] at hc
    rw [State.scopes_opened]
    exact Scope.pending_cons.mpr (.inr (h.unqueue first c hc))
  | closed hs hp =>
    intro c hc
    have hw := h c hc
    rw [hs, Scope.pending_cons, hp] at hw
    exact hw.resolve_left (by simp)
  | _ => exact h

/-- So do all moves of a run. -/
theorem steps (h : s.Waiting) (hs : Steps g s s') : s'.Waiting := by
  induction hs with
  | refl => exact h
  | tail _ hm ih => exact ih.move hm

end State.Waiting
end Linearizer
