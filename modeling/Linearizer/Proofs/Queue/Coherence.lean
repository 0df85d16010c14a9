import Linearizer.Proofs.Generator.Schedule

/-!
# Marks and lists of waiting blocks

A block that waits is noted in two places: it has a mark, and it stands in the list of the scope
that is to write it. Taking a block off the ones that wait looks at the mark first, so that a mark
without a place in a list, or a place without a mark, would stay for good.

- **Lists** (`Scope.Lists`): the list of a scope is ascending, and its blocks lie in the scope.
- **Places** (`Scope.holders`): in how many of some lists a block stands.
- **Coherence** (`State.Coherent`): a block with a mark stands in one list and any other block in
  none, and a block with a mark is live and has not been written. Every move of generation keeps
  this (`State.Coherent.move`), hence every sequence of moves (`State.Coherent.steps`).
-/

namespace Linearizer

namespace Scope

variable {scope : Scope} {scopes outer : List Scope} {b c : BlockId}

/-! ## The list of a scope -/

/-- The blocks that wait in the scope stand in ascending order, each once, and lie in it. -/
structure Lists (scope : Scope) : Prop where
  ascending : scope.pending.Pairwise (· < ·)
  inside : ∀ b ∈ scope.pending, scope.contains b = true

/-- Inserting keeps a list ascending. -/
theorem insert_pairwise {l : List BlockId} (h : l.Pairwise (· < ·)) :
    (insert b l).Pairwise (· < ·) := by
  induction l with
  | nil => exact List.pairwise_singleton _ b
  | cons a rest ih =>
    obtain ⟨hrest, hpairwise⟩ := List.pairwise_cons.mp h
    unfold insert
    split
    · rename_i hlt
      refine List.pairwise_cons.mpr ⟨List.forall_mem_cons.mpr ⟨hlt, fun d hd => ?_⟩, h⟩
      exact Nat.lt_trans hlt (hrest d hd)
    · rename_i hle
      split
      · exact h
      · rename_i hne
        refine List.pairwise_cons.mpr ⟨fun d hd => ?_, ih hpairwise⟩
        rcases mem_insert.mp hd with rfl | hd
        · exact Nat.lt_of_le_of_ne (Nat.not_lt.mp hle) (Ne.symm hne)
        · exact hrest d hd

namespace Lists

/-- A block of the scope may be put into its queue. -/
theorem enqueue (h : scope.Lists) (hb : scope.contains b = true) : (scope.enqueue b).Lists where
  ascending := insert_pairwise h.ascending
  inside c hc := (mem_insert.mp hc).elim (fun heq => heq ▸ hb) (h.inside c)

theorem dequeue (h : scope.Lists) (b : BlockId) : (scope.dequeue b).Lists where
  ascending := h.ascending.filter _
  inside c hc := h.inside c (List.mem_filter.mp hc).1

/-- The first block of the list is taken. -/
theorem rest {rest : List BlockId} (h : scope.Lists) (hp : scope.pending = b :: rest) :
    ({ scope with pending := rest }).Lists := by
  obtain ⟨ascending, inside⟩ := h
  rw [hp] at ascending inside
  exact ⟨(List.pairwise_cons.mp ascending).2, (List.forall_mem_cons.mp inside).2⟩

theorem not_mem_rest {rest : List BlockId} (h : scope.Lists) (hp : scope.pending = b :: rest) :
    b ∉ rest := by
  have ascending := h.ascending
  rw [hp] at ascending
  exact fun hb => Nat.lt_irrefl b ((List.pairwise_cons.mp ascending).1 b hb)

/-- A block may be put into the queue of a scope around. -/
theorem enqueueIn (h : ∀ scope ∈ scopes, scope.Lists) (hq : Gen.enqueueIn b scopes = some outer) :
    ∀ scope ∈ outer, scope.Lists := by
  induction scopes generalizing outer with
  | nil => cases hq
  | cons scope rest ih =>
    obtain ⟨hscope, hrest⟩ := List.forall_mem_cons.mp h
    unfold Gen.enqueueIn at hq
    split at hq
    · rename_i hb
      cases hq
      exact List.forall_mem_cons.mpr ⟨hscope.enqueue hb, hrest⟩
    · obtain ⟨rest', hr, rfl⟩ := Option.map_eq_some_iff.mp hq
      exact List.forall_mem_cons.mpr ⟨hscope, ih hrest hr⟩

end Lists

/-! ## Places of a block -/

/-- In how many of the lists of some scopes a block stands. -/
def holders (scopes : List Scope) (b : BlockId) : Nat := scopes.countP (·.pending.contains b)

@[simp] theorem holders_nil : holders [] b = 0 := rfl

@[simp] theorem holders_cons :
    holders (scope :: scopes) b = (if b ∈ scope.pending then 1 else 0) + holders scopes b := by
  simp [holders, List.countP_cons, Nat.add_comm]

/-- A block that is taken out of all queues is held by none. -/
theorem holders_dequeue :
    holders (scopes.map (·.dequeue b)) c = if c = b then 0 else holders scopes c := by
  induction scopes with
  | nil => simp
  | cons scope rest ih =>
    rw [List.map_cons, holders_cons, holders_cons, ih]
    by_cases hc : c = b <;> simp [dequeue, hc]

/-- A block that stood nowhere comes to stand in one list, and the others stay where they are. -/
theorem holders_enqueueIn (hb : holders scopes b = 0) (hq : Gen.enqueueIn b scopes = some outer) :
    holders outer c = if c = b then 1 else holders scopes c := by
  induction scopes generalizing outer with
  | nil => cases hq
  | cons scope rest ih =>
    rw [holders_cons, Nat.add_eq_zero_iff] at hb
    obtain ⟨hscope, hrest⟩ := hb
    unfold Gen.enqueueIn at hq
    split at hq
    · cases hq
      by_cases hc : c = b
      · simp [enqueue, hc, hrest]
      · simp [enqueue, hc]
    · obtain ⟨rest', hr, rfl⟩ := Option.map_eq_some_iff.mp hq
      rw [holders_cons, holders_cons, ih hrest hr]
      by_cases hc : c = b
      · simp [hc, hscope]
      · simp [hc]

/-- A block that is left to the innermost scope is left to the first one that it lies in. -/
theorem enqueueIn_modifyHead (hne : scopes ≠ [])
    (hb : ∀ scope ∈ scopes.head?, scope.contains b = true) :
    Gen.enqueueIn b scopes = some (scopes.modifyHead (·.enqueue b)) := by
  cases scopes with
  | nil => exact absurd rfl hne
  | cons scope rest => simp [Gen.enqueueIn, hb scope rfl]

/-- So is a block that is left to a scope around the innermost one, if it does not lie in that. -/
theorem enqueueIn_take_append (hb : ∀ scope ∈ scopes.head?, scope.contains b = false)
    (hq : Gen.enqueueIn b scopes.tail = some outer) :
    Gen.enqueueIn b scopes = some (scopes.take 1 ++ outer) := by
  cases scopes with
  | nil => cases hq
  | cons scope rest =>
    rw [List.tail_cons] at hq
    simp [Gen.enqueueIn, hb scope rfl, hq]

end Scope

namespace State

variable {g : Graph} {s s' : State} {b : BlockId}

/-- Whether the innermost scope has a block, where there may be no scope. -/
theorem contains_head? {x : Bool} (h : (s.innermost g).contains b = x) :
    ∀ scope ∈ s.scopes.head?, scope.contains b = x := by
  intro scope hscope
  unfold innermost at h
  cases hs : s.scopes with
  | nil =>
    rw [hs] at hscope
    cases hscope
  | cons scope' outer =>
    rw [hs] at hscope h
    cases hscope
    exact h

/-! ## Coherence -/

/-- The marks of the blocks that wait agree with the lists of the open scopes (module doc). -/
structure Coherent (g : Graph) (s : State) : Prop where
  lists : ∀ scope ∈ s.scopes, scope.Lists
  held : ∀ b, Scope.holders s.scopes b = if b ∈ s.queued then 1 else 0
  waiting : ∀ b ∈ s.queued, g.isLive b = true ∧ b ∉ s.emitted

namespace Coherent

theorem congr (h : s.Coherent g) (hs : s'.scopes = s.scopes) (hq : s'.queued = s.queued)
    (he : s'.emitted = s.emitted) : s'.Coherent g where
  lists := hs ▸ h.lists
  held := by
    rw [hs, hq]
    exact h.held
  waiting := by
    rw [hq, he]
    exact h.waiting

/-- A block in a queue counts as waiting. -/
theorem queued_of_mem (h : s.Coherent g) {scope : Scope} {outer : List Scope}
    (hs : s.scopes = scope :: outer) (hb : b ∈ scope.pending) : b ∈ s.queued := by
  have held := h.held b
  rw [hs, Scope.holders_cons, if_pos hb] at held
  by_contra hq
  rw [if_neg hq] at held
  omega

/-- Taking a block out of the queues. -/
theorem unqueue (h : s.Coherent g) (b : BlockId) : (s.unqueue b).Coherent g := by
  unfold State.unqueue
  split
  · refine ⟨?_, fun c => ?_, fun c hc => h.waiting c (List.mem_filter.mp hc).1⟩
    · rintro _ hm
      obtain ⟨scope, hscope, rfl⟩ := List.mem_map.mp hm
      exact (h.lists scope hscope).dequeue b
    · rw [Scope.holders_dequeue, h.held c]
      by_cases hc : c = b <;> simp [hc]
  · exact h

theorem not_mem_unqueue (s : State) (b : BlockId) : b ∉ (s.unqueue b).queued := by
  simp [queued_unqueue]

/-- A live block that has not been written comes to wait in the first scope that it lies in. -/
theorem enqueue (h : s.Coherent g) (live : g.isLive b = true) (new : b ∉ s.emitted)
    (idle : b ∉ s.queued) (hs : Gen.enqueueIn b s.scopes = some s'.scopes)
    (hq : s'.queued = b :: s.queued) (he : s'.emitted = s.emitted) : s'.Coherent g := by
  have hidle : Scope.holders s.scopes b = 0 := by rw [h.held b, if_neg idle]
  refine ⟨Scope.Lists.enqueueIn h.lists hs, fun c => ?_, ?_⟩
  · rw [Scope.holders_enqueueIn hidle hs, hq, h.held c]
    by_cases hc : c = b <;> simp [hc]
  · rw [hq, he]
    exact List.forall_mem_cons.mpr ⟨⟨live, new⟩, h.waiting⟩

/-- Entering a block, which waits no longer. -/
theorem entered (h : s.Coherent g) (viaEdge : Bool) (b : BlockId) :
    (s.entered viaEdge b).Coherent g := by
  have hidle := h.unqueue b
  refine ⟨hidle.lists, hidle.held, fun c hc => ?_⟩
  obtain ⟨live, new⟩ := hidle.waiting c hc
  rw [emitted_unqueue] at new
  refine ⟨live, ?_⟩
  rw [emitted_entered, List.mem_cons, not_or]
  refine ⟨?_, new⟩
  rintro rfl
  exact not_mem_unqueue s c hc

/-- A block of the innermost scope comes to wait there. -/
theorem claimed (h : s.Coherent g) (hs : s.scopes ≠ []) (live : g.isLive b = true)
    (new : b ∉ s.emitted) (within : (s.innermost g).contains b = true) :
    (s.claimed b).Coherent g := by
  have hframes := s.frames_unqueue b
  refine (h.unqueue b).enqueue live ?_ (not_mem_unqueue s b) ?_ rfl rfl
  · rwa [emitted_unqueue]
  · refine Scope.enqueueIn_modifyHead (scopes_ne_nil hframes hs) ?_
    exact contains_head? ((contains_innermost_congr hframes b).trans within)

/-- The first block that waits is taken. -/
theorem taken (h : s.Coherent g) {scope : Scope} {outer : List Scope} {rest : List BlockId}
    (hs : s.scopes = scope :: outer) (hp : scope.pending = b :: rest) :
    ({ s with
      scopes := { scope with pending := rest } :: outer
      queued := s.queued.filter (· != b) }).Coherent g := by
  obtain ⟨lists, held, waiting⟩ := h
  rw [hs] at lists held
  obtain ⟨hscope, houter⟩ := List.forall_mem_cons.mp lists
  refine ⟨List.forall_mem_cons.mpr ⟨hscope.rest hp, houter⟩, fun c => ?_, fun c hc => ?_⟩
  · have hc := held c
    rw [Scope.holders_cons, hp] at hc
    rw [Scope.holders_cons]
    by_cases hcb : c = b
    · subst hcb
      -- It stood in this list only, and there only at the head.
      have hzero : Scope.holders outer c = 0 := by
        rw [if_pos List.mem_cons_self] at hc
        split at hc <;> omega
      simp [hscope.not_mem_rest hp, hzero]
    · simpa [hcb] using hc
  · exact waiting c (List.mem_filter.mp hc).1

/-- A new scope has an empty queue. -/
theorem opened (h : s.Coherent g) (kind : ScopeKind) (first hi : BlockId) :
    (s.opened kind first hi).Coherent g := by
  obtain ⟨lists, held, waiting⟩ := h.unqueue first
  refine ⟨?_, fun c => ?_, ?_⟩
  · rw [scopes_opened]
    exact List.forall_mem_cons.mpr ⟨⟨.nil, List.forall_mem_nil _⟩, lists⟩
  · rw [scopes_opened, queued_opened, Scope.holders_cons, if_neg List.not_mem_nil, Nat.zero_add]
    exact held c
  · rw [queued_opened, emitted_opened]
    rwa [emitted_unqueue] at waiting

/-- A scope with an empty queue may be closed. -/
theorem closed (h : s.Coherent g) {scope : Scope} {outer : List Scope}
    (hs : s.scopes = scope :: outer) (hp : scope.pending = []) :
    ({ s with scopes := outer }).Coherent g := by
  obtain ⟨lists, held, waiting⟩ := h
  rw [hs] at lists held
  refine ⟨(List.forall_mem_cons.mp lists).2, fun c => ?_, waiting⟩
  have hc := held c
  rwa [Scope.holders_cons, hp, if_neg List.not_mem_nil, Nat.zero_add] at hc

/-- One move keeps queues and counts coherent. -/
theorem move (h : s.Coherent g) (hm : Move g s s') : s'.Coherent g := by
  cases hm with
  | quiet hq => exact h.congr hq.calm.scopes hq.calm.queued hq.calm.emitted
  | write | fresh | enumerate => exact h.congr rfl rfl rfl
  | @enter viaEdge b => exact h.entered viaEdge b
  | «defer» live new out idle ho =>
    exact h.enqueue live new idle (Scope.enqueueIn_take_append (contains_head? out) ho) rfl rfl
  | claim hs live new within => exact h.claimed hs live new within
  | take hs hp => exact h.taken hs hp
  | @opened kind first hi => exact h.opened kind first hi
  | closed hs hp => exact h.closed hs hp

/-- So do all moves of a run. -/
theorem steps (h : s.Coherent g) (hs : Steps g s s') : s'.Coherent g := by
  induction hs with
  | refl => exact h
  | tail _ hm ih => exact ih.move hm

/-- Nothing waits before the first scope is opened. -/
theorem of_closed (hs : s.scopes = []) (hq : s.queued = []) : s.Coherent g where
  lists := by
    rw [hs]
    exact List.forall_mem_nil _
  held b := by simp [hs, hq]
  waiting := by
    rw [hq]
    exact List.forall_mem_nil _

end Coherent
end State
end Linearizer
