import Mathlib.Data.List.Perm.Subperm
import Linearizer.Proofs.Flat.Value
import Linearizer.Proofs.Graph.Reachable

/-!
# States of routines without protected regions

All blocks of a routine without protected regions lie in the one scope of the routine: a block is
written where control reaches it first, waits in that scope, or has been written before.

- **Flat routines** (`Graph.IsFlat`): no edge runs a protected region, and nothing that is named is
  missing.
- **Flat states** (`State.Flat`): what holds of the schedule. One parameter bounds the blocks that
  are yet to be written, and each block that is written lowers it (`State.Flat.entered`). A live
  block that has not been written is among them (`State.Flat.pos`).
- **Failures** (`State.Fails`): the two reasons, each with the block that is to blame.
-/

namespace Linearizer

/-- Whether the edge starts an enumeration. -/
def Edge.isForeach : Edge → Bool
  | .foreach .. => true
  | _ => false

/-- The block whose enumeration the edge moves on. -/
def Edge.source? : Edge → Option BlockId
  | .moveNext source .. => some source
  | _ => none

namespace Graph

/-- Whether the code of a block starts an enumeration. -/
def acquires (g : Graph) (b : BlockId) : Bool :=
  ((g.block? b).bind Block.exit?).any Edge.isForeach

/-- The block whose enumeration the code of a block moves on. -/
def source? (g : Graph) (b : BlockId) : Option BlockId :=
  ((g.block? b).bind Block.exit?).bind Edge.source?

/-- There are all conversions that the block asks for. -/
def Supports (g : Graph) (b : BlockId) : Prop := ∀ r ∈ g.requests b, r.isSupported = true

theorem requests_eq {g : Graph} {b : BlockId} {block : Block} (hb : g.block? b = some block) :
    g.requests b = block.requests g.places := by
  simp [requests, hb]

end Graph

/-- No edge runs a protected region, and the routine has every block and variable that it names. -/
structure Graph.IsFlat (g : Graph) : Prop where
  blocks : ∀ b ∈ g.ids.blocks, b < g.size
  vars : ∀ v ∈ g.ids.vars, v < g.vars.length
  unprotected : ∀ block ∈ g.blocks, ∀ e ∈ block.edge, e.isProtected = false

namespace Graph.IsFlat

variable {g : Graph} {block : Block}

theorem known {u : Ids} (h : g.IsFlat) (hb : block ∈ g.blocks)
    (hu : ∀ v ∈ u.vars, v ∈ block.ids.vars) : ∀ v ∈ u.vars, v < g.places.length := by
  intro v hv
  rw [g.length_places]
  refine h.vars v (List.mem_append_right _ ?_)
  exact Ids.mem_vars_gather.mpr ⟨_, List.mem_map_of_mem hb, hu v hv⟩

theorem action (h : g.IsFlat) (hb : block ∈ g.blocks) {x : Stmt} (hx : x ∈ block.statements) :
    ∀ v ∈ x.action.ids.vars, v < g.places.length := by
  refine h.known hb fun v hv => List.mem_append_left _ ?_
  exact Ids.mem_vars_gather.mpr ⟨_, List.mem_map_of_mem hx, hv⟩

theorem edge (h : g.IsFlat) (hb : block ∈ g.blocks) {e : Edge} (he : block.edge = some e) :
    ∀ v ∈ e.ids.vars, v < g.places.length := by
  refine h.known hb fun v hv => List.mem_append_right _ ?_
  exact Ids.mem_vars_gather.mpr ⟨e.ids, by simp [he], hv⟩

/-- The successors of a block exist. -/
theorem successors (h : g.IsFlat) (hb : block ∈ g.blocks) {e : Edge} (he : block.edge = some e) :
    ∀ c ∈ e.successors, c < g.size := by
  have hsub : ∀ c ∈ e.successors, c ∈ e.ids.blocks := by
    cases e with
    | protect body handlers cleanup next => cases h.unprotected block hb _ he
    | goto target => exact fun _ hc => hc
    | moveNext source value key body after => exact fun c hc => List.mem_cons_of_mem source hc
    | conditional => exact fun _ hc => List.mem_append_right _ hc
    | «foreach» => exact fun _ hc => List.mem_append_right _ hc
    | switch => exact fun _ hc => List.mem_append_right _ hc
  intro c hc
  refine h.blocks c (List.mem_append_right _ ?_)
  refine Ids.mem_blocks_gather.mpr ⟨_, List.mem_map_of_mem hb, List.mem_append_right _ ?_⟩
  exact Ids.mem_blocks_gather.mpr ⟨e.ids, by simp [he], hsub c hc⟩

end Graph.IsFlat

/-- A switch that is written as a table asks for nothing but its integer. -/
theorem Edge.requests_of_table {places : List Place} {options : Options} {scope : Scope}
    {value : Expr} {cases : List Case} {default : BlockId} {range : TableRange}
    (h : TableRange.ofCases? options scope value cases default = some range) :
    (Edge.switch value cases default).requests places = value.requests places .int64 := by
  obtain ⟨-, ⟨ints, hints, -⟩, -⟩ := TableRange.ofCases?_eq_some h
  have hnone : cases.flatMap (Case.requests places true) = [] := by
    refine List.flatMap_eq_nil_iff.mpr fun c hc => ?_
    obtain ⟨m, -, hm⟩ := TableRange.int?_of_mapM hints hc
    unfold Case.int? at hm
    unfold Case.requests
    cases hvalue : c.value <;> simp_all
  simp [Edge.requests, TableRange.hint_of_ofCases? h, hnone]

/-! ## Flat states -/

namespace Scope

/-- Inserting adds one element. -/
theorem insert_perm {b : BlockId} {l : List BlockId} (h : b ∉ l) : (insert b l).Perm (b :: l) := by
  induction l with
  | nil => exact .refl _
  | cons c rest ih =>
    obtain ⟨hne, hrest⟩ := List.ne_and_not_mem_of_not_mem_cons h
    by_cases hlt : b < c
    · simp only [insert, hlt, if_true, List.Perm.refl]
    · simp only [insert, hlt, hne, if_false]
      exact ((ih hrest).cons c).trans (.swap b c rest)

end Scope

namespace State

variable {g : Graph} {s s' : State} {b : BlockId} {pending : List BlockId}

/-- The scope of the routine is the only one that is open. The blocks that wait in it are live, have
not been written, and are known to wait. -/
structure Queue (g : Graph) (s : State) (pending : List BlockId) : Prop where
  scopes : s.scopes = [⟨.routine, 0, g.size, pending⟩]
  distinct : pending.Nodup
  waiting : ∀ c ∈ pending, g.isLive c = true ∧ c ∉ s.emitted ∧ c ∈ s.queued

namespace Queue

theorem inRoutine (h : s.Queue g pending) : s.InRoutine g := by
  unfold InRoutine frames
  rw [h.scopes]
  rfl

/-- A block less waits. -/
theorem unqueue (h : s.Queue g pending) (b : BlockId) :
    (s.unqueue b).Queue g (pending.filter (· != b)) := by
  refine ⟨?_, h.distinct.filter _, fun c hc => ?_⟩
  · by_cases hb : s.queued.contains b = true
    · simp only [State.unqueue, hb, if_true, h.scopes]
      rfl
    · have hself : pending.filter (· != b) = pending := by
        refine List.filter_eq_self.mpr fun c hc => bne_iff_ne.mpr ?_
        rintro rfl
        exact hb (List.contains_iff_mem.mpr (h.waiting c hc).2.2)
      simp only [State.unqueue, hb, Bool.false_eq_true, if_false, h.scopes, hself]
  · obtain ⟨hc, hne⟩ := List.mem_filter.mp hc
    obtain ⟨live, new, hq⟩ := h.waiting c hc
    rw [emitted_unqueue, queued_unqueue]
    exact ⟨live, new, List.mem_filter.mpr ⟨hq, hne⟩⟩

/-- Entering a block takes it out of the queue. -/
theorem entered (h : s.Queue g pending) (viaEdge : Bool) (b : BlockId) :
    (s.entered viaEdge b).Queue g (pending.filter (· != b)) := by
  have hq := h.unqueue b
  refine ⟨hq.scopes, hq.distinct, fun c hc => ?_⟩
  obtain ⟨live, new, hw⟩ := hq.waiting c hc
  rw [emitted_unqueue] at new
  refine ⟨live, ?_, hw⟩
  rw [emitted_entered, List.mem_cons, not_or]
  exact ⟨by simpa using (List.mem_filter.mp hc).2, new⟩

/-- A block of the routine waits in its queue. -/
theorem claimed (h : s.Queue g pending) (live : g.isLive b = true) (new : b ∉ s.emitted) :
    (s.claimed b).Queue g (Scope.insert b (pending.filter (· != b))) := by
  have hq := h.unqueue b
  have hself : b ∉ pending.filter (· != b) := by simp
  have hperm := Scope.insert_perm hself
  refine ⟨?_, hperm.nodup_iff.mpr (List.nodup_cons.mpr ⟨hself, hq.distinct⟩), fun c hc => ?_⟩
  · simp only [State.claimed, hq.scopes]
    rfl
  · have hemitted : (s.claimed b).emitted = s.emitted := s.emitted_unqueue b
    have hqueued : (s.claimed b).queued = b :: (s.unqueue b).queued := rfl
    rw [hemitted, hqueued]
    rcases List.mem_cons.mp (hperm.mem_iff.mp hc) with rfl | hc
    · exact ⟨live, new, List.mem_cons_self⟩
    · obtain ⟨live, new, hw⟩ := hq.waiting c hc
      exact ⟨live, by rwa [emitted_unqueue] at new, List.mem_cons_of_mem b hw⟩

/-- The first block that waits is taken. -/
theorem taken {rest : List BlockId} (h : s.Queue g (b :: rest)) :
    ({ s with
      scopes := [⟨.routine, 0, g.size, rest⟩]
      queued := s.queued.filter (· != b) }).Queue g rest := by
  obtain ⟨hb, hrest⟩ := List.nodup_cons.mp h.distinct
  refine ⟨rfl, hrest, fun c hc => ?_⟩
  obtain ⟨live, new, hw⟩ := h.waiting c (List.mem_cons_of_mem b hc)
  refine ⟨live, new, List.mem_filter.mpr ⟨hw, bne_iff_ne.mpr ?_⟩⟩
  rintro rfl
  exact hb hc

end Queue

/-- A state of the generation of a routine without protected regions. At most `n` blocks are yet to
be written, the code of `busy` is being written, and `late` have not started their enumerations. -/
structure Flat (g : Graph) (busy late : List BlockId) (n : Nat) (s : State) : Prop where
  places : s.places = g.places
  queue : ∃ pending, s.Queue g pending
  once : s.emitted.Nodup
  live : ∀ b ∈ s.emitted, g.isLive b = true
  room : g.size ≤ s.emitted.length + n
  begun : ∀ b ∈ busy, b ∈ s.emitted
  settled : ∀ b ∈ s.emitted, b ∈ busy ∨ g.Supports b
  acquired : ∀ b ∈ s.emitted, g.acquires b = true →
    b ∈ late ∨ (s.enumerators.lookup b).isSome = true

namespace Flat

variable {busy late : List BlockId} {n : Nat}

theorem ready (h : s.Flat g busy late n) : s.Ready g := by
  obtain ⟨pending, hq⟩ := h.queue
  exact ⟨h.places, hq.inRoutine⟩

/-- Only the blocks that wait are others. -/
theorem requeue (h : s.Flat g busy late n) (hp : s'.places = s.places)
    (he : s'.emitted = s.emitted) (hn : s'.enumerators = s.enumerators)
    (hq : s'.Queue g pending) : s'.Flat g busy late n where
  places := hp.trans h.places
  queue := ⟨pending, hq⟩
  once := he ▸ h.once
  live := he ▸ h.live
  room := he ▸ h.room
  begun := he ▸ h.begun
  settled := he ▸ h.settled
  acquired := by
    rw [he, hn]
    exact h.acquired

/-- Straight-line code leaves a flat state flat. -/
theorem still (h : s.Flat g busy late n) (hs : Still s s') : s'.Flat g busy late n := by
  obtain ⟨pending, hq⟩ := h.queue
  have hqueue : s'.Queue g pending := by
    refine ⟨hs.scopes.trans hq.scopes, hq.distinct, ?_⟩
    rw [hs.emitted, hs.queued]
    exact hq.waiting
  exact h.requeue hs.places hs.emitted hs.enumerators hqueue

/-- The blocks of the routine are about to be written. -/
theorem start (hp : s.places = g.places)
    (hs : s.scopes = []) (he : s.emitted = []) (hq : s.queued = []) :
    (s.opened .routine Graph.entry g.size).Flat g [] [] g.size := by
  have hunqueue : (s.unqueue Graph.entry) = s := by simp [State.unqueue, hq]
  refine ⟨by simpa using hp, ⟨[], ?_, List.nodup_nil, List.forall_mem_nil _⟩,
    ?_, ?_, ?_, ?_, ?_, ?_⟩
  · rw [State.scopes_opened, hunqueue, hs]
    rfl
  all_goals simp [he]

theorem mono {n' : Nat} (h : s.Flat g busy late n) (hn : n ≤ n') : s.Flat g busy late n' :=
  { h with room := Nat.le_trans h.room (Nat.add_le_add_left hn _) }

/-- A live block that has not been written is one of those that are yet to be written. -/
theorem pos (h : s.Flat g busy late n) (live : g.isLive b = true) (new : b ∉ s.emitted) :
    0 < n := by
  have hsub : b :: s.emitted ⊆ List.range g.size := by
    refine List.forall_mem_cons.mpr ⟨?_, fun c hc => ?_⟩
    · exact List.mem_range.mpr (Graph.lt_size_of_isLive live)
    · exact List.mem_range.mpr (Graph.lt_size_of_isLive (h.live c hc))
  have hlen : (b :: s.emitted).length ≤ (List.range g.size).length :=
    (List.subperm_of_subset (List.nodup_cons.mpr ⟨new, h.once⟩) hsub).length_le
  have hroom := h.room
  rw [List.length_cons, List.length_range] at hlen
  omega

/-- A block that is entered is busy until its successors are seen to. -/
theorem entered (h : s.Flat g busy [] (n + 1)) (live : g.isLive b = true) (new : b ∉ s.emitted)
    (viaEdge : Bool) : (s.entered viaEdge b).Flat g (b :: busy) [b] n := by
  obtain ⟨pending, hq⟩ := h.queue
  have hemitted := s.emitted_entered viaEdge b
  have henumerators : (s.entered viaEdge b).enumerators = s.enumerators := s.enumerators_unqueue b
  refine ⟨(s.places_unqueue b).trans h.places, ⟨_, hq.entered viaEdge b⟩, ?_, ?_, ?_, ?_, ?_, ?_⟩
  · rw [hemitted]
    exact List.nodup_cons.mpr ⟨new, h.once⟩
  · rw [hemitted]
    exact List.forall_mem_cons.mpr ⟨live, h.live⟩
  · have hroom := h.room
    rw [hemitted, List.length_cons]
    omega
  · rw [hemitted]
    refine List.forall_mem_cons.mpr ⟨List.mem_cons_self, fun c hc => ?_⟩
    exact List.mem_cons_of_mem b (h.begun c hc)
  · rw [hemitted]
    refine List.forall_mem_cons.mpr ⟨.inl List.mem_cons_self, fun c hc => ?_⟩
    exact (h.settled c hc).imp_left (List.mem_cons_of_mem b)
  · rw [hemitted, henumerators]
    refine List.forall_mem_cons.mpr ⟨fun _ => .inl (List.mem_singleton_self b), fun c hc ha => ?_⟩
    exact .inr ((h.acquired c hc ha).resolve_left List.not_mem_nil)

/-- The code of a block is finished. -/
theorem finished (h : s.Flat g (b :: busy) late n) (hb : g.Supports b) :
    s.Flat g busy late n := by
  refine { h with begun := fun c hc => h.begun c (List.mem_cons_of_mem b hc), settled := ?_ }
  intro c hc
  rcases h.settled c hc with hm | hc
  · rcases List.mem_cons.mp hm with rfl | hm
    · exact .inr hb
    · exact .inl hm
  · exact .inr hc

/-- A block that starts no enumeration is not late. -/
theorem prompt (h : s.Flat g busy [b] n) (hb : g.acquires b = false) : s.Flat g busy [] n := by
  refine { h with acquired := fun c hc ha => (h.acquired c hc ha).imp_left fun hm => ?_ }
  obtain rfl := List.mem_singleton.mp hm
  rw [hb] at ha
  cases ha

/-- The enumeration of a block is started. -/
theorem enumerating (h : s.Flat g busy [b] n) (slot : LocalId) :
    ({ s with enumerators := (b, slot) :: s.enumerators }).Flat g busy [] n := by
  obtain ⟨pending, hq⟩ := h.queue
  refine ⟨h.places, ⟨pending, hq.scopes, hq.distinct, hq.waiting⟩, h.once, h.live, h.room, h.begun,
    h.settled, fun c hc ha => .inr ?_⟩
  by_cases hne : c = b
  · simp [hne]
  · have hlookup := (h.acquired c hc ha).resolve_left (by simpa using hne)
    simpa [List.lookup_cons, beq_false_of_ne hne] using hlookup

theorem claimed (h : s.Flat g busy late n) (live : g.isLive b = true) (new : b ∉ s.emitted) :
    (s.claimed b).Flat g busy late n := by
  obtain ⟨pending, hq⟩ := h.queue
  exact h.requeue (s.places_unqueue b) (s.emitted_unqueue b) (s.enumerators_unqueue b)
    (hq.claimed live new)

end Flat
end State

/-- The states of the generation of a routine without protected regions, as an invariant. -/
def flat (g : Graph) (busy late : List BlockId) (n : Nat) : Steady g :=
  ⟨State.Flat g busy late n, State.Flat.ready, State.Flat.still⟩

/-- Why generation can fail: a block that has been started asks for a conversion that does not
exist, or moves on an enumeration that no block has started. -/
inductive State.Fails (g : Graph) : Fault → State → Prop
  | unsupported {s : State} {b : BlockId} {r : Request} (hb : b ∈ s.emitted)
      (hr : r ∈ g.requests b) (h : r.isSupported = false) : Fails g r.fault s
  | unacquired {s : State} {b source : BlockId} (hb : b ∈ s.emitted)
      (moves : g.source? b = some source)
      (h : ¬(source ∈ s.emitted ∧ g.acquires source = true)) : Fails g (.noEnumerator source) s

end Linearizer
