import Mathlib.Data.List.Perm.Subperm
import Linearizer.Proofs.Generator.Coverage
import Linearizer.Proofs.Queue.Coherence

/-!
# Room for visits

Generation bounds the visits that are inside each other and the blocks that a scope writes from its
list. Neither bound is ever reached: no block is written twice, a visit inside another one belongs
to a block that has been written, and a block that is taken from a list is written next.

- **Room** (`Gen.bounded`): how many blocks are yet to be written at most, in a state that moves
  lead to.
- **Calls** (`Moment.Sound`): what holds of the state in which a call is made.
-/

namespace Linearizer

/-! ## Blocks that are yet to be written -/

/-- What has been written stays written. -/
theorem Move.emitted {g : Graph} {s s' : State} (h : Move g s s') : s.emitted <:+ s'.emitted := by
  have of_eq (he : s'.emitted = s.emitted) : s.emitted <:+ s'.emitted := he ▸ List.suffix_refl _
  cases h with
  | quiet h => exact of_eq h.calm.emitted
  | @enter viaEdge b => exact s.emitted_entered viaEdge b ▸ List.suffix_cons _ _
  | @claim b => exact of_eq (s.emitted_unqueue b)
  | opened => exact of_eq (s.emitted_opened _ _ _)
  | _ => exact of_eq rfl

theorem State.Marked.length_le {g : Graph} {s : State} (h : s.Marked g) :
    s.emitted.length ≤ g.size := by
  have hsub : s.emitted ⊆ List.range g.size := fun b hb =>
    List.mem_range.mpr (Graph.lt_size_of_isLive (h.live b hb))
  simpa using (List.subperm_of_subset h.once hsub).length_le

/-- A block that is taken from the list of the innermost scope can be written there. -/
theorem State.Coherent.taken_of_run {g : Graph} {s s₁ : State} {b : BlockId} (h : s.Coherent g)
    (hn : Gen.nextPending s = .ok (some b) s₁) :
    g.isLive b = true ∧ b ∉ s₁.emitted ∧ (s₁.innermost g).contains b = true ∧
      s₁.emitted = s.emitted := by
  obtain ⟨scope, outer, rest, hs, hp, rfl⟩ := Gen.nextPending_some hn
  have hb : b ∈ scope.pending := hp ▸ List.mem_cons_self
  obtain ⟨live, new⟩ := h.waiting b (h.queued_of_mem hs hb)
  exact ⟨live, new, (h.lists scope (hs ▸ List.mem_cons_self)).inside b hb, rfl⟩

/-- A block that can be written where it is visited is written. -/
theorem Emits.emitted_of_visit {setting : Setting} {viaEdge : Bool} {b : BlockId} {s s' : State}
    (h : Emits setting (.visit viaEdge b) s s') (live : setting.graph.isLive b = true)
    (new : b ∉ s.emitted) (within : (s.innermost setting.graph).contains b = true) :
    b :: s.emitted ⊆ s'.emitted := by
  simp only [Scope.contains, Bool.and_eq_true, decide_eq_true_eq] at within
  cases h with
  | revisit _ he => exact absurd he new
  | pass hb _ hd => simp [Graph.isLive, hb, hd] at live
  | leave _ _ _ out _ => exact absurd within.2 (Nat.not_lt.mpr out)
  | enter _ _ _ _ hbody =>
    have hemitted := hbody.covered.covers.emitted
    rwa [State.emitted_entered] at hemitted

/-! ## Room for visits -/

namespace Gen

variable {setting : Setting} {start : State}

/-- Fewer blocks are yet to be written than there may be visits inside each other or blocks that
are taken from a scope (module doc). -/
def bounded (setting : Setting) (start : State) : Moving setting where
  holds n s := Steps setting.graph start s ∧ setting.graph.size < s.emitted.length + n
  left k s := setting.graph.size < s.emitted.length + k
  failed e s := Steps setting.graph start s ∧ e.isNesting = false

theorem bounded_kept (coherent : start.Coherent setting.graph)
    (marked : start.Marked setting.graph) : (bounded setting start).Kept where
  move {n s s'} hm hs := by
    have hlen := hm.emitted.length_le
    exact ⟨hs.1.tail hm, Nat.lt_of_lt_of_le hs.2 (Nat.add_le_add_right hlen n)⟩
  enter {n viaEdge b s} live new within hs := by
    refine ⟨hs.1.tail (.enter live new within), ?_⟩
    rw [State.emitted_entered, List.length_cons, Nat.add_assoc, Nat.add_comm 1]
    exact hs.2
  grow hs := ⟨hs.1, Nat.lt_succ_of_lt hs.2⟩
  fails he hs := ⟨hs.1, he⟩
  -- The blocks that are written are different blocks of the graph.
  nesting {s} hs := by
    have hlen := (marked.steps hs.1).length_le
    exact absurd hs.2 (Nat.not_lt.mpr hlen)
  start {n s} _ := by
    change setting.graph.size < s.emitted.length + (setting.graph.size + 1)
    omega
  stuck {n s} hs hl := by
    have hlen := (marked.steps hs.1).length_le
    exact absurd hl (Nat.not_lt.mpr hlen)
  skip {n k b s s₁} hn he hs _ := absurd he ((coherent.steps hs.1).taken_of_run hn).2.1
  next {n k b s s₁ s₂} hn new hemits hs hs₂ hl := by
    obtain ⟨live, -, within, hemitted⟩ := (coherent.steps hs.1).taken_of_run hn
    -- The visit has written the block that was taken.
    have once : s₁.emitted.Nodup := hemitted ▸ (marked.steps hs.1).once
    have hsub := hemits.emitted_of_visit live new within
    have hlen := (List.subperm_of_subset (List.nodup_cons.mpr ⟨new, once⟩) hsub).length_le
    rw [List.length_cons, hemitted] at hlen
    change setting.graph.size < s.emitted.length + (k + 1) at hl
    change setting.graph.size < s₂.emitted.length + k
    omega

end Gen

/-! ## Calls -/

/-- What holds whenever a call is noted: a scope is open, the marks agree with the lists, and the
list of a scope that is about to be closed is empty. -/
structure Moment.Sound (g : Graph) (x : Moment) : Prop where
  active : x.state.scopes ≠ []
  coherent : x.state.Coherent g
  drained : ∀ kind, x.call = .closeScope kind →
    ∃ lo hi outer, x.state.scopes = ⟨kind, lo, hi, []⟩ :: outer

/-- The run of a routine reaches no bound, and all that it notes is sound. -/
theorem Journaled.routine_bounded (setting : Setting) (registry : Registry)
    (peers : List (List Helper)) :
    (Gen.bounded setting { registry, peers }).invariant.MeetsFrom (routine setting)
      (fun _ _ s => (Gen.bounded setting { registry, peers }).holds (setting.graph.size + 1) s) []
      { registry, peers } := by
  have marked : ({ registry, peers } : State).Marked setting.graph :=
    ⟨rfl, List.nodup_nil, List.forall_mem_nil _⟩
  refine Moving.routine_meets (Gen.bounded_kept (.of_closed rfl rfl) marked) rfl ⟨.refl, ?_⟩
    fun hs => hs.1.numbers.exitIsFresh fun _ _ hl => nomatch hl
  exact Nat.lt_of_lt_of_le (Nat.lt_succ_self _) (Nat.le_add_left _ _)

end Linearizer
