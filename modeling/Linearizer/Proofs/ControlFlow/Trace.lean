import Linearizer.Proofs.Generator.Schedule

/-!
# Traces

What can be observed of the control flow of a routine: which blocks control visits in which order,
and how it ends. What happens at run time is left to a sequence of decisions, one for each
condition, each attempt to move an enumeration on and each comparison of a switch, in the order in
which they are evaluated.

- **Graphs** (`Graph.trace`): the first events of a run that follows the edges.
- **Listings** (`Listing.trace`): the events of the first steps of a run that goes through the
  elements one by one and follows taken branches to their labels. Protected regions and jump tables
  are left out: such a run stops there.
- **Silent steps** (`Listing.Leads`): what can be seen from one place can be seen from another.
-/

namespace Linearizer

/-- How a run ends. -/
inductive Ending where
  | returned
  | thrown
deriving DecidableEq

/-- What can be observed of a run. -/
inductive Event where
  | visit (b : BlockId)
  | stop (e : Ending)
deriving DecidableEq

/-- The outcomes of what is decided at run time, in order. -/
abbrev Decisions := Nat → Bool

/-! ## Runs of graphs -/

/-- How an action ends a run. -/
def Action.ending? : Action → Option Ending
  | .ret _ => some .returned
  | .throw _ => some .thrown
  | _ => none

/-- How the statements of a block end a run: by the first one that does. -/
def Block.ending? (b : Block) : Option Ending := b.statements.findSome? (·.action.ending?)

/-- Where a switch goes when `k` decisions have been made before: to the target of the first case
that compares equal. Gives the number of decisions made then, too. -/
def Case.choose (ds : Decisions) (default : BlockId) : List Case → (k : Nat) → BlockId × Nat
  | [], k => (default, k)
  | c :: rest, k => if ds k then (c.target, k + 1) else choose ds default rest (k + 1)

namespace Edge

/-- Whether the edge runs a protected region. -/
def isProtected : Edge → Bool
  | .protect .. => true
  | _ => false

/-- Where control goes on an edge when `k` decisions have been made before, and how many have been
made then. -/
def next? (ds : Decisions) (k : Nat) : Edge → Option (BlockId × Nat)
  | .goto target => some (target, k)
  | .conditional _ ifTrue ifFalse => some (if ds k then ifTrue else ifFalse, k + 1)
  | .foreach _ next => some (next, k)
  | .moveNext _ _ _ body after => some (if ds k then body else after, k + 1)
  | .switch _ cases default => some (Case.choose ds default cases k)
  | .protect .. => none

end Edge

namespace Graph

/-- What follows the visit of a block: the end of the run, or another block. A block without an edge
returns. -/
def onward? (g : Graph) (ds : Decisions) (b : BlockId) (k : Nat) :
    Option (Ending ⊕ BlockId × Nat) := do
  let block ← g.block? b
  match block.ending?, block.edge with
  | some e, _ => return .inl e
  | none, none => return .inl .returned
  | none, some e => Sum.inr <$> e.next? ds k

/-- The first `n` events of a run from a block on, when `k` decisions have been made before. -/
def trace (g : Graph) (ds : Decisions) : (n : Nat) → BlockId → (k : Nat) → List Event
  | 0, _, _ => []
  | n + 1, b, k =>
    .visit b :: match g.onward? ds b k with
      | some (.inl e) => [Event.stop e].take n
      | some (.inr (c, k)) => g.trace ds n c k
      | none => []

end Graph

/-! ## Runs of listings -/

/-- How an element ends a run. -/
def Insn.ending? : Insn → Option Ending
  | .op .ret => some .returned
  | .op .throw => some .thrown
  | _ => none

namespace Listing

/-- Where a label stands. -/
def position? (l : Listing) (target : Label) : Option Nat :=
  l.insns.toList.idxOf? (.label target)

/-- The place that control goes on at after the element at `pc` when `k` decisions have been made
before, and how many have been made then. -/
def next? (l : Listing) (ds : Decisions) (pc k : Nat) : Insn → Option (Nat × Nat)
  | .branch .br target => (l.position? target).map (·, k)
  | .branch .brtrue target =>
    if ds k then (l.position? target).map (·, k + 1) else some (pc + 1, k + 1)
  | .branch .brfalse target =>
    if ds k then some (pc + 1, k + 1) else (l.position? target).map (·, k + 1)
  | .label _ => some (pc + 1, k)
  | i => if i.isPlain then some (pc + 1, k) else none

/-- The events of the first `n` steps of a run from a place on, when `k` decisions have been made
before. The label of a block is its visit. -/
def trace (l : Listing) (ds : Decisions) : (n pc k : Nat) → List Event
  | 0, _, _ => []
  | n + 1, pc, k =>
    match l.insns[pc]? with
    | none => []
    | some i =>
      match i.ending? with
      | some e => [.stop e]
      | none =>
        i.marks?.toList.map Event.visit ++ match l.next? ds pc k i with
          | some (pc, k) => l.trace ds n pc k
          | none => []

end Listing

/-! ## Traces of graphs -/

namespace Graph

variable {g : Graph} {ds : Decisions}

theorem trace_take (n n' : Nat) (b : BlockId) (k : Nat) :
    (g.trace ds n' b k).take n = g.trace ds (min n n') b k := by
  induction n' generalizing n b k with
  | zero => simp [trace]
  | succ n' ih =>
    cases n with
    | zero => simp [trace]
    | succ n =>
      rw [Nat.succ_min_succ]
      simp only [trace, List.take_succ_cons]
      cases hg : g.onward? ds b k with
      | none => simp
      | some next =>
        cases next with
        | inl e => simp [List.take_take]
        | inr next => simp [ih]

/-- A run that is never stuck ends with its last event, or has as many events as are asked for. -/
theorem trace_complete {P : BlockId → Prop}
    (hP : ∀ b k, P b → ∃ next, g.onward? ds b k = some next ∧
      ∀ c k', next = .inr (c, k') → P c) (n : Nat) {b : BlockId} (k : Nat) (hb : P b) :
    (g.trace ds n b k).length = n ∨ ∃ e, .stop e ∈ g.trace ds n b k := by
  induction n generalizing b k with
  | zero => exact .inl rfl
  | succ n ih =>
    obtain ⟨next, hg, hnext⟩ := hP b k hb
    cases next with
    | inl e =>
      simp only [trace, hg]
      cases n with
      | zero => exact .inl rfl
      | succ n => exact .inr ⟨e, by simp⟩
    | inr next =>
      obtain ⟨c, k'⟩ := next
      simp only [trace, hg]
      obtain hlen | ⟨e, he⟩ := ih k' (hnext c k' rfl)
      · exact .inl (by simp [hlen])
      · exact .inr ⟨e, List.mem_cons_of_mem _ he⟩

end Graph

/-! ## Traces of listings -/

namespace Listing

variable {l : Listing} {ds : Decisions} {n pc k : Nat} {i : Insn}

theorem trace_stop {e : Ending} (hi : l.insns[pc]? = some i) (he : i.ending? = some e) :
    l.trace ds (n + 1) pc k = [.stop e] := by
  simp [trace, hi, he]

theorem trace_visit {b : BlockId} (hi : l.insns[pc]? = some (.label (.block b))) :
    l.trace ds (n + 1) pc k = .visit b :: l.trace ds n (pc + 1) k := by
  simp [trace, hi, Insn.ending?, Insn.marks?, next?]

theorem trace_next {pc' k' : Nat} (hi : l.insns[pc]? = some i) (he : i.ending? = none)
    (hm : i.marks? = none) (hn : l.next? ds pc k i = some (pc', k')) :
    l.trace ds (n + 1) pc k = l.trace ds n pc' k' := by
  simp [trace, hi, he, hm, hn]

theorem trace_length_le (n pc k : Nat) : (l.trace ds n pc k).length ≤ n := by
  induction n generalizing pc k with
  | zero => simp [trace]
  | succ n ih =>
    unfold trace
    split
    · exact Nat.zero_le _
    · split
      · simp
      · rename_i i _ _ _
        have hm : (i.marks?.toList.map Event.visit).length ≤ 1 := by
          cases i.marks? <;> simp
        rw [List.length_append]
        split
        · rename_i pc' k' _
          have := ih pc' k'
          omega
        · rw [List.length_nil]
          omega

theorem trace_mono_succ (n pc k : Nat) : l.trace ds n pc k <+: l.trace ds (n + 1) pc k := by
  induction n generalizing pc k with
  | zero => exact List.nil_prefix
  | succ n ih =>
    unfold trace
    split
    · exact List.prefix_refl _
    · split
      · exact List.prefix_refl _
      · refine (List.prefix_append_right_inj _).mpr ?_
        split
        · exact ih _ _
        · exact List.prefix_refl _

theorem trace_mono {n' : Nat} (h : n ≤ n') (pc k : Nat) :
    l.trace ds n pc k <+: l.trace ds n' pc k := by
  induction h with
  | refl => exact List.prefix_refl _
  | step _ ih => exact ih.trans (trace_mono_succ _ pc k)

/-- After its end a run has no more events. -/
theorem trace_stopped_succ {e : Ending} (h : .stop e ∈ l.trace ds n pc k) :
    l.trace ds (n + 1) pc k = l.trace ds n pc k := by
  induction n generalizing pc k with
  | zero => cases h
  | succ n ih =>
    unfold trace at h ⊢
    cases hi : l.insns[pc]? with
    | none => rfl
    | some i =>
      simp only [hi] at h ⊢
      cases he : i.ending? with
      | some e => rfl
      | none =>
        simp only [he, List.mem_append, List.mem_map, reduceCtorEq, and_false, exists_false,
          false_or] at h ⊢
        cases hn : l.next? ds pc k i with
        | none => rfl
        | some next =>
          simp only [hn] at h ⊢
          rw [ih h]

theorem trace_stopped {n' : Nat} {e : Ending} (h : .stop e ∈ l.trace ds n pc k) (hn : n ≤ n') :
    l.trace ds n' pc k = l.trace ds n pc k := by
  induction hn with
  | refl => rfl
  | step _ ih => exact (trace_stopped_succ (ih ▸ h)).trans ih

/-! ## Silent steps -/

/-- Whatever can be seen of a run from `q` on can be seen of one from `p` on. -/
def Leads (l : Listing) (ds : Decisions) (p k q k' : Nat) : Prop :=
  ∀ n, ∃ n', l.trace ds n' p k = l.trace ds n q k'

namespace Leads

theorem refl (p k : Nat) : l.Leads ds p k p k := fun n => ⟨n, rfl⟩

theorem trans {p k₁ q k₂ r k₃ : Nat} (h : l.Leads ds p k₁ q k₂) (h' : l.Leads ds q k₂ r k₃) :
    l.Leads ds p k₁ r k₃ := fun n =>
  have ⟨n', hn'⟩ := h' n
  have ⟨n'', hn''⟩ := h n'
  ⟨n'', hn''.trans hn'⟩

theorem of_next {pc' k' : Nat} (hi : l.insns[pc]? = some i) (he : i.ending? = none)
    (hm : i.marks? = none) (hn : l.next? ds pc k i = some (pc', k')) :
    l.Leads ds pc k pc' k' := fun n => ⟨n + 1, trace_next hi he hm hn⟩

end Leads
end Listing

/-! ## Agreement -/

/-- A listing that can show every first part of the run of a graph shows nothing else, if the run is
never stuck. -/
theorem trace_agrees {g : Graph} {l : Listing} {ds : Decisions} {pc : Nat} {b : BlockId}
    (hsim : ∀ n, ∃ m, l.trace ds m pc 0 = g.trace ds n b 0)
    (hlive : ∀ n, (g.trace ds n b 0).length = n ∨ ∃ e, .stop e ∈ g.trace ds n b 0) (m : Nat) :
    ∃ n, l.trace ds m pc 0 = g.trace ds n b 0 := by
  obtain ⟨m', hm'⟩ := hsim m
  have hlen : (l.trace ds m pc 0).length ≤ m := Listing.trace_length_le m pc 0
  rcases Nat.le_total m m' with hle | hle
  · -- The listing shows a first part of what it shows in `m'` steps.
    refine ⟨min (l.trace ds m pc 0).length m, ?_⟩
    rw [← Graph.trace_take, ← hm']
    exact List.prefix_iff_eq_take.mp (l.trace_mono hle pc 0)
  · obtain hfull | ⟨e, he⟩ := hlive m
    · -- In `m` steps there are no more than `m` events.
      refine ⟨m, ?_⟩
      rw [← hm'] at hfull ⊢
      refine ((l.trace_mono hle pc 0).eq_of_length_le ?_).symm
      omega
    · rw [← hm'] at he
      exact ⟨m, (Listing.trace_stopped he hle).trans hm'⟩

end Linearizer
