import Linearizer.Proofs.ControlFlow.Layout

/-!
# Simulation of graphs by listings

A listing in which every label of a block stands once, every branch has a target and every block is
laid out behaves as the graph does.

- **Listings** (`LaidOut`): what is asked of a listing.
- **Silent steps** (`Walk.leads`, `Reaches.leads`, `CasesAt.leads`, `EdgeAt.leads`): from the code
  of an edge control gets to the label of the block that the edge goes to, by the same decisions.
- **Simulation** (`LaidOut.simulates`, `LaidOut.complete`): the listing shows every first part of
  the run of the graph, and that run is never stuck.
-/

namespace Linearizer

/-- The label of the block stands at `p`. -/
def Listing.MarksAt (l : Listing) (b : BlockId) (p : Nat) : Prop :=
  l.insns.toList[p]? = some (.label (.block b))

/-- What makes a listing behave as the graph does (module doc). -/
structure LaidOut (g : Graph) (l : Listing) : Prop where
  unique : ∀ {b p}, l.MarksAt b p → l.position? (.block b) = some p
  resolved : ∀ {o b}, .branch o (.block b) ∈ l.insns.toList → ∃ p, l.MarksAt b p
  blocks : ∀ {b p}, l.MarksAt b p → ∃ block, g.block? b = some block ∧
    BodyAt l.insns.toList (p + 1) block

variable {g : Graph} {l : Listing} {ds : Decisions} {p q k k' : Nat} {b : BlockId}

/-! ## Silent steps -/

theorem Insn.next?_of_isPlain {i : Insn} (h : i.isPlain = true) (l : Listing) (ds : Decisions)
    (pc k : Nat) : i.ending? = none ∧ i.marks? = none ∧ l.next? ds pc k i = some (pc + 1, k) := by
  cases i with
  | op o =>
    refine ⟨?_, rfl, if_pos h⟩
    cases o with
    | ret | throw => cases h
    | _ => rfl
  | branch | label => cases h
  | _ => exact ⟨rfl, rfl, by simp [Listing.next?, h]⟩

/-- Control gets from one place to the other without a decision. -/
theorem Walk.leads (h : Walk l.insns.toList p q) (ds : Decisions) (k : Nat) :
    l.Leads ds p k q k := by
  obtain ⟨hle, hw⟩ := h
  induction hle with
  | refl => exact .refl p k
  | @step q hpq ih =>
    obtain ⟨i, hi, hp⟩ := hw q hpq (Nat.lt_succ_self q)
    obtain ⟨he, hm, hn⟩ := Insn.next?_of_isPlain hp l ds q k
    refine (ih fun j hlo hhi => hw j hlo (Nat.lt_succ_of_lt hhi)).trans ?_
    exact .of_next (by simpa using hi) he hm hn

/-- Control gets from `p` to the label of the block. -/
def Listing.Arrives (l : Listing) (ds : Decisions) (p k : Nat) (b : BlockId) (k' : Nat) : Prop :=
  ∃ q, l.MarksAt b q ∧ l.Leads ds p k q k'

namespace Listing.Arrives

theorem after (h : l.Arrives ds q k b k') {k₀ : Nat} (hl : l.Leads ds p k₀ q k) :
    l.Arrives ds p k₀ b k' :=
  have ⟨r, hm, hr⟩ := h
  ⟨r, hm, hl.trans hr⟩

/-- A branch that is taken. -/
theorem of_branch (hg : LaidOut g l) {o : BranchOp}
    (hi : l.insns.toList[p]? = some (.branch o (.block b)))
    (hn : l.next? ds p k (.branch o (.block b)) = (l.position? (.block b)).map (·, k')) :
    l.Arrives ds p k b k' := by
  obtain ⟨q, hq⟩ := hg.resolved (List.mem_of_getElem? hi)
  rw [hg.unique hq] at hn
  exact ⟨q, hq, .of_next (by simpa using hi) rfl rfl hn⟩

end Listing.Arrives

/-- A branch that is not taken. -/
theorem leads_of_branch {o : BranchOp} (hi : l.insns.toList[p]? = some (.branch o (.block b)))
    (hn : l.next? ds p k (.branch o (.block b)) = some (p + 1, k')) : l.Leads ds p k (p + 1) k' :=
  .of_next (by simpa using hi) rfl rfl hn

theorem Reaches.arrives (h : Reaches l.insns.toList p b) (hg : LaidOut g l) (k : Nat) :
    l.Arrives ds p k b k := by
  rcases h with h | h
  · exact ⟨p, h, .refl p k⟩
  · exact .of_branch hg h rfl

/-- From a branch on a false condition control gets to its target, or to what stands after it. -/
theorem arrives_of_brfalse (hg : LaidOut g l) {ifTrue ifFalse : BlockId}
    (hi : l.insns.toList[p]? = some (.branch .brfalse (.block ifFalse)))
    (h : l.Arrives ds (p + 1) (k + 1) ifTrue (k + 1)) :
    l.Arrives ds p k (if ds k then ifTrue else ifFalse) (k + 1) := by
  by_cases hd : ds k = true
  · rw [if_pos hd]
    exact h.after (leads_of_branch hi (if_pos hd))
  · rw [if_neg hd]
    exact .of_branch hg hi (if_neg hd)

theorem CasesAt.arrives (hg : LaidOut g l) {cases : List Case} {default : BlockId}
    (h : CasesAt l.insns.toList p cases q) (hd : Reaches l.insns.toList q default) (k : Nat) :
    l.Arrives ds p k (Case.choose ds default cases k).1 (Case.choose ds default cases k).2 := by
  induction h generalizing k with
  | nil => exact hd.arrives hg k
  | cons hw hb _ ih =>
    refine Listing.Arrives.after ?_ (hw.leads ds k)
    unfold Case.choose
    by_cases hk : ds k = true
    · rw [if_pos hk]
      exact .of_branch hg hb (if_pos hk)
    · rw [if_neg hk]
      exact (ih hd (k + 1)).after (leads_of_branch hb (if_neg hk))

/-- From the code of an edge control gets to the block that the edge goes to. -/
theorem EdgeAt.arrives (hg : LaidOut g l) {e : Edge} (h : EdgeAt l.insns.toList p e)
    (ds : Decisions) (k : Nat) :
    ∃ c k', e.next? ds k = some (c, k') ∧ l.Arrives ds p k c k' := by
  cases h with
  | goto h => exact ⟨_, _, rfl, h.arrives hg k⟩
  | conditional hw hb h =>
    exact ⟨_, _, rfl, (arrives_of_brfalse hg hb (h.arrives hg (k + 1))).after (hw.leads ds k)⟩
  | «foreach» hw h => exact ⟨_, _, rfl, (h.arrives hg k).after (hw.leads ds k)⟩
  | moveNext hw hb hs h =>
    have hbody := (h.arrives hg (k + 1)).after (hs.leads ds (k + 1))
    exact ⟨_, _, rfl, (arrives_of_brfalse hg hb hbody).after (hw.leads ds k)⟩
  | switch hw hc h => exact ⟨_, _, rfl, (hc.arrives hg h k).after (hw.leads ds k)⟩

/-! ## Simulation -/

/-- A place where a run ends. -/
theorem EndsAt.trace_eq {e : Ending} (h : EndsAt l.insns.toList p e) (k : Nat) :
    l.trace ds 1 p k = [.stop e] := by
  obtain ⟨i, hi, he⟩ := h
  exact Listing.trace_stop (by simpa using hi) he

namespace LaidOut

/-- What follows the label of a block in the listing is what follows its visit in the graph. -/
theorem onward (h : LaidOut g l) (hb : l.MarksAt b p) (ds : Decisions) (k : Nat) :
    (∃ e m, g.onward? ds b k = some (.inl e) ∧ l.trace ds m (p + 1) k = [.stop e]) ∨
    ∃ c k', g.onward? ds b k = some (.inr (c, k')) ∧ l.Arrives ds (p + 1) k c k' := by
  obtain ⟨block, hblock, q, hw, hq⟩ := h.blocks hb
  have hstop : ∀ e, EndsAt l.insns.toList q e → ∃ m, l.trace ds m (p + 1) k = [.stop e] :=
    fun e he => have ⟨m, hm⟩ := hw.leads ds k 1; ⟨m, hm.trans (he.trace_eq k)⟩
  simp only [Graph.onward?, hblock, Option.bind_eq_bind, Option.bind_some]
  cases he : block.ending? with
  | some e =>
    rw [he] at hq
    obtain ⟨m, hm⟩ := hstop e hq
    exact .inl ⟨e, m, rfl, hm⟩
  | none =>
    rw [he] at hq
    cases hedge : block.edge with
    | none =>
      rw [hedge] at hq
      obtain ⟨m, hm⟩ := hstop .returned hq
      exact .inl ⟨.returned, m, rfl, hm⟩
    | some e =>
      rw [hedge] at hq
      obtain ⟨c, k', hn, ha⟩ := EdgeAt.arrives h hq ds k
      exact .inr ⟨c, k', by simp [hn], ha.after (hw.leads ds k)⟩

/-- From the label of a block on the listing shows every first part of the run of the graph. -/
theorem simulates (h : LaidOut g l) (n : Nat) (hb : l.MarksAt b p) (k : Nat) :
    ∃ m, l.trace ds m p k = g.trace ds n b k := by
  induction n generalizing b p k with
  | zero => exact ⟨0, rfl⟩
  | succ n ih =>
    have hi : l.insns[p]? = some (.label (.block b)) := by simpa [Listing.MarksAt] using hb
    suffices hrest : ∃ m, .visit b :: l.trace ds m (p + 1) k = g.trace ds (n + 1) b k by
      obtain ⟨m, hm⟩ := hrest
      exact ⟨m + 1, (Listing.trace_visit hi).trans hm⟩
    unfold Graph.trace
    obtain ⟨e, m, hg, hm⟩ | ⟨c, k', hg, q, hq, hl⟩ := h.onward hb ds k
    · rw [hg]
      cases n with
      | zero => exact ⟨0, rfl⟩
      | succ n => exact ⟨m, by simp [hm]⟩
    · rw [hg]
      obtain ⟨m, hm⟩ := ih hq k'
      obtain ⟨m', hm'⟩ := hl m
      exact ⟨m', by simp [hm', hm]⟩

/-- From a block with a label on, the run of the graph is never stuck. -/
theorem complete (h : LaidOut g l) (hb : l.MarksAt b p) (ds : Decisions) (n k : Nat) :
    (g.trace ds n b k).length = n ∨ ∃ e, .stop e ∈ g.trace ds n b k := by
  refine Graph.trace_complete (P := fun b => ∃ p, l.MarksAt b p) (fun b k ⟨p, hb⟩ => ?_) n k ⟨p, hb⟩
  obtain ⟨e, _, hg, -⟩ | ⟨c, k', hg, q, hq, -⟩ := h.onward hb ds k
  · exact ⟨_, hg, fun _ _ hn => by cases hn⟩
  · refine ⟨_, hg, fun c' k'' hn => ?_⟩
    cases hn
    exact ⟨q, hq⟩

end LaidOut
end Linearizer
