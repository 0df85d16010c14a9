import Mathlib.Data.List.Nodup
import Linearizer.Proofs.Generator.Labels
import Linearizer.Proofs.Generator.Routine

/-!
# The targets of branches in a listing

In a listing of a successful generation the target of every branch is marked exactly once.

* `Finished.count_block`: the label of a block that has been written stands once;
* `Finished.emitted_of_branch`: a block that is branched to has been written;
* `Finished.count_fresh`: a label that is not of a block stands where a task has written it, or at
  the exit that returns share (`State.count_sharedExit`);
* `Graph.generate_branches_resolve` puts this together.
-/

namespace Linearizer

/-- A label of a block stands as often as the block is among those of the labels. -/
theorem count_label_block (code : List Insn) (b : BlockId) :
    code.count (.label (.block b)) = (code.filterMap Insn.marks?).count b := by
  induction code with
  | nil => rfl
  | cons i rest ih =>
    cases hm : i.marks? with
    | none =>
      have hi : i ≠ .label (.block b) := by
        rintro rfl
        cases hm
      rw [List.count_cons_of_ne hi, List.filterMap_cons_none hm, ih]
    | some c =>
      have hi : i = .label (.block c) := by
        unfold Insn.marks? at hm
        split at hm
        · cases hm
          rfl
        · cases hm
      rw [hi, List.filterMap_cons_some (by rfl)]
      simp [List.count_cons, ih]

namespace State

variable {s : State} {l : Label}

theorem count_sharedExit {slot : LocalId} (h : s.returnSlot = some (slot, l)) :
    s.sharedExit.count (.label l) = 1 := by
  simp [sharedExit, h]

theorem count_sharedExit_of_ne (h : ∀ slot, s.returnSlot ≠ some (slot, l)) :
    s.sharedExit.count (.label l) = 0 := by
  unfold sharedExit
  split
  · rfl
  · rename_i slot label hr
    have hne : label ≠ l := by
      rintro rfl
      exact h slot hr
    simp [hne]

end State

namespace Finished

variable {g : Graph} {options : Options} {registry : Registry} {s₁ s₂ : State}

theorem count_block (h : Finished g options registry s₁ s₂) {b : BlockId} (hb : b ∈ s₂.emitted) :
    (g.generate options registry).listing.insns.toList.count (.label (.block b)) = 1 := by
  rw [count_label_block, ← Listing.blockOrder_eq, h.blockOrder_eq, List.count_reverse]
  exact List.count_eq_one_of_mem h.marked.once hb

/-- The labels that are not of blocks are those that the blocks of the routine have written, and
that of the shared exit. -/
theorem count_fresh (h : Finished g options registry s₁ s₂) {code : List Insn}
    (hl : Links g code s₁ s₂) (n : Nat) :
    (g.generate options registry).listing.insns.toList.count (.label (.fresh n)) =
      code.count (.label (.fresh n)) + s₂.sharedExit.count (.label (.fresh n)) := by
  have hstart : .label (.fresh n) ∉ s₁.code := fun hm => by
    cases List.all_eq_true.mp h.start_isPlain _ hm
  rw [h.code, hl.code_eq, List.count_append, List.count_append,
    List.count_eq_zero_of_not_mem hstart, Nat.zero_add]

/-- The branches of a routine are those that its blocks have written. -/
theorem mem_code_of_branch (h : Finished g options registry s₁ s₂) {code : List Insn}
    (hl : Links g code s₁ s₂) {o : BranchOp} {l : Label}
    (hb : .branch o l ∈ (g.generate options registry).listing.insns.toList) :
    .branch o l ∈ code := by
  rw [h.code, hl.code_eq, List.append_assoc, List.mem_append, List.mem_append] at hb
  rcases hb with hb | hb | hb
  · cases List.all_eq_true.mp h.start_isPlain _ hb
  · exact hb
  · unfold State.sharedExit at hb
    split at hb
    · cases hb
    · simp at hb

theorem links (h : Finished g options registry s₁ s₂) : ∃ code, Links g code s₁ s₂ :=
  h.emits.linked fun _ _ hr => by cases h.start.returnSlot.symm.trans hr

/-- A block that is branched to has been written. -/
theorem emitted_of_branch (h : Finished g options registry s₁ s₂) {o : BranchOp} {b : BlockId}
    (hb : .branch o (.block b) ∈ (g.generate options registry).listing.insns.toList) :
    b ∈ s₂.emitted := by
  obtain ⟨code, hl⟩ := h.links
  cases hl.targets o _ (h.mem_code_of_branch hl hb) with
  | written he => exact he
  | seen live hs => exact h.emitted_of_seen hs live
  | shared hr =>
    obtain ⟨n, -, hn⟩ := h.exitIsFresh _ _ hr
    cases hn

end Finished

/-- In the listing of a successful generation the target of every branch is marked exactly once. -/
theorem Graph.generate_branches_resolve {g : Graph} {options : Options} {registry : Registry}
    {l : Listing} (h : (g.generate options registry).result = .ok l) {o : BranchOp} {target : Label}
    (hb : .branch o target ∈ l.insns) : l.insns.toList.count (.label target) = 1 := by
  obtain ⟨s₁, s₂, hfin, rfl⟩ := generate_result h
  rw [← Array.mem_toList_iff] at hb
  cases target with
  | block b => exact hfin.count_block (hfin.emitted_of_branch hb)
  | fresh n =>
    obtain ⟨code, hl⟩ := hfin.links
    rw [hfin.count_fresh hl]
    cases hl.targets o _ (hfin.mem_code_of_branch hl hb) with
    | here hm =>
      -- A label that a task has written is not that of the shared exit.
      have hpos := List.count_pos_iff.mpr hm
      have hle := hl.once n
      rw [State.count_sharedExit_of_ne (hl.bounds n hm).2.2]
      omega
    | shared hr =>
      have hn : .label (.fresh n) ∉ code := fun hm => (hl.bounds n hm).2.2 _ hr
      rw [State.count_sharedExit hr, List.count_eq_zero_of_not_mem hn]

/-- A routine whose region is left by a branch over an exit, and by a return. -/
def Graph.guarded : Graph where
  name := "guarded"
  vars := [⟨"flag", .param 0, .value, .any⟩]
  classes := ["Failure"]
  blocks := [
    ⟨"entry", false, [], some (.protect 1 [⟨0, none, 3⟩] none 4)⟩,
    ⟨"body", false, [], some (.conditional (.var 0 .any) 2 4)⟩,
    ⟨"early", false, [⟨.ret none, none⟩], none⟩,
    ⟨"handler", false, [], some (.goto 0)⟩,
    ⟨"done", false, [], none⟩]

theorem Graph.guarded_branches_resolve : ∃ l, (guarded.generate {} {}).result = .ok l ∧
    .branch .brtrue (.fresh 0) ∈ l.insns ∧ l.insns.toList.count (.label (.fresh 0)) = 1 ∧
    .branch .leave (.fresh 1) ∈ l.insns ∧ l.insns.toList.count (.label (.fresh 1)) = 1 ∧
    .branch .leave (.block 4) ∈ l.insns ∧ l.insns.toList.count (.label (.block 4)) = 1 := by
  have hok : (guarded.generate {} {}).result = .ok (guarded.generate {} {}).listing :=
    Generation.result_of_isOk (by decide +kernel)
  have hskip : .branch .brtrue (.fresh 0) ∈ (guarded.generate {} {}).listing.insns := by
    decide +kernel
  have hreturn : .branch .leave (.fresh 1) ∈ (guarded.generate {} {}).listing.insns := by
    decide +kernel
  have hexit : .branch .leave (.block 4) ∈ (guarded.generate {} {}).listing.insns := by
    decide +kernel
  exact ⟨_, hok, hskip, generate_branches_resolve hok hskip, hreturn,
    generate_branches_resolve hok hreturn, hexit, generate_branches_resolve hok hexit⟩

end Linearizer
