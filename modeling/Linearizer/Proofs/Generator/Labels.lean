import Linearizer.Proofs.Generator.Coverage

/-!
# The targets of branches

A branch may be written long before its target. What is known then is that the target will be
written: it is the label of a block that has been seen, a label that the same task writes, or that
of the exit that returns share, which is written at the end of the routine.

- **Targets** (`State.Resolves`): what is known of the target of a branch.
- **Links** (`Links`): in the code that a task writes every target is known in this sense, and every
  label that is not of a block is new and written once. `Emits.linked` proves it of every task.
-/

namespace Linearizer

/-- The target of a branch in `code`, which ends in the state, is written there or will be. -/
inductive State.Resolves (g : Graph) (s : State) (code : List Insn) : Label → Prop
  | written {b : BlockId} (h : b ∈ s.emitted) : s.Resolves g code (.block b)
  | seen {b : BlockId} (live : g.isLive b = true) (h : s.Seen g b) : s.Resolves g code (.block b)
  | here {n : Nat} (h : .label (.fresh n) ∈ code) : s.Resolves g code (.fresh n)
  | shared {slot : LocalId} {l : Label} (h : s.returnSlot = some (slot, l)) : s.Resolves g code l

/-- The code that is written on the way from `s` to `s'`, with its labels and branches (module
doc). -/
structure Links (g : Graph) (code : List Insn) (s s' : State) : Prop where
  code_eq : s'.code = s.code ++ code
  numbers : Numbers s s'
  bounds : ∀ n, .label (.fresh n) ∈ code →
    s.nextLabel ≤ n ∧ n < s'.nextLabel ∧ ∀ slot, s'.returnSlot ≠ some (slot, .fresh n)
  once : ∀ n, code.count (.label (.fresh n)) ≤ 1
  targets : ∀ o l, .branch o l ∈ code → s'.Resolves g code l

namespace State.Resolves

variable {s s' : State} {code code' : List Insn} {l : Label}

/-- What is known of a target stays known. -/
theorem mono {setting : Setting} (h : s.Resolves setting.graph code l) (hn : Numbers s s')
    (hc : Covers setting s s') (hm : code ⊆ code') : s'.Resolves setting.graph code' l := by
  cases h with
  | written h => exact .written (hc.emitted h)
  | seen live h => exact .seen live (hc.seen _ h)
  | here h => exact .here (hm h)
  | shared h => exact .shared (hn.returnSlot_eq h)

end State.Resolves

namespace Links

variable {g : Graph} {s s₁ s' : State} {code code' : List Insn}

theorem of_code (hc : s'.code = s.code ++ code) (hn : Numbers s s')
    (hl : ∀ n, .label (.fresh n) ∉ code)
    (ht : ∀ o l, .branch o l ∈ code → s'.Resolves g code l) : Links g code s s' := by
  refine ⟨hc, hn, fun n hm => absurd hm (hl n), fun n => ?_, ht⟩
  rw [List.count_eq_zero_of_not_mem (hl n)]
  exact Nat.zero_le 1

/-- One branch, whose target is known. -/
theorem of_branch {o : BranchOp} {l : Label} (hc : s'.code = s.code ++ [.branch o l])
    (hn : Numbers s s') (ht : s'.Resolves g [.branch o l] l) : Links g [.branch o l] s s' := by
  refine of_code hc hn (by simp) fun o' l' hm => ?_
  cases List.mem_singleton.mp hm
  exact ht

/-- The numbers of the labels in two pieces of code, one after the other, are different. -/
theorem append (h : Links g code s s₁) (h' : Links g code' s₁ s')
    (ht : ∀ o l, .branch o l ∈ code → s'.Resolves g (code ++ code') l) :
    Links g (code ++ code') s s' := by
  refine ⟨?_, h.numbers.trans h'.numbers, fun n hm => ?_, fun n => ?_, fun o l hm => ?_⟩
  · rw [h'.code_eq, h.code_eq, List.append_assoc]
  · rcases List.mem_append.mp hm with hm | hm
    · obtain ⟨hlo, hhi, hslot⟩ := h.bounds n hm
      refine ⟨hlo, Nat.lt_of_lt_of_le hhi h'.numbers.nextLabel, fun slot hs => ?_⟩
      -- A shared exit that the second piece has declared has a larger number.
      obtain hr | ⟨-, slot', m, hm, hlo', -⟩ := h'.numbers.returnSlot
      · exact hslot slot (hr ▸ hs)
      · cases hm.symm.trans hs
        omega
    · obtain ⟨hlo, hhi, hslot⟩ := h'.bounds n hm
      exact ⟨Nat.le_trans h.numbers.nextLabel hlo, hhi, hslot⟩
  · rw [List.count_append]
    by_cases hm : .label (.fresh n) ∈ code
    · -- A number is below the first unused one after its own piece.
      have hn : .label (.fresh n) ∉ code' := fun hm' => by
        have := (h.bounds n hm).2.1
        have := (h'.bounds n hm').1
        omega
      rw [List.count_eq_zero_of_not_mem hn]
      exact h.once n
    · rw [List.count_eq_zero_of_not_mem hm, Nat.zero_add]
      exact h'.once n
  · rcases List.mem_append.mp hm with hm | hm
    · exact ht o l hm
    · cases h'.targets o l hm with
      | written h => exact .written h
      | seen live h => exact .seen live h
      | here h => exact .here (List.mem_append_right _ h)
      | shared h => exact .shared h

/-- A branch over an exit: its target is the new label after the exit. -/
theorem detour {setting : Setting} {o : BranchOp} (hs : s.ExitIsFresh)
    (h : Links setting.graph code (s.skipped o) s') :
    Links setting.graph
      ([.branch o (.fresh s.nextLabel)] ++ code ++ [.label (.fresh s.nextLabel)]) s
      (s'.written (.label (.fresh s.nextLabel))) := by
  have hlt : s.nextLabel < s'.nextLabel := h.numbers.nextLabel
  -- The shared exit was declared before, with a smaller number, or inside, with a larger one.
  have hnew : ∀ slot, s'.returnSlot ≠ some (slot, .fresh s.nextLabel) := by
    intro slot hslot
    obtain hr | ⟨-, slot', m, hm, hlo, -⟩ := h.numbers.returnSlot
    · obtain ⟨n, hn, hf⟩ := hs slot _ (hr.symm.trans hslot)
      cases hf
      omega
    · cases hm.symm.trans hslot
      have : s.nextLabel + 1 ≤ s.nextLabel := hlo
      omega
  refine ⟨?_, ((Numbers.of_skipped s o).trans h.numbers).trans (.of_eq rfl rfl), fun n hm => ?_,
    fun n => ?_, fun o' l hm => ?_⟩
  · rw [State.code_written, h.code_eq, State.code_skipped]
    simp
  · simp only [List.mem_append, List.mem_singleton, reduceCtorEq, false_or] at hm
    rcases hm with hm | hm
    · obtain ⟨hlo, hhi, hslot⟩ := h.bounds n hm
      exact ⟨Nat.le_trans (Nat.le_succ _) hlo, hhi, hslot⟩
    · cases hm
      exact ⟨Nat.le_refl _, hlt, hnew⟩
  · have hold : .label (.fresh s.nextLabel) ∉ code := fun hm => by
      have : s.nextLabel + 1 ≤ s.nextLabel := (h.bounds _ hm).1
      omega
    by_cases hn : n = s.nextLabel
    · subst hn
      simp [List.count_eq_zero_of_not_mem hold]
    · have := h.once n
      simpa [List.count_cons, hn, Ne.symm hn] using this
  · simp only [List.mem_append, List.mem_singleton, reduceCtorEq, or_false] at hm
    rcases hm with hm | hm
    · cases hm
      exact .here (by simp)
    · refine (h.targets o' l hm).mono (.of_eq rfl rfl) (.of_written _ _) fun i hi => ?_
      simp [hi]

end Links

/-! ## Links of tasks -/

/-- Nothing is written while blocks come to wait. -/
theorem Gen.schedules_writes {g : Graph} {targets : List BlockId} {s s' : State}
    (h : (targets.forM (schedule g) : Gen Unit) s = .ok () s') :
    s'.code = s.code ∧ s'.nextLabel = s.nextLabel ∧ s'.returnSlot = s.returnSlot := by
  induction targets generalizing s with
  | nil =>
    cases h
    exact ⟨rfl, rfl, rfl⟩
  | cons b rest ih =>
    obtain ⟨_, s₁, h₁, h₂⟩ := bind_ok h
    have hb := schedule_adds h₁
    obtain ⟨ht, hn, hr⟩ := ih h₂
    exact ⟨ht.trans hb.code_eq, hn.trans hb.nextLabel, hr.trans hb.returnSlot⟩

/-- No label but those of blocks is written, and no branch but to the shared exit. -/
structure Inert (s s' : State) : Prop where
  code : ∃ code, s'.code = s.code ++ code ∧ (∀ n, .label (.fresh n) ∉ code) ∧
    ∀ o l, .branch o l ∈ code → ∃ slot, s'.returnSlot = some (slot, l)
  numbers : Numbers s s'

namespace Inert

variable {s s' : State}

theorem of_eq (hc : s'.code = s.code) (hn : s'.nextLabel = s.nextLabel)
    (hr : s'.returnSlot = s.returnSlot) : Inert s s' :=
  ⟨⟨[], by simp [hc], by simp, by simp⟩, .of_eq hn hr⟩

theorem of_put {i : Insn} (hc : s'.code = s.code ++ [i]) (hl : ∀ n, i ≠ .label (.fresh n))
    (hb : ∀ o l, i ≠ .branch o l) (hn : s'.nextLabel = s.nextLabel)
    (hr : s'.returnSlot = s.returnSlot) : Inert s s' := by
  refine ⟨⟨[i], hc, fun n hm => ?_, fun o l hm => ?_⟩, .of_eq hn hr⟩
  · exact hl n (List.mem_singleton.mp hm).symm
  · exact absurd (List.mem_singleton.mp hm).symm (hb o l)

theorem of_marker (s : State) {i : Insn} (h : i.isMarker = true) : Inert s (s.written i) := by
  refine of_put (s.code_written i) ?_ ?_ rfl rfl
  · rintro n rfl
    cases h
  · rintro o l rfl
    cases h

theorem of_tabled (s : State) (targets : List BlockId) : Inert s (s.tabled targets) :=
  of_put (s.code_tabled targets) (by simp) (by simp) rfl rfl

theorem of_schedules {g : Graph} {targets : List BlockId}
    (h : (targets.forM (Gen.schedule g) : Gen Unit) s = .ok () s') : Inert s s' :=
  have ⟨hc, hn, hr⟩ := Gen.schedules_writes h
  of_eq hc hn hr

theorem of_calm (h : Calm s s') : Inert s s' := by
  obtain ⟨code, hc, hi⟩ := h.code
  refine ⟨⟨code, hc, fun n hm => ?_, fun o l hm => ?_⟩, h.numbers⟩
  · obtain hp | he | ⟨_, _, -, hb⟩ := hi _ hm
    · cases hp
    · cases he
    · cases hb
  · obtain hp | he | ⟨slot, label, hr, hb⟩ := hi _ hm
    · cases hp
    · cases he
    · cases hb
      exact ⟨slot, hr⟩

end Inert

/-- The code that is written from `s` on has its links, if the shared exit has a label of its
own. -/
def Linked (setting : Setting) (s s' : State) : Prop :=
  s.ExitIsFresh → ∃ code, Links setting.graph code s s'

namespace Linked

variable {setting : Setting} {s s₁ s' : State}

theorem of_inert (h : Inert s s') : Linked setting s s' := fun _ =>
  have ⟨code, hc, hl, hb⟩ := h.code
  ⟨code, .of_code hc h.numbers hl fun o l hm => have ⟨_, hr⟩ := hb o l hm; .shared hr⟩

theorem refl (s : State) : Linked setting s s := of_inert (.of_eq rfl rfl rfl)

theorem of_calm (h : Calm s s') : Linked setting s s' := of_inert (.of_calm h)

theorem of_straight (h : Straight s s') : Linked setting s s' := of_calm h.calm

/-- The first piece of code may branch to blocks that the second one covers. -/
theorem trans (h : Linked setting s s₁) (h' : Linked setting s₁ s') (hc : Covers setting s₁ s') :
    Linked setting s s' := fun hs => by
  obtain ⟨code, hl⟩ := h hs
  obtain ⟨code', hl'⟩ := h' (hl.numbers.exitIsFresh hs)
  refine ⟨code ++ code', hl.append hl' fun o l hm => ?_⟩
  exact (hl.targets o l hm).mono hl'.numbers hc (List.subset_append_left _ _)

theorem after (h : Linked setting s₁ s') (hi : Inert s s₁) : Linked setting s s' := fun hs => by
  obtain ⟨code, hc, hn, hb⟩ := hi.code
  obtain ⟨code', hl'⟩ := h (hi.numbers.exitIsFresh hs)
  have hl : Links setting.graph code s s₁ :=
    .of_code hc hi.numbers hn fun o l hm => have ⟨_, hr⟩ := hb o l hm; .shared hr
  refine ⟨code ++ code', hl.append hl' fun o l hm => ?_⟩
  obtain ⟨slot, hr⟩ := hb o l hm
  exact .shared (hl'.numbers.returnSlot_eq hr)

theorem after_straight (h : Linked setting s₁ s') (hs : Straight s s₁) : Linked setting s s' :=
  h.after (.of_calm hs.calm)

/-- The element that transfers control to a block whose label is known. -/
theorem of_exit {b : BlockId} (hc : s'.code = s.code ++ [exitInsn s.scopes b])
    (hn : Numbers s s') (ht : ∀ code, s'.Resolves setting.graph code (.block b)) :
    Linked setting s s' := fun _ => by
  unfold exitInsn at hc
  split at hc
  · exact ⟨_, .of_branch hc hn (ht _)⟩
  · exact ⟨_, .of_code hc hn (by simp) (by simp)⟩

end Linked

open Gen in
/-- Every task that returns has written code with its links. -/
theorem Emits.linked {setting : Setting} {task : Task} {s s' : State}
    (h : Emits setting task s s') : Linked setting s s' := by
  induction h with
  | revisit _ he =>
    exact .of_exit (State.code_revisited _ _) (.of_eq rfl rfl) fun _ => .written he
  | pass | drained | noCase | noHandler | noCleanup => exact .refl _
  | @enter viaEdge b _ s _ _ _ _ _ _ ih =>
    refine ih.after (.of_put (s.code_entered viaEdge b) (by simp) (by simp) ?_ ?_)
    · simp [State.entered]
    · simp [State.entered]
  | leave hb _ hd _ hq =>
    have live := isLive_eq_true hb hd
    have ha := defer_adds hq live
    refine .of_exit ?_ (.of_eq ha.nextLabel ha.returnSlot) fun _ => .seen live ha.seen
    exact ha.code_eq.trans (State.code_exited _ _)
  | stop hs => exact .of_calm (statements_calm setting.graph hs)
  | goOn hs _ _ _ ih => exact ih.after (.of_calm (statements_calm setting.graph hs))
  | fallOff hs _ _ hf => exact .of_calm ((statements_calm setting.graph hs).trans (fallOff_calm hf))
  | drop _ _ hp => exact .of_straight ((op_straight rfl).of_ok hp)
  | @direct o target _ s s' _ hb hd _ hs =>
    have ha := schedule_adds hs
    have hcode := ha.code_eq.trans (s.code_branched o (.block target))
    exact fun _ => ⟨_, .of_branch hcode (.of_eq ha.nextLabel ha.returnSlot)
      (.seen (isLive_eq_true hb hd) ha.seen)⟩
  | detour _ _ _ _ _ _ ih =>
    intro hs
    obtain ⟨code, hl⟩ := ih ((Numbers.of_skipped _ _).exitIsFresh hs)
    exact ⟨_, hl.detour hs⟩
  | @scope kind first hi s s₁ s' _ hvisit hdrain _ _ ihv ihd =>
    have hopen : Inert s (s.opened kind first hi) :=
      .of_eq (by simp) (by simp) (by simp)
    have hclose : Linked setting s' { s' with scopes := s'.scopes.tail } :=
      .of_inert (.of_eq rfl rfl rfl)
    exact ((ihv.trans ihd hdrain.covered.covers).trans hclose (.of_eq rfl rfl)).after hopen
  | skip hn _ _ ih =>
    obtain ⟨_, _, _, -, -, rfl⟩ := nextPending_some hn
    exact ih.after (.of_eq rfl rfl rfl)
  | next hn _ _ hrest ihv ihr =>
    obtain ⟨_, _, _, -, -, rfl⟩ := nextPending_some hn
    exact (ihv.trans ihr hrest.covered.covers).after (.of_eq rfl rfl rfl)
  | goto _ ih => exact ih
  | conditional hc _ hvisit ihb ihv =>
    exact (ihb.trans ihv hvisit.covered.covers).after_straight ((expr_straight _ _).of_ok hc)
  | @«foreach» b _ _ slot _ s₁ _ ha _ ih =>
    have henum : Inert s₁ { s₁ with enumerators := (b, slot) :: s₁.enumerators } :=
      .of_eq rfl rfl rfl
    exact (ih.after henum).after_straight ((acquire_straight _).of_ok ha)
  | moveNext _ ha _ hs hvisit ihb ihv =>
    have hstore := (storeItem_straight _ _ _).of_ok hs
    refine Linked.after_straight ?_ ((advance_straight _).of_ok ha)
    exact ihb.trans (ihv.after_straight hstore)
      ((Covers.of_straight hstore).trans hvisit.covered.covers)
  | chain _ hv _ hvisit ihc ihv =>
    exact (ihc.trans ihv hvisit.covered.covers).after_straight ((select_straight _).of_ok hv)
  | table _ hi _ hj hs hvisit ihb ihv =>
    have hload := (loadIndex_straight _).of_ok hj
    have htable := (ihv.after (.of_schedules hs)).after (.of_tabled _ _)
    refine Linked.after_straight (ihb.trans (htable.after_straight hload) ?_)
      ((tableIndex_straight _ _).of_ok hi)
    have hsched := (covers_schedules hs).1.trans hvisit.covered.covers
    exact (Covers.of_straight hload).trans (hsched.after rfl rfl)
  | case hc _ hrest ihb ihr =>
    exact (ihb.trans ihr hrest.covered.covers).after_straight ((compare_straight _ _ _).of_ok hc)
  | protect _ _ _ _ hhandlers hcleanup hvisit ihb ihh ihc ihv =>
    have hnext := (Covers.of_written _ _).trans hvisit.covered.covers
    have hrest := hcleanup.covered.covers.trans hnext
    have hlink := ihc.trans (ihv.after (.of_marker _ rfl)) hnext
    have hregion := ihb.trans (ihh.trans hlink hrest) (hhandlers.covered.covers.trans hrest)
    exact hregion.after (.of_marker _ rfl)
  | handler hc _ hrest ihs ihr =>
    have hreceive := (receive_straight _).of_ok hc
    have hscope := (ihs.trans ihr hrest.covered.covers).after_straight hreceive
    exact hscope.after (.of_marker _ rfl)
  | cleanup _ ih => exact ih.after (.of_marker _ rfl)

end Linearizer
