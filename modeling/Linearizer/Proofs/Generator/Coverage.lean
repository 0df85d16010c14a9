import Linearizer.Proofs.Generator.Schedule

/-!
# What a successful generation covers

No block gets lost: what a task is to go on with is written when the task returns, or waits.

- **Seen blocks** (`State.Seen`): a live block that has been written or waits. A block that has been
  seen stays so, although it may move between scopes on the way.
- **Coverage** (`Covers`): for every block that gets written, the blocks that control can go on with
  have been seen. `Emits.covers` proves it of every task, together with its targets.
- **Confinement** (`Emits.confined`): only blocks that the edges lead to are written or wait.

A jump table has one entry for each integer, so that the target of a second case with the same
integer is not seen: the results about switches ask for `Edge.DistinctCases` where tables are used.
-/

namespace Linearizer

/-- If the edge is a switch, no two of its cases have the same integer. -/
def Edge.DistinctCases : Edge → Prop
  | .switch _ cases _ => (cases.filterMap Case.int?).Nodup
  | _ => True

instance : (e : Edge) → Decidable e.DistinctCases
  | .switch _ cases _ => inferInstanceAs (Decidable (cases.filterMap Case.int?).Nodup)
  | .goto _ | .conditional .. | .protect .. | .foreach .. | .moveNext .. => .isTrue trivial

/-- The blocks that control can go on with after a block. -/
def Block.targets (b : Block) : List BlockId :=
  if b.endsInTerminal then [] else (b.edge.map Edge.successors).getD []

namespace Task

/-- The blocks that a task has to see to. -/
def targets : Task → List BlockId
  | visit _ b => [b]
  | body _ block => block.targets
  | edge _ e => e.successors
  | branch _ target => [target]
  | scope _ first _ => [first]
  | drain => []
  | handlers regions => regions.map (·.1.target)
  | cleanup first _ => first.toList
  | cases _ _ rest => rest.map Case.target

/-- The switches of a task have no two cases with the same integer. -/
def DistinctCases : Task → Prop
  | body _ block => ∀ e ∈ block.edge, e.DistinctCases
  | edge _ e => e.DistinctCases
  | _ => True

/-- Every handler of a region has an end, so that all are seen to. -/
theorem targets_handlers {handlers : List Handler} {cleanup : Option BlockId} {next hi : BlockId}
    {ends : List BlockId}
    (h : handlers.map Handler.target ++ (cleanup.toList ++ [next]) = hi :: ends) :
    (Task.handlers (handlers.zip ends)).targets = handlers.map Handler.target := by
  have hlen : handlers.length ≤ ends.length := by
    have := congrArg List.length h
    simp only [List.length_append, List.length_map, List.length_cons, List.length_nil] at this
    omega
  have hfst := congrArg (List.map Handler.target) (List.map_fst_zip hlen)
  rwa [List.map_map] at hfst

end Task

/-- The block has been written or waits. -/
def State.Held (s : State) (b : BlockId) : Prop := b ∈ s.emitted ∨ b ∈ s.queued

/-- The block has been written or waits, if it is live. -/
def State.Seen (g : Graph) (s : State) (b : BlockId) : Prop := g.isLive b = true → s.Held b

/-- What happens to the schedule on the way from `s` to `s'` (module doc). -/
structure Covers (setting : Setting) (s s' : State) : Prop where
  emitted : s.emitted ⊆ s'.emitted
  seen : ∀ b, s.Seen setting.graph b → s'.Seen setting.graph b
  closed : ∀ b ∈ s'.emitted, b ∉ s.emitted → ∀ block, setting.graph.block? b = some block →
    (setting.options.jumpTables = true → (Task.body b block).DistinctCases) →
    ∀ c ∈ block.targets, s'.Seen setting.graph c

namespace Covers

variable {setting : Setting} {s s₁ s' : State} {b : BlockId}

/-- Nothing gets written, and what waited still does. -/
theorem of_held (he : s'.emitted = s.emitted) (hq : ∀ c ∈ s.queued, c ∈ s'.queued) :
    Covers setting s s' := by
  refine ⟨by rw [he]; exact List.Subset.refl _, fun c hs live => ?_, fun c hc hn => ?_⟩
  · rw [State.Held, he]
    exact (hs live).imp_right (hq c)
  · rw [he] at hc
    exact absurd hc hn

theorem of_eq (he : s'.emitted = s.emitted) (hq : s'.queued = s.queued) : Covers setting s s' :=
  of_held he fun _ hc => hq ▸ hc

theorem refl (s : State) : Covers setting s s := of_eq rfl rfl

/-- What is seen stays so, and a block is written on one of the two stretches. -/
theorem trans (h : Covers setting s s₁) (h' : Covers setting s₁ s') : Covers setting s s' := by
  refine ⟨fun b hb => h'.emitted (h.emitted hb), fun b hb => h'.seen b (h.seen b hb), ?_⟩
  intro b hb hn block hblock hd c hc
  by_cases hm : b ∈ s₁.emitted
  · exact h'.seen c (h.closed b hm hn block hblock hd c hc)
  · exact h'.closed b hb hm block hblock hd c hc

theorem of_written (s : State) (i : Insn) : Covers setting s (s.written i) := of_eq rfl rfl

theorem of_skipped (s : State) (o : BranchOp) : Covers setting s (s.skipped o) := of_eq rfl rfl

theorem after (h : Covers setting s₁ s') (he : s₁.emitted = s.emitted)
    (hq : s₁.queued = s.queued) : Covers setting s s' := (of_eq he hq).trans h

theorem of_calm (h : Calm s s') : Covers setting s s' := of_eq h.emitted h.queued

theorem of_straight (h : Straight s s') : Covers setting s s' := of_eq h.emitted h.queued

/-- A block may be taken off the ones that wait, if it has been seen in the end. -/
theorem of_taken (he : s₁.emitted = s.emitted) (hq : s₁.queued = s.queued.filter (· != b))
    (h : Covers setting s₁ s') (hb : s'.Seen setting.graph b) : Covers setting s s' := by
  refine ⟨he ▸ h.emitted, fun c hs => ?_, fun c hc hn => h.closed c hc (he ▸ hn)⟩
  by_cases hcb : c = b
  · rw [hcb]
    exact hb
  · refine h.seen c fun live => ?_
    rw [State.Held, he, hq]
    exact (hs live).imp_right fun hm => List.mem_filter.mpr ⟨hm, by simpa using hcb⟩

/-- A block gets written, and what control can go on with after it is seen to. -/
theorem of_entered {viaEdge : Bool} {block : Block} (hb : setting.graph.block? b = some block)
    (h : Covers setting (s.entered viaEdge b) s')
    (ht : (setting.options.jumpTables = true → (Task.body b block).DistinctCases) →
      ∀ c ∈ block.targets, s'.Seen setting.graph c) : Covers setting s s' := by
  have he := s.emitted_entered viaEdge b
  refine ⟨fun c hc => h.emitted (he ▸ List.mem_cons_of_mem b hc), fun c hs => ?_, ?_⟩
  · refine h.seen c fun live => ?_
    rw [State.Held, he, State.queued_entered]
    by_cases hcb : c = b
    · exact .inl (hcb ▸ List.mem_cons_self)
    · exact (hs live).imp (List.mem_cons_of_mem b) fun hm =>
        List.mem_filter.mpr ⟨hm, by simpa using hcb⟩
  · intro c hc hn block' hblock
    by_cases hcb : c = b
    · subst hcb
      cases hb.symm.trans hblock
      exact ht
    · refine h.closed c hc ?_ block' hblock
      rw [he, List.mem_cons]
      exact fun hm => hm.elim hcb hn

end Covers

/-! ## Blocks that come to wait -/

/-- On the way from `s` to `s'` nothing is written, at most the block `b` comes to wait, and it has
been seen. -/
structure Adds (g : Graph) (b : BlockId) (s s' : State) : Prop where
  code_eq : s'.code = s.code
  nextLabel : s'.nextLabel = s.nextLabel
  returnSlot : s'.returnSlot = s.returnSlot
  emitted : s'.emitted = s.emitted
  keeps : ∀ c ∈ s.queued, c ∈ s'.queued
  only : ∀ c, Scope.Pending s'.scopes c → Scope.Pending s.scopes c ∨ c = b ∧ g.isLive b = true
  seen : s'.Seen g b

namespace Gen

variable {g : Graph} {b : BlockId} {s s' : State}

/-- A block that is put off waits from then on. -/
theorem defer_adds (h : defer b s = .ok () s') (live : g.isLive b = true) :
    Adds g b s s' := by
  obtain ⟨hq, rfl⟩ | ⟨-, outer, ho, rfl⟩ := defer_ok h
  · exact ⟨rfl, rfl, rfl, rfl, fun _ hc => hc, fun _ hc => .inl hc, fun _ => .inr hq⟩
  · refine ⟨rfl, rfl, rfl, rfl, fun _ => List.mem_cons_of_mem b, fun c hc => ?_, fun _ =>
      .inr List.mem_cons_self⟩
    exact ((Scope.pending_take_append ho).mp hc).elim (fun hc => .inr ⟨hc, live⟩) .inl

/-- A block that is scheduled has been written or waits, if it is live. -/
theorem schedule_adds (h : (schedule g b : Gen Unit) s = .ok () s') : Adds g b s s' := by
  obtain ⟨block, hb, ⟨hd, rfl⟩ | ⟨hd, -, ⟨-, rfl⟩ | ⟨-, ho⟩⟩⟩ := schedule_ok h
  · refine ⟨rfl, rfl, rfl, rfl, fun _ hc => hc, fun _ hc => .inl hc, fun live => .inl ?_⟩
    refine hd.resolve_left fun hd => ?_
    simp [Graph.isLive, hb, hd] at live
  · have live := isLive_eq_true hb hd
    have hq : (s.claimed b).queued = b :: s.queued.filter (· != b) :=
      congrArg (b :: ·) (s.queued_unqueue b)
    refine ⟨by simp [State.code, State.claimed], s.nextLabel_unqueue b, s.returnSlot_unqueue b,
      s.emitted_unqueue b, fun c hc => ?_, fun c hc => ?_, fun _ => .inr ?_⟩
    · rw [hq, List.mem_cons, List.mem_filter]
      by_cases hcb : c = b
      · exact .inl hcb
      · exact .inr ⟨hc, by simpa using hcb⟩
    · exact (State.pending_of_claimed hc).elim (fun hc => .inr ⟨hc, live⟩) .inl
    · rw [hq]
      exact List.mem_cons_self
  · exact defer_adds ho (isLive_eq_true hb hd)

/-- The block that is taken no longer waits. -/
theorem nextPending_taken (h : nextPending s = .ok (some b) s') :
    s'.emitted = s.emitted ∧ s'.queued = s.queued.filter (· != b) := by
  obtain ⟨scope, outer, rest, -, -, rfl⟩ := nextPending_some h
  exact ⟨rfl, rfl⟩

end Gen

theorem Adds.covers {setting : Setting} {b : BlockId} {s s' : State}
    (h : Adds setting.graph b s s') : Covers setting s s' :=
  .of_held h.emitted h.keeps

open Gen in
/-- All targets of a table are seen to. -/
theorem covers_schedules {setting : Setting} {targets : List BlockId} {s s' : State}
    (h : (targets.forM (schedule setting.graph) : Gen Unit) s = .ok () s') :
    Covers setting s s' ∧ ∀ b ∈ targets, s'.Seen setting.graph b := by
  induction targets generalizing s with
  | nil =>
    cases h
    exact ⟨.refl _, by simp⟩
  | cons b rest ih =>
    obtain ⟨_, s₁, h₁, h₂⟩ := bind_ok h
    have hb := schedule_adds h₁
    obtain ⟨hc, hrest⟩ := ih h₂
    exact ⟨hb.covers.trans hc, List.forall_mem_cons.mpr ⟨hc.seen b hb.seen, hrest⟩⟩

/-! ## Coverage -/

/-- The task has seen to its targets, and to those of the blocks that it has written. -/
structure Covered (setting : Setting) (task : Task) (s s' : State) : Prop where
  covers : Covers setting s s'
  seen : (setting.options.jumpTables = true → task.DistinctCases) →
    ∀ b ∈ task.targets, s'.Seen setting.graph b

namespace Covered

variable {setting : Setting} {s s' : State} {b : BlockId}

theorem visit {viaEdge : Bool} (h : Covered setting (.visit viaEdge b) s s') :
    s'.Seen setting.graph b := h.seen (fun _ => trivial) b (List.mem_singleton_self b)

theorem branch {o : BranchOp} (h : Covered setting (.branch o b) s s') : s'.Seen setting.graph b :=
  h.seen (fun _ => trivial) b (List.mem_singleton_self b)

theorem scope {kind : ScopeKind} {hi : BlockId} (h : Covered setting (.scope kind b hi) s s') :
    s'.Seen setting.graph b := h.seen (fun _ => trivial) b (List.mem_singleton_self b)

end Covered

open Gen in
/-- Every task that returns covers what it leads to. -/
theorem Emits.covered {setting : Setting} {task : Task} {s s' : State}
    (h : Emits setting task s s') : Covered setting task s s' := by
  induction h with
  | revisit _ he => exact ⟨.of_eq rfl rfl, fun _ => List.forall_mem_singleton.mpr fun _ => .inl he⟩
  | pass hb _ hd =>
    refine ⟨.refl _, fun _ => List.forall_mem_singleton.mpr fun live => ?_⟩
    simp [Graph.isLive, hb, hd] at live
  | enter hb _ _ _ _ ih =>
    refine ⟨.of_entered hb ih.covers ih.seen, fun _ =>
      List.forall_mem_singleton.mpr fun _ => .inl ?_⟩
    exact ih.covers.emitted List.mem_cons_self
  | leave hb _ hd _ hq =>
    have ha := defer_adds hq (isLive_eq_true hb hd)
    exact ⟨ha.covers.after rfl rfl, fun _ => List.forall_mem_singleton.mpr ha.seen⟩
  | stop hs ht =>
    refine ⟨.of_calm (statements_calm setting.graph hs), fun _ => ?_⟩
    simp [Task.targets, Block.targets, ht]
  | goOn hs ht he _ ih =>
    refine ⟨.trans (.of_calm (statements_calm setting.graph hs)) ih.covers, fun hd => ?_⟩
    have := ih.seen fun hj => hd hj _ he
    simpa [Task.targets, Block.targets, ht, he] using this
  | fallOff hs ht he hf =>
    refine ⟨.trans (.of_calm (statements_calm setting.graph hs)) (.of_calm (fallOff_calm hf)),
      fun _ => ?_⟩
    simp [Task.targets, Block.targets, he]
  | drop hb hd hp =>
    refine ⟨.of_straight ((op_straight rfl).of_ok hp), fun _ =>
      List.forall_mem_singleton.mpr fun live => ?_⟩
    simp [Graph.isLive, hb, hd] at live
  | direct _ _ _ _ hs =>
    have ha := schedule_adds hs
    exact ⟨ha.covers.after rfl rfl, fun _ => List.forall_mem_singleton.mpr ha.seen⟩
  | detour _ _ _ _ _ _ ih =>
    exact ⟨((Covers.of_skipped _ _).trans ih.covers).trans (.of_written _ _), fun _ =>
      ih.seen fun _ => trivial⟩
  | @scope kind first hi s s₁ s' _ _ _ _ _ ihv ihd =>
    have hfirst := ihd.covers.seen first ihv.visit
    have hq := (s.queued_opened kind first hi).trans (s.queued_unqueue first)
    refine ⟨.of_taken (s.emitted_opened kind first hi) hq ?_ hfirst, fun _ =>
      List.forall_mem_singleton.mpr hfirst⟩
    exact (ihv.covers.trans ihd.covers).trans (.of_eq rfl rfl)
  | drained => exact ⟨.refl _, by simp [Task.targets]⟩
  | skip hn he _ ih =>
    obtain ⟨hem, hq⟩ := nextPending_taken hn
    exact ⟨.of_taken hem hq ih.covers fun _ => .inl (ih.covers.emitted he), by
      simp [Task.targets]⟩
  | @next b s s₁ s₂ s' hn _ _ _ ihv ihr =>
    obtain ⟨hem, hq⟩ := nextPending_taken hn
    have hb := ihr.covers.seen b ihv.visit
    exact ⟨.of_taken hem hq (ihv.covers.trans ihr.covers) hb, by simp [Task.targets]⟩
  | goto _ ih => exact ⟨ih.covers, fun _ => ih.seen fun _ => trivial⟩
  | conditional hc _ _ ihb ihv =>
    refine ⟨.trans (.of_straight ((expr_straight _ _).of_ok hc)) (ihb.covers.trans ihv.covers),
      fun _ => ?_⟩
    have hfalse := ihv.covers.seen _ ihb.branch
    exact List.forall_mem_cons.mpr ⟨ihv.visit, List.forall_mem_singleton.mpr hfalse⟩
  | «foreach» ha _ ih =>
    refine ⟨.trans (.of_straight ((acquire_straight _).of_ok ha)) (ih.covers.after rfl rfl),
      fun _ => ?_⟩
    exact ih.seen fun _ => trivial
  | moveNext _ ha _ hs _ ihb ihv =>
    have hstore : Covers setting _ _ := .of_straight ((storeItem_straight _ _ _).of_ok hs)
    refine ⟨.trans (.of_straight ((advance_straight _).of_ok ha))
      (ihb.covers.trans (hstore.trans ihv.covers)), fun _ => ?_⟩
    have hafter := ihb.branch
    exact List.forall_mem_cons.mpr ⟨ihv.visit,
      List.forall_mem_singleton.mpr ((hstore.trans ihv.covers).seen _ hafter)⟩
  | chain _ hv _ _ ihc ihv =>
    refine ⟨.trans (.of_straight ((select_straight _).of_ok hv)) (ihc.covers.trans ihv.covers),
      fun _ => ?_⟩
    refine List.forall_mem_append.mpr ⟨fun b hb => ?_, ihv.seen fun _ => trivial⟩
    exact ihv.covers.seen b (ihc.seen (fun _ => trivial) b hb)
  | table hr hi _ hj hs _ ihb ihv =>
    obtain ⟨hj', ⟨ints, hints, hrange⟩, -, -⟩ := TableRange.ofCases?_eq_some hr
    obtain ⟨hsched, hentries⟩ := covers_schedules hs
    have htable := (Covers.of_straight ((loadIndex_straight _).of_ok hj)).trans
      (hsched.after rfl rfl)
    refine ⟨.trans (.of_straight ((tableIndex_straight _ _).of_ok hi))
      (ihb.covers.trans (htable.trans ihv.covers)), fun hd => ?_⟩
    refine List.forall_mem_append.mpr ⟨fun b hb => ?_, ihv.seen fun _ => trivial⟩
    obtain ⟨c, hc, rfl⟩ := List.mem_map.mp hb
    -- A target that is not live has no entry, and need not be seen.
    refine ihv.covers.seen _ fun live => hentries _ ?_ live
    exact TableRange.target_mem_targets hints hrange (hd hj') hc live
  | noCase => exact ⟨.refl _, by simp [Task.targets]⟩
  | case hc _ _ ihb ihr =>
    refine ⟨.trans (.of_straight ((compare_straight _ _ _).of_ok hc)) (ihb.covers.trans ihr.covers),
      fun _ => ?_⟩
    have htarget := ihb.branch
    exact List.forall_mem_cons.mpr ⟨ihr.covers.seen _ htarget, ihr.seen fun _ => trivial⟩
  | @protect _ body _ _ _ _ _ _ _ _ _ _ _ hends _ _ _ _ _ ihb ihh ihc ihv =>
    have hnext := (Covers.of_written _ _).trans ihv.covers
    have hrest := ihc.covers.trans hnext
    refine ⟨(Covers.of_written _ _).trans (ihb.covers.trans (ihh.covers.trans hrest)), fun _ => ?_⟩
    have hseen := ihh.seen fun _ => trivial
    rw [Task.targets_handlers hends] at hseen
    refine List.forall_mem_append.mpr ⟨List.forall_mem_append.mpr
      ⟨List.forall_mem_cons.mpr ⟨?_, ?_⟩, ?_⟩, List.forall_mem_singleton.mpr ihv.visit⟩
    · exact (ihh.covers.trans hrest).seen body ihb.scope
    · exact fun b hb => hrest.seen b (hseen b hb)
    · exact fun b hb => hnext.seen b (ihc.seen (fun _ => trivial) b hb)
  | noHandler => exact ⟨.refl _, by simp [Task.targets]⟩
  | handler hc _ _ ihs ihr =>
    refine ⟨.trans (.after (.of_straight ((receive_straight _).of_ok hc)) rfl rfl)
      (ihs.covers.trans ihr.covers), fun _ => ?_⟩
    have htarget := ihs.scope
    exact List.forall_mem_cons.mpr ⟨ihr.covers.seen _ htarget, ihr.seen fun _ => trivial⟩
  | noCleanup => exact ⟨.refl _, by simp [Task.targets]⟩
  | cleanup _ ih => exact ⟨ih.covers.after rfl rfl, fun _ => ih.seen fun _ => trivial⟩

/-! ## Confinement -/

/-- Every block that has been written, or is in the list of an open scope, has the property. -/
structure State.Confined (P : BlockId → Prop) (s : State) : Prop where
  emitted : ∀ b ∈ s.emitted, P b
  pending : ∀ b, Scope.Pending s.scopes b → P b

namespace State.Confined

variable {P : BlockId → Prop} {s s' : State} {b : BlockId}

theorem of_subset (h : s.Confined P) (he : s'.emitted = s.emitted)
    (hp : ∀ c, Scope.Pending s'.scopes c → Scope.Pending s.scopes c) : s'.Confined P :=
  ⟨fun c hc => h.emitted c (he ▸ hc), fun c hc => h.pending c (hp c hc)⟩

theorem of_eq (h : s.Confined P) (he : s'.emitted = s.emitted) (hs : s'.scopes = s.scopes) :
    s'.Confined P := h.of_subset he fun _ hc => hs ▸ hc

theorem straight (h : s.Confined P) (hs : Straight s s') : s'.Confined P :=
  h.of_eq hs.emitted hs.scopes

theorem calm (h : s.Confined P) (hc : Calm s s') : s'.Confined P := h.of_eq hc.emitted hc.scopes

/-- A block that comes to wait has to satisfy the property. -/
theorem adds {g : Graph} (ha : Adds g b s s') (h : s.Confined P)
    (hb : g.isLive b = true → P b) : s'.Confined P := by
  refine ⟨fun c hc => h.emitted c (ha.emitted ▸ hc), fun c hc => ?_⟩
  obtain hc | ⟨rfl, live⟩ := ha.only c hc
  · exact h.pending c hc
  · exact hb live

/-- So have the targets of a table. -/
theorem schedules {g : Graph} {targets : List BlockId}
    (hs : (targets.forM (Gen.schedule g) : Gen Unit) s = .ok () s') (h : s.Confined P)
    (ht : ∀ b ∈ targets, g.isLive b = true → P b) : s'.Confined P := by
  induction targets generalizing s with
  | nil =>
    cases hs
    exact h
  | cons b rest ih =>
    obtain ⟨_, s₁, h₁, h₂⟩ := Gen.bind_ok hs
    obtain ⟨hb, hrest⟩ := List.forall_mem_cons.mp ht
    exact ih h₂ (.adds (Gen.schedule_adds h₁) h hb) hrest

/-- A block that is taken was in a list. -/
theorem nextPending (h : s.Confined P) (hn : Gen.nextPending s = .ok (some b) s') :
    s'.Confined P ∧ P b := by
  obtain ⟨scope, outer, rest, hs, hp, rfl⟩ := Gen.nextPending_some hn
  have hpend (c : BlockId) (hc : c ∈ b :: rest ∨ Scope.Pending outer c) : P c :=
    h.pending c (by rwa [hs, Scope.pending_cons, hp])
  refine ⟨⟨h.emitted, fun c hc => hpend c ?_⟩, hpend b (.inl List.mem_cons_self)⟩
  exact (Scope.pending_cons.mp hc).imp_left (List.mem_cons_of_mem b)

end State.Confined

/-- What control can go on with after a block is a successor of it. -/
theorem Block.mem_successors_of_mem_targets {g : Graph} {b c : BlockId} {block : Block}
    (hb : g.block? b = some block) (hc : c ∈ block.targets) : c ∈ g.successors b := by
  unfold Block.targets at hc
  split at hc
  · cases hc
  · simpa [Graph.successors, hb] using hc

open Gen in
/-- A property of the targets of a task that live successors inherit holds of all blocks that the
task writes or leaves to a scope. -/
theorem Emits.confined {setting : Setting} {task : Task} {s s' : State} {P : BlockId → Prop}
    (hP : ∀ b c, P b → c ∈ setting.graph.successors b → setting.graph.isLive c = true → P c)
    (h : Emits setting task s s') (hs : s.Confined P)
    (ht : ∀ b ∈ task.targets, setting.graph.isLive b = true → P b) : s'.Confined P := by
  induction h with
  | revisit => exact hs.of_eq rfl rfl
  | pass => exact hs
  | @enter viaEdge b block s s' hb _ hd _ _ ih =>
    have hPb : P b := ht b (List.mem_singleton_self b) (isLive_eq_true hb hd)
    -- The live targets of the block are its successors, which inherit the property.
    refine ih ?_ fun c hc live => hP b c hPb (Block.mem_successors_of_mem_targets hb hc) live
    refine ⟨?_, fun c hc => hs.pending c (State.pending_of_unqueue hc)⟩
    rw [State.emitted_entered]
    exact List.forall_mem_cons.mpr ⟨hPb, hs.emitted⟩
  | leave hb _ hd _ hq =>
    have ha := defer_adds hq (isLive_eq_true hb hd)
    exact .adds ha (hs.of_eq rfl rfl) (ht _ (List.mem_singleton_self _))
  | stop hst => exact hs.calm (statements_calm setting.graph hst)
  | @goOn b block e s s₁ s' hst hterm he _ ih =>
    refine ih (hs.calm (statements_calm setting.graph hst)) ?_
    simpa [Task.targets, Block.targets, hterm, he] using ht
  | fallOff hst _ _ hf => exact (hs.calm (statements_calm setting.graph hst)).calm (fallOff_calm hf)
  | drop _ _ hp => exact hs.straight ((op_straight rfl).of_ok hp)
  | direct _ _ _ _ hq =>
    exact .adds (schedule_adds hq) (hs.of_eq rfl rfl) (ht _ (List.mem_singleton_self _))
  | detour _ _ _ _ _ _ ih => exact (ih (hs.of_eq rfl rfl) ht).of_eq rfl rfl
  | @scope kind first hi s _ s' _ _ _ _ _ ihv ihd =>
    have hopen : (s.opened kind first hi).Confined P := by
      refine hs.of_subset (s.emitted_opened kind first hi) fun c hc => ?_
      rw [State.scopes_opened, Scope.pending_cons] at hc
      exact State.pending_of_unqueue (hc.resolve_left (by simp))
    refine (ihd (ihv hopen ht) (by simp [Task.targets])).of_subset rfl fun c hc => ?_
    obtain ⟨scope, hm, hp⟩ := hc
    exact ⟨scope, List.mem_of_mem_tail hm, hp⟩
  | drained => exact hs
  | skip hn _ _ ih =>
    exact ih (hs.nextPending hn).1 ht
  | next hn _ _ _ ihv ihr =>
    obtain ⟨hs₁, hb⟩ := hs.nextPending hn
    exact ihr (ihv hs₁ (List.forall_mem_singleton.mpr fun _ => hb)) ht
  | goto _ ih => exact ih hs ht
  | conditional hc _ _ ihb ihv =>
    obtain ⟨htrue, hfalse⟩ := List.forall_mem_cons.mp ht
    refine ihv (ihb (hs.straight ((expr_straight _ _).of_ok hc)) hfalse) ?_
    exact List.forall_mem_singleton.mpr htrue
  | «foreach» ha _ ih => exact ih ((hs.straight ((acquire_straight _).of_ok ha)).of_eq rfl rfl) ht
  | moveNext _ ha _ hst _ ihb ihv =>
    obtain ⟨hbody, hafter⟩ := List.forall_mem_cons.mp ht
    have hb := ihb (hs.straight ((advance_straight _).of_ok ha)) hafter
    exact ihv (hb.straight ((storeItem_straight _ _ _).of_ok hst))
      (List.forall_mem_singleton.mpr hbody)
  | chain _ hv _ _ ihc ihv =>
    obtain ⟨hcases, hdefault⟩ := List.forall_mem_append.mp ht
    exact ihv (ihc (hs.straight ((select_straight _).of_ok hv)) hcases) hdefault
  | table _ hi _ hj hst _ ihb ihv =>
    obtain ⟨hcases, hdefault⟩ := List.forall_mem_append.mp ht
    have hb := ihb (hs.straight ((tableIndex_straight _ _).of_ok hi)) hdefault
    have hload := hb.straight ((loadIndex_straight _).of_ok hj)
    refine ihv (.schedules hst (hload.of_eq rfl rfl) fun b hm => ?_) hdefault
    -- An entry of the table is the target of a case, or fills a gap with the default.
    obtain ⟨c, hc, rfl⟩ | rfl := TableRange.mem_of_mem_targets hm
    · exact hcases _ (List.mem_map_of_mem hc)
    · exact hdefault _ (List.mem_singleton_self _)
  | noCase => exact hs
  | case hc _ _ ihb ihr =>
    obtain ⟨htarget, hrest⟩ := List.forall_mem_cons.mp ht
    refine ihr (ihb (hs.straight ((compare_straight _ _ _).of_ok hc)) ?_) hrest
    exact List.forall_mem_singleton.mpr htarget
  | protect _ hends _ _ _ _ _ ihb ihh ihc ihv =>
    obtain ⟨hparts, hnext⟩ := List.forall_mem_append.mp ht
    obtain ⟨hregion, hcleanup⟩ := List.forall_mem_append.mp hparts
    obtain ⟨hbody, hhandlers⟩ := List.forall_mem_cons.mp hregion
    -- Handlers that are paired with the ends of their parts still have the same targets.
    rw [← Task.targets_handlers hends] at hhandlers
    have h₁ := ihb (hs.of_eq rfl rfl) (List.forall_mem_singleton.mpr hbody)
    exact ihv ((ihc (ihh h₁ hhandlers) hcleanup).of_eq rfl rfl) hnext
  | noHandler => exact hs
  | handler hc _ _ ihs ihr =>
    obtain ⟨htarget, hrest⟩ := List.forall_mem_cons.mp ht
    have hrec := (receive_straight _).of_ok hc
    refine ihr (ihs (hs.of_eq hrec.emitted hrec.scopes) ?_) hrest
    exact List.forall_mem_singleton.mpr htarget
  | noCleanup => exact hs
  | cleanup _ ih => exact ih (hs.of_eq rfl rfl) ht

end Linearizer
