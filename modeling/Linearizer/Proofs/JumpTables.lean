import Linearizer.Proofs.BranchTargets

/-!
# The entries of the jump tables of a listing

A table is written before the blocks that it leads to. Each of its entries is then left to a scope,
so that it stands in the listing in the end, if it is live. A target that is not live gives its
entries to the default of the switch, but the default itself may be dead as well.

- **Entries** (`State.Entry`): the label of a live block that has been seen, or of a default that is
  not live.
- **Tables** (`Tables`): the entries of the tables that are written on the way from one state to
  another. `Emits.tables` proves it of every task.
- **Listings**: `Graph.generate_tables_resolve` says how often the labels of a table stand in a
  listing, and `Graph.deadDefault_unresolved` is a routine with an entry that leads nowhere.
-/

namespace Linearizer

/-! ## Entries -/

/-- What is known of an entry of a table (module doc). -/
inductive State.Entry (g : Graph) (s : State) : Label → Prop
  | live {b : BlockId} (live : g.isLive b = true) (h : s.Seen g b) : s.Entry g (.block b)
  | default {a b : BlockId} {block : Block} {value : Expr} {cases : List Case}
      (ha : a ∈ s.emitted) (hb : g.block? a = some block)
      (he : block.edge = some (.switch value cases b)) (dead : g.isLive b = false) :
      s.Entry g (.block b)

theorem State.Entry.mono {setting : Setting} {s s' : State} {l : Label}
    (h : s.Entry setting.graph l) (hc : Covers setting s s') : s'.Entry setting.graph l := by
  cases h with
  | live live h => exact .live live (hc.seen _ h)
  | default ha hb he dead => exact .default (hc.emitted ha) hb he dead

/-- Only the default of a switch has entries without being live. -/
theorem TableRange.isLive_or_eq_default {g : Graph} {range : TableRange} {cases : List Case}
    {default b : BlockId} (h : b ∈ range.targets g cases default) :
    g.isLive b = true ∨ b = default := by
  unfold targets at h
  obtain ⟨i, -, rfl⟩ := List.mem_map.mp h
  split
  · split
    · exact .inl ‹_›
    · exact .inr rfl
  · exact .inr rfl

/-! ## Tables of tasks -/

/-- No table is written on the way from `s` to `s'`. -/
def Tableless (s s' : State) : Prop := ∀ ls, .switch ls ∈ s'.code → .switch ls ∈ s.code

namespace Tableless

variable {s s' : State}

theorem of_eq (h : s'.code = s.code) : Tableless s s' := fun _ hm => h ▸ hm

theorem of_put {i : Insn} (hc : s'.code = s.code ++ [i]) (hi : ∀ ls, i ≠ .switch ls) :
    Tableless s s' := by
  intro ls hm
  rw [hc, List.mem_append, List.mem_singleton] at hm
  exact hm.resolve_right (hi ls ·.symm)

theorem of_exit {b : BlockId} (hc : s'.code = s.code ++ [exitInsn s.scopes b]) :
    Tableless s s' := by
  refine of_put hc fun ls => ?_
  unfold exitInsn
  split <;> simp

theorem of_calm (h : Calm s s') : Tableless s s' := by
  obtain ⟨code, hc, hi⟩ := h.code
  intro ls hm
  rw [hc, List.mem_append] at hm
  refine hm.resolve_right fun hm => ?_
  obtain hp | he | ⟨_, _, -, hb⟩ := hi _ hm
  · cases hp
  · cases he
  · cases hb

theorem of_straight (h : Straight s s') : Tableless s s' := of_calm h.calm

end Tableless

/-- The entries of the tables that are written on the way from `s` to `s'`. -/
def Tables (setting : Setting) (s s' : State) : Prop :=
  ∀ ls, .switch ls ∈ s'.code → .switch ls ∉ s.code → ∀ l ∈ ls, s'.Entry setting.graph l

namespace Tables

variable {setting : Setting} {s s₁ s' : State}

theorem of_tableless (h : Tableless s s') : Tables setting s s' := fun ls hm hn =>
  absurd (h ls hm) hn

theorem refl (s : State) : Tables setting s s := of_tableless (.of_eq rfl)

theorem after (h : Tables setting s₁ s') (hs : Tableless s s₁) : Tables setting s s' :=
  fun ls hm hn => h ls hm fun hm₁ => hn (hs ls hm₁)

/-- What is known of the entries of the first tables is still known in the end. -/
theorem trans (h : Tables setting s s₁) (h' : Tables setting s₁ s') (hc : Covers setting s₁ s') :
    Tables setting s s' := by
  intro ls hm hn l hl
  by_cases hm₁ : .switch ls ∈ s₁.code
  · exact (h ls hm₁ hn l hl).mono hc
  · exact h' ls hm hm₁ l hl

/-- A table is written, and then its targets are left to scopes. -/
theorem of_tabled {a : BlockId} {block : Block} {value : Expr} {cases : List Case}
    {default : BlockId} {range : TableRange} (ha : a ∈ s.emitted)
    (hb : setting.graph.block? a = some block)
    (he : block.edge = some (.switch value cases default))
    (hs : ((range.targets setting.graph cases default).forM (Gen.schedule setting.graph) : Gen Unit)
      (s.tabled (range.targets setting.graph cases default)) = .ok () s') :
    Tables setting s s' := by
  obtain ⟨hcovers, hseen⟩ := covers_schedules hs
  obtain ⟨hcode, -, -⟩ := Gen.schedules_writes hs
  intro ls hm hn l hl
  rw [hcode, State.code_tabled, List.mem_append, List.mem_singleton] at hm
  cases hm.resolve_left hn
  obtain ⟨b, hm, rfl⟩ := List.mem_map.mp hl
  cases hlive : setting.graph.isLive b with
  | true => exact .live hlive (hseen b hm)
  | false =>
    cases (TableRange.isLive_or_eq_default hm).resolve_left (by simp [hlive])
    exact .default (hcovers.emitted ha) hb he hlive

end Tables

/-- The block whose edge a task writes has been written, and has that edge. -/
def Task.Owned (g : Graph) (s : State) : Task → Prop
  | .body b block => b ∈ s.emitted ∧ g.block? b = some block
  | .edge b e => b ∈ s.emitted ∧ ∃ block, g.block? b = some block ∧ block.edge = some e
  | _ => True

open Gen in
/-- Every task that returns has seen to the entries of its tables. -/
theorem Emits.tables {setting : Setting} {task : Task} {s s' : State}
    (h : Emits setting task s s') (ho : task.Owned setting.graph s) : Tables setting s s' := by
  induction h with
  | revisit => exact .of_tableless (.of_exit (State.code_revisited _ _))
  | pass | drained | noCase | noHandler | noCleanup => exact .refl _
  | @enter viaEdge b block s _ hb _ _ _ _ ih =>
    refine (ih ⟨?_, hb⟩).after (.of_put (s.code_entered viaEdge b) (by simp))
    rw [State.emitted_entered]
    exact List.mem_cons_self
  | leave hb _ hd _ hq =>
    have ha := defer_adds hq (isLive_eq_true hb hd)
    exact .of_tableless (.of_exit (ha.code_eq.trans (State.code_exited _ _)))
  | stop hs => exact .of_tableless (.of_calm (statements_calm setting.graph hs))
  | goOn hs _ he _ ih =>
    have hc := statements_calm setting.graph hs
    refine (ih ⟨?_, _, ho.2, he⟩).after (.of_calm hc)
    rw [hc.emitted]
    exact ho.1
  | fallOff hs _ _ hf =>
    exact .of_tableless (.of_calm ((statements_calm setting.graph hs).trans (fallOff_calm hf)))
  | drop _ _ hp => exact .of_tableless (.of_straight ((op_straight rfl).of_ok hp))
  | @direct o target _ s _ _ _ _ _ hs =>
    have hcode := (schedule_adds hs).code_eq.trans (s.code_branched o (.block target))
    exact .of_tableless (.of_put hcode (by simp))
  | @detour o _ _ s s' _ _ _ _ _ _ ih =>
    have hskip : Tableless s (s.skipped o.negate) := .of_put (s.code_skipped _) (by simp)
    refine ((ih trivial).after hskip).trans (.of_tableless ?_) (.of_written _ _)
    exact .of_put (s'.code_written _) (by simp)
  | @scope kind first hi s s₁ s' _ _ hdrain _ _ ihv ihd =>
    have hopen : Tableless s (s.opened kind first hi) := .of_eq (by simp)
    have hclose : Tables setting s' { s' with scopes := s'.scopes.tail } :=
      .of_tableless (.of_eq rfl)
    refine Tables.after (Tables.trans ?_ hclose (.of_eq rfl rfl)) hopen
    exact (ihv trivial).trans (ihd trivial) hdrain.covered.covers
  | skip hn _ _ ih =>
    obtain ⟨_, _, _, -, -, rfl⟩ := nextPending_some hn
    exact (ih trivial).after (.of_eq rfl)
  | next hn _ _ hrest ihv ihr =>
    obtain ⟨_, _, _, -, -, rfl⟩ := nextPending_some hn
    exact ((ihv trivial).trans (ihr trivial) hrest.covered.covers).after (.of_eq rfl)
  | goto _ ih => exact ih trivial
  | conditional hc _ hvisit ihb ihv =>
    refine ((ihb trivial).trans (ihv trivial) hvisit.covered.covers).after ?_
    exact .of_straight ((expr_straight _ _).of_ok hc)
  | @«foreach» b _ _ slot _ s₁ _ ha _ ih =>
    have henum : Tableless s₁ { s₁ with enumerators := (b, slot) :: s₁.enumerators } := .of_eq rfl
    exact ((ih trivial).after henum).after (.of_straight ((acquire_straight _).of_ok ha))
  | moveNext _ ha _ hs hvisit ihb ihv =>
    have hstore := (storeItem_straight _ _ _).of_ok hs
    refine Tables.after ?_ (.of_straight ((advance_straight _).of_ok ha))
    exact (ihb trivial).trans ((ihv trivial).after (.of_straight hstore))
      ((Covers.of_straight hstore).trans hvisit.covered.covers)
  | chain _ hv _ hvisit ihc ihv =>
    refine ((ihc trivial).trans (ihv trivial) hvisit.covered.covers).after ?_
    exact .of_straight ((select_straight _).of_ok hv)
  | table _ hi hbranch hj hs hvisit ihb ihv =>
    -- The block of the table has been written, and still is when the table is.
    obtain ⟨ha, block, hb, he⟩ := ho
    have hindex := (tableIndex_straight _ _).of_ok hi
    have hload := (loadIndex_straight _).of_ok hj
    have ha := hbranch.covered.covers.emitted (hindex.emitted ▸ ha)
    have htable := (Tables.of_tabled (hload.emitted ▸ ha) hb he hs).trans (ihv trivial)
      hvisit.covered.covers
    refine Tables.after ((ihb trivial).trans (htable.after (.of_straight hload)) ?_)
      (.of_straight hindex)
    have hsched := (covers_schedules hs).1.trans hvisit.covered.covers
    exact (Covers.of_straight hload).trans (hsched.after rfl rfl)
  | case hc _ hrest ihb ihr =>
    refine ((ihb trivial).trans (ihr trivial) hrest.covered.covers).after ?_
    exact .of_straight ((compare_straight _ _ _).of_ok hc)
  | protect _ _ _ _ hhandlers hcleanup hvisit ihb ihh ihc ihv =>
    have marker (s : State) {i : Insn} (h : i.isMarker = true) : Tableless s (s.written i) :=
      .of_put (s.code_written i) (by rintro ls rfl; cases h)
    have hnext := (Covers.of_written _ _).trans hvisit.covered.covers
    have hrest := hcleanup.covered.covers.trans hnext
    have hcleaned := (ihc trivial).trans ((ihv trivial).after (marker _ rfl)) hnext
    have hregion := (ihb trivial).trans ((ihh trivial).trans hcleaned hrest)
      (hhandlers.covered.covers.trans hrest)
    exact hregion.after (marker _ rfl)
  | @handler h _ _ s _ _ _ hc _ hrest ihs ihr =>
    have hbegin : Tableless s (s.written (.beginCatch h.cls)) :=
      .of_put (s.code_written _) (by simp)
    have hscope := (ihs trivial).trans (ihr trivial) hrest.covered.covers
    exact (hscope.after (.of_straight ((receive_straight _).of_ok hc))).after hbegin
  | cleanup _ ih => exact (ih trivial).after (.of_put (State.code_written _ _) (by simp))

/-! ## Listings -/

/-- An entry of a table of the listing of a routine. -/
theorem Finished.entry {g : Graph} {options : Options} {registry : Registry} {s₁ s₂ : State}
    (h : Finished g options registry s₁ s₂) {ls : List Label}
    (hm : .switch ls ∈ (g.generate options registry).listing.insns.toList) {l : Label}
    (hl : l ∈ ls) : s₂.Entry g l := by
  have hstart : .switch ls ∉ s₁.code := fun hm => by
    cases List.all_eq_true.mp h.start_isPlain _ hm
  have hexit : .switch ls ∉ s₂.sharedExit := by
    unfold State.sharedExit
    split <;> simp
  rw [h.code, List.mem_append] at hm
  exact h.emits.tables trivial ls (hm.resolve_right hexit) hstart l hl

/-- In the listing of a successful generation every entry of a jump table is marked exactly once,
unless it is the default of a switch that is not live. Such an entry is never marked. -/
theorem Graph.generate_tables_resolve {g : Graph} {options : Options} {registry : Registry}
    {l : Listing} (h : (g.generate options registry).result = .ok l) {targets : List Label}
    (ht : .switch targets ∈ l.insns) {target : Label} (hm : target ∈ targets) :
    l.insns.toList.count (.label target) = 1 ∨
      ∃ a ∈ l.blockOrder, ∃ block value cases default, g.block? a = some block ∧
        block.edge = some (.switch value cases default) ∧ g.isLive default = false ∧
        target = .block default ∧ l.insns.toList.count (.label target) = 0 := by
  obtain ⟨s₁, s₂, hfin, rfl⟩ := generate_result h
  rw [← Array.mem_toList_iff] at ht
  cases hfin.entry ht hm with
  | live live hs => exact .inl (hfin.count_block (hfin.emitted_of_seen hs live))
  | @default a b block value cases ha hb he dead =>
    refine .inr ⟨a, ?_, block, value, cases, b, hb, he, dead, rfl, ?_⟩
    · rw [hfin.blockOrder_eq]
      exact List.mem_reverse.mpr ha
    · rw [count_label_block, ← Listing.blockOrder_eq, hfin.blockOrder_eq, List.count_reverse]
      refine List.count_eq_zero_of_not_mem fun hm => ?_
      rw [hfin.marked.live b hm] at dead
      cases dead

/-- A routine with a switch over close integers, whose default is dead. -/
def Graph.deadDefault : Graph where
  name := "dispatch"
  vars := [⟨"key", .param 0, .int64, .only .int64⟩]
  blocks := [
    ⟨"entry", false, [], some (.switch (.var 0 (.only .int64))
      [⟨.int 0, 1⟩, ⟨.int 2, 2⟩, ⟨.int 3, 3⟩] 4)⟩,
    ⟨"zero", false, [⟨.ret none, none⟩], none⟩,
    ⟨"two", false, [⟨.ret none, none⟩], none⟩,
    ⟨"three", false, [⟨.ret none, none⟩], none⟩,
    ⟨"other", true, [⟨.ret none, none⟩], none⟩]

/-- The entry of a case is marked. -/
theorem Graph.deadDefault_tables_resolve : ∃ l, (deadDefault.generate {} {}).result = .ok l ∧
    .switch [.block 1, .block 4, .block 2, .block 3] ∈ l.insns ∧
    (l.insns.toList.count (.label (.block 1)) = 1 ∨
      ∃ a ∈ l.blockOrder, ∃ block value cases default, deadDefault.block? a = some block ∧
        block.edge = some (.switch value cases default) ∧ deadDefault.isLive default = false ∧
        Label.block 1 = .block default ∧ l.insns.toList.count (.label (.block 1)) = 0) := by
  have hok : (deadDefault.generate {} {}).result = .ok (deadDefault.generate {} {}).listing :=
    Generation.result_of_isOk (by decide +kernel)
  have ht : .switch [.block 1, .block 4, .block 2, .block 3] ∈
      (deadDefault.generate {} {}).listing.insns := by decide +kernel
  exact ⟨_, hok, ht, generate_tables_resolve hok ht (by simp)⟩

/-- The integer between the cases has an entry with the label of the dead default, which stands
nowhere. -/
theorem Graph.deadDefault_unresolved : ∃ l, (deadDefault.generate {} {}).result = .ok l ∧
    ∃ targets, .switch targets ∈ l.insns ∧ ∃ target ∈ targets,
      l.insns.toList.count (.label target) = 0 := by
  have hok : (deadDefault.generate {} {}).result = .ok (deadDefault.generate {} {}).listing :=
    Generation.result_of_isOk (by decide +kernel)
  have ht : .switch [.block 1, .block 4, .block 2, .block 3] ∈
      (deadDefault.generate {} {}).listing.insns := by decide +kernel
  exact ⟨_, hok, _, ht, .block 4, by simp, by decide +kernel⟩

end Linearizer
