import Mathlib.Data.List.Basic
import Linearizer.Proofs.BranchTargets
import Linearizer.Proofs.Region.Span

/-!
# The ends of regions

In a routine without dead blocks control never runs off the end of a part of a region, nor off the
end of the routine: the last element before such an end is an instruction after which control does
not go on with the next one.

- **Exits** (`Insn.isExit`): the instructions after which control does not go on. `Stops code` says
  that the last element of some code is one.
- **Sealed code** (`Sealed`): every marker that ends a part of a region stands behind an exit.
- **Courses** (`Emits.seals`): every task writes sealed code. One that goes on with a block ends
  with an exit; a conditional branch need not, and neither do the comparisons of a switch.
- **Listings**: `Graph.generate_seals` is the result for a routine that can be generated.
-/

namespace Linearizer

/-- Whether control never goes on with the next element: a branch that is always taken, or the end
of the routine, of an exception or of the code that runs in any case. -/
def Insn.isExit : Insn → Bool
  | .branch .br _ | .branch .leave _ => true
  | .op .ret | .op .throw | .op .endfinally => true
  | _ => false

theorem Insn.endsPart_of_isPlain {i : Insn} (h : i.isPlain = true) : i.endsPart = false := by
  cases i with
  | beginCatch | beginFinally | endTry => cases h
  | _ => rfl

theorem Insn.endsPart_of_isEnd {i : Insn} (h : i.isEnd = true) : i.endsPart = false := by
  cases i with
  | beginCatch | beginFinally | endTry => cases h
  | _ => rfl

theorem Insn.endsPart_of_isExit {i : Insn} (h : i.isExit = true) : i.endsPart = false := by
  cases i with
  | beginCatch | beginFinally | endTry => cases h
  | _ => rfl

/-- The last element is an exit. -/
def Stops (code : List Insn) : Prop := ∃ before i, code = before ++ [i] ∧ i.isExit = true

/-- Every marker that ends a part of a region stands right behind an exit. -/
def Sealed (code : List Insn) : Prop :=
  ∀ before i after, code = before ++ i :: after → i.endsPart = true → Stops before

namespace Sealed

variable {code new : List Insn} {i : Insn}

theorem nil : Sealed [] := by
  intro before i after h
  simp at h

/-- A marker that ends a part may be written behind an exit, and other elements anywhere. -/
theorem put (h : Sealed code) (hi : i.endsPart = true → Stops code) : Sealed (code ++ [i]) := by
  intro before j after heq hj
  rcases List.eq_nil_or_concat after with rfl | ⟨rest, last, rfl⟩
  · obtain ⟨rfl, hji⟩ := List.append_inj' heq rfl
    cases hji
    exact hi hj
  · have heq' : code ++ [i] = (before ++ j :: rest) ++ [last] := by simpa using heq
    obtain ⟨hcode, -⟩ := List.append_inj' heq' rfl
    exact h before j rest hcode hj

theorem append (h : Sealed code) (hn : ∀ i ∈ new, i.endsPart = false) : Sealed (code ++ new) := by
  induction new generalizing code with
  | nil => rwa [List.append_nil]
  | cons i rest ih =>
    have hi : i.endsPart = false := hn i List.mem_cons_self
    have hput := h.put (i := i) fun hm => by simp [hi] at hm
    have := ih hput fun j hj => hn j (List.mem_cons_of_mem i hj)
    rwa [List.append_assoc] at this

/-- Statements write no markers. -/
theorem calm {s s' : State} (h : Sealed s.code) (hc : Calm s s') : Sealed s'.code := by
  obtain ⟨code, he, hi⟩ := hc.code
  rw [he]
  refine h.append fun i hm => ?_
  obtain hp | hend | ⟨slot, label, -, rfl⟩ := hi i hm
  · exact Insn.endsPart_of_isPlain hp
  · exact Insn.endsPart_of_isEnd hend
  · rfl

theorem straight {s s' : State} (h : Sealed s.code) (hs : Straight s s') : Sealed s'.code :=
  h.calm hs.calm

end Sealed

theorem stops_append {code : List Insn} {i : Insn} (hi : i.isExit = true) : Stops (code ++ [i]) :=
  ⟨code, i, rfl, hi⟩

theorem isExit_exitInsn (scopes : List Scope) (b : BlockId) :
    (exitInsn scopes b).isExit = true := by
  unfold exitInsn
  cases he : Gen.exitTo scopes b with
  | endfinally => rfl
  | branch o =>
    unfold Gen.exitTo at he
    split at he
    · cases he
      rfl
    · split at he
      · cases he
      · split at he <;> cases he <;> rfl

/-! ## Statements and ends of blocks -/

namespace Gen

variable {g : Graph} {s s' : State}

/-- A return goes to the caller, or leaves the regions for the exit that returns share. -/
theorem returnTop_stops (h : returnTop s = .ok () s') : Stops s'.code := by
  obtain hr | ⟨-, hr⟩ | ⟨-, -, slot, label, s₁, hr, -⟩ := returnTop_cases s
  · rw [hr] at h
    cases h
  · rw [hr] at h
    cases h
    exact ⟨_, _, Tape.toList_put _ _, rfl⟩
  · rw [hr] at h
    cases h
    exact ⟨_, _, Tape.toList_put _ _, rfl⟩

theorem fallOff_stops (h : fallOff g s = .ok () s') : Stops s'.code := by
  unfold fallOff at h
  rw [run_bind (currentScope_run g s)] at h
  split at h
  · cases h
    exact ⟨_, _, Tape.toList_put _ _, rfl⟩
  · obtain ⟨_, s₁, -, h⟩ := bind_ok h
    exact returnTop_stops h

theorem action_stops {a : Action} (ht : a.isTerminal = true) (h : action a s = .ok () s') :
    Stops s'.code := by
  cases a with
  | ret value =>
    cases value with
    | none =>
      obtain ⟨_, s₁, -, h⟩ := bind_ok h
      exact returnTop_stops h
    | some e =>
      obtain ⟨_, s₁, -, h⟩ := bind_ok h
      exact returnTop_stops h
  | throw e =>
    obtain ⟨_, s₁, -, h⟩ := bind_ok h
    cases h
    exact ⟨_, _, Tape.toList_put _ _, rfl⟩
  | _ => cases ht

/-- The last statement of a block that ends in a terminal one writes an exit last. -/
theorem statements_stops {l : List Stmt} (ht : l.getLast?.any (·.action.isTerminal) = true)
    (h : l.forM stmt s = .ok () s') : Stops s'.code := by
  induction l generalizing s with
  | nil => cases ht
  | cons x rest ih =>
    obtain ⟨_, s₁, hx, hrest⟩ := bind_ok h
    cases rest with
    | nil =>
      cases hrest
      obtain ⟨_, s₂, -, ha⟩ := bind_ok hx
      exact action_stops (by simpa using ht) ha
    | cons y rest => exact ih (by simpa using ht) hrest

theorem schedules_code {targets : List BlockId}
    (h : (targets.forM (schedule g) : Gen Unit) s = .ok () s') :
    s'.code = s.code := by
  induction targets generalizing s with
  | nil =>
    cases h
    rfl
  | cons b rest ih =>
    obtain ⟨_, s₁, hb, hrest⟩ := bind_ok h
    exact (ih hrest).trans (schedule_adds hb).code_eq

end Gen

/-! ## Courses -/

namespace Task

/-- Whether a task starts behind an exit: it goes on where a scope has been closed, or where the
first block of one has been written. -/
def startsBehindExit : Task → Bool
  | .drain | .handlers _ | .cleanup _ _ => true
  | _ => false

/-- Whether control may go on behind the code of a task. -/
def fallsThrough : Task → Bool
  | .branch _ _ | .cases _ _ _ => true
  | _ => false

end Task

open Gen in
/-- In a routine without dead blocks every task writes sealed code, and ends with an exit unless it
is a conditional branch. -/
theorem Emits.seals {setting : Setting}
    (live : ∀ b block, setting.graph.block? b = some block → block.dead = false) {task : Task}
    {s s' : State} (h : Emits setting task s s') :
    Sealed s.code → (task.startsBehindExit = true → Stops s.code) →
      Sealed s'.code ∧ (task.fallsThrough = false → Stops s'.code) := by
  -- No block is dead, so every visit writes something that ends control.
  have alive {b : BlockId} {block : Block} (hb : setting.graph.block? b = some block)
      (hd : block.dead = true) : False := by
    rw [live b block hb] at hd
    cases hd
  have exited {s s' : State} {b : BlockId} (hs : Sealed s.code)
      (hc : s'.code = s.code ++ [exitInsn s.scopes b]) :
      Sealed s'.code ∧ Stops s'.code := by
    have hexit := isExit_exitInsn s.scopes b
    rw [hc]
    exact ⟨hs.put fun hm => by simp [Insn.endsPart_of_isExit hexit] at hm, stops_append hexit⟩
  have plain {s : State} {i : Insn} (hs : Sealed s.code) (hi : i.endsPart = false) :
      Sealed (s.code ++ [i]) := hs.put fun hm => by simp [hi] at hm
  induction h with
  | @revisit viaEdge b block s =>
    intro hs _
    obtain ⟨hsealed, hstops⟩ := exited hs (s.code_revisited b)
    exact ⟨hsealed, fun _ => hstops⟩
  | pass hb _ hd => exact (alive hb hd).elim
  | @enter viaEdge b block s s' _ _ _ _ _ ih =>
    intro hs _
    refine ih ?_ nofun
    rw [State.code_entered]
    exact plain hs rfl
  | @leave viaEdge b block s s' hb _ hd _ hq =>
    intro hs _
    have hc := (defer_adds hq (isLive_eq_true hb hd)).code_eq.trans (s.code_exited b)
    obtain ⟨hsealed, hstops⟩ := exited hs hc
    exact ⟨hsealed, fun _ => hstops⟩
  | stop hst ht =>
    intro hs _
    exact ⟨hs.calm (statements_calm setting.graph hst), fun _ => statements_stops ht hst⟩
  | goOn hst _ _ _ ih =>
    intro hs _
    exact ih (hs.calm (statements_calm setting.graph hst)) nofun
  | fallOff hst _ _ hf =>
    intro hs _
    exact ⟨(hs.calm (statements_calm setting.graph hst)).calm (fallOff_calm hf), fun _ =>
      fallOff_stops hf⟩
  | drop hb hd => exact (alive hb hd).elim
  | @direct o target block s s' _ _ _ _ hsch =>
    intro hs _
    refine ⟨?_, nofun⟩
    rw [(schedule_adds hsch).code_eq, State.code_branched]
    exact plain hs rfl
  | @detour o target block s s' _ _ _ _ _ _ ih =>
    intro hs _
    have hskip : Sealed (s.skipped o.negate).code := by
      rw [State.code_skipped]
      exact plain hs rfl
    refine ⟨?_, nofun⟩
    rw [State.code_written]
    exact plain (ih hskip nofun).1 rfl
  | @scope kind first hi s s₁ s' _ _ _ _ _ ihv ihd =>
    intro hs _
    have hopen : Sealed (s.opened kind first hi).code := by
      rw [State.code_opened]
      exact hs
    -- The visit does not fall through, so nothing can fall into the blocks that have waited.
    obtain ⟨hvisit, hstops⟩ := ihv hopen nofun
    exact ihd hvisit fun _ => hstops rfl
  | drained =>
    intro hs hb
    exact ⟨hs, fun _ => hb rfl⟩
  | skip hn _ _ ih =>
    intro hs hb
    obtain ⟨_, _, _, -, -, rfl⟩ := nextPending_some hn
    exact ih hs hb
  | next hn _ _ _ ihv ih =>
    intro hs _
    obtain ⟨_, _, _, -, -, rfl⟩ := nextPending_some hn
    obtain ⟨hvisit, hstops⟩ := ihv hs nofun
    exact ih hvisit fun _ => hstops rfl
  | goto _ ih => exact fun hs _ => ih hs nofun
  | conditional hc _ _ ihb ihv =>
    intro hs _
    exact ihv (ihb (hs.straight ((expr_straight _ _).of_ok hc)) nofun).1 nofun
  | @«foreach» b next subject slot s s₁ s' ha _ ih =>
    intro hs _
    have hacquire : Sealed s₁.code := hs.straight ((acquire_straight _).of_ok ha)
    exact ih hacquire nofun
  | moveNext _ ha _ hst _ ihb ihv =>
    intro hs _
    have hbranch := (ihb (hs.straight ((advance_straight _).of_ok ha)) nofun).1
    exact ihv (hbranch.straight ((storeItem_straight _ _ _).of_ok hst)) nofun
  | chain _ hv _ _ ihc ihv =>
    intro hs _
    exact ihv (ihc (hs.straight ((select_straight _).of_ok hv)) nofun).1 nofun
  | @table b default value cases range index s s₁ s₂ s₃ s₄ s' _ hi _ hj hsch _ ihb ihv =>
    intro hs _
    have hbranch := (ihb (hs.straight ((tableIndex_straight _ _).of_ok hi)) nofun).1
    have hindex := hbranch.straight ((loadIndex_straight _).of_ok hj)
    refine ihv ?_ nofun
    rw [schedules_code hsch, State.code_tabled]
    exact plain hindex rfl
  | noCase => exact fun hs _ => ⟨hs, nofun⟩
  | case hc _ _ ihb ihr =>
    intro hs _
    exact ihr (ihb (hs.straight ((compare_straight _ _ _).of_ok hc)) nofun).1 nofun
  | @protect b body next hi handlers cleanup ends s s₁ s₂ s₃ s' _ _ _ _ _ _ _ ihb ihh ihc ihv =>
    intro hs _
    have hstart : Sealed (s.written .beginTry).code := by
      rw [State.code_written]
      exact plain hs rfl
    -- Each part stops before the marker of the next one.
    obtain ⟨hbody, hbodyStops⟩ := ihb hstart nofun
    obtain ⟨hhandlers, hhandlersStop⟩ := ihh hbody fun _ => hbodyStops rfl
    obtain ⟨hcleanup, hcleanupStops⟩ := ihc hhandlers fun _ => hhandlersStop rfl
    refine ihv ?_ nofun
    rw [State.code_written]
    exact hcleanup.put fun _ => hcleanupStops rfl
  | noHandler | noCleanup =>
    intro hs hb
    exact ⟨hs, fun _ => hb rfl⟩
  | @handler x hi rest s s₁ s₂ s' hc _ _ ihs ihr =>
    intro hs hb
    have hstart : Sealed (s.written (.beginCatch x.cls)).code := by
      rw [State.code_written]
      exact hs.put fun _ => hb rfl
    obtain ⟨hscope, hstops⟩ := ihs (hstart.straight ((receive_straight _).of_ok hc)) nofun
    exact ihr hscope fun _ => hstops rfl
  | @cleanup first next s s' _ ih =>
    intro hs hb
    refine ih ?_ nofun
    rw [State.code_written]
    exact hs.put fun _ => hb rfl

/-! ## Listings -/

namespace Finished

variable {g : Graph} {options : Options} {registry : Registry} {s₁ s₂ : State}

/-- The label of the exit that returns share stands nowhere but at this exit. -/
theorem label_not_mem (h : Finished g options registry s₁ s₂) {slot : LocalId} {label : Label}
    (hr : s₂.returnSlot = some (slot, label)) : .label label ∉ s₂.code := by
  intro hm
  obtain ⟨n, -, rfl⟩ := h.exitIsFresh slot label hr
  obtain ⟨code, hl⟩ := h.links
  rw [hl.code_eq, List.mem_append] at hm
  rcases hm with hm | hm
  · cases List.all_eq_true.mp h.start_isPlain _ hm
  · exact (hl.bounds n hm).2.2 slot hr

theorem seals (h : Finished g options registry s₁ s₂)
    (live : ∀ b block, g.block? b = some block → block.dead = false) :
    Sealed s₂.code ∧ Stops s₂.code := by
  have hempty : Sealed ({ registry } : State).code := Sealed.nil
  obtain ⟨hsealed, hstops⟩ := h.emits.seals live (hempty.straight h.start) nofun
  exact ⟨hsealed, hstops rfl⟩

end Finished

/-- In the listing of a routine without dead blocks an exit stands last, right before every marker
that ends a part of a region, and right before the exit that returns share. -/
theorem Graph.generate_seals {g : Graph} {options : Options} {registry : Registry} {l : Listing}
    (h : (g.generate options registry).result = .ok l) (live : ∀ b ∈ g.blocks, b.dead = false) :
    Stops l.insns.toList ∧
      ∀ before i after, l.insns.toList = before ++ i :: after →
        (i.endsPart = true ∨ ∃ slot label,
          (g.lastState options registry).returnSlot = some (slot, label) ∧ i = .label label) →
        Stops before := by
  obtain ⟨s₁, s₂, hfin, rfl⟩ := generate_result h
  obtain ⟨hsealed, hstops⟩ := hfin.seals fun b block hb => live block (List.mem_of_getElem? hb)
  rw [hfin.code]
  unfold State.sharedExit
  cases hr : s₂.returnSlot with
  | none =>
    rw [List.append_nil]
    refine ⟨hstops, fun before i after heq hi => ?_⟩
    obtain hi | ⟨slot, label, hlast, -⟩ := hi
    · exact hsealed before i after heq hi
    · -- There is no shared exit.
      rw [hfin.exit, hr] at hlast
      cases hlast
  | some shared =>
    obtain ⟨slot, label⟩ := shared
    dsimp only
    refine ⟨⟨s₂.code ++ [.label label, .ldloc slot], .op .ret, by simp, rfl⟩, ?_⟩
    intro before i after heq hi
    obtain hi | ⟨slot', label', hlast, rfl⟩ := hi
    · -- The shared exit itself contains no marker.
      exact hsealed.append (by simp [Insn.endsPart]) before i after heq hi
    · rw [hfin.exit, hr] at hlast
      cases hlast
      -- Its label is the one behind all blocks.
      have hrest : .label label ∉ [Insn.ldloc slot, .op .ret] := by simp
      obtain ⟨rfl, -⟩ :=
        (List.append_cons_inj_of_notMem (hfin.label_not_mem hr) hrest).mp heq
      exact hstops

/-- A routine whose region has a handler and code that runs in any case, with a return from inside
it and an exit on a condition. -/
def Graph.sheltered : Graph where
  name := "sheltered"
  vars := [⟨"flag", .param 0, .value, .any⟩]
  classes := ["Failure"]
  blocks := [
    ⟨"entry", false, [], some (.protect 1 [⟨0, none, 3⟩] (some 4) 5)⟩,
    ⟨"body", false, [], some (.conditional (.var 0 .any) 2 5)⟩,
    ⟨"early", false, [⟨.ret (some (.var 0 .any)), none⟩], none⟩,
    ⟨"handler", false, [⟨.throw (.new 0 (.only .object)), none⟩], none⟩,
    ⟨"cleanup", false, [], none⟩,
    ⟨"done", false, [], none⟩]

theorem Graph.sheltered_seals : ∃ l, (sheltered.generate {} {}).result = .ok l ∧
    (∀ b ∈ sheltered.blocks, b.dead = false) ∧ Stops l.insns.toList ∧
    (∀ i ∈ [.beginCatch 0, .beginFinally, .endTry, .label (.fresh 1)],
      ∃ before after, l.insns.toList = before ++ i :: after ∧ Stops before) := by
  have hok : (sheltered.generate {} {}).result = .ok (sheltered.generate {} {}).listing :=
    Generation.result_of_isOk (by decide +kernel)
  have live : ∀ b ∈ sheltered.blocks, b.dead = false := by decide +kernel
  have hslot : (sheltered.lastState {} {}).returnSlot = some (0, .fresh 1) := by decide +kernel
  obtain ⟨hlast, hbefore⟩ := generate_seals hok live
  have hmem : ∀ i ∈ [.beginCatch 0, .beginFinally, .endTry, .label (.fresh 1)],
      i ∈ (sheltered.generate {} {}).listing.insns.toList := by decide +kernel
  refine ⟨_, hok, live, hlast, fun i hi => ?_⟩
  obtain ⟨before, after, heq⟩ := List.append_of_mem (hmem i hi)
  refine ⟨before, after, heq, hbefore before i after heq ?_⟩
  simp only [List.mem_cons, List.not_mem_nil, or_false] at hi
  rcases hi with rfl | rfl | rfl | rfl
  · exact .inl rfl
  · exact .inl rfl
  · exact .inl rfl
  · exact .inr ⟨0, _, hslot, rfl⟩

end Linearizer
