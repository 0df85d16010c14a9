import Linearizer.Proofs.Generator.Routine
import Linearizer.Proofs.Graph.Reachable
import Linearizer.Proofs.Region.Scopes

/-!
# Plain branches lead back

Control goes on to a block that is yet to be written by falling into it, by a conditional branch, by
a table or by leaving a region. A plain branch is left for blocks that have been written before, so
that none leads to the label right behind it.

- **Scopes** (`State.Whole`): a scope of the routine has all of its blocks, so only a part of a
  region leaves a block to a scope around it.
- **Branches** (`State.MayExit.emitted_of_br`): where an exit is a plain branch, its target has been
  written.
- **Code** (`LeadsBack`): each plain branch has the label of its target before it.
  `State.LeadsBack.steps` says so at any time of generation, and
  `Graph.generate_branches_back` of every listing.
-/

namespace Linearizer

/-- Every plain branch leads to a block whose label stands before it. -/
def LeadsBack (code : List Insn) : Prop :=
  ∀ before after l, code = before ++ .branch .br l :: after →
    ∃ b, l = .block b ∧ .label (.block b) ∈ before

namespace LeadsBack

theorem nil : LeadsBack [] := by
  intro before after l h
  simp at h

/-- What is written behind the code has plain branches only to labels of the code. -/
theorem append {code new : List Insn} (h : LeadsBack code)
    (hnew : ∀ l, .branch .br l ∈ new → ∃ b, l = .block b ∧ .label (.block b) ∈ code) :
    LeadsBack (code ++ new) := by
  intro before after l hsplit
  rcases List.append_eq_append_iff.mp hsplit with ⟨more, rfl, rfl⟩ | ⟨more, rfl, hafter⟩
  · obtain ⟨b, hl, hb⟩ := hnew l (List.mem_append_right more List.mem_cons_self)
    exact ⟨b, hl, List.mem_append_left more hb⟩
  · cases more with
    | nil =>
      obtain rfl : .branch .br l :: after = new := hafter
      rw [List.append_nil] at hnew
      exact hnew l List.mem_cons_self
    | cons i more =>
      obtain ⟨rfl, -⟩ := List.cons.inj hafter
      exact h before more l rfl

end LeadsBack

/-! ## Scopes -/

/-- A scope of the routine ends where the routine does. -/
def State.Whole (g : Graph) (s : State) : Prop :=
  ∀ frame ∈ s.frames, frame.1 = .routine → frame.2.2 = g.size

namespace State

variable {g : Graph} {s s' : State} {b : BlockId}

theorem Whole.move (h : s.Whole g) (hm : Move g s s') : s'.Whole g := by
  have of_frames (hf : s'.frames = s.frames) : s'.Whole g := by
    unfold Whole
    rwa [hf]
  cases hm with
  | quiet hq => exact of_frames hq.calm.frames
  | enter => exact of_frames (s.frames_unqueue _)
  | claim => exact of_frames (s.frames_claimed _)
  | defer _ _ _ _ ho => exact of_frames (Gen.deferred_frames ho)
  | take hs => exact of_frames (by simp [State.frames, hs])
  | @opened kind first hi _ whole =>
    have hf : (s.opened kind first hi).frames = (kind, first, hi) :: s.frames := by
      rw [← s.frames_unqueue first]
      simp [State.frames]
    unfold Whole
    rw [hf]
    exact List.forall_mem_cons.mpr ⟨whole, h⟩
  | @closed scope outer hs =>
    intro frame hframe
    refine h frame ?_
    rw [State.frames, hs]
    exact List.mem_cons_of_mem _ hframe
  | write | fresh | enumerate => exact of_frames rfl

/-- Where an exit is a plain branch its target has been written: a block that has not been is left
to an outer scope, and then the innermost one is a part of a region. -/
theorem MayExit.emitted_of_br {l : Label} (h : s.MayExit g b) (hw : s.Whole g)
    (hbr : exitInsn s.scopes b = .branch .br l) : b ∈ s.emitted := by
  refine h.resolve_right ?_
  rintro ⟨live, -, hhi⟩
  have hlt := Graph.lt_size_of_isLive live
  unfold innermost at hhi
  cases hs : s.scopes with
  | nil =>
    rw [hs] at hhi
    -- No scope is open, and every block lies in the routine.
    exact Nat.not_lt.mpr hhi hlt
  | cons scope outer =>
    simp only [hs] at hhi hbr
    have out : scope.contains b = false := by simp [Scope.contains, Nat.not_lt.mpr hhi]
    cases hk : scope.kind with
    | routine =>
      -- The scope of the routine has all blocks.
      have hsize : scope.hi = g.size := by
        refine hw (scope.kind, scope.lo, scope.hi) ?_ hk
        simp [State.frames, hs]
      exact Nat.not_lt.mpr (hsize ▸ hhi) hlt
    | cleanup =>
      -- Parts of a region are left in other ways.
      rw [exitInsn_of_cleanup out hk] at hbr
      cases hbr
    | body | handler =>
      rw [exitInsn_of_isProtected out (by rw [hk]; rfl)] at hbr
      cases hbr

/-! ## Code -/

theorem Marked.mem_code (h : s.Marked g) (hb : b ∈ s.emitted) : .label (.block b) ∈ s.code := by
  rw [← List.mem_reverse, ← h.labels, List.mem_filterMap] at hb
  obtain ⟨i, hi, hmark⟩ := hb
  unfold Insn.marks? at hmark
  split at hmark
  · cases hmark
    exact hi
  · cases hmark

/-- What may be written is no plain branch, unless it leads to a block that has been written. -/
theorem MayWrite.mem_of_br {l : Label} (h : s.MayWrite g (.branch .br l)) (hw : s.Whole g)
    (hm : s.Marked g) : ∃ b, l = .block b ∧ .label (.block b) ∈ s.code := by
  generalize hi : Insn.branch .br l = i at h
  cases h with
  | @exit b h =>
    have hb : b ∈ s.emitted := h.emitted_of_br hw hi.symm
    unfold exitInsn at hi
    split at hi
    · cases hi
      exact ⟨b, rfl, hm.mem_code hb⟩
    · cases hi
  | conditional ho | skip ho =>
    cases hi
    cases ho
  | land | table => cases hi
  | marker h =>
    subst hi
    cases h

/-- What holds of plain branches at any time, with what it rests on. -/
structure LeadsBack (g : Graph) (s : State) : Prop where
  marked : s.Marked g
  whole : s.Whole g
  back : Linearizer.LeadsBack s.code

namespace LeadsBack

theorem move (h : s.LeadsBack g) (hm : Move g s s') : s'.LeadsBack g := by
  refine ⟨h.marked.move hm, h.whole.move hm, ?_⟩
  cases hm with
  | quiet hq =>
    obtain ⟨code, hc, hi⟩ := hq.calm.code
    rw [hc]
    refine h.back.append fun l hl => ?_
    -- Statements write no plain branch.
    obtain hp | he | ⟨slot, label, -, hl⟩ := hi _ hl
    · cases hp
    · cases he
    · cases hl
  | @write c i hw =>
    have hc : { s with tape := s.tape.put i, counters := c }.code = s.code ++ [i] :=
      Tape.toList_put _ _
    rw [hc]
    refine h.back.append fun l hl => ?_
    obtain rfl := List.mem_singleton.mp hl
    exact hw.mem_of_br h.whole h.marked
  | enter =>
    rw [State.code_entered]
    exact h.back.append (by simp)
  | claim => simpa [State.code, State.claimed] using h.back
  | opened =>
    rw [State.code_opened]
    exact h.back
  | fresh | enumerate | defer | take | closed => exact h.back

theorem steps (h : s.LeadsBack g) (hs : Steps g s s') : s'.LeadsBack g := by
  induction hs with
  | refl => exact h
  | tail _ hm ih => exact ih.move hm

end LeadsBack
end State

/-- A label that stands before an element does not stand right behind it. -/
theorem State.Marked.head?_ne {g : Graph} {s : State} (h : s.Marked g) {before after : List Insn}
    {i : Insn} {b : BlockId} (hc : s.code = before ++ i :: after)
    (hb : .label (.block b) ∈ before) : after.head? ≠ some (.label (.block b)) := by
  intro hhead
  have hafter : .label (.block b) ∈ after := List.mem_of_head? hhead
  have hnodup : (s.code.filterMap Insn.marks?).Nodup := by
    rw [h.labels]
    exact List.nodup_reverse.mpr h.once
  rw [hc, List.filterMap_append, List.nodup_append] at hnodup
  have hb' : b ∈ before.filterMap Insn.marks? := List.mem_filterMap.mpr ⟨_, hb, rfl⟩
  have hafter' : b ∈ (i :: after).filterMap Insn.marks? :=
    List.mem_filterMap.mpr ⟨_, List.mem_cons_of_mem i hafter, rfl⟩
  exact hnodup.2.2 b hb' b hafter' rfl

/-- In everything that is generated from a routine, also before a failure, a plain branch leads to a
block whose label stands before it, and so never to the label right behind it. -/
theorem Graph.generate_branches_back (g : Graph) (options : Options) (registry : Registry)
    {before after : List Insn} {l : Label}
    (h : (g.generate options registry).listing.insns.toList = before ++ .branch .br l :: after) :
    (∃ b, l = .block b ∧ .label (.block b) ∈ before) ∧ after.head? ≠ some (.label l) := by
  have start : State.LeadsBack g { registry } :=
    ⟨⟨rfl, List.nodup_nil, List.forall_mem_nil _⟩, List.forall_mem_nil _, .nil⟩
  have last := start.steps (g.lastState_steps options registry)
  rw [g.generate_code] at h
  obtain ⟨b, rfl, hb⟩ := last.back before after l h
  exact ⟨⟨b, rfl, hb⟩, last.marked.head?_ne h hb⟩

/-- A region whose body starts over, whose handler starts the region over, and that leads on to a
block which the routine does not have. -/
def Graph.retrying : Graph where
  name := "retrying"
  vars := [⟨"more", .param 0, .value, .any⟩]
  classes := ["Failure"]
  blocks := [
    ⟨"entry", false, [], some (.protect 1 [⟨0, none, 3⟩] none 4)⟩,
    ⟨"body", false, [], some (.conditional (.var 0 .any) 2 4)⟩,
    ⟨"again", false, [], some (.goto 1)⟩,
    ⟨"handler", false, [], some (.goto 0)⟩,
    ⟨"next", false, [], some (.goto 9)⟩]

/-- Generation fails at the missing block, behind the branch back to the start of the body. -/
theorem Graph.retrying_branches_back :
    let code := (retrying.generate {} {}).listing.insns.toList
    (retrying.generate {} {}).outcome.isOk = false ∧
      code = code.take 9 ++ .branch .br (.block 1) :: code.drop 10 ∧
      (∃ b, Label.block 1 = .block b ∧ .label (.block b) ∈ code.take 9) ∧
      (code.drop 10).head? ≠ some (.label (.block 1)) := by
  have hfails : (retrying.generate {} {}).outcome.isOk = false := by decide +kernel
  have hsplit : (retrying.generate {} {}).listing.insns.toList =
      (retrying.generate {} {}).listing.insns.toList.take 9 ++ .branch .br (.block 1) ::
        (retrying.generate {} {}).listing.insns.toList.drop 10 := by decide +kernel
  exact ⟨hfails, hsplit, generate_branches_back retrying {} {} hsplit⟩

end Linearizer
