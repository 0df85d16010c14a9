import Linearizer.Proofs.Region.Generation

/-!
# Exits from regions

Control leaves a region only as the target format allows: a return stands outside of all regions,
the code that runs in any case ends with an instruction of its own, plain branches and tables stay
in the innermost region, and the others are left to a block outside of it or to the exit that
returns share.

* `Outline.Exits` is the rule for an element, given the regions that are open before it;
* `State.LeavesShared`: an instruction that leaves a region for no block leads to the shared exit;
* `Graph.generate_exits` is the result for every element of a listing, up to where generation may
  have failed.
-/

namespace Linearizer

/-- A region is left for no block only towards the exit that returns share. -/
def State.LeavesShared (s : State) : Prop :=
  ∀ n, .branch .leave (.fresh n) ∈ s.code → ∃ slot, s.returnSlot = some (slot, .fresh n)

/-- Beside statements nothing leaves a region for anything but a block. -/
theorem State.MayWrite.ne_leave {g : Graph} {s : State} {i : Insn} (h : s.MayWrite g i) (n : Nat) :
    i ≠ .branch .leave (.fresh n) := by
  cases h with
  | exit =>
    unfold exitInsn
    split <;> simp
  | conditional => simp
  | skip ho =>
    rintro ⟨⟩
    cases ho
  | land => simp
  | table => simp
  | marker h =>
    rintro rfl
    cases h

namespace State.LeavesShared

variable {g : Graph} {s s' : State}

/-- What is written may leave a region for no block, if it leads to the shared exit. -/
theorem append (h : s.LeavesShared) {code : List Insn} (hc : s'.code = s.code ++ code)
    (hn : Numbers s s') (hnew : ∀ n, .branch .leave (.fresh n) ∈ code →
      ∃ slot, s'.returnSlot = some (slot, .fresh n)) : s'.LeavesShared := by
  intro n hm
  rw [hc, List.mem_append] at hm
  rcases hm with hm | hm
  · obtain ⟨slot, hs⟩ := h n hm
    exact ⟨slot, hn.returnSlot_eq hs⟩
  · exact hnew n hm

theorem move (h : s.LeavesShared) (hm : Move g s s') : s'.LeavesShared := by
  have silent {s' : State} (hc : s'.code = s.code) (hr : s'.returnSlot = s.returnSlot) :
      s'.LeavesShared := by
    intro n hn
    rw [hc] at hn
    rw [hr]
    exact h n hn
  cases hm with
  | quiet hq =>
    obtain ⟨code, hc, hi⟩ := hq.calm.code
    refine h.append hc hq.calm.numbers fun n hn => ?_
    -- What a statement writes is straight-line code, ends control, or leaves to the shared exit.
    obtain hp | he | ⟨slot, label, hr, hl⟩ := hi _ hn
    · cases hp
    · cases he
    · cases hl
      exact ⟨slot, hr⟩
  | @write c i hw =>
    refine h.append (Tape.toList_put s.tape i) (.of_eq rfl rfl) fun n hn => ?_
    exact absurd (List.mem_singleton.mp hn).symm (hw.ne_leave n)
  | @enter viaEdge b =>
    refine h.append (s.code_entered viaEdge b) (.of_eq ?_ (s.returnSlot_unqueue b)) (by simp)
    exact s.nextLabel_unqueue b
  | @claim b =>
    exact silent (congrArg (·.listing.insns.toList) (s.tape_unqueue b)) (s.returnSlot_unqueue b)
  | opened => exact silent (s.code_opened _ _ _) (s.returnSlot_opened _ _ _)
  | fresh | enumerate | defer | take | closed => exact silent rfl rfl

theorem steps (h : s.LeavesShared) (hs : Steps g s s') : s'.LeavesShared := by
  induction hs with
  | refl => exact h
  | tail _ hm ih => exact ih.move hm

end State.LeavesShared

/-- The open scopes are those of the regions that the code is in, whenever generation goes on to a
block or to an exit and when it ends. Every element of a listing, also where generation failed, is
an exit that the regions open before it allow, and regions are left for no block only towards the
exit that returns share. -/
theorem Graph.generate_exits (g : Graph) (options : Options) (registry : Registry) :
    let code := (g.generate options registry).listing.insns.toList
    (g.lastState options registry).Agrees g ∧
      (∀ x ∈ (Journaled.routine ⟨g, options⟩ { registry }).1, x.state.frames =
        (g.openRegions x.state.code).map Region.frame ++ [(.routine, 0, g.size)]) ∧
      (∀ k : Fin code.length, Outline.Exits g (g.openRegions (code.take k)) (code.get k)) ∧
      ∀ n, .branch .leave (.fresh n) ∈ code →
        ∃ slot, (g.lastState options registry).returnSlot = some (slot, .fresh n) := by
  refine ⟨(g.lastState_rests options registry).agrees, fun x hx => ?_, fun k => ?_, ?_⟩
  · obtain ⟨-, nest, hs⟩ := Invariant.Accords.noted (g.routine_regional options registry) x hx
    rw [Graph.openRegions, hs.nest]
    exact hs.scopes.map_frame
  · exact ((g.generate_lawful options registry).admits k).exits
  · have start : State.LeavesShared { registry } := fun n hn => by cases hn
    rw [generate_code]
    exact start.steps (g.lastState_steps options registry)

end Linearizer
