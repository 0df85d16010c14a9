import Linearizer.Proofs.BranchTargets
import Linearizer.Proofs.ControlFlow.Simulation

/-!
# Preservation of control flow

Where no region is protected, no block is dead and no jump table is used, control passes the labels
of blocks in a listing in the order in which it visits the blocks of the graph, whatever is decided
at run time, and both runs end alike.

* `Finished.laid`: the code from the first block on is laid out, and so is that of every block that
  has been written;
* `Finished.laidOut`: so the listing behaves as the graph does from any label of a block on;
* `Finished.arrives_entry`: its first elements lead to the first block;
* `Graph.generate_preserves_control_flow` puts this together.
-/

namespace Linearizer

/-- A label that stands once stands nowhere else. -/
theorem Listing.position?_eq {l : Listing} {label : Label} {p : Nat}
    (hc : l.insns.toList.count (.label label) = 1)
    (hp : l.insns.toList[p]? = some (.label label)) : l.position? label = some p := by
  obtain ⟨hlt, hget⟩ := List.getElem?_eq_some_iff.mp hp
  have hsplit : l.insns.toList =
      l.insns.toList.take p ++ .label label :: l.insns.toList.drop (p + 1) := by
    rw [← hget, ← List.drop_eq_getElem_cons, List.take_append_drop]
  rw [hsplit, List.count_append, List.count_cons_self] at hc
  have hfirst : .label label ∉ l.insns.toList.take p := List.count_eq_zero.mp (by omega)
  refine List.findIdx?_eq_some_iff_getElem.mpr ⟨hlt, by simp [hget], fun j hj he => hfirst ?_⟩
  exact List.mem_take_iff_getElem.mpr ⟨j, by omega, eq_of_beq he⟩

namespace Finished

variable {g : Graph} {options : Options} {registry : Registry} {s₁ s₂ : State}

/-- The blocks of the routine are laid out, the first one after what declares the variables. -/
theorem laid (h : Finished g options registry s₁ s₂) (hjump : options.jumpTables = false)
    (hprot : ∀ block ∈ g.blocks, ∀ e ∈ block.edge, e.isProtected = false)
    (hlive : ∀ block ∈ g.blocks, block.dead = false) {code : List Insn} (hc : s₂.code <+: code) :
    s₁.code <+: code ∧ Reaches code s₁.code.length Graph.entry ∧
      ∀ b ∈ s₂.emitted, BlockAt g code b := by
  have hstart : s₁.scopes = [] := h.start.scopes
  have hnone : s₁.emitted = [] := h.start.emitted
  cases h.emits with
  | @scope _ _ _ _ s _ _ hvisit hdrain _ _ =>
    -- The scope of the routine is the only one.
    have hin : (s₁.opened .routine Graph.entry g.size).InRoutine g := by
      have houter : (s₁.unqueue Graph.entry).frames = [] := by
        rw [s₁.frames_unqueue, State.frames, hstart, List.map_nil]
      rw [State.InRoutine, State.frames, State.scopes_opened]
      exact congrArg (List.cons _) houter
    have hv := hvisit.laid hjump hlive hprot hin
    have hd := hdrain.laid hjump hlive hprot (hvisit.frames.trans hin)
    have hgrows := hd.lays.grows.trans hc
    have hreach := hv.shape code hgrows
    have hlays := hv.lays.trans hd.lays
    rw [State.code_opened] at hreach
    refine ⟨?_, hreach, fun b hb => ?_⟩
    · have := hv.lays.grows.trans hgrows
      rwa [State.code_opened] at this
    · refine (hlays.blocks code hc b hb).resolve_left ?_
      simp [hnone]

variable (h : Finished g options registry s₁ s₂) (hjump : options.jumpTables = false)
  (hprot : ∀ block ∈ g.blocks, ∀ e ∈ block.edge, e.isProtected = false)
  (hlive : ∀ block ∈ g.blocks, block.dead = false)
include h

theorem grows : s₂.code <+: (g.generate options registry).listing.insns.toList :=
  ⟨s₂.sharedExit, h.code.symm⟩

theorem emitted_of_marksAt {b : BlockId} {p : Nat}
    (hb : (g.generate options registry).listing.MarksAt b p) : b ∈ s₂.emitted := by
  rw [← List.mem_reverse, ← h.blockOrder_eq, Listing.blockOrder_eq]
  exact List.mem_filterMap.mpr ⟨_, List.mem_of_getElem? hb, rfl⟩

theorem unique {b : BlockId} {p : Nat} (hb : (g.generate options registry).listing.MarksAt b p) :
    (g.generate options registry).listing.position? (.block b) = some p :=
  Listing.position?_eq (h.count_block (h.emitted_of_marksAt hb)) hb

include hjump hprot hlive

theorem laidOut : LaidOut g (g.generate options registry).listing := by
  have hblocks := (h.laid hjump hprot hlive h.grows).2.2
  refine ⟨h.unique, fun hb => ?_, fun {b p} hb => ?_⟩
  · obtain ⟨p, _, _, hp, _⟩ := hblocks _ (h.emitted_of_branch hb)
    exact ⟨p, hp⟩
  · obtain ⟨p', block, hblock, hp', hbody⟩ := hblocks b (h.emitted_of_marksAt hb)
    cases (h.unique hb).symm.trans (h.unique hp')
    exact ⟨block, hblock, hbody⟩

/-- The first elements declare the variables and lead to the first block. -/
theorem arrives_entry (ds : Decisions) (k : Nat) :
    (g.generate options registry).listing.Arrives ds 0 k Graph.entry k := by
  obtain ⟨hstart, hreach, -⟩ := h.laid hjump hprot hlive h.grows
  have hwalk : Walk (g.generate options registry).listing.insns.toList 0 s₁.code.length :=
    h.start.walk hstart
  exact (hreach.arrives (h.laidOut hjump hprot hlive) k).after (hwalk.leads ds k)

end Finished

/-- Without protected regions, dead blocks and jump tables, a listing shows the same visits of
blocks in the same order as the graph, and the same end, whatever is decided at run time: each
shows every first part of what the other shows, and no run is stuck before its end. -/
theorem Graph.generate_preserves_control_flow {g : Graph} {options : Options} {registry : Registry}
    {l : Listing} (hjump : options.jumpTables = false)
    (hprot : ∀ block ∈ g.blocks, ∀ e ∈ block.edge, e.isProtected = false)
    (hlive : ∀ block ∈ g.blocks, block.dead = false)
    (h : (g.generate options registry).result = .ok l) (ds : Decisions) :
    (∀ n, ∃ m, l.trace ds m 0 0 = g.trace ds n entry 0) ∧
      (∀ m, ∃ n, l.trace ds m 0 0 = g.trace ds n entry 0) ∧
      ∀ n, (g.trace ds n entry 0).length = n ∨ ∃ e, .stop e ∈ g.trace ds n entry 0 := by
  obtain ⟨s₁, s₂, hfin, rfl⟩ := generate_result h
  have hlaid := hfin.laidOut hjump hprot hlive
  obtain ⟨p, hentry, hleads⟩ := hfin.arrives_entry hjump hprot hlive ds 0
  have hsim : ∀ n, ∃ m, (g.generate options registry).listing.trace ds m 0 0 =
      g.trace ds n entry 0 := by
    intro n
    obtain ⟨m, hm⟩ := hlaid.simulates n hentry 0
    obtain ⟨m', hm'⟩ := hleads m
    exact ⟨m', hm'.trans hm⟩
  have hcomplete := fun n => hlaid.complete hentry ds n 0
  exact ⟨hsim, trace_agrees hsim hcomplete, hcomplete⟩

/-- A loop over the items of a value that leaves some of them out and throws at others. -/
def Graph.filtering : Graph where
  name := "filtering"
  vars := [⟨"items", .param 0, .value, .any⟩, ⟨"item", .param 1, .value, .any⟩]
  classes := []
  blocks := [
    ⟨"entry", false, [], some (.foreach (.var 0 .any) 1)⟩,
    ⟨"head", false, [], some (.moveNext 0 1 none 2 6)⟩,
    ⟨"body", false, [], some (.conditional (.var 1 .any) 3 5)⟩,
    ⟨"select", false, [], some (.switch (.var 1 .any) [⟨.int 1, 5⟩, ⟨.int 2, 4⟩] 1)⟩,
    ⟨"fail", false, [⟨.throw (.var 1 .any), none⟩], some (.goto 1)⟩,
    ⟨"latch", false, [⟨.echo (.var 1 .any), none⟩], some (.goto 1)⟩,
    ⟨"done", false, [], none⟩]

/-- Two items: the first one is written out, the second one is thrown. -/
theorem Graph.filtering_preserves_control_flow :
    ∃ l, (filtering.generate { jumpTables := false } {}).result = .ok l ∧
      (∀ block ∈ filtering.blocks, ∀ e ∈ block.edge, e.isProtected = false) ∧
      (∀ block ∈ filtering.blocks, block.dead = false) ∧
      ∃ m, l.trace (fun k => k ≠ 1 ∧ k ≠ 4) m 0 0 =
        [.visit 0, .visit 1, .visit 2, .visit 5, .visit 1, .visit 2, .visit 3, .visit 4,
          .stop .thrown] := by
  have hok : (filtering.generate { jumpTables := false } {}).result =
      .ok (filtering.generate { jumpTables := false } {}).listing :=
    Generation.result_of_isOk (by decide +kernel)
  have hprot : ∀ block ∈ filtering.blocks, ∀ e ∈ block.edge, e.isProtected = false := by
    decide +kernel
  have hlive : ∀ block ∈ filtering.blocks, block.dead = false := by decide +kernel
  obtain ⟨m, hm⟩ := (generate_preserves_control_flow rfl hprot hlive hok
    (fun k => k ≠ 1 ∧ k ≠ 4)).1 9
  exact ⟨_, hok, hprot, hlive, m, hm.trans (by decide +kernel)⟩

end Linearizer
