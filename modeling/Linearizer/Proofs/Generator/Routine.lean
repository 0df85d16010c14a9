import Linearizer.Proofs.Generator.Contract
import Linearizer.Proofs.Generator.Coverage

/-!
# Whole routines

What is known of the listing that `Graph.generate` makes, put together from moves and courses.

* `Graph.generate_steps`: any listing, also one of a failed generation, is the code of a state that
  moves lead to;
* `Graph.generate_finished`: a successful generation is the course of the scope of the routine,
  after the variables have been declared, and ends with the exit that returns share;
* `Graph.lastState` is the state that generation ends in, and `Graph.generate_meets` reads the
  contract of a routine as one of its listing.
-/

namespace Linearizer

/-- The code of the exit that returns from protected regions share. -/
def State.sharedExit (s : State) : List Insn :=
  match s.returnSlot with
  | none => []
  | some (slot, label) => [.label label, .ldloc slot, .op .ret]

/-- The state in which the generation of a routine ends, also when it fails. -/
def Graph.lastState (g : Graph) (options : Options) (registry : Registry) : State :=
  match Gen.routine ⟨g, options⟩ { registry } with
  | .ok _ s => s
  | .error _ s => s

/-- The states before and after the blocks of a routine in a successful generation. -/
structure Finished (g : Graph) (options : Options) (registry : Registry) (s₁ s₂ : State) :
    Prop where
  start : Straight { registry } s₁
  emits : Emits ⟨g, options⟩ (.scope .routine Graph.entry g.size) s₁ s₂
  steps : Steps g { registry } s₂
  closed : s₂.scopes = []
  code : (g.generate options registry).listing.insns.toList = s₂.code ++ s₂.sharedExit
  exit : (g.lastState options registry).returnSlot = s₂.returnSlot

namespace Gen

/-- The exit that returns share is written if there is one. -/
theorem sharedReturn_run (s : State) :
    sharedReturn s = .ok () { s with tape := s.sharedExit.foldl Tape.put s.tape } := by
  have written (code : List Insn) (s : State) :
      code.foldl State.written s = { s with tape := code.foldl Tape.put s.tape } := by
    induction code generalizing s with
    | nil => rfl
    | cons i rest ih => exact ih (s.written i)
  rw [← written]
  unfold sharedReturn State.sharedExit
  rw [run_bind (get_run s)]
  cases s.returnSlot <;> rfl

theorem sharedReturn_code {s s' : State} (h : sharedReturn s = .ok () s') :
    s'.code = s.code ++ s.sharedExit := by
  rw [sharedReturn_run] at h
  cases h
  unfold State.sharedExit
  cases s.returnSlot <;> simp [State.code]

theorem sharedReturn_returnSlot {s s' : State} (h : sharedReturn s = .ok () s') :
    s'.returnSlot = s.returnSlot := by
  rw [sharedReturn_run] at h
  cases h
  rfl

/-- The parts of a run that returns: the variables are declared, the blocks are written, and the
exit that returns share comes last. -/
theorem routine_course {setting : Setting} {s s' : State} (hs : s.scopes = [])
    (h : routine setting s = .ok () s') :
    ∃ s₁ s₂, setting.graph.vars.forM declarePlace s = .ok () s₁ ∧
      Emits setting (.scope .routine Graph.entry setting.graph.size) s₁ s₂ ∧
      Steps setting.graph s₁ s₂ ∧ s₂.scopes = [] ∧ sharedReturn s₂ = .ok () s' := by
  unfold routine routineIn at h
  by_cases he : setting.graph.blocks.isEmpty = true
  · rw [if_pos he] at h
    cases h
  rw [if_neg he] at h
  obtain ⟨_, s₁, h₁, h⟩ := bind_ok h
  obtain ⟨_, s₂, h₂, h₃⟩ := bind_ok h
  have hstart := (Does.forM (R := Straight) _ fun v _ => declarePlace_straight v).of_ok h₁
  have hlt : Graph.entry < setting.graph.size := by
    simpa [Graph.size, Graph.entry, List.length_pos_iff] using he
  have hemits := scope_emits (visit_emits setting _) hlt h₂
  have hsteps := (scope_steps _ hlt (fun _ => rfl) s₁).of_ok h₂
  refine ⟨s₁, s₂, h₁, hemits, hsteps, ?_, h₃⟩
  have hf := hemits.frames
  rw [State.frames, State.frames, hstart.scopes, hs] at hf
  exact List.map_eq_nil_iff.mp hf

/-- A run of a routine that returns: places, the scope of the routine, and the shared exit. -/
theorem routine_ok {setting : Setting} {s s' : State} (hs : s.scopes = [])
    (h : routine setting s = .ok () s') :
    ∃ s₁ s₂, Straight s s₁ ∧ Emits setting (.scope .routine Graph.entry setting.graph.size) s₁ s₂ ∧
      Steps setting.graph s₁ s₂ ∧ s₂.scopes = [] ∧ sharedReturn s₂ = .ok () s' := by
  obtain ⟨s₁, s₂, h₁, rest⟩ := routine_course hs h
  exact ⟨s₁, s₂, (Does.forM (R := Straight) _ fun v _ => declarePlace_straight v).of_ok h₁, rest⟩

end Gen

theorem Generation.result_of_isOk {r : Generation} (h : r.outcome.isOk = true) :
    r.result = .ok r.listing := by
  unfold result
  cases ho : r.outcome with
  | error d =>
    rw [ho] at h
    cases h
  | ok c => rfl

namespace Graph

variable (g : Graph) (options : Options) (registry : Registry)

theorem generate_listing :
    (g.generate options registry).listing = (g.lastState options registry).tape.listing := by
  unfold generate generateAmong lastState
  cases h : Gen.routine ⟨g, options⟩ { registry } <;> simp only [EStateM.run, h]

/-- The listing of a routine is the code of the state in which generation ends. -/
theorem generate_code :
    (g.generate options registry).listing.insns.toList = (g.lastState options registry).code :=
  congrArg (·.insns.toList) (g.generate_listing options registry)

variable {g options registry} in
/-- What a run of a routine meets, in terms of its generation. -/
theorem generate_meets {Q : Unit → State → Prop} {E : Fault → State → Prop}
    (h : Gen.MeetsFrom (Gen.routine ⟨g, options⟩) Q E { registry }) :
    match (g.generate options registry).outcome with
    | .ok _ => Q () (g.lastState options registry)
    | .error d => E d.fault (g.lastState options registry) := by
  unfold generate generateAmong lastState
  cases hr : Gen.routine ⟨g, options⟩ { registry } with
  | ok _ s =>
    simp only [EStateM.run, hr]
    exact h.of_ok hr
  | error fault s =>
    simp only [EStateM.run, hr]
    exact h.of_error hr

variable {g options registry} in
/-- What an invariant says of a run with a journal holds of the one without. -/
theorem generate_accords {I : Invariant ⟨g, options⟩} {Q : Unit → Assertion}
    (h : I.MeetsFrom (Journaled.routine ⟨g, options⟩) Q [] { registry }) :
    match (g.generate options registry).outcome with
    | .ok _ => ∃ calls, Q () calls (g.lastState options registry)
    | .error d => ∃ calls, I.failed d.fault calls (g.lastState options registry) :=
  generate_meets (Journaled.erase_routine _ ▸ h.erase)

/-- The state in which generation ends is reached by moves. -/
theorem lastState_steps : Steps g { registry } (g.lastState options registry) := by
  have hsteps := Gen.routine_steps ⟨g, options⟩ (s := { registry }) rfl rfl
  unfold lastState
  cases h : Gen.routine ⟨g, options⟩ { registry } with
  | ok _ s => exact hsteps.of_ok h
  | error fault s => exact hsteps.of_error h

theorem generate_steps :
    ∃ s, Steps g { registry } s ∧ (g.generate options registry).listing = s.tape.listing :=
  ⟨_, g.lastState_steps options registry, g.generate_listing options registry⟩

variable {g options registry}

/-- The run behind a successful generation, and what it counted. -/
theorem generate_run {c : Counters} (h : (g.generate options registry).outcome = .ok c) :
    Gen.routine ⟨g, options⟩ { registry } = .ok () (g.lastState options registry) ∧
      c = { (g.lastState options registry).counters with
        instructions := (g.lastState options registry).tape.emitted } := by
  unfold generate generateAmong at h
  unfold lastState
  cases hr : Gen.routine ⟨g, options⟩ { registry } with
  | error fault s =>
    simp only [EStateM.run, hr] at h
    cases h
  | ok _ s =>
    simp only [EStateM.run, hr] at h
    cases h
    exact ⟨rfl, rfl⟩

/-- A successful generation has run to its end. -/
theorem generate_finished {c : Counters} (h : (g.generate options registry).outcome = .ok c) :
    ∃ s₁ s₂, Finished g options registry s₁ s₂ := by
  obtain ⟨s₁, s₂, hstart, hemits, hsteps, hclosed, hshared⟩ := Gen.routine_ok rfl (generate_run h).1
  refine ⟨s₁, s₂, hstart, hemits, .head (.quiet (.straight hstart)) hsteps, hclosed, ?_, ?_⟩
  · rw [generate_code]
    exact Gen.sharedReturn_code hshared
  · exact Gen.sharedReturn_returnSlot hshared

theorem generate_result {l : Listing} (h : (g.generate options registry).result = .ok l) :
    ∃ s₁ s₂, Finished g options registry s₁ s₂ ∧ (g.generate options registry).listing = l := by
  unfold Generation.result at h
  cases ho : (g.generate options registry).outcome with
  | error d =>
    rw [ho] at h
    cases h
  | ok c =>
    rw [ho] at h
    obtain ⟨s₁, s₂, hfin⟩ := generate_finished ho
    exact ⟨s₁, s₂, hfin, Except.ok.inj h⟩

end Graph

namespace Finished

variable {g : Graph} {options : Options} {registry : Registry} {s₁ s₂ : State}

theorem marked (h : Finished g options registry s₁ s₂) : s₂.Marked g :=
  State.Marked.steps ⟨rfl, List.nodup_nil, by simp⟩ h.steps

theorem idle (h : Finished g options registry s₁ s₂) : s₂.queued = [] :=
  (State.Waiting.steps (by simp [State.Waiting]) h.steps).queued_eq_nil h.closed

theorem exitIsFresh (h : Finished g options registry s₁ s₂) : s₂.ExitIsFresh :=
  h.steps.numbers.exitIsFresh fun _ _ hr => by cases hr

/-- A live block that has been seen in the end has been written. -/
theorem emitted_of_seen (h : Finished g options registry s₁ s₂) {b : BlockId} (hb : s₂.Seen g b)
    (live : g.isLive b = true) : b ∈ s₂.emitted := by
  refine (hb live).resolve_right ?_
  simp [h.idle]

/-- In the end the blocks of the labels are those that have been written. -/
theorem blockOrder_eq (h : Finished g options registry s₁ s₂) :
    (g.generate options registry).listing.blockOrder = s₂.emitted.reverse := by
  have hexit : s₂.sharedExit.filterMap Insn.marks? = [] := by
    unfold State.sharedExit
    split
    · rfl
    · rename_i slot label hr
      obtain ⟨n, -, rfl⟩ := h.exitIsFresh slot label hr
      rfl
  rw [Listing.blockOrder_eq, h.code, List.filterMap_append, hexit, h.marked.labels, List.append_nil]

/-- What is written before the first block is straight-line code. -/
theorem start_isPlain (h : Finished g options registry s₁ s₂) :
    s₁.code.all Insn.isPlain = true := by
  obtain ⟨code, hc, hp⟩ := h.start.code
  rw [hc]
  exact hp

end Finished
end Linearizer
