import Linearizer.Proofs.Generator.Straight

/-!
# Statements and returns

A statement leaves the schedule of blocks alone. Beside straight-line code it can end control, by a
return or an exception, and the first return from a protected region sets up the exit that all of
them share.

- **Moves** (`Quiet`): what statements and the ends of blocks without an edge can do, with the
  conditions on the open scopes; `Gen.statements_quiets` and `Gen.fallOff_quiets` say that they do
  nothing else.
- **Effect** (`Calm`): what is left of a sequence of such moves when the conditions are forgotten.
  `Numbers` says what becomes of the labels that are not of blocks.
-/

namespace Linearizer

/-- A move that leaves the schedule of blocks alone. -/
inductive Quiet (g : Graph) : State → State → Prop
  | straight {s s' : State} (h : Straight s s') : Quiet g s s'
  | throw {s : State} : Quiet g s (s.written (.op .throw))
  | ret {s : State} (h : ∀ scope ∈ s.scopes, scope.kind = .routine) :
      Quiet g s (s.written (.op .ret))
  /-- The exit that returns from protected regions share is set up. -/
  | share {s : State} {slot : LocalId} (h : s.returnSlot = none) :
      Quiet g s { s with
        nextLabel := s.nextLabel + 1
        returnSlot := some (slot, .fresh s.nextLabel) }
  /-- A return from inside a protected region. -/
  | leave {s : State} {slot : LocalId} {label : Label} (h : s.returnSlot = some (slot, label))
      (open_ : ∃ scope ∈ s.scopes, scope.kind.isProtected = true)
      (clean : ∀ scope ∈ s.scopes, scope.kind ≠ .cleanup) : Quiet g s (s.branched .leave label)
  | finish {s : State} (h : (s.innermost g).kind = .cleanup) :
      Quiet g s (s.written (.op .endfinally))

/-- A sequence of moves that leave the schedule of blocks alone. -/
abbrev Quiets (g : Graph) : State → State → Prop := Relation.ReflTransGen (Quiet g)

/-! ## The effect of such moves -/

/-- Whether the element is an instruction after which control does not go on. -/
def Insn.isEnd : Insn → Bool
  | .op o => o.isTerminator
  | _ => false

/-- Labels are numbered on from `s` to `s'`, and the exit that returns share, which is set up at
most once, has a new one. -/
structure Numbers (s s' : State) : Prop where
  nextLabel : s.nextLabel ≤ s'.nextLabel
  returnSlot : s'.returnSlot = s.returnSlot ∨ s.returnSlot = none ∧
    ∃ slot n, s'.returnSlot = some (slot, .fresh n) ∧ s.nextLabel ≤ n ∧ n < s'.nextLabel

/-- The exit that returns share has a label of its own. -/
def State.ExitIsFresh (s : State) : Prop :=
  ∀ slot label, s.returnSlot = some (slot, label) → ∃ n < s.nextLabel, label = .fresh n

namespace Numbers

variable {s s₁ s' : State}

theorem of_eq (hn : s'.nextLabel = s.nextLabel) (hr : s'.returnSlot = s.returnSlot) :
    Numbers s s' := ⟨Nat.le_of_eq hn.symm, .inl hr⟩

theorem of_skipped (s : State) (o : BranchOp) : Numbers s (s.skipped o) := ⟨Nat.le_succ _, .inl rfl⟩

/-- The shared exit stays once it is set up. -/
theorem returnSlot_eq (h : Numbers s s') {x : LocalId × Label} (hx : s.returnSlot = some x) :
    s'.returnSlot = some x := by
  obtain hr | ⟨hn, -⟩ := h.returnSlot
  · rw [hr, hx]
  · rw [hn] at hx
    cases hx

/-- New labels after new labels are new. -/
theorem trans (h : Numbers s s₁) (h' : Numbers s₁ s') : Numbers s s' := by
  refine ⟨Nat.le_trans h.nextLabel h'.nextLabel, ?_⟩
  obtain hr' | ⟨hn', slot, n, hs', hlo, hhi⟩ := h'.returnSlot
  · obtain hr | ⟨hn, slot, n, hs, hlo, hhi⟩ := h.returnSlot
    · exact .inl (hr'.trans hr)
    · exact .inr ⟨hn, slot, n, hr'.trans hs, hlo, Nat.lt_of_lt_of_le hhi h'.nextLabel⟩
  · obtain hr | ⟨-, slot', n', hs, -⟩ := h.returnSlot
    · exact .inr ⟨hr ▸ hn', slot, n, hs', Nat.le_trans h.nextLabel hlo, hhi⟩
    · rw [hn'] at hs
      cases hs

/-- The label that returns share stays a new one. -/
theorem exitIsFresh (h : Numbers s s') (hs : s.ExitIsFresh) : s'.ExitIsFresh := by
  intro slot label hl
  obtain hr | ⟨-, slot', n, hn, -, hlt⟩ := h.returnSlot
  · obtain ⟨n, hn, hf⟩ := hs slot label (hr ▸ hl)
    exact ⟨n, Nat.lt_of_lt_of_le hn h.nextLabel, hf⟩
  · cases hn.symm.trans hl
    exact ⟨n, hlt, rfl⟩

end Numbers

/-- On the way from `s` to `s'` plain instructions and ends of control are written, as well as
branches to the exit that returns share. -/
structure Calm (s s' : State) : Prop where
  code : ∃ code, s'.code = s.code ++ code ∧ ∀ i ∈ code, i.isPlain = true ∨ i.isEnd = true ∨
    ∃ slot label, s'.returnSlot = some (slot, label) ∧ i = .branch .leave label
  scopes : s'.scopes = s.scopes
  emitted : s'.emitted = s.emitted
  queued : s'.queued = s.queued
  numbers : Numbers s s'

namespace Calm

theorem refl (s : State) : Calm s s := ⟨⟨[], by simp, by simp⟩, rfl, rfl, rfl, .of_eq rfl rfl⟩

/-- Calm after calm is calm. -/
theorem trans {s₁ s₂ s₃ : State} (h : Calm s₁ s₂) (h' : Calm s₂ s₃) : Calm s₁ s₃ := by
  refine ⟨?_, h'.scopes.trans h.scopes, h'.emitted.trans h.emitted, h'.queued.trans h.queued,
    h.numbers.trans h'.numbers⟩
  obtain ⟨c, hc, hi⟩ := h.code
  obtain ⟨c', hc', hi'⟩ := h'.code
  refine ⟨c ++ c', by rw [hc', hc, List.append_assoc], fun i hm => ?_⟩
  rcases List.mem_append.mp hm with hm | hm
  · obtain hp | he | ⟨slot, label, hr, rfl⟩ := hi i hm
    · exact .inl hp
    · exact .inr (.inl he)
    · exact .inr (.inr ⟨slot, label, h'.numbers.returnSlot_eq hr, rfl⟩)
  · exact hi' i hm

theorem frames {s s' : State} (h : Calm s s') : s'.frames = s.frames := by
  simp [State.frames, h.scopes]

theorem grows {s s' : State} (h : Calm s s') : s.code <+: s'.code :=
  have ⟨code, hc, _⟩ := h.code
  ⟨code, hc.symm⟩

end Calm

/-- Straight code is calm. -/
theorem Straight.calm {s s' : State} (h : Straight s s') : Calm s s' := by
  obtain ⟨code, hc, hp⟩ := h.code
  refine ⟨⟨code, hc, fun i hi => .inl ?_⟩, h.scopes, h.emitted, h.queued,
    .of_eq h.nextLabel h.returnSlot⟩
  exact List.all_eq_true.mp hp i hi

theorem Straight.grows {s s' : State} (h : Straight s s') : s.code <+: s'.code := h.calm.grows

/-- So is a return, which may declare what returns share. -/
theorem Quiet.calm {g : Graph} {s s' : State} (h : Quiet g s s') : Calm s s' := by
  have one {i : Insn} {c : Counters} (hi : i.isEnd = true ∨
      ∃ slot label, s.returnSlot = some (slot, label) ∧ i = .branch .leave label) :
      Calm s { s with tape := s.tape.put i, counters := c } :=
    ⟨⟨[i], Tape.toList_put _ _, by simpa using .inr hi⟩, rfl, rfl, rfl, .of_eq rfl rfl⟩
  cases h with
  | straight h => exact h.calm
  | throw | ret | finish => exact one (.inl rfl)
  | share h =>
    exact ⟨⟨[], by simp [State.code], by simp⟩, rfl, rfl, rfl, Nat.le_succ _,
      .inr ⟨h, _, s.nextLabel, rfl, Nat.le_refl _, Nat.lt_succ_self _⟩⟩
  | leave h => exact one (.inr ⟨_, _, h, rfl⟩)

theorem Quiets.calm {g : Graph} {s s' : State} (h : Quiets g s s') : Calm s s' := by
  induction h with
  | refl => exact .refl s
  | tail _ h ih => exact ih.trans h.calm

/-! ## The functions that write statements -/

namespace Gen

variable {α : Type} {g : Graph}

theorem Does.quiets {m : Gen α} (h : Does Straight m) : Does (Quiets g) m := fun s =>
  (h s).mono fun _ hs => .single (.straight hs)

/-- A return fails inside a cleanup, ends the routine outside of regions, and otherwise leaves for
the shared exit, which the first one of this kind sets up. -/
theorem returnTop_cases (s : State) :
    returnTop s = .error (.invalidExit .cleanup) s ∨
      (∀ scope ∈ s.scopes, scope.kind = .routine) ∧ returnTop s = op .ret s ∨
      (∀ scope ∈ s.scopes, scope.kind ≠ .cleanup) ∧
        (∃ scope ∈ s.scopes, scope.kind.isProtected = true) ∧
        ∃ slot label s₁, returnTop s = (do put (.stloc slot); branch .leave label : Gen Unit) s₁ ∧
          (s.returnSlot = some (slot, label) ∧ s₁ = s ∨
            s.returnSlot = none ∧ slot = s.tape.listing.locals.size ∧ label = .fresh s.nextLabel ∧
              s₁ = { s with
                tape := (s.tape.declare .value).2
                nextLabel := s.nextLabel + 1
                returnSlot := some (slot, label) }) := by
  unfold returnTop
  rw [run_bind (get_run s)]
  by_cases hc : s.scopes.any (·.kind = .cleanup) = true
  · rw [if_pos hc]
    exact .inl rfl
  rw [if_neg hc]
  dsimp only
  have hc : ∀ scope ∈ s.scopes, scope.kind ≠ .cleanup := by simpa using hc
  by_cases hp : (!s.scopes.any (·.kind.isProtected)) = true
  · rw [if_pos hp]
    refine .inr (.inl ⟨fun scope hs => ?_, rfl⟩)
    have hn : scope.kind.isProtected = false := by
      simp only [Bool.not_eq_true', List.any_eq_false] at hp
      simpa using hp scope hs
    -- Only a routine is neither a cleanup nor protected.
    have := hc scope hs
    cases hk : scope.kind <;> simp_all [ScopeKind.isProtected]
  rw [if_neg hp]
  refine .inr (.inr ⟨hc, by simpa using hp, ?_⟩)
  cases s.returnSlot with
  | some shared => exact ⟨shared.1, shared.2, s, rfl, .inl ⟨rfl, rfl⟩⟩
  | none => exact ⟨_, _, _, rfl, .inr ⟨rfl, rfl, rfl, rfl⟩⟩

/-- A return to the shared exit, once there is one. -/
theorem leave_quiets {s : State} {slot : LocalId} {label : Label}
    (h : s.returnSlot = some (slot, label))
    (hp : ∃ scope ∈ s.scopes, scope.kind.isProtected = true)
    (hc : ∀ scope ∈ s.scopes, scope.kind ≠ .cleanup) :
    DoesFrom (Quiets g) (do put (.stloc slot); branch .leave label) s := by
  refine DoesFrom.bind ((put_straight rfl rfl).quiets s) fun _ s₁ hr => ?_
  have hs := (put_straight rfl rfl).of_ok hr
  rw [← hs.scopes] at hp hc
  exact .single (.leave (hs.returnSlot.trans h) hp hc)

/-- A return writes the value to what returns share, or returns at once. -/
theorem returnTop_quiets : Does (Quiets g) returnTop := by
  intro s
  obtain hr | ⟨hall, hr⟩ | ⟨hc, hp, slot, label, s₁, hr, ⟨hslot, rfl⟩ | ⟨hnone, rfl, rfl, rfl⟩⟩ :=
    returnTop_cases s
  · exact .to_error hr .refl
  · exact .to_ok hr (.single (.ret hall))
  · exact .of_run hr .refl (leave_quiets hslot hp hc)
  · have declared : Quiets g s { s with tape := (s.tape.declare .value).2 } :=
      ((declare_straight .value).quiets s).of_ok rfl
    exact .of_run hr (declared.tail (.share hnone)) (leave_quiets rfl hp hc)

/-- Falling off ends a cleanup or returns null. -/
theorem fallOff_quiets : Does (Quiets g) (fallOff g) := by
  intro s
  unfold fallOff
  refine DoesFrom.read (currentScope_run g s) ?_
  split
  · rename_i hk
    exact .single (.finish hk)
  · exact ((call_straight rfl).quiets.bind fun _ => returnTop_quiets) s

theorem quiets_acts : Acts (fun _ => True) fun α (m : Gen α) => Does (Quiets g) m where
  toParts := straight_parts.mono Does.quiets Does.pure Does.bind
  span _ := Does.modify fun _ =>
    .single (.straight ⟨⟨[], by simp [State.code], rfl⟩, rfl, rfl, rfl, rfl, rfl, rfl⟩)
  throw _ := .single .throw
  returnTop := returnTop_quiets

/-- The statements of a block schedule nothing. -/
theorem statements_quiets (l : List Stmt) : Does (Quiets g) (l.forM stmt) :=
  quiets_acts.statements fun _ _ _ _ => trivial

theorem statements_calm (g : Graph) {l : List Stmt} {s s' : State}
    (h : l.forM stmt s = .ok () s') : Calm s s' :=
  Quiets.calm (g := g) ((statements_quiets l).of_ok h)

theorem fallOff_calm {s s' : State} (h : fallOff g s = .ok () s') : Calm s s' :=
  (fallOff_quiets.of_ok h).calm

end Gen
end Linearizer
