import Linearizer.Proofs.Generator.Pieces

/-!
# Straight-line code

The code of expressions, conversions and stores is straight-line code: control enters it at its
first instruction and leaves it after its last one. Writing it changes neither the scopes nor the
marks of blocks.

* `Straight s s'`: only plain instructions are written on the way from `s` to `s'`, and the helpers
  that they call have no class;
* `Gen.straight_parts`: this is what the parts of values, stores and edges do. The lemmas after it
  are the results for the functions.
-/

namespace Linearizer

/-- Whether the element can stand in straight-line code. -/
def Insn.isStraight : Insn → Bool
  | .call callee => callee.helper.isErased
  | i => i.isPlain

namespace Insn

variable {i : Insn}

theorem isPlain_of_isStraight (h : i.isStraight = true) : i.isPlain = true := by
  cases i with
  | call callee => rfl
  | _ => exact h

/-- The helpers that straight code calls name no class of objects. -/
theorem isErased_of_isStraight (h : i.isStraight = true) {callee : HelperRef}
    (hc : i.callee? = some callee) : callee.helper.isErased = true := by
  cases i with
  | call _ =>
    cases hc
    exact h
  | _ => cases hc

theorem isStraight_of_isPlain (h : i.isPlain = true) (hc : i.callee? = none) :
    i.isStraight = true := by
  cases i with
  | call _ => cases hc
  | _ => exact h

end Insn

/-! ## The relation -/

/-- On the way from `s` to `s'` only plain instructions are written, and what steers the schedule
stays as it is. -/
structure Straight (s s' : State) : Prop where
  written : ∃ code, s'.code = s.code ++ code ∧ code.all Insn.isStraight = true
  scopes : s'.scopes = s.scopes
  emitted : s'.emitted = s.emitted
  queued : s'.queued = s.queued
  enumerators : s'.enumerators = s.enumerators
  returnSlot : s'.returnSlot = s.returnSlot
  nextLabel : s'.nextLabel = s.nextLabel

namespace Straight

theorem refl (s : State) : Straight s s :=
  ⟨⟨[], by simp, rfl⟩, rfl, rfl, rfl, rfl, rfl, rfl⟩

/-- Straight code after straight code. -/
theorem trans {s₁ s₂ s₃ : State} (h : Straight s₁ s₂) (h' : Straight s₂ s₃) :
    Straight s₁ s₃ := by
  obtain ⟨c, hc, hp⟩ := h.written
  obtain ⟨c', hc', hp'⟩ := h'.written
  refine ⟨⟨c ++ c', by rw [hc', hc, List.append_assoc], by simp [hp, hp']⟩, ?_, ?_, ?_, ?_, ?_, ?_⟩
  · exact h'.scopes.trans h.scopes
  · exact h'.emitted.trans h.emitted
  · exact h'.queued.trans h.queued
  · exact h'.enumerators.trans h.enumerators
  · exact h'.returnSlot.trans h.returnSlot
  · exact h'.nextLabel.trans h.nextLabel

instance : IsPreorder State Straight where
  refl := refl
  trans _ _ _ := trans

/-- Control goes through all that is written. -/
theorem code {s s' : State} (h : Straight s s') :
    ∃ code, s'.code = s.code ++ code ∧ code.all Insn.isPlain = true := by
  obtain ⟨code, hc, hs⟩ := h.written
  rw [List.all_eq_true] at hs
  exact ⟨code, hc, List.all_eq_true.mpr fun i hi => Insn.isPlain_of_isStraight (hs i hi)⟩

/-- A change of nothing but the tape, by straight-line code. -/
theorem of_tape (s : State) {t : Tape} {code : List Insn}
    (ht : t.listing.insns.toList = s.tape.listing.insns.toList ++ code)
    (hc : code.all Insn.isStraight = true) : Straight s { s with tape := t } :=
  ⟨⟨code, ht, hc⟩, rfl, rfl, rfl, rfl, rfl, rfl⟩

theorem frames {s s' : State} (h : Straight s s') : s'.frames = s.frames := by
  simp [State.frames, h.scopes]

end Straight

/-! ## The functions that write values -/

namespace Gen

theorem put_straight {i : Insn} (h : i.isPlain = true) (hc : i.callee? = none) :
    Does Straight (put i) := fun s =>
  Straight.of_tape s (Tape.toList_put _ _) (by simp [Insn.isStraight_of_isPlain h hc])

theorem op_straight {o : Opcode} (h : o.isTerminator = false) : Does Straight (op o) :=
  put_straight (by simp [Insn.isPlain, h]) rfl

theorem count_straight (f : Counters → Counters) : Does Straight (count f) := fun s =>
  ⟨⟨[], by simp [State.code], rfl⟩, rfl, rfl, rfl, rfl, rfl, rfl⟩

/-- A helper is called, and the registry may learn of it. -/
theorem callDirect_straight {h : Helper} (he : h.isErased = true) :
    Does Straight (callDirect h) := fun s => by
  refine ⟨⟨[.call ((s.registry.after (s.peers.headD [])).resolve h).1], Tape.toList_put _ _, ?_⟩,
    rfl, rfl, rfl, rfl, rfl, rfl⟩
  simp [Insn.isStraight, he]

theorem declare_straight (e : Encoding) : Does Straight (declare e) := fun s =>
  ⟨⟨[], by simp [State.code], rfl⟩, rfl, rfl, rfl, rfl, rfl, rfl⟩

/-- A local variable may be declared. -/
theorem temp_straight (e : Encoding) : Does Straight (temp e) := by
  unfold temp
  refine Does.get_bind fun s => ?_
  split
  · exact Does.pure _
  · refine (declare_straight e).bind fun id => ?_
    refine (Does.modify fun s => ?_).bind fun _ => Does.pure id
    exact ⟨⟨[], by simp [State.code], rfl⟩, rfl, rfl, rfl, rfl, rfl, rfl⟩

theorem place_straight (v : VarId) : Does Straight (place v) := by
  unfold place
  refine Does.get_bind fun s => ?_
  split
  · exact Does.pure _
  · exact Does.throw _

/-- Values, stores and the parts of edges are straight-line code. -/
theorem straight_parts : Parts (fun _ => True) fun α (m : Gen α) => Does Straight m where
  pure := Does.pure
  bind := Does.bind
  unconvertible _ _ _ := Does.throw _
  place _ := place_straight _
  put := put_straight
  callDirect := callDirect_straight
  conversion _ := count_straight _
  address _ := (count_straight _).bind fun _ => count_straight _
  declare := declare_straight
  temp := temp_straight
  assume s := Straight.of_tape s (List.append_nil _).symm rfl

theorem call_straight {h : Helper} (he : h.isErased = true) : Does Straight (call h) :=
  Parts.call straight_parts he

theorem expr_straight (e : Expr) (target : Encoding) : Does Straight (expr e target) :=
  Parts.expr straight_parts (fun _ _ => trivial) target

theorem natural_straight (e : Expr) : Does Straight (natural e) :=
  Parts.natural straight_parts e fun _ _ => trivial

theorem assign_straight (v : VarId) (e : Expr) : Does Straight (assign v e) :=
  Parts.assign straight_parts trivial fun _ _ => trivial

theorem append_straight (v : VarId) (e : Expr) : Does Straight (append v e) :=
  Parts.append straight_parts trivial fun _ _ => trivial

theorem storeCurrent_straight (slot : LocalId) {h : Helper} (he : h.isErased = true) (v : VarId) :
    Does Straight (storeCurrent slot h v) := Parts.storeCurrent straight_parts slot he trivial

theorem acquire_straight (subject : Expr) : Does Straight (acquire subject) :=
  Parts.acquire straight_parts fun _ _ => trivial

theorem advance_straight (slot : LocalId) : Does Straight (advance slot) :=
  Parts.advance straight_parts slot

theorem storeItem_straight (slot : LocalId) (value : VarId) (key : Option VarId) :
    Does Straight (storeItem slot value key) :=
  Parts.storeItem straight_parts slot trivial fun _ _ => trivial

theorem select_straight (value : Expr) : Does Straight (select value) :=
  Parts.select straight_parts fun _ _ => trivial

theorem compare_straight (scratch : LocalId) (isInt : Bool) (c : Case) :
    Does Straight (compare scratch isInt c) := Parts.compare straight_parts scratch isInt c

theorem tableIndex_straight (value : Expr) (range : TableRange) :
    Does Straight (tableIndex value range) :=
  Parts.tableIndex straight_parts (fun _ _ => trivial) range

theorem loadIndex_straight (index : LocalId) : Does Straight (loadIndex index) :=
  Parts.loadIndex straight_parts index

theorem receive_straight (h : Handler) : Does Straight (receive h) :=
  Parts.receive straight_parts fun _ _ => trivial

/-- A variable gets its place. -/
theorem declarePlace_straight (v : Variable) : Does Straight (declarePlace v) := by
  have place {m : Gen Storage} (h : Does Straight m) : Does Straight (do
      let storage ← m
      modify fun s => { s with places := s.places ++ [⟨storage, v.encoding, v.hint⟩] }) :=
    h.bind fun _ => Does.modify fun _ =>
      ⟨⟨[], by simp [State.code], rfl⟩, rfl, rfl, rfl, rfl, rfl, rfl⟩
  unfold declarePlace
  split
  · exact place ((declare_straight _).bind fun _ => Does.pure _)
  · exact place (Does.pure _)
  · exact place (Does.pure _)

end Gen
end Linearizer
