import Linearizer.Proofs.Generator.Change

/-!
# Plain instructions

The code of expressions, conversions and stores consists of instructions after which control always
goes on with the next one. It calls helpers of a fixed number of kinds: no class of the routine is
part of them.

* `Insn.isPlain` holds of such instructions, and `Helper.isErased` of such helpers;
* `Conversion.plan?_isPlain` and `Conversion.planAt?_isPlain` are the results for conversions;
* `Place.plain_load` and the lemmas after it are those for the code of places.
-/

namespace Linearizer

/-- Whether control always goes on with the next element: no branch, no end, no label, no marker. -/
def Insn.isPlain : Insn → Bool
  | .op o => !o.isTerminator
  | .call _ | .ldloc _ | .stloc _ | .ldloca _ => true
  | .branch _ _ | .switch _ | .label _ | .beginTry | .beginCatch _ | .beginFinally | .endTry =>
    false

/-- The helper that an element calls. -/
def Insn.callee? : Insn → Option HelperRef
  | .call callee => some callee
  | _ => none

/-- Whether the helper is given an enumerator that has been started. -/
def Helper.takesEnumerator : Helper → Bool
  | .moveNext | .currentValue | .currentKey => true
  | _ => false

/-- Whether no class is part of the helper. -/
def Helper.isErased : Helper → Bool
  | .convert _ source _ | .box source | .widen source => Encoding.simple.contains source
  | .payload source target =>
    Encoding.simple.contains source && Encoding.simple.contains target
  | _ => true

/-- Whether a conversion may have the step: it does not end control, and the helper that it calls
takes no enumerator and has no class. -/
def Step.isPlain : Step → Bool
  | .op o => !o.isTerminator
  | .call h => !h.takesEnumerator && h.isErased

theorem Encoding.contains_erased (e : Encoding) : simple.contains e.erased = true := by
  cases e <;> rfl

namespace Helper

@[simp] theorem takesEnumerator_coerce (k : Coercion) (source : Encoding) :
    (coerce k source).takesEnumerator = false := rfl

@[simp] theorem isErased_coerce (k : Coercion) (source : Encoding) :
    (coerce k source).isErased = true := source.contains_erased

end Helper

/-! ## Conversions -/

namespace Conversion

@[simp] theorem all_isPlain_call (h : Helper) :
    (call h).all Step.isPlain = (!h.takesEnumerator && h.isErased) := by
  unfold call
  split <;> simp [Step.isPlain, Opcode.isTerminator]


@[simp] theorem all_isPlain_cast (cls : Option ClassId) : (cast cls).all Step.isPlain = true := by
  cases cls <;> rfl

/-- Boxing is called for the encodings without a class only. -/
theorem boxThenClass_isPlain {source : Encoding} (h : Encoding.simple.contains source = true)
    (cls : Option ClassId) : (boxThenClass source cls).all Step.isPlain = true := by
  have hbox : (call (.box source)).all Step.isPlain = true := (all_isPlain_call _).trans h
  simp [boxThenClass, hbox]

theorem fromInt64_isPlain {target : Encoding} {steps : List Step}
    (h : fromInt64 target = some steps) : steps.all Step.isPlain = true := by
  cases target with
  | object cls =>
    cases h
    exact boxThenClass_isPlain rfl cls
  | _ => cases h <;> rfl

theorem fromTagged_isPlain {source target : Encoding} {steps : List Step}
    (h : fromTagged source target = some steps) : steps.all Step.isPlain = true := by
  cases target <;> simp only [fromTagged, Option.some.injEq, reduceCtorEq] at h <;> subst h <;>
    simp [Step.isPlain, Opcode.isTerminator]

/-- No cell of the table ends control, takes an enumerator or calls a helper with a class. -/
theorem cell_isPlain {source target : Encoding} {steps : List Step}
    (h : cell source target = some steps) : steps.all Step.isPlain = true := by
  cases source with
  | int64 => exact fromInt64_isPlain h
  | int32 =>
    cases target with
    | int32 | bool => cases h; rfl
    | _ =>
      -- An integer of 32 bits is widened first.
      simp only [cell, fromInt32, Option.map_eq_some_iff] at h
      obtain ⟨rest, hr, rfl⟩ := h
      simp [Step.isPlain, Opcode.isTerminator, fromInt64_isPlain hr]
  | number =>
    cases target with
    | number | value => cases h; rfl
    | _ =>
      simp only [cell, fromNumber] at h
      exact fromTagged_isPlain h
  | value =>
    cases target with
    | value | number | array => cases h; rfl
    | _ =>
      simp only [cell, fromValue] at h
      exact fromTagged_isPlain h
  | object known =>
    cases target <;> simp only [cell, fromObject, Option.some.injEq, reduceCtorEq] at h <;>
      subst h
    · split <;> simp
    · rfl
  | bool | double =>
    cases target with
    | object cls =>
      cases h
      exact boxThenClass_isPlain rfl cls
    | _ => cases h <;> rfl
  | array =>
    cases target with
    | object cls =>
      cases h
      simp
    | _ => cases h <;> rfl
  | string | mstring | «alias» => cases target <;> cases h <;> rfl

/-- What is read directly is read from an encoding without a class, into another one. -/
theorem payload?_isErased {source payload : Encoding} {kind : Kind}
    (h : payload? source kind = some payload) :
    (Helper.payload source payload).isErased = true := by
  cases source with
  | value | number =>
    cases kind <;> simp [payload?, Kind.encoding?] at h <;> subst h <;> rfl
  | _ => cases h

theorem specialize?_isPlain {source target : Encoding} {hint : Hint} {steps : List Step}
    (h : specialize? source hint target = some steps) : steps.all Step.isPlain = true := by
  unfold specialize? at h
  split at h
  · cases h
  · split at h
    · cases h
    · split at h
      · cases target <;> simp [nullConstant] at h <;> subst h <;> rfl
      · simp only [Option.bind_eq_bind, Option.bind_eq_some_iff, Option.pure_def,
          Option.some.injEq] at h
        obtain ⟨payload, hp, rest, hr, rfl⟩ := h
        simp [Helper.takesEnumerator, payload?_isErased hp, cell_isPlain hr]

theorem lower?_isPlain {source target : Encoding} {hint : Hint} {c : Conversion}
    (h : lower? source hint target = some c) : c.steps.all Step.isPlain = true := by
  unfold lower? at h
  split at h
  · rename_i steps hs
    cases h
    exact specialize?_isPlain hs
  · obtain ⟨steps, hs, rfl⟩ := Option.map_eq_some_iff.mp h
    exact cell_isPlain hs

theorem wrap_isPlain {source target : Encoding} {hint : Hint} {c : Conversion}
    {before after : List Step} (hb : before.all Step.isPlain = true)
    (ha : after.all Step.isPlain = true)
    (h : (lower? source hint target).map (wrap before · after) = some c) :
    c.steps.all Step.isPlain = true := by
  obtain ⟨inner, hi, rfl⟩ := Option.map_eq_some_iff.mp h
  simp [wrap, hb, ha, lower?_isPlain hi]

theorem plan?_isPlain {source target : Encoding} {hint : Hint} {c : Conversion}
    (h : plan? source hint target = some c) : c.steps.all Step.isPlain = true := by
  unfold plan? at h
  split at h
  rename_i before current hbc
  have hb : before.all Step.isPlain = true := by
    split at hbc <;> cases hbc
    · rfl
    · rfl
  split at h
  · exact wrap_isPlain hb rfl h
  · split at h
    · exact wrap_isPlain hb rfl h
    · split at h
      · exact wrap_isPlain (by simp [hb]) rfl h
      · exact wrap_isPlain hb rfl h

theorem planAt?_isPlain {source target : Encoding} {hint : Hint} {c : Conversion}
    (h : planAt? source hint target = some c) : c.steps.all Step.isPlain = true := by
  unfold planAt? at h
  split at h
  · obtain ⟨coercion, -, rfl⟩ := Option.map_eq_some_iff.mp h
    rw [all_isPlain_call]
    exact source.contains_erased
  · cases h

/-- The conversions of values given by their address are none that do nothing. -/
theorem planAt?_isIdentity {source target : Encoding} {hint : Hint} {c : Conversion}
    (h : planAt? source hint target = some c) : c.isIdentity = false := by
  unfold planAt? at h
  split at h
  · obtain ⟨coercion, -, rfl⟩ := Option.map_eq_some_iff.mp h
    unfold isIdentity call
    split <;> rfl
  · cases h

end Conversion

/-! ## Places -/

namespace Place

variable (p : Place)

theorem plain_load : ∀ i ∈ p.load, i.isPlain = true ∧ i.callee? = none := by
  unfold load
  cases p.storage <;> simp [Insn.isPlain, Insn.callee?, Opcode.isTerminator]

theorem plain_loadAddress : ∀ i ∈ p.loadAddress, i.isPlain = true ∧ i.callee? = none := by
  unfold loadAddress
  cases p.storage <;> simp [Insn.isPlain, Insn.callee?, Opcode.isTerminator]

theorem plain_store : ∀ i ∈ p.store, i.isPlain = true ∧ i.callee? = none := by
  unfold store
  split
  · simp [Insn.isPlain, Insn.callee?, Opcode.isTerminator]
  · cases p.storage <;> simp [Insn.isPlain, Insn.callee?, Opcode.isTerminator]

end Place
end Linearizer
