import Linearizer.Proofs.Machine.Steps

/-!
# Conversions by address

A number or a tagged value can be converted where it is stored, through its address. This is a
shorter way to the same result: it exists where the value itself would go through a general helper
that has a form for addresses, and that helper reads the same value behind the address.

* `Conversion.planAt?_eq` and `Conversion.plan?_eq` are the two plans side by side;
* `Machine.run_coerceAt`: a helper does the same through an address;
* `Machine.convertAt_agrees` puts them together.
-/

namespace Linearizer

open Conversion

namespace Conversion

variable {source target : Encoding} {hint : Hint} {k : Coercion}

theorem coercionAt?_isSome_iff :
    (coercionAt? target).isSome = true ↔ target ∈ [.bool, .int64, .double, .string] := by
  cases target <;> simp [coercionAt?]

/-- Where there is a helper for addresses, a hint that leads to a direct read leaves no way through
the address. -/
theorem planAt?_eq (hs : source = .number ∨ source = .value) (hk : coercionAt? target = some k) :
    planAt? source hint target =
      if specialize? source hint target = none then some ⟨call (.coerceAt k source), false⟩
      else none := by
  simp [planAt?, hs, hk]

/-- Such a hint makes the plan for the value itself a specialized one, and the same helper is called
without it. -/
theorem plan?_eq (hs : source = .number ∨ source = .value) (hk : coercionAt? target = some k) :
    plan? source hint target =
      match specialize? source hint target with
      | some steps => some ⟨steps, true⟩
      | none => some ⟨call (.coerce k source), false⟩ := by
  have hplan : plan? source hint target = lower? source hint target := by
    rcases hs with rfl | rfl <;> cases target <;> cases hk <;> simp [plan?, wrap]
  have hcell : cell source target = some (call (.coerce k source)) := by
    rcases hs with rfl | rfl <;> cases target <;> cases hk <;> rfl
  rw [hplan, lower?, hcell]
  rfl

/-- The way through the address exists just where the plan for the value is general and calls a
helper that has a form for addresses. -/
theorem planAt?_isSome_iff : (planAt? source hint target).isSome = true ↔
    (source = .number ∨ source = .value) ∧ target ∈ [.bool, .int64, .double, .string] ∧
      ∃ c, plan? source hint target = some c ∧ c.specialized = false := by
  rw [← coercionAt?_isSome_iff]
  by_cases hs : source = .number ∨ source = .value
  · cases hk : coercionAt? target with
    | none => simp [planAt?, hk]
    | some k =>
      rw [planAt?_eq hs hk, plan?_eq hs hk]
      cases specialize? source hint target <;> simp [hs]
  · simp [planAt?, hs]

end Conversion

namespace Machine

variable {context : Context} {source target : Encoding} {hint : Hint}

/-- A value is read behind its address. -/
theorem popValue_address (e : Encoding) (s : Slot) (rest : List Slot) :
    popValue e (.address s :: rest) = popValue e (s :: rest) := rfl

/-- A helper does with an address what it does with the value that is stored there. -/
theorem run_coerceAt (k : Coercion) (e : Encoding) (s : Slot) (rest : List Slot) :
    run context (call (.coerceAt k e)) (.address s :: rest) =
      run context (call (.coerce k e)) (s :: rest) := by
  have hat : invoke context (.coerceAt k e) = popContext context (.coerceAt k e) >>=
    fun c => popValue e.erased >>= fun v => push (coerced c v k) := rfl
  have hof : invoke context (.coerce k e) = popContext context (.coerce k e) >>=
    fun c => popValue e.erased >>= fun v => push (coerced c v k) := rfl
  rw [run_call hat, run_call hof]
  simp only [bind, EStateM.bind, popValue_address]

/-- Where a number or a tagged value can be converted through its address, it can be converted by
itself, and on every machine both ways leave the same slot or stop with the same trap, whatever slot
is stored. There is a way through the address just where the target is a truth value, an integer, a
double or a string and the plan for the value itself reads no tag directly. -/
theorem convertAt_agrees (source : Encoding) (hint : Hint) (target : Encoding) :
    ((planAt? source hint target).isSome = true →
      (plan? source hint target).isSome = true ∧
        ∀ (context : Context) (s : Slot) (stack : List Slot),
          convertAt context s source hint target stack =
            convert context s source hint target stack) ∧
      ((planAt? source hint target).isSome = true ↔
        (source = .number ∨ source = .value) ∧ target ∈ [.bool, .int64, .double, .string] ∧
          ∃ c, plan? source hint target = some c ∧ c.specialized = false) := by
  refine ⟨fun h => ?_, planAt?_isSome_iff⟩
  obtain ⟨hs, ht, c, hplan, hgeneral⟩ := planAt?_isSome_iff.mp h
  obtain ⟨k, hk⟩ := Option.isSome_iff_exists.mp (coercionAt?_isSome_iff.mpr ht)
  refine ⟨by simp [hplan], fun context s stack => ?_⟩
  cases hspecial : specialize? source hint target with
  | some steps =>
    -- A direct read leaves no way through the address.
    simp [planAt?_eq hs hk, hspecial] at h
  | none =>
    have hat : planAt? source hint target = some ⟨call (.coerceAt k source), false⟩ := by
      rw [planAt?_eq hs hk, if_pos hspecial]
    have hof : plan? source hint target = some ⟨call (.coerce k source), false⟩ := by
      rw [plan?_eq hs hk, hspecial]
    unfold convertAt convert
    simp only [hat, hof]
    change (run context _ >>= fun _ => takeResult) (.address s :: stack) =
      (run context _ >>= fun _ => takeResult) (s :: stack)
    simp only [bind, EStateM.bind, run_coerceAt]

/-- A hint of one kind that has no way to a string of its own: a double is written by the general
helper, with the separator of the context, and so is one behind its address. -/
theorem convertAt_agrees_misled :
    (planAt? .value (.only .array) .string).isSome = true ∧
      (plan? .value (.only .array) .string).isSome = true ∧
      convertAt ⟨','⟩ (.value (.double 0.5)) .value (.only .array) .string [] =
        convert ⟨','⟩ (.value (.double 0.5)) .value (.only .array) .string [] := by
  have h : (planAt? .value (.only .array) .string).isSome = true := by decide
  have hagree := (convertAt_agrees .value (.only .array) .string).1 h
  exact ⟨h, hagree.1, hagree.2 ⟨','⟩ (.value (.double 0.5)) []⟩

end Machine
end Linearizer
