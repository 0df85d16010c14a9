import Linearizer.Proofs.Stack.Balance

/-!
# The balance of values

An expression leaves one entry, a conversion replaces the entry on top of the stack, and a store
takes one. Each lemma has any number of entries below what the code works on.

* `Conversion.Turns`: the steps of a conversion replace the top of the stack; `plan?_turns` and
  `planAt?_turns` are the results for all conversions;
* `Gen.expr_shifts`, `Gen.storeTop_shifts`, `Gen.assign_shifts` and `Gen.append_shifts` are the
  results for the functions that write values.
-/

namespace Linearizer

open Gen

/-! ## Conversions -/

/-- The effect of a step on the stack. -/
def Step.effect : Step → Effect
  | .op o => o.effect
  | .call h => h.effect

namespace Conversion

/-- How many entries some steps leave, if each finds what it takes. -/
def leaves? (depth : Nat) (steps : List Step) : Option Nat :=
  steps.foldlM (fun depth st => st.effect.after? depth) depth

/-- The steps take the top of the stack and leave one entry for it. -/
def Turns (steps : List Step) : Prop := leaves? 1 steps = some 1

theorem turns_nil : Turns [] := rfl

/-- Steps after steps replace one value by another. -/
theorem turns_append {steps steps' : List Step} (h : Turns steps) (h' : Turns steps') :
    Turns (steps ++ steps') := by
  unfold Turns leaves? at *
  rw [List.foldlM_append, h]
  exact h'

/-- The call of a helper with one argument beside the context. -/
theorem turns_call {h : Helper} (ha : h.arity = 1 + h.needsContext.toNat)
    (hr : h.returns = true) : Turns (call h) := by
  unfold call
  split
  · rename_i hc
    simp [Turns, leaves?, Step.effect, Helper.effect, Effect.after?, Opcode.effect, ha, hr, hc]
  · rename_i hc
    simp [Turns, leaves?, Step.effect, Helper.effect, Effect.after?, ha, hr, hc]

theorem turns_coerce (coercion : Coercion) (source : Encoding) :
    Turns (call (.coerce coercion source)) := turns_call rfl rfl

theorem turns_cast (cls : Option ClassId) : Turns (cast cls) := by
  cases cls <;> rfl

theorem fromInt64_turns {target : Encoding} {steps : List Step}
    (h : fromInt64 target = some steps) : Turns steps := by
  cases target with
  | object cls => cases h; cases cls <;> rfl
  | _ => cases h <;> rfl

theorem fromTagged_turns {source target : Encoding} {steps : List Step}
    (h : fromTagged source target = some steps) : Turns steps := by
  cases target with
  | int32 => cases h; exact turns_append (turns_coerce _ _) rfl
  | object cls => cases h; exact turns_append (turns_coerce _ _) (turns_cast cls)
  | _ => cases h <;> exact turns_coerce _ _

/-- Every cell of the table replaces the top of the stack. -/
theorem cell_turns {source target : Encoding} {steps : List Step}
    (h : cell source target = some steps) : Turns steps := by
  cases source with
  | int64 => exact fromInt64_turns h
  | int32 =>
    cases target with
    | int32 | bool => cases h; rfl
    | _ =>
      simp only [cell, fromInt32, Option.map_eq_some_iff] at h
      obtain ⟨rest, hr, rfl⟩ := h
      have widen : Turns [.op .convI8] := rfl
      exact turns_append widen (fromInt64_turns hr)
  | number =>
    cases target with
    | number | value => cases h; rfl
    | _ =>
      simp only [cell, fromNumber] at h
      exact fromTagged_turns h
  | value =>
    cases target with
    | value | number | array => cases h; rfl
    | _ =>
      simp only [cell, fromValue] at h
      exact fromTagged_turns h
  | object known =>
    cases target with
    | object cls =>
      cases h
      split
      · rfl
      · exact turns_cast cls
    | _ => cases h <;> rfl
  | bool | double | array =>
    cases target with
    | object cls => cases h; cases cls <;> rfl
    | _ => cases h <;> rfl
  | string | mstring | «alias» => cases target <;> cases h <;> rfl

/-- The constant for null replaces the value that is dropped. -/
theorem nullConstant_turns {target : Encoding} {zero : Opcode}
    (h : nullConstant target = some zero) : Turns [.op .pop, .op zero] := by
  cases target <;> cases h <;> rfl

/-- A conversion that goes by the hint replaces one value by another. -/
theorem specialize?_turns {source target : Encoding} {hint : Hint} {steps : List Step}
    (h : specialize? source hint target = some steps) : Turns steps := by
  unfold specialize? at h
  split at h
  · cases h
  · split at h
    · cases h
    · split at h
      · obtain ⟨zero, hz, rfl⟩ := Option.map_eq_some_iff.mp h
        exact nullConstant_turns hz
      · simp only [Option.bind_eq_bind, Option.bind_eq_some_iff, Option.pure_def,
          Option.some.injEq] at h
        obtain ⟨payload, -, rest, hr, rfl⟩ := h
        exact turns_append (turns_call rfl rfl) (cell_turns hr)

/-- So does any conversion between encodings that are no addresses or buffers. -/
theorem lower?_turns {source target : Encoding} {hint : Hint} {c : Conversion}
    (h : lower? source hint target = some c) : Turns c.steps := by
  unfold lower? at h
  split at h
  · rename_i steps hs
    cases h
    exact specialize?_turns hs
  · obtain ⟨steps, hs, rfl⟩ := Option.map_eq_some_iff.mp h
    exact cell_turns hs

/-- Steps before and after a conversion replace one value by another. -/
theorem wrap_turns {source target : Encoding} {hint : Hint} {c : Conversion}
    {before after : List Step} (hb : Turns before) (ha : Turns after)
    (h : (lower? source hint target).map (wrap before · after) = some c) : Turns c.steps := by
  obtain ⟨inner, hi, rfl⟩ := Option.map_eq_some_iff.mp h
  exact turns_append (turns_append hb (lower?_turns hi)) ha

/-- Every planned conversion replaces one value by another. -/
theorem plan?_turns {source target : Encoding} {hint : Hint} {c : Conversion}
    (h : plan? source hint target = some c) : Turns c.steps := by
  unfold plan? at h
  split at h
  rename_i before current hbc
  have hb : Turns before := by
    split at hbc <;> cases hbc
    · exact turns_call rfl rfl
    · exact turns_nil
  split at h
  · exact wrap_turns hb (turns_call rfl rfl) h
  · split at h
    · exact wrap_turns hb (turns_call rfl rfl) h
    · split at h
      · exact wrap_turns (turns_append hb (turns_coerce _ _)) turns_nil h
      · exact wrap_turns hb turns_nil h

/-- One of a value given by its address replaces the address. -/
theorem planAt?_turns {source target : Encoding} {hint : Hint} {c : Conversion}
    (h : planAt? source hint target = some c) : Turns c.steps := by
  unfold planAt? at h
  split at h
  · obtain ⟨coercion, -, rfl⟩ := Option.map_eq_some_iff.mp h
    exact turns_call rfl rfl
  · cases h

end Conversion

namespace Gen

variable {k : Nat}

theorem step_shifts {st : Step} {a b : Nat} (h : st.effect.after? a = some b) :
    Shifts (k + a) (k + b) (step st) := by
  unfold Effect.after? at h
  obtain ⟨hle, hb⟩ := Option.ite_none_right_eq_some.mp h
  cases hb
  have hbelow : k + a = k + (a - st.effect.pops) + st.effect.pops := by omega
  rw [hbelow, ← Nat.add_assoc]
  cases st with
  | op o => exact op_shifts o
  | call helper => exact callDirect_shifts helper

/-- The steps of a conversion change the depth as their effects say. -/
theorem steps_shifts {steps : List Step} {a b : Nat}
    (h : Conversion.leaves? a steps = some b) : Shifts (k + a) (k + b) (steps.forM step) := by
  induction steps generalizing a with
  | nil =>
    cases h
    exact Shifts.pure ()
  | cons st rest ih =>
    unfold Conversion.leaves? at h
    rw [List.foldlM_cons] at h
    obtain ⟨m, hm, hrest⟩ := Option.bind_eq_some_iff.mp h
    exact (step_shifts hm).bind fun _ => ih hrest

theorem conversion_shifts {c : Conversion} (h : Conversion.Turns c.steps) :
    Shifts (k + 1) (k + 1) (conversion c) := by
  unfold conversion
  split
  · exact Shifts.pure ()
  · exact (count_shifts _).bind fun _ => steps_shifts h

/-- A conversion keeps the depth. -/
theorem convert_shifts (source : Encoding) (hint : Hint) (target : Encoding) :
    Shifts (k + 1) (k + 1) (convert source hint target) := by
  unfold convert
  split
  · rename_i hc
    exact conversion_shifts (Conversion.plan?_turns hc)
  · exact Shifts.throw nofun

/-! ## Places -/

/-- A load pushes a value, whatever the place. -/
theorem load_shifts (p : Place) : Shifts k (k + 1) (putAll p.load) := by
  unfold Place.load
  cases p.storage with
  | slot id => exact putAll_cons_shifts (ldloc_shifts id) putAll_nil_shifts
  | argument i => exact putAll_cons_shifts (op_shifts (.ldarg i)) putAll_nil_shifts
  | field name =>
    refine putAll_cons_shifts (op_shifts .ldctx) ?_
    exact putAll_cons_shifts (op_shifts (.ldfld name)) putAll_nil_shifts

theorem loadAddress_shifts (p : Place) : Shifts k (k + 1) (putAll p.loadAddress) := by
  unfold Place.loadAddress
  cases p.storage with
  | slot id =>
    refine putAll_cons_shifts (put_shifts rfl ?_) putAll_nil_shifts
    exact settle?_of_effect (.ldloca id) rfl rfl k
  | argument i => exact putAll_cons_shifts (op_shifts (.ldarga i)) putAll_nil_shifts
  | field name =>
    refine putAll_cons_shifts (op_shifts .ldctx) ?_
    exact putAll_cons_shifts (op_shifts (.ldflda name)) putAll_nil_shifts

/-- What a store needs below the value is one entry or nothing. -/
theorem prepare_shifts (p : Place) : Shifts k (k + p.hasReceiver.toNat) (putAll p.prepare) := by
  unfold Place.prepare
  by_cases ha : p.encoding = .alias
  · have hr : p.hasReceiver = true := by simp [Place.hasReceiver, ha]
    rw [if_pos ha, hr]
    exact load_shifts p
  rw [if_neg ha]
  by_cases hf : p.isField = true
  · have hr : p.hasReceiver = true := by simp [Place.hasReceiver, hf]
    rw [if_pos hf, hr]
    exact putAll_cons_shifts (op_shifts .ldctx) putAll_nil_shifts
  · have hr : p.hasReceiver = false := by simp [Place.hasReceiver, ha, hf]
    rw [if_neg hf, hr]
    exact putAll_nil_shifts

/-- A store takes the value and what it needs below it. -/
theorem store_shifts (p : Place) : Shifts (k + p.hasReceiver.toNat + 1) k (putAll p.store) := by
  unfold Place.store
  by_cases ha : p.encoding = .alias
  · have hr : p.hasReceiver = true := by simp [Place.hasReceiver, ha]
    rw [if_pos ha, hr]
    exact putAll_cons_shifts (op_shifts (.stfld "Value")) putAll_nil_shifts
  rw [if_neg ha]
  cases hs : p.storage with
  | slot id =>
    have hr : p.hasReceiver = false := by simp [Place.hasReceiver, Place.isField, ha, hs]
    rw [hr]
    exact putAll_cons_shifts (stloc_shifts id) putAll_nil_shifts
  | argument i =>
    have hr : p.hasReceiver = false := by simp [Place.hasReceiver, Place.isField, ha, hs]
    rw [hr]
    exact putAll_cons_shifts (op_shifts (.starg i)) putAll_nil_shifts
  | field name =>
    have hr : p.hasReceiver = true := by simp [Place.hasReceiver, Place.isField, hs]
    rw [hr]
    exact putAll_cons_shifts (op_shifts (.stfld name)) putAll_nil_shifts

/-- A store takes the value, by way of a local variable if the place has a receiver. -/
theorem storeTop_shifts (p : Place) (source : Encoding) (hint : Hint) :
    Shifts (k + 1) k (storeTop p source hint) := by
  have rest : Shifts (k + p.hasReceiver.toNat + 1) k (do
      convert source hint p.storeEncoding
      putAll p.store) :=
    (convert_shifts _ _ _).bind fun _ => store_shifts p
  unfold storeTop
  split
  · refine (temp_shifts _).bind fun spill => (stloc_shifts spill).bind fun _ => ?_
    exact (prepare_shifts p).bind fun _ => (ldloc_shifts spill).bind fun _ => rest
  · rename_i hr
    rw [Bool.eq_false_iff.mpr hr] at rest
    exact rest

/-! ## Expressions -/

theorem literal_shifts (l : Literal) : Shifts k (k + 1) (literal l) := by
  cases l with
  | null => exact (call_shifts .nullValue (n := 0) rfl).bind fun _ => Shifts.pure _
  | bool b => exact (op_shifts (.ldcI4 (if b then 1 else 0))).bind fun _ => Shifts.pure _
  | int n => exact (op_shifts (.ldcI8 n)).bind fun _ => Shifts.pure _
  | double x => exact (op_shifts (.ldcR8 x)).bind fun _ => Shifts.pure _
  | string s => exact (op_shifts (.ldstr s)).bind fun _ => Shifts.pure _

/-- A value used in some encoding is one more entry. -/
theorem valueAs_shifts (e : Expr) {code : Gen Encoding} (hc : Shifts k (k + 1) code)
    (target : Encoding) : Shifts k (k + 1) (valueAs e code target) := by
  have rest : Shifts k (k + 1) (do let source ← code; convert source e.hint target) :=
    hc.bind fun _ => convert_shifts _ _ _
  unfold valueAs
  split
  · refine (place_shifts _).bind fun p => ?_
    split
    · split
      · rename_i hp
        refine (loadAddress_shifts p).bind fun _ => (count_shifts _).bind fun _ => ?_
        exact (conversion_shifts (Conversion.planAt?_turns hp)).bind fun _ => Shifts.pure ()
      · exact rest
    · exact rest
  · exact rest

theorem numberOperand_shifts (e : Expr) {code : Gen Encoding} (hc : Shifts k (k + 1) code) :
    Shifts k (k + 1) (numberOperand e code) := by
  refine hc.bind fun source => ?_
  split
  · exact (convert_shifts _ _ _).bind fun _ => convert_shifts _ _ _
  · exact convert_shifts _ _ _

/-- An operation leaves one entry in the place of two. -/
theorem binary_shifts (o : BinaryOp) (left right : Expr) {leftCode rightCode : Gen Encoding}
    (hl : Shifts k (k + 1) leftCode) (hr : Shifts (k + 1) (k + 2) rightCode) :
    Shifts k (k + 1) (binary o left right leftCode rightCode) := by
  have operands (target : Encoding) {rest : Gen Encoding} (h : Shifts (k + 2) (k + 1) rest) :
      Shifts k (k + 1)
        (do valueAs left leftCode target; valueAs right rightCode target; rest) :=
    (valueAs_shifts left hl target).bind fun _ =>
      (valueAs_shifts right hr target).bind fun _ => h
  cases o with
  | arithmetic a =>
    -- Doubles are combined by an instruction, other numbers by a helper.
    simp only [binary]
    split
    · have hop : Shifts (k + 2) (k + 1) (op (arithmeticOpcode a)) := by
        cases a with
        | add => exact op_shifts .add
        | sub => exact op_shifts .sub
        | mul => exact op_shifts .mul
      exact operands _ (hop.bind fun _ => Shifts.pure _)
    · refine (numberOperand_shifts left hl).bind fun _ => ?_
      refine (numberOperand_shifts right hr).bind fun _ => ?_
      exact (call_shifts (.arithmetic a) (n := 2) rfl).bind fun _ => Shifts.pure _
  | concat => exact operands _ ((call_shifts .concat (n := 2) rfl).bind fun _ => Shifts.pure _)
  | equal =>
    simp only [binary]
    split
    · exact operands _ ((op_shifts .ceq).bind fun _ => Shifts.pure _)
    · exact operands _ ((call_shifts .looseEquals (n := 2) rfl).bind fun _ => Shifts.pure _)
  | less =>
    simp only [binary]
    split
    · exact operands _ ((op_shifts .clt).bind fun _ => Shifts.pure _)
    · exact operands _ ((call_shifts .looseLess (n := 2) rfl).bind fun _ => Shifts.pure _)

mutual

/-- An expression pushes one entry, one case for each form. -/
theorem natural_shifts (k : Nat) : (e : Expr) → Shifts k (k + 1) (natural e)
  | .literal l _ => by rw [natural]; exact literal_shifts l
  | .var v _ => by
    rw [natural]
    refine (place_shifts v).bind fun p => ?_
    exact (load_shifts p).bind fun _ => Shifts.pure _
  | .binary o left right _ => by
    rw [natural]
    exact binary_shifts o left right (natural_shifts k left) (natural_shifts (k + 1) right)
  | .not e _ => by
    rw [natural]
    refine (valueAs_shifts e (natural_shifts k e) .bool).bind fun _ => ?_
    exact (op_shifts (.ldcI4 0)).bind fun _ => (op_shifts .ceq).bind fun _ => Shifts.pure _
  | .array items _ => by
    rw [natural]
    refine (call_shifts .newArray (n := 0) rfl).bind fun _ => ?_
    exact (arrayItems_shifts k items).bind fun _ => Shifts.pure _
  | .new c _ => by
    rw [natural]
    exact (op_shifts (.newobj c)).bind fun _ => Shifts.pure _

/-- The array stays on the stack while its items are added. -/
theorem arrayItems_shifts (k : Nat) :
    (items : List Expr) → Shifts (k + 1) (k + 1) (arrayItems items)
  | [] => by rw [arrayItems]; exact Shifts.pure ()
  | e :: rest => by
    rw [arrayItems]
    refine (op_shifts .dup).bind fun _ => ?_
    refine (valueAs_shifts e (natural_shifts (k + 2) e) .value).bind fun _ => ?_
    exact (call_shifts .arrayAdd (n := 2) rfl).bind fun _ => arrayItems_shifts k rest

end

theorem expr_shifts (e : Expr) (target : Encoding) : Shifts k (k + 1) (expr e target) :=
  valueAs_shifts e (natural_shifts k e) target

/-! ## Statements that change a variable -/

theorem assign_shifts (v : VarId) (e : Expr) : Shifts k k (assign v e) := by
  refine (place_shifts v).bind fun p => (prepare_shifts p).bind fun _ => ?_
  exact (expr_shifts e _).bind fun _ => store_shifts p

/-- To append leaves the stack as it was. -/
theorem append_shifts (v : VarId) (e : Expr) : Shifts k k (append v e) := by
  refine (place_shifts v).bind fun p => ?_
  split
  · refine (load_shifts p).bind fun _ => (expr_shifts e _).bind fun _ => ?_
    exact call_shifts .bufferAppend (n := 2) rfl
  · refine (prepare_shifts p).bind fun _ => (load_shifts p).bind fun _ => ?_
    refine (convert_shifts _ _ _).bind fun _ => (expr_shifts e _).bind fun _ => ?_
    refine (call_shifts .concat (n := 2) rfl).bind fun _ => ?_
    exact (convert_shifts _ _ _).bind fun _ => store_shifts p

end Gen
end Linearizer
