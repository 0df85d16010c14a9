import Linearizer.Proofs.Typing.State

/-!
# Types of values

An expression leaves an entry of the shape that its encoding has, a conversion leads from the shape
of one encoding to that of another, and a store finds the shape of what it stores into. Each lemma
has any stack below what the code works on.

* `Conversion.Leads`: the steps of a conversion replace an entry of one shape by one of another;
  `plan?_leads` and `planAt?_leads` are the results for all conversions;
* `Gen.expr_types`, `Gen.storeTop_types`, `Gen.assign_types` and `Gen.append_types` are the results
  for the functions that write values.
-/

namespace Linearizer

/-! ## Conversions -/

/-- The stack after a step of a conversion, if it finds what it needs. -/
def Step.retype? : Step → List Shape → Option (List Shape)
  | .op o => o.retype?
  | .call h => h.retype?

namespace Conversion

/-- The stack after some steps, if each finds what it needs. -/
def retype? (steps : List Step) (σ : List Shape) : Option (List Shape) :=
  steps.foldlM (fun σ st => st.retype? σ) σ

/-- The steps replace an entry of the shape `x` by one of the shape `y`. -/
def Leads (steps : List Step) (x y : Shape) : Prop :=
  ∀ σ, retype? steps (x :: σ) = some (y :: σ)

theorem leads_nil (x : Shape) : Leads [] x x := fun _ => rfl

/-- Steps after steps lead from the first shape to the last. -/
theorem leads_append {steps steps' : List Step} {x y z : Shape} (h : Leads steps x y)
    (h' : Leads steps' y z) : Leads (steps ++ steps') x z := fun σ => by
  unfold Leads retype? at *
  rw [List.foldlM_append, h]
  exact h' σ

theorem leads_cast (cls : Option ClassId) : Leads (cast cls) .object .object := by
  cases cls <;> exact fun _ => rfl

theorem fromInt64_leads {target : Encoding} {steps : List Step}
    (h : fromInt64 target = some steps) : Leads steps .int64 target.shape := by
  cases target with
  | object cls => cases h; exact leads_append (y := .object) (fun _ => rfl) (leads_cast cls)
  | _ => cases h <;> exact fun _ => rfl

/-- Numbers and tagged values are converted by the helpers for their encoding. -/
theorem fromTagged_leads {source target : Encoding} {steps : List Step}
    (hs : source = .number ∨ source = .value) (h : fromTagged source target = some steps) :
    Leads steps source.shape target.shape := by
  have toClass : Leads (call (.coerce .toClass source)) source.shape .object := by
    obtain rfl | rfl := hs <;> exact fun _ => rfl
  cases target with
  | object cls => cases h; exact leads_append toClass (leads_cast cls)
  | _ => obtain rfl | rfl := hs <;> cases h <;> exact fun _ => rfl

/-- Every cell of the table leads from the one shape to the other. -/
theorem cell_leads {source target : Encoding} {steps : List Step}
    (h : cell source target = some steps) : Leads steps source.shape target.shape := by
  cases source with
  | int64 => exact fromInt64_leads h
  | int32 =>
    cases target with
    | int32 | bool => cases h; exact fun _ => rfl
    | _ =>
      simp only [cell, fromInt32, Option.map_eq_some_iff] at h
      obtain ⟨rest, hr, rfl⟩ := h
      have widen : Leads [.op .convI8] .int32 .int64 := fun _ => rfl
      exact leads_append widen (fromInt64_leads hr)
  | number =>
    cases target with
    | number | value => cases h; exact fun _ => rfl
    | _ =>
      simp only [cell, fromNumber] at h
      exact fromTagged_leads (.inl rfl) h
  | value =>
    cases target with
    | value | number | array => cases h; exact fun _ => rfl
    | _ =>
      simp only [cell, fromValue] at h
      exact fromTagged_leads (.inr rfl) h
  | object known =>
    cases target with
    | object cls =>
      cases h
      split
      · exact leads_nil _
      · exact leads_cast cls
    | _ => cases h <;> exact fun _ => rfl
  | bool | double | array =>
    cases target with
    | object cls => cases h; exact leads_append (y := .object) (fun _ => rfl) (leads_cast cls)
    | _ => cases h <;> exact fun _ => rfl
  | string | mstring | «alias» => cases target <;> cases h <;> exact fun _ => rfl

/-- The constant for null has the shape of the target. -/
theorem nullConstant_leads {target : Encoding} {zero : Opcode} (x : Shape)
    (h : nullConstant target = some zero) : Leads [.op .pop, .op zero] x target.shape := by
  cases target <;> cases h <;> exact fun _ => rfl

/-- The payload of a tagged encoding is read in the encoding of its kind. -/
theorem payload?_leads {source payload : Encoding} {kind : Kind}
    (h : payload? source kind = some payload) :
    Leads (call (.payload source payload)) source.shape payload.shape := by
  cases source <;> cases kind <;> cases h <;> exact fun _ => rfl

/-- A conversion that goes by the hint leads to the shape of the target. -/
theorem specialize?_leads {source target : Encoding} {hint : Hint} {steps : List Step}
    (h : specialize? source hint target = some steps) : Leads steps source.shape target.shape := by
  unfold specialize? at h
  split at h
  · cases h
  · split at h
    · cases h
    · split at h
      · obtain ⟨zero, hz, rfl⟩ := Option.map_eq_some_iff.mp h
        exact nullConstant_leads _ hz
      · simp only [Option.bind_eq_bind, Option.bind_eq_some_iff, Option.pure_def,
          Option.some.injEq] at h
        obtain ⟨payload, hp, rest, hr, rfl⟩ := h
        exact leads_append (payload?_leads hp) (cell_leads hr)

/-- So does any conversion between encodings that are no addresses or buffers. -/
theorem lower?_leads {source target : Encoding} {hint : Hint} {c : Conversion}
    (h : lower? source hint target = some c) : Leads c.steps source.shape target.shape := by
  unfold lower? at h
  split at h
  · rename_i steps hs
    cases h
    exact specialize?_leads hs
  · obtain ⟨steps, hs, rfl⟩ := Option.map_eq_some_iff.mp h
    exact cell_leads hs

/-- Steps before and after a conversion lead from shape to shape. -/
theorem wrap_leads {source target : Encoding} {hint : Hint} {c : Conversion}
    {before after : List Step} {x y : Shape} (hb : Leads before x source.shape)
    (ha : Leads after target.shape y)
    (h : (lower? source hint target).map (wrap before · after) = some c) : Leads c.steps x y := by
  obtain ⟨inner, hi, rfl⟩ := Option.map_eq_some_iff.mp h
  exact leads_append (leads_append hb (lower?_leads hi)) ha

/-- Every conversion leads from the shape of its source to that of its target. -/
theorem plan?_leads {source target : Encoding} {hint : Hint} {c : Conversion}
    (h : plan? source hint target = some c) : Leads c.steps source.shape target.shape := by
  unfold plan? at h
  split at h
  rename_i before current hbc
  -- An alias is read first, if it does not stay one.
  have hb : Leads before source.shape current.shape := by
    split at hbc <;> cases hbc
    · rename_i hs
      rw [hs.1]
      exact fun _ => rfl
    · exact leads_nil _
  split at h
  · rename_i ht
    rw [ht.1]
    exact wrap_leads hb (fun _ => rfl) h
  · split at h
    · rename_i ht
      rw [ht.1]
      exact wrap_leads hb (fun _ => rfl) h
    · split at h
      · rename_i hc
        rw [hc.1] at hb
        have text : Leads (call (.coerce .toString .mstring)) .mstring .string := fun _ => rfl
        exact wrap_leads (leads_append hb text) (leads_nil _) h
      · exact wrap_leads hb (leads_nil _) h

/-- The same for a value that is given by its address. -/
theorem planAt?_leads {source target : Encoding} {hint : Hint} {c : Conversion}
    (h : planAt? source hint target = some c) :
    Leads c.steps (.address source.shape) target.shape := by
  unfold planAt? at h
  split at h
  · rename_i hs
    obtain ⟨coercion, hc, rfl⟩ := Option.map_eq_some_iff.mp h
    obtain rfl | rfl := hs.1 <;> cases target <;> cases hc <;> exact fun _ => rfl
  · cases h

end Conversion

/-! ## Places -/

namespace Place

/-- What a store into a place needs below the value: the alias whose cell is changed, or the context
that the field belongs to. -/
def receiver (p : Place) : List Shape :=
  if p.encoding = .alias then [.alias] else if p.isField then [.context] else []

theorem receiver_eq_nil {p : Place} (h : ¬p.hasReceiver = true) : p.receiver = [] := by
  unfold hasReceiver at h
  simp only [Bool.or_eq_true, decide_eq_true_eq, not_or] at h
  rw [receiver, if_neg h.1, if_neg h.2]

variable {Γ : Declarations} {p : Place} {σ : List Shape} (declared : Γ p.storage p.encoding)
include declared

/-- A load pushes the value of a place. -/
theorem load_flows : Flows Γ σ p.load (p.encoding.shape :: σ) := by
  unfold load
  cases hs : p.storage with
  | slot id =>
    rw [hs] at declared
    exact (Insn.Types.ldloc declared).flows
  | argument i =>
    rw [hs] at declared
    exact (Insn.Types.ldarg declared).flows
  | field name =>
    rw [hs] at declared
    exact .cons (.op rfl) (Insn.Types.ldfld declared).flows

/-- A load of the address pushes the address. -/
theorem loadAddress_flows : Flows Γ σ p.loadAddress (.address p.encoding.shape :: σ) := by
  unfold loadAddress
  cases hs : p.storage with
  | slot id =>
    rw [hs] at declared
    exact (Insn.Types.ldloca declared).flows
  | argument i =>
    rw [hs] at declared
    exact (Insn.Types.ldarga declared).flows
  | field name =>
    rw [hs] at declared
    exact .cons (.op rfl) (Insn.Types.ldflda declared).flows

/-- What is prepared for a store is the receiver of the place. -/
theorem prepare_flows : Flows Γ σ p.prepare (p.receiver ++ σ) := by
  unfold prepare receiver
  split
  · rename_i ha
    have load := load_flows (σ := σ) declared
    rw [ha] at load
    exact load
  · split
    · exact (Insn.Types.op rfl).flows
    · exact .nil

/-- The value that is stored has the encoding of the place, or is what the cell of an alias is to
hold. -/
theorem store_flows : Flows Γ (p.storeEncoding.shape :: (p.receiver ++ σ)) p.store σ := by
  unfold store storeEncoding receiver
  by_cases ha : p.encoding = .alias
  · rw [if_pos ha, if_pos ha, if_pos ha]
    exact Insn.Types.stcell.flows
  rw [if_neg ha, if_neg ha, if_neg ha]
  cases hs : p.storage with
  | slot id =>
    rw [hs] at declared
    rw [if_neg (by simp [isField, hs])]
    exact (Insn.Types.stloc declared).flows
  | argument i =>
    rw [hs] at declared
    rw [if_neg (by simp [isField, hs])]
    exact (Insn.Types.starg declared).flows
  | field name =>
    rw [hs] at declared
    rw [if_pos (by simp [isField, hs])]
    exact (Insn.Types.stfld declared).flows

end Place

namespace Gen

variable {g : Graph} {known : List Encoding} {σ : List Shape}

/-! ## Conversions and stores -/

/-- A step of a conversion has the type of what it writes. -/
theorem step_types {st : Step} {τ : List Shape} (h : st.retype? σ = some τ) :
    Types g known σ (fun _ => τ) (step st) := by
  cases st with
  | op o => exact op_types h
  | call helper => exact callDirect_types h

/-- So have all the steps of one. -/
theorem steps_types {steps : List Step} {τ : List Shape}
    (h : Conversion.retype? steps σ = some τ) :
    Types g known σ (fun _ => τ) (steps.forM step) := by
  induction steps generalizing σ with
  | nil =>
    cases h
    exact Types.pure rfl
  | cons st rest ih =>
    unfold Conversion.retype? at h
    rw [List.foldlM_cons] at h
    obtain ⟨υ, hst, hrest⟩ := Option.bind_eq_some_iff.mp h
    exact (step_types hst).bind fun _ => ih hrest

theorem conversion_types {c : Conversion} {x y : Shape} (h : Conversion.Leads c.steps x y) :
    Types g known (x :: σ) (fun _ => y :: σ) (conversion c) := by
  unfold conversion
  split
  · rename_i hc
    have same := h σ
    rw [List.isEmpty_iff.mp hc] at same
    exact Types.pure (Option.some.inj same).symm
  · exact (count_types _).bind fun _ => steps_types (h σ)

/-- A conversion replaces the value on top of the stack by one of the target's shape. -/
theorem convert_types (source : Encoding) (hint : Hint) (target : Encoding) :
    Types g known (source.shape :: σ) (fun _ => target.shape :: σ)
      (convert source hint target) := by
  unfold convert
  split
  · rename_i hc
    exact conversion_types (Conversion.plan?_leads hc)
  · exact Finds.throw _

theorem ldloc_types {id : LocalId} {e : Encoding} (declared : g.Declares known (.slot id) e) :
    Types g known σ (fun _ => e.shape :: σ) (put (.ldloc id)) := put_types (.ldloc declared)

theorem stloc_types {id : LocalId} {e : Encoding} (declared : g.Declares known (.slot id) e) :
    Types g known (e.shape :: σ) (fun _ => σ) (put (.stloc id)) := put_types (.stloc declared)

/-- A store takes the value from the stack, by way of a local variable if the place has a
receiver. -/
theorem storeTop_types {p : Place} (declared : g.Declares known p.storage p.encoding)
    (source : Encoding) (hint : Hint) :
    Types g known (source.shape :: σ) (fun _ => σ) (storeTop p source hint) := by
  have rest {known : List Encoding} (declared : g.Declares known p.storage p.encoding) :
      Types g known (source.shape :: (p.receiver ++ σ)) (fun _ => σ) (do
        convert source hint p.storeEncoding
        putAll p.store) :=
    (convert_types _ _ _).bind fun _ => putAll_types (p.store_flows declared)
  unfold storeTop
  split
  · -- The place was declared before the local variable in which the value waits.
    refine (temp_finds source).bind fun spill known' more waits => ?_
    have declared := Graph.Declares.mono more _ _ declared
    refine (stloc_types waits).bind fun _ => ?_
    refine (putAll_types (p.prepare_flows declared)).bind fun _ => ?_
    exact (ldloc_types waits).bind fun _ => rest declared
  · rename_i hr
    have rest := rest declared
    rw [Place.receiver_eq_nil hr] at rest
    exact rest

/-! ## Expressions -/

/-- The result of code that leaves a value is the encoding of the value. -/
abbrev Leaves (g : Graph) (known : List Encoding) (σ : List Shape) (code : Gen Encoding) : Prop :=
  Types g known σ (fun e => e.shape :: σ) code

theorem literal_types (l : Literal) : Leaves g known σ (literal l) := by
  cases l with
  | null => exact Types.bind (call_types rfl) fun _ => Types.pure rfl
  | bool b => exact Types.bind (op_types rfl) fun _ => Types.pure rfl
  | int n => exact Types.bind (op_types rfl) fun _ => Types.pure rfl
  | double x => exact Types.bind (op_types rfl) fun _ => Types.pure rfl
  | string s => exact Types.bind (op_types rfl) fun _ => Types.pure rfl

/-- A value used in some encoding is left in its shape, whether it is read through an address or
not. -/
theorem valueAs_types (e : Expr) {code : Gen Encoding} (hc : ∀ known, Leaves g known σ code)
    (target : Encoding) :
    Types g known σ (fun _ => target.shape :: σ) (valueAs e code target) := by
  have rest (known : List Encoding) : Types g known σ (fun _ => target.shape :: σ) (do
      let source ← code
      convert source e.hint target) :=
    (hc known).bind fun _ => convert_types _ _ _
  unfold valueAs
  split
  · refine (place_finds _).bind fun p known' _ declared => ?_
    split
    · split
      · -- The variable is converted through its address.
        rename_i hp
        refine (putAll_types (p.loadAddress_flows declared)).bind fun _ => ?_
        refine (count_types _).bind fun _ => ?_
        exact (conversion_types (Conversion.planAt?_leads hp)).bind fun _ => Types.pure rfl
      · exact rest known'
    · exact rest known'
  · exact rest known

theorem numberOperand_types (e : Expr) {code : Gen Encoding} (hc : Leaves g known σ code) :
    Types g known σ (fun _ => .number :: σ) (numberOperand e code) := by
  refine hc.bind fun source => ?_
  split
  · exact (convert_types source e.hint .value).bind fun _ => convert_types .value e.hint .number
  · exact convert_types source e.hint .number

theorem strictEncoding?_cases {left right : Hint} {e : Encoding}
    (h : strictEncoding? left right = some e) : e = .int64 ∨ e = .double := by
  unfold strictEncoding? at h
  split at h
  · exact .inl (Option.some.inj h).symm
  · split at h
    · exact .inr (Option.some.inj h).symm
    · cases h

/-- An operation leaves its result in its encoding. -/
theorem binary_types (o : BinaryOp) (left right : Expr) {leftCode rightCode : Gen Encoding}
    (hl : ∀ known σ, Leaves g known σ leftCode) (hr : ∀ known σ, Leaves g known σ rightCode) :
    Leaves g known σ (binary o left right leftCode rightCode) := by
  have operands (target : Encoding) {rest : Gen Encoding}
      (h : Types g known (target.shape :: target.shape :: σ) (fun e => e.shape :: σ) rest) :
      Leaves g known σ
        (do valueAs left leftCode target; valueAs right rightCode target; rest) :=
    (valueAs_types left (hl · _) target).bind fun _ =>
      (valueAs_types right (hr · _) target).bind fun _ => h
  cases o with
  | arithmetic a =>
    simp only [binary]
    split
    · refine operands .double ?_
      cases a <;> exact Types.bind (op_types rfl) fun _ => Types.pure rfl
    · refine (numberOperand_types left (hl _ _)).bind fun _ => ?_
      refine (numberOperand_types right (hr _ _)).bind fun _ => ?_
      exact Types.bind (call_types rfl) fun _ => Types.pure rfl
  | concat => exact operands .string (Types.bind (call_types rfl) fun _ => Types.pure rfl)
  | equal | less =>
    simp only [binary]
    split
    · rename_i e he
      refine operands e ?_
      obtain rfl | rfl := strictEncoding?_cases he <;>
        exact Types.bind (op_types rfl) fun _ => Types.pure rfl
    · exact operands .value (Types.bind (call_types rfl) fun _ => Types.pure rfl)

mutual

/-- An expression leaves its value in its own encoding, one case for each form. -/
theorem natural_types : (e : Expr) → (known : List Encoding) → (σ : List Shape) →
    Leaves g known σ (natural e)
  | .literal l _, known, σ => by rw [natural]; exact literal_types l
  | .var v _, known, σ => by
    rw [natural]
    refine (place_finds v).bind fun p known' _ declared => ?_
    exact (putAll_types (p.load_flows declared)).bind fun _ => Types.pure rfl
  | .binary o left right _, known, σ => by
    rw [natural]
    exact binary_types o left right (natural_types left) (natural_types right)
  | .not e _, known, σ => by
    rw [natural]
    refine (valueAs_types e (natural_types e · σ) .bool).bind fun _ => ?_
    refine Types.bind (op_types rfl) fun _ => ?_
    exact Types.bind (op_types rfl) fun _ => Types.pure rfl
  | .array items _, known, σ => by
    rw [natural]
    refine Types.bind (call_types rfl) fun _ => ?_
    exact (arrayItems_types items known σ).bind fun _ => Types.pure rfl
  | .new c _, known, σ => by
    rw [natural]
    exact Types.bind (op_types rfl) fun _ => Types.pure rfl

/-- The array stays on the stack while its items are added. -/
theorem arrayItems_types : (items : List Expr) → (known : List Encoding) → (σ : List Shape) →
    Types g known (.array :: σ) (fun _ => .array :: σ) (arrayItems items)
  | [], known, σ => by rw [arrayItems]; exact Types.pure rfl
  | e :: rest, known, σ => by
    rw [arrayItems]
    refine Types.bind (op_types rfl) fun _ => ?_
    refine (valueAs_types e (natural_types e · _) .value).bind fun _ => ?_
    exact Types.bind (call_types rfl) fun _ => arrayItems_types rest known σ

end

theorem expr_types (e : Expr) (target : Encoding) :
    Types g known σ (fun _ => target.shape :: σ) (expr e target) :=
  valueAs_types e (natural_types e · σ) target

/-! ## Statements that change a variable -/

theorem assign_types (v : VarId) (e : Expr) : Types g known σ (fun _ => σ) (assign v e) := by
  refine (place_finds v).bind fun p known' _ declared => ?_
  refine (putAll_types (p.prepare_flows declared)).bind fun _ => ?_
  exact (expr_types e _).bind fun _ => putAll_types (p.store_flows declared)

/-- To append leaves the stack as it was. -/
theorem append_types (v : VarId) (e : Expr) : Types g known σ (fun _ => σ) (append v e) := by
  refine (place_finds v).bind fun p known' _ declared => ?_
  have load {σ : List Shape} := putAll_types (p.load_flows (σ := σ) declared)
  split
  · rename_i hp
    rw [hp] at load
    exact load.bind fun _ => (expr_types e .string).bind fun _ => call_types rfl
  · refine (putAll_types (p.prepare_flows declared)).bind fun _ => load.bind fun _ => ?_
    refine (convert_types _ _ .string).bind fun _ => (expr_types e .string).bind fun _ => ?_
    refine Types.bind (call_types rfl) fun _ => (convert_types .string _ _).bind fun _ => ?_
    exact putAll_types (p.store_flows declared)

end Gen
end Linearizer
