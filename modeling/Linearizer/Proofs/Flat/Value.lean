import Linearizer.Proofs.Closed.Identifiers
import Linearizer.Proofs.ControlFlow.Layout
import Linearizer.Proofs.Flat.Requests
import Linearizer.Proofs.Generator.Contract
import Linearizer.Proofs.Generator.Pieces

/-!
# Requests of straight-line code

The code of expressions and statements returns if and only if every conversion that it asks for
exists, and otherwise fails for one that does not.

- **Still states** (`Still`): what is scheduled stays as it is.
- **Plans** (`Gen.Plans`): the contract of code with its requests. `Gen.natural_plans` is the main
  step, an induction on expressions, and `Gen.action_plans` the result for statements; the parts of
  edges follow.
-/

namespace Linearizer

/-- On the way from `s` to `s'` nothing happens to places, scopes, blocks and enumerators. -/
structure Still (s s' : State) : Prop where
  places : s'.places = s.places
  scopes : s'.scopes = s.scopes
  emitted : s'.emitted = s.emitted
  queued : s'.queued = s.queued
  enumerators : s'.enumerators = s.enumerators

namespace Still

theorem refl (s : State) : Still s s := ⟨rfl, rfl, rfl, rfl, rfl⟩

end Still

/-- The variables have their places, and the scope of the routine is the only one that is open. -/
structure State.Ready (g : Graph) (s : State) : Prop where
  places : s.places = g.places
  inRoutine : s.InRoutine g

/-- A property of states in which code can be written, and which still states share. -/
structure Steady (g : Graph) where
  holds : State → Prop
  ready : ∀ {s : State}, holds s → s.Ready g
  still : ∀ {s s' : State}, holds s → Still s s' → holds s'

namespace Gen

variable {α β : Type} {g : Graph} {I : Steady g} {E : Fault → State → Prop} {a b : List Request}

/-- The contract of code with its requests (module doc), where `R` is what is known of its result
and `E` of a failure for another reason. -/
def Plans (I : Steady g) (E : Fault → State → Prop) (requests : List Request) (m : Gen α)
    (R : α → Prop := fun _ => True) : Prop :=
  Meets I.holds m (fun x s => I.holds s ∧ R x ∧ ∀ r ∈ requests, r.isSupported = true)
    fun e s => (I.holds s ∧ ∃ r ∈ requests, r.isSupported = false ∧ e = r.fault) ∨ E e s

/-! ## Rules -/

section Rules

variable {R : α → Prop} {R' : β → Prop}

/-- What returns and keeps the invariant asks for nothing. -/
theorem Plans.of_ok {m : Gen α}
    (h : ∀ s, I.holds s → ∃ x s', m s = .ok x s' ∧ I.holds s' ∧ R x) : Plans I E [] m R := by
  intro s hs
  obtain ⟨x, s', hr, hs', hx⟩ := h s hs
  exact .to_ok hr ⟨hs', hx, List.forall_mem_nil _⟩

/-- What returns and leaves everything still asks for nothing. -/
theorem Plans.of_still {m : Gen α}
    (h : ∀ s, s.Ready g → ∃ x s', m s = .ok x s' ∧ Still s s' ∧ R x) : Plans I E [] m R := by
  refine .of_ok fun s hs => ?_
  obtain ⟨x, s', hr, hstill, hx⟩ := h s (I.ready hs)
  exact ⟨x, s', hr, I.still hs hstill, hx⟩

theorem Plans.pure {x : α} (h : R x) : Plans I E [] (pure x) R :=
  .of_still fun s _ => ⟨x, s, rfl, .refl s, h⟩

theorem Plans.result (x : α) : Plans I E [] (Pure.pure x : Gen α) := Plans.pure trivial

theorem Plans.modify {f : State → State} (h : ∀ s, Still s (f s)) :
    Plans I E [] (modify f : Gen Unit) :=
  .of_still fun s _ => ⟨(), f s, rfl, h s, trivial⟩

/-- One thing after the other asks for what both ask for. -/
theorem Plans.bind {m : Gen α} {f : α → Gen β} (hm : Plans I E a m R)
    (hf : ∀ x, R x → Plans I E b (f x) R') : Plans I E (a ++ b) (m >>= f) R' := by
  intro s hs
  have first := hm s hs
  cases hr : m s with
  | error e s₁ =>
    refine .to_error (run_bind_error hr f) ((first.of_error hr).imp_left ?_)
    exact fun ⟨hs₁, r, hr', hfault⟩ => ⟨hs₁, r, List.mem_append_left _ hr', hfault⟩
  | ok x s₁ =>
    obtain ⟨hs₁, hx, ha⟩ := first.of_ok hr
    have second := hf x hx s₁ hs₁
    refine .of_run (run_bind hr f) ?_
    cases hr' : f x s₁ with
    | ok y s₂ =>
      obtain ⟨hs₂, hy, hb⟩ := second.of_ok hr'
      exact .to_ok hr' ⟨hs₂, hy, List.forall_mem_append.mpr ⟨ha, hb⟩⟩
    | error e s₂ =>
      refine .to_error hr' ((second.of_error hr').imp_left ?_)
      exact fun ⟨hs₂, r, hr'', hfault⟩ => ⟨hs₂, r, List.mem_append_right _ hr'', hfault⟩

/-- A first part without requests. -/
theorem Plans.after {m : Gen α} {f : α → Gen β} (hm : Plans I E [] m R)
    (hf : ∀ x, R x → Plans I E b (f x) R') : Plans I E b (m >>= f) R' := hm.bind hf

/-- A last part without requests. -/
theorem Plans.before {m : Gen α} {f : α → Gen β} (hm : Plans I E a m R)
    (hf : ∀ x, R x → Plans I E [] (f x) R') : Plans I E a (m >>= f) R' := by
  simpa using hm.bind hf

/-- A loop asks for what its rounds ask for. -/
theorem Plans.forM {γ : Type} {f : γ → Gen Unit} {requests : γ → List Request} (l : List γ)
    (h : ∀ x ∈ l, Plans I E (requests x) (f x)) :
    Plans I E (l.flatMap requests) (l.forM f) := by
  induction l with
  | nil => exact Plans.result _
  | cons x l ih =>
    rw [List.flatMap_cons]
    exact (h x List.mem_cons_self).bind fun _ _ => ih fun y hy => h y (List.mem_cons_of_mem x hy)

/-- A loop without requests. -/
theorem Plans.forM_nil {γ : Type} {f : γ → Gen Unit} (l : List γ)
    (h : ∀ x ∈ l, Plans I E [] (f x)) : Plans I E [] (l.forM f) := by
  have hl := Plans.forM l h
  rwa [List.flatMap_eq_nil_iff.mpr fun _ _ => rfl] at hl

/-- The place of a variable is looked up. -/
theorem Plans.place {v : VarId} {p : Place} {f : Place → Gen β} (hp : g.places[v]? = some p)
    (hf : Plans I E b (f p) R') : Plans I E b (place v >>= f) R' := by
  intro s hs
  have hrun : Gen.place v s = .ok p s := by
    unfold Gen.place
    rw [run_bind (get_run s), (I.ready hs).places, hp]
    rfl
  exact .of_run (run_bind hrun f) (hf s hs)

end Rules

/-! ## Code without requests -/

theorem put_plans (i : Insn) : Plans I E [] (put i) :=
  Plans.modify fun _ => ⟨rfl, rfl, rfl, rfl, rfl⟩

theorem putAll_plans (code : List Insn) : Plans I E [] (putAll code) :=
  Plans.modify fun _ => ⟨rfl, rfl, rfl, rfl, rfl⟩

theorem op_plans (o : Opcode) : Plans I E [] (op o) := put_plans _

theorem count_plans (f : Counters → Counters) : Plans I E [] (count f) :=
  Plans.modify fun _ => ⟨rfl, rfl, rfl, rfl, rfl⟩

theorem callDirect_plans (h : Helper) : Plans I E [] (callDirect h) :=
  .of_still fun _ _ => ⟨(), _, rfl, ⟨rfl, rfl, rfl, rfl, rfl⟩, trivial⟩

theorem call_plans (h : Helper) : Plans I E [] (call h) := by
  unfold call
  split
  · exact (op_plans _).after fun _ _ => callDirect_plans h
  · exact callDirect_plans h

theorem declare_plans (e : Encoding) : Plans I E [] (declare e) :=
  .of_still fun _ _ => ⟨_, _, rfl, ⟨rfl, rfl, rfl, rfl, rfl⟩, trivial⟩

/-- A local variable for a moment is found or declared, and that asks for nothing. -/
theorem temp_plans (e : Encoding) : Plans I E [] (temp e) := by
  refine .of_still fun s _ => ?_
  unfold temp
  rw [run_bind (get_run s)]
  cases s.temps.lookup e with
  | some slot => exact ⟨slot, s, rfl, .refl s, trivial⟩
  | none => exact ⟨_, _, rfl, ⟨rfl, rfl, rfl, rfl, rfl⟩, trivial⟩

/-- A conversion that exists asks for no other. -/
theorem conversion_plans (c : Conversion) : Plans I E [] (conversion c) := by
  have step_plans (st : Step) : Plans I E [] (step st) := by
    cases st with
    | op o => exact op_plans o
    | call h => exact callDirect_plans h
  unfold conversion
  split
  · exact Plans.result _
  · exact (count_plans _).after fun _ _ => Plans.forM_nil _ fun st _ => step_plans st

/-- The value on top of the stack is returned: no region has to be left. -/
theorem returnTop_plans : Plans I E [] returnTop :=
  .of_still fun _ hs =>
    ⟨(), _, hs.inRoutine.returnTop_run, ⟨rfl, rfl, rfl, rfl, rfl⟩, trivial⟩

/-- Falling off the end of a routine returns null. -/
theorem fallOff_plans : Plans I E [] (fallOff g) := fun s hs => by
  obtain ⟨pending, hscopes⟩ := (I.ready hs).inRoutine.scopes_eq
  refine MeetsFrom.read (currentScope_run g s) ?_
  simp only [State.innermost, hscopes]
  exact ((call_plans .nullValue).after fun _ _ => returnTop_plans) s hs

/-! ## Conversions and stores -/

/-- A conversion is its own request. -/
theorem convert_plans (source : Encoding) (hint : Hint) (target : Encoding) :
    Plans I E [⟨source, hint, target⟩] (convert source hint target) := by
  unfold convert
  cases hplan : Conversion.plan? source hint target with
  | none =>
    have hno : Request.isSupported ⟨source, hint, target⟩ = false := by
      simp [Request.isSupported, hplan]
    exact fun s hs => .inl ⟨hs, _, List.mem_singleton_self _, hno, rfl⟩
  | some c =>
    have hyes : Request.isSupported ⟨source, hint, target⟩ = true := by
      simp [Request.isSupported, hplan]
    intro s hs
    have hc := conversion_plans (I := I) (E := E) c s hs
    cases hr : conversion c s with
    | ok x s' => exact .to_ok hr ⟨(hc.of_ok hr).1, trivial, List.forall_mem_singleton.mpr hyes⟩
    | error e s' => exact .to_error hr ((hc.of_error hr).imp_left fun ⟨_, _, hr, _⟩ => nomatch hr)

/-- A store asks for the conversion to the encoding of its place. -/
theorem storeTop_plans (p : Place) (source : Encoding) (hint : Hint) :
    Plans I E [⟨source, hint, p.storeEncoding⟩] (storeTop p source hint) := by
  have rest : Plans I E [⟨source, hint, p.storeEncoding⟩]
      (do convert source hint p.storeEncoding; putAll p.store) :=
    (convert_plans _ _ _).before fun _ _ => putAll_plans _
  unfold storeTop
  split
  · refine (temp_plans source).after fun spill _ => (put_plans _).after fun _ _ => ?_
    exact (putAll_plans _).after fun _ _ => (put_plans _).after fun _ _ => rest
  · exact rest

/-! ## Expressions -/

/-- The variable has a place. -/
abbrev Known (g : Graph) (v : VarId) : Prop := v < g.places.length

theorem literal_plans (l : Literal) : Plans I E [] (literal l) (· = l.encoding) := by
  cases l with
  | null => exact (call_plans _).after fun _ _ => Plans.pure rfl
  | bool b | int n | double x | string s => exact (op_plans _).after fun _ _ => Plans.pure rfl

section Operands

variable {code code' : Gen Encoding} {e e' : Expr}

/-- A value used in some encoding asks for what its code does, and for a conversion unless its
variable can be read through an address. -/
theorem valueAs_plans (he : ∀ v ∈ e.ids.vars, Known g v)
    (hc : Plans I E a code (· = e.encoding g.places)) (target : Encoding) :
    Plans I E (e.usedAs g.places a target) (valueAs e code target) := by
  have rest : Plans I E (a ++ [⟨e.encoding g.places, e.hint, target⟩])
      (do let source ← code; convert source e.hint target) :=
    hc.bind fun source hsource => hsource ▸ convert_plans _ _ _
  unfold valueAs Expr.usedAs
  cases e with
  | var v hint =>
    have hv : v < g.places.length := he v (by simp [Expr.ids, Ids.ofVars])
    have hp : g.places[v]? = some g.places[v] := List.getElem?_eq_getElem hv
    refine Plans.place hp ?_
    simp only [Expr.isAddressed, hp, Option.any_some]
    -- The address is used just if there is a conversion that reads through it.
    by_cases haddress : g.places[v].hasAddress = true
    · rw [if_pos haddress]
      cases hplan : Conversion.planAt? g.places[v].encoding hint target with
      | some c =>
        simp only [haddress, Option.isSome_some, Bool.and_true, if_true]
        refine (putAll_plans _).after fun _ _ => (count_plans _).after fun _ _ => ?_
        exact (conversion_plans c).after fun _ _ => Plans.result _
      | none => simpa using rest
    · rw [if_neg haddress]
      simpa [haddress] using rest
  | _ => exact rest

/-- An operand of arithmetic becomes a number, a textual one by way of a value. -/
theorem numberOperand_plans (hc : Plans I E a code (· = e.encoding g.places)) :
    Plans I E (e.usedAsNumber g.places a) (numberOperand e code) := by
  refine hc.bind fun source hsource => ?_
  subst hsource
  split
  · exact (convert_plans _ _ _).bind fun _ _ => convert_plans _ _ _
  · exact convert_plans _ _ _

/-- An operator asks for what its operands ask for, in the encoding that it works on. -/
theorem binary_plans (o : BinaryOp) (he : ∀ v ∈ e.ids.vars, Known g v)
    (he' : ∀ v ∈ e'.ids.vars, Known g v) (hc : Plans I E a code (· = e.encoding g.places))
    (hc' : Plans I E b code' (· = e'.encoding g.places)) :
    Plans I E (Expr.operands g.places o e e' a b) (binary o e e' code code')
      (· = o.encoding e.hint e'.hint) := by
  have both (target : Encoding) {result : Encoding} {last : Gen Unit} (hlast : Plans I E [] last) :
      Plans I E (e.usedAs g.places a target ++ e'.usedAs g.places b target)
        (do valueAs e code target; valueAs e' code' target; last; return result) (· = result) := by
    refine (valueAs_plans he hc target).bind fun _ _ => ?_
    refine (valueAs_plans he' hc' target).before fun _ _ => hlast.after fun _ _ => ?_
    exact Plans.pure rfl
  unfold Expr.operands BinaryOp.encoding
  cases o with
  | arithmetic x =>
    simp only [binary]
    by_cases hf : isFloating e.hint e'.hint = true
    · simp only [hf, if_true]
      exact both .double (op_plans _)
    · simp only [hf]
      refine (numberOperand_plans hc).bind fun _ _ => (numberOperand_plans hc').before fun _ _ => ?_
      exact (call_plans _).after fun _ _ => Plans.pure rfl
  | concat => exact both .string (call_plans _)
  | equal | less =>
    simp only [binary]
    cases strictEncoding? e.hint e'.hint with
    | some strict => exact both strict (op_plans _)
    | none => exact both .value (call_plans _)

end Operands

mutual

/-- The code of an expression leaves its value in its own encoding. -/
theorem natural_plans : (e : Expr) → (∀ v ∈ e.ids.vars, Known g v) →
    Plans I E (e.inner g.places) (natural e) (· = e.encoding g.places)
  | .literal l _, _ => by
    rw [natural, Expr.inner, Expr.encoding]
    exact literal_plans l
  | .var v _, he => by
    have hv : v < g.places.length := he v (by simp [Expr.ids, Ids.ofVars])
    have hp : g.places[v]? = some g.places[v] := List.getElem?_eq_getElem hv
    rw [natural, Expr.inner, Expr.encoding, hp]
    exact Plans.place hp ((putAll_plans _).after fun _ _ => Plans.pure rfl)
  | .binary o left right _, he => by
    rw [Expr.ids] at he
    obtain ⟨hl, hr⟩ := Pieces.known_of_append he
    rw [natural, Expr.inner, Expr.encoding]
    exact binary_plans o hl hr (natural_plans left hl) (natural_plans right hr)
  | .not e _, he => by
    rw [Expr.ids] at he
    rw [natural, Expr.inner, Expr.encoding]
    refine (valueAs_plans he (natural_plans e he) .bool).before fun _ _ => ?_
    exact (op_plans _).after fun _ _ => (op_plans _).after fun _ _ => Plans.pure rfl
  | .array items _, he => by
    rw [Expr.ids] at he
    rw [natural, Expr.inner, Expr.encoding]
    refine (call_plans _).after fun _ _ => (arrayItems_plans items he).before fun _ _ => ?_
    exact Plans.pure rfl
  | .new c _, _ => by
    rw [natural, Expr.inner, Expr.encoding]
    exact (op_plans _).after fun _ _ => Plans.pure rfl

/-- So does the code of the items of an array. -/
theorem arrayItems_plans : (items : List Expr) → (∀ v ∈ (Expr.listIds items).vars, Known g v) →
    Plans I E (Expr.innerItems g.places items) (arrayItems items)
  | [], _ => by
    rw [arrayItems, Expr.innerItems]
    exact Plans.result _
  | e :: rest, he => by
    rw [Expr.listIds] at he
    obtain ⟨he, hrest⟩ := Pieces.known_of_append he
    rw [arrayItems, Expr.innerItems]
    refine (op_plans _).after fun _ _ => ?_
    refine (valueAs_plans he (natural_plans e he) .value).bind fun _ _ => ?_
    exact (call_plans _).after fun _ _ => arrayItems_plans rest hrest

end

/-- The code of an expression asks for the requests of the expression. -/
theorem expr_plans {e : Expr} (he : ∀ v ∈ e.ids.vars, Known g v) (target : Encoding) :
    Plans I E (e.requests g.places target) (expr e target) :=
  valueAs_plans he (natural_plans e he) target

/-! ## Statements -/

theorem Known.place {v : VarId} (hv : Known g v) : ∃ p, g.places[v]? = some p :=
  ⟨_, List.getElem?_eq_getElem hv⟩

theorem storeEncodingOf_eq {v : VarId} {p : Place} (hp : g.places[v]? = some p) :
    Place.storeEncodingOf g.places v = p.storeEncoding := by
  simp [Place.storeEncodingOf, hp]

/-- An assignment asks for the conversion to the encoding of its place. -/
theorem assign_plans {v : VarId} (hv : Known g v) {e : Expr} (he : ∀ v ∈ e.ids.vars, Known g v) :
    Plans I E (e.requests g.places (Place.storeEncodingOf g.places v)) (assign v e) := by
  obtain ⟨p, hp⟩ := hv.place
  rw [storeEncodingOf_eq hp]
  refine Plans.place hp ((putAll_plans _).after fun _ _ => ?_)
  exact (expr_plans he _).before fun _ _ => putAll_plans _

/-- To append to a variable asks for the conversions of the text so far and of the value. -/
theorem append_plans {v : VarId} (hv : Known g v) {e : Expr} (he : ∀ v ∈ e.ids.vars, Known g v) :
    Plans I E ((Action.append v e).requests g.places) (append v e) := by
  obtain ⟨p, hp⟩ := hv.place
  simp only [Action.requests, hp]
  refine Plans.place hp ?_
  split
  · refine (putAll_plans _).after fun _ _ => ?_
    exact (expr_plans he _).before fun _ _ => call_plans _
  · refine (putAll_plans _).after fun _ _ => (putAll_plans _).after fun _ _ => ?_
    refine (convert_plans _ _ _).bind fun _ _ => (expr_plans he _).bind fun _ _ => ?_
    exact (call_plans _).after fun _ _ => (convert_plans _ _ _).before fun _ _ => putAll_plans _

/-- The code of an action asks for the requests of the action. -/
theorem action_plans {x : Action} (h : ∀ v ∈ x.ids.vars, Known g v) :
    Plans I E (x.requests g.places) (action x) := by
  cases x with
  | assign v e =>
    obtain ⟨hv, he⟩ := Pieces.known_of_append h
    exact assign_plans (hv v (List.mem_singleton_self v)) he
  | append v e =>
    obtain ⟨hv, he⟩ := Pieces.known_of_append h
    exact append_plans (hv v (List.mem_singleton_self v)) he
  | echo e => exact (expr_plans h _).before fun _ _ => call_plans _
  | eval e => exact (natural_plans e h).before fun _ _ => op_plans _
  | ret value =>
    cases value with
    | none => exact (call_plans _).after fun _ _ => returnTop_plans
    | some e => exact (expr_plans h _).before fun _ _ => returnTop_plans
  | throw e => exact (expr_plans h _).before fun _ _ => op_plans _

/-- So does the code of a statement. -/
theorem stmt_plans {x : Stmt} (h : ∀ v ∈ x.action.ids.vars, Known g v) :
    Plans I E (x.action.requests g.places) (stmt x) := by
  have span (place : Option Span) :
      Plans I E [] (modify fun s => { s with span := place <|> s.span }) :=
    Plans.modify fun _ => ⟨rfl, rfl, rfl, rfl, rfl⟩
  exact (span x.span).after fun _ _ => action_plans h

/-! ## The parts of edges -/

/-- Starting an enumeration asks for its subject as a value. -/
theorem acquire_plans {subject : Expr} (he : ∀ v ∈ subject.ids.vars, Known g v) :
    Plans I E (subject.requests g.places .value) (acquire subject) := by
  refine (expr_plans he _).before fun _ _ => (call_plans _).after fun _ _ => ?_
  exact (declare_plans _).after fun slot _ => (put_plans _).after fun _ _ => .result slot

theorem advance_plans (slot : LocalId) : Plans I E [] (advance slot) :=
  (put_plans _).after fun _ _ => call_plans _

/-- Storing an item of an enumeration asks for its conversion to the encoding of the place. -/
theorem storeCurrent_plans (slot : LocalId) (h : Helper) {v : VarId} (hv : Known g v) :
    Plans I E [⟨.value, .any, Place.storeEncodingOf g.places v⟩] (storeCurrent slot h v) := by
  obtain ⟨p, hp⟩ := hv.place
  rw [storeEncodingOf_eq hp]
  refine (put_plans _).after fun _ _ => (call_plans h).after fun _ _ => ?_
  exact Plans.place hp (storeTop_plans p _ _)

/-- The value of an item, and the key if there is a variable for it. -/
theorem storeItem_plans (slot : LocalId) {value : VarId} (hv : Known g value) {key : Option VarId}
    (hk : ∀ k ∈ key, Known g k) :
    Plans I E ((value :: key.toList).map fun v =>
      ⟨.value, .any, Place.storeEncodingOf g.places v⟩) (storeItem slot value key) := by
  refine (storeCurrent_plans slot _ hv).bind fun _ _ => ?_
  cases key with
  | none => exact Plans.result _
  | some k => exact storeCurrent_plans slot _ (hk k rfl)

/-- The value of a switch is used as an integer where it is known to be one. -/
theorem select_plans {value : Expr} (he : ∀ v ∈ value.ids.vars, Known g v) :
    Plans I E (value.requests g.places (if value.hint = .only .int64 then .int64 else .value))
      (select value) := by
  refine (expr_plans he _).before fun _ _ => (temp_plans _).after fun scratch _ => ?_
  exact (put_plans _).after fun _ _ => .result scratch

/-- A comparison asks for the literal as a value, unless both are integers. -/
theorem compare_plans (scratch : LocalId) (isInt : Bool) (c : Case) :
    Plans I E (c.requests g.places isInt) (compare scratch isInt c) := by
  have loose (l : Literal) : Plans I E ((Expr.ofLiteral l).requests g.places .value)
      (do expr (.ofLiteral l) .value; call .looseEquals) :=
    (expr_plans (List.forall_mem_nil _) _).before fun _ _ => call_plans _
  have general (l : Literal) (isInt : Bool) :
      Plans I E ((if isInt then [⟨.int64, .only .int64, .value⟩] else []) ++
          (Expr.ofLiteral l).requests g.places .value)
        (do
          if isInt then convert .int64 (.only .int64) .value
          expr (.ofLiteral l) .value
          call .looseEquals) := by
    cases isInt with
    | true => exact (convert_plans _ _ _).bind fun _ _ => loose l
    | false => exact loose l
  unfold compare Case.requests
  refine (put_plans _).after fun _ _ => ?_
  cases hvalue : c.value with
  | int n =>
    -- Two integers are compared without a helper; everything else is compared as a value.
    cases isInt with
    | true => exact (op_plans _).after fun _ _ => op_plans _
    | false => exact general _ false
  | _ => exact general _ isInt

/-- The index into a jump table asks for the value as an integer. -/
theorem tableIndex_plans {value : Expr} (he : ∀ v ∈ value.ids.vars, Known g v)
    (range : TableRange) :
    Plans I E (value.requests g.places .int64) (tableIndex value range) := by
  have rest : Plans I E [] (do
      let index ← temp .int64
      put (.stloc index)
      put (.ldloc index)
      op (.ldcI8 (.ofNat range.size))
      op .cltUn
      return index) := by
    refine (temp_plans _).after fun index _ => (put_plans _).after fun _ _ => ?_
    refine (put_plans _).after fun _ _ => (op_plans _).after fun _ _ => ?_
    exact (op_plans _).after fun _ _ => .result index
  unfold tableIndex
  refine (expr_plans he _).before fun _ _ => ?_
  dsimp only
  split
  · exact (op_plans _).after fun _ _ => (op_plans _).after fun _ _ => rest
  · exact rest

theorem loadIndex_plans (index : LocalId) : Plans I E [] (loadIndex index) :=
  (put_plans _).after fun _ _ => op_plans _

theorem jump_plans (targets : List BlockId) : Plans I E [] (jump targets) :=
  (count_plans _).after fun _ _ => put_plans _

end Gen
end Linearizer
