import Linearizer.Machine.Run

/-!
# Runs of the steps of conversions

What the steps that conversions are made of do to the top of the stack. They leave what lies below
it alone, so that conversions can be put together from parts.

* `Machine.Yields`: the steps replace the top of the stack by another slot;
* `Machine.Refuses`: the steps stop, since an object does not have the class that is asked for;
* one lemma for each kind of step that says what it yields.
-/

namespace Linearizer
namespace Machine

variable {context : Context} {a b : List Step} {s s' t : Slot} {c : ClassId} {v : Value}

/-- The steps replace the one slot by the other on top of any stack. -/
def Yields (context : Context) (steps : List Step) (s s' : Slot) : Prop :=
  ∀ rest, run context steps (s :: rest) = .ok () (s' :: rest)

/-- The steps stop at a check that the object is of the class, on any stack. -/
def Refuses (context : Context) (steps : List Step) (s : Slot) (c : ClassId) : Prop :=
  ∀ rest, ∃ stack, run context steps (s :: rest) = .error (.cast c) stack

theorem run_append (a b : List Step) (st : List Slot) :
    run context (a ++ b) st = (run context a >>= fun _ => run context b) st :=
  congrFun List.forM_append st

/-- Steps after steps that succeed start from the stack that they left. -/
theorem run_append_ok {st st' : List Slot} (h : run context a st = .ok () st') :
    run context (a ++ b) st = run context b st' := by
  rw [run_append]
  simp [bind, EStateM.bind, h]

theorem run_singleton (step : Step) (st : List Slot) :
    run context [step] st = runStep context step st := by
  unfold run
  simp

theorem run_cons_ok {step : Step} {st st' : List Slot} (h : runStep context step st = .ok () st') :
    run context (step :: b) st = run context b st' :=
  run_append_ok (a := [step]) ((run_singleton step st).trans h)

namespace Yields

theorem refl (s : Slot) : Yields context [] s s := fun _ => rfl

/-- What two stretches yield one after the other. -/
theorem append (h : Yields context a s s') (h' : Yields context b s' t) :
    Yields context (a ++ b) s t := fun rest => (run_append_ok (h rest)).trans (h' rest)

theorem of_step {step : Step}
    (h : ∀ rest, runStep context step (s :: rest) = .ok () (s' :: rest)) :
    Yields context [step] s s' := fun rest => (run_singleton step _).trans (h rest)

theorem cons {step : Step} (h : Yields context [step] s s') (h' : Yields context b s' t) :
    Yields context (step :: b) s t := h.append h'

end Yields

/-- Steps that are refused after others are refused as a whole. -/
theorem Refuses.after (h : Refuses context b s' c) (hy : Yields context a s s') :
    Refuses context (a ++ b) s c := fun rest =>
  have ⟨stack, hs⟩ := h rest
  ⟨stack, (run_append_ok (hy rest)).trans hs⟩

/-! ## Opcodes -/

theorem pop_bind {α : Type} (f : Slot → Run α) (rest : List Slot) :
    (pop >>= f) (s :: rest) = f s rest := rfl

/-- A step on the value on top of the stack. -/
theorem unary_run {step : Step} {f : Slot → Option Slot} (h : f s = some s') (rest : List Slot) :
    unary step f (s :: rest) = .ok () (s' :: rest) := by
  rw [unary, pop_bind, h]
  rfl

theorem convI4_yields (h : toI32 s = some s') : Yields context [.op .convI4] s s' :=
  .of_step (unary_run h)

theorem convI8_yields (h : toI64 s = some s') : Yields context [.op .convI8] s s' :=
  .of_step (unary_run h)

theorem convR8_yields (h : toF64 s = some s') : Yields context [.op .convR8] s s' :=
  .of_step (unary_run h)

/-- An instruction on two values, of which the right one is on top. -/
theorem binary_run {o : Opcode} {f : Slot → Slot → Option Slot} {left right : Slot}
    (h : f left right = some s) (rest : List Slot) :
    binary o f (right :: left :: rest) = .ok () (s :: rest) := by
  rw [binary, pop_bind, pop_bind, h]
  rfl

theorem ceq_run {left right : Slot} (h : equal left right = some s) (rest : List Slot) :
    runStep context (.op .ceq) (right :: left :: rest) = .ok () (s :: rest) := binary_run h rest

theorem equal_zero (e : Bool) : equal (.ofBool e) (.i32 0) = some (.ofBool !e) := by
  cases e <;> rfl

/-- A scalar is compared with zero, and the result of that with false. -/
theorem nonzero_yields {zero : Opcode} {z : Slot} {e : Bool}
    (hz : ∀ st, runStep context (.op zero) st = .ok () (z :: st))
    (he : equal s z = some (.ofBool e)) :
    Yields context (Conversion.nonzero zero) s (.ofBool !e) := by
  intro rest
  unfold Conversion.nonzero
  rw [run_cons_ok (hz _), run_cons_ok (ceq_run he rest), run_cons_ok (by rfl), run_singleton]
  exact ceq_run (equal_zero e) rest

/-- A cast lets an object pass whose class is the wanted one. -/
theorem cast_yields {cls known : Option ClassId} (h : ∀ c, cls = some c → known = some c) :
    Yields context (Conversion.cast cls) (.object known) (.object known) := by
  cases cls with
  | none => exact .refl _
  | some c =>
    refine .of_step fun rest => ?_
    change (if known = some c then push (.object known) else throw (.cast c)) rest = _
    rw [if_pos (h c rfl)]
    rfl

/-- A cast refuses an object of another class, or of one that is not known. -/
theorem cast_refuses {known : Option ClassId} (h : known ≠ some c) :
    Refuses context (Conversion.cast (some c)) (.object known) c := by
  refine fun rest => ⟨rest, (run_singleton _ _).trans ?_⟩
  change (if known = some c then push (.object known) else throw (.cast c)) rest = _
  rw [if_neg h]
  rfl

/-! ## Helpers -/

/-- A value in an encoding is taken from the stack. -/
theorem popValue_run {e : Encoding} (h : s.toValue? e = some v) (rest : List Slot) :
    popValue e (s :: rest) = .ok v rest := by
  rw [popValue, pop_bind, h]
  rfl

theorem popValue_bind {e : Encoding} {α : Type} (h : s.toValue? e = some v) (f : Value → Run α)
    (rest : List Slot) : (popValue e >>= f) (s :: rest) = f v rest := by
  simp only [bind, EStateM.bind, popValue_run h]

/-- A helper that needs the context takes it from the stack. -/
theorem popContext_of_needs {h : Helper} (hc : h.needsContext = true) (rest : List Slot) :
    popContext context h (.context context :: rest) = .ok context rest := by
  unfold popContext
  rw [if_pos hc]
  rfl

/-- One that does not need it leaves the stack alone. -/
theorem popContext_of_not_needs {h : Helper} (hc : ¬h.needsContext = true) (st : List Slot) :
    popContext context h st = .ok context st := by
  unfold popContext
  rw [if_neg hc]
  rfl

/-- A helper is called with the context if it needs one, and goes on without it. -/
theorem run_call {h : Helper} {f : Context → Run Unit}
    (hf : invoke context h = popContext context h >>= f) (st : List Slot) :
    run context (Conversion.call h) st = f context st := by
  unfold Conversion.call
  by_cases hc : h.needsContext = true
  · rw [if_pos hc, run_cons_ok (by rfl), run_singleton, runStep, hf]
    simp only [bind, EStateM.bind, popContext_of_needs hc]
  · rw [if_neg hc, run_singleton, runStep, hf]
    simp only [bind, EStateM.bind, popContext_of_not_needs hc]

/-- What the body of a helper yields, its call yields. -/
theorem call_yields {h : Helper} {f : Context → Run Unit}
    (hf : invoke context h = popContext context h >>= f)
    (hy : ∀ rest, f context (s :: rest) = .ok () (s' :: rest)) :
    Yields context (Conversion.call h) s s' := fun rest => (run_call hf _).trans (hy rest)

/-- A coercion yields what the value is coerced to. -/
theorem coerce_yields {k : Coercion} {e : Encoding} (h : s.toValue? e.erased = some v) :
    Yields context (Conversion.call (.coerce k e)) s (coerced context v k) :=
  call_yields rfl fun rest => (popValue_bind h _ rest).trans rfl

/-- Boxing a number or a text yields it as a value. -/
theorem box_yields {e : Encoding} (h : s.toValue? e = some v) :
    Yields context (Conversion.call (.box e)) s (.value v) :=
  .of_step fun rest => popValue_bind h _ rest

theorem boxObject_yields (cls : Option ClassId) :
    Yields context (Conversion.call .boxObject) (.object cls) (.value (.object cls)) :=
  .of_step fun _ => rfl

theorem widen_yields {e : Encoding} (h : widened s = some s') :
    Yields context (Conversion.call (.widen e)) s s' := .of_step (unary_run h)

/-- A value whose kind is known yields what it holds. -/
theorem payload_yields {source e : Encoding} (h : s.toValue? .value = some v)
    (hp : Slot.of? v e = some s') : Yields context (Conversion.call (.payload source e)) s s' := by
  refine .of_step fun rest => (popValue_bind h _ rest).trans ?_
  simp only [hp]
  rfl

theorem newBuffer_yields (text : String) :
    Yields context (Conversion.call .newBuffer) (.str text) (.buffer text) :=
  .of_step fun _ => rfl

theorem newAlias_yields (v : Value) :
    Yields context (Conversion.call .newAlias) (.value v) (.alias v) := .of_step fun _ => rfl

theorem aliasValue_yields (v : Value) :
    Yields context (Conversion.call .aliasValue) (.alias v) (.value v) := .of_step fun _ => rfl

end Machine
end Linearizer
