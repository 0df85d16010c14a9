import Linearizer.Proofs.Flat.Requests
import Linearizer.Proofs.Generator.Effect
import Linearizer.Proofs.Machine.AliasTargets

/-!
# The value that the code of an expression computes

The code of an expression without variables runs on the reference machine and leaves the value of
the expression, read as its consumer asks for it. Each operand is converted under the hint that was
derived for it, so this rests on all hints being right.

- **Values** (`Expr.value?`): what an expression means. Hints play no part in it.
- **Scalar expressions** (`Expr.Scalar`): those that are computed without the operators of the
  run-time library.
- **Steps** (`Gen.Writes`): what a computation writes, as steps of the machine.
- **Code of expressions** (`Expr.Computes`): the invariant of the induction on scalar expressions,
  in which the hint is right about the value. `Gen.expr_evaluates` is the result.
-/

namespace Linearizer

open Machine Conversion

/-! ## Values -/

/-- The value of a constant. -/
def Literal.value : Literal → Value
  | .null => .null
  | .bool b => .bool b
  | .int n => .long n
  | .double x => .double x
  | .string s => .string s

/-- Arithmetic on doubles. -/
def Arithmetic.onDoubles : Arithmetic → Float → Float → Float
  | .add => (· + ·)
  | .sub => (· - ·)
  | .mul => (· * ·)

/-- Compares two values as numbers: integers with each other as they are, and all else as
doubles. -/
def Value.compareBy (longs : Int64 → Int64 → Bool) (doubles : Float → Float → Bool) :
    Value → Value → Bool
  | .long a, .long b => longs a b
  | v, w => doubles v.toDouble w.toDouble

/-- The result of an operation. Arithmetic on two integers, which may overflow, and text are left to
the run-time library. -/
def BinaryOp.result? (o : BinaryOp) (v w : Value) : Option Value :=
  match o, v, w with
  | .arithmetic _, .long _, .long _ => none
  | .arithmetic a, v, w => some (.double (a.onDoubles v.toDouble w.toDouble))
  | .concat, _, _ => none
  | .equal, v, w => some (.bool (v.compareBy (· == ·) (· == ·) w))
  | .less, v, w => some (.bool (v.compareBy (· < ·) (· < ·) w))

namespace Expr

/-- The value of an expression, if it has one that does not depend on variables, arrays and
objects. -/
def value? : Expr → Option Value
  | .literal l _ => some l.value
  | .binary o left right _ => do o.result? (← left.value?) (← right.value?)
  | .not e _ => do return .bool !(← e.value?).toBool
  | .var .. | .array .. | .new .. => none

/-! ## Scalar expressions -/

/-- Constants, negations, arithmetic on doubles and comparisons of two integers or two doubles,
with the hints that follow from their parts. -/
inductive Scalar : Expr → Prop
  | literal (l : Literal) : Scalar (.ofLiteral l)
  | not {e : Expr} (h : Scalar e) : Scalar (.ofNot e)
  | arithmetic (a : Arithmetic) {left right : Expr} (hl : Scalar left) (hr : Scalar right)
      (h : Gen.isFloating left.hint right.hint = true) :
      Scalar (.ofBinary (.arithmetic a) left right)
  | comparison {o : BinaryOp} (ho : o = .equal ∨ o = .less) {left right : Expr}
      (hl : Scalar left) (hr : Scalar right)
      (h : (left.hint = .only .int64 ∧ right.hint = .only .int64) ∨
        (left.hint = .only .double ∧ right.hint = .only .double)) :
      Scalar (.ofBinary o left right)

end Expr

/-! ## Steps -/

/-- The step of the machine that an element is. -/
def Insn.step? : Insn → Option Step
  | .op o => some (.op o)
  | .call callee => some (.call callee.helper)
  | _ => none

/-- What is written on the way from `s` to `s'` are opcodes and calls of helpers, and they are the
steps. -/
def State.Gains (s s' : State) (steps : List Step) : Prop :=
  ∃ code, s'.code = s.code ++ code ∧ code.mapM Insn.step? = some steps

namespace State.Gains

variable {s s₁ s' : State} {a b : List Step}

theorem of_code (h : s'.code = s.code) : s.Gains s' [] := ⟨[], by rw [h, List.append_nil], rfl⟩

/-- Steps after steps. -/
theorem trans (h : s.Gains s₁ a) (h' : s₁.Gains s' b) : s.Gains s' (a ++ b) := by
  obtain ⟨code, hcode, ha⟩ := h
  obtain ⟨code', hcode', hb⟩ := h'
  refine ⟨code ++ code', by rw [hcode', hcode, List.append_assoc], ?_⟩
  rw [List.mapM_append, ha, hb]
  rfl

theorem of_insn {i : Insn} {step : Step} (h : s'.code = s.code ++ [i])
    (hi : i.step? = some step) : s.Gains s' [step] := by
  refine ⟨[i], h, ?_⟩
  rw [List.mapM_cons, hi]
  rfl

end State.Gains

namespace Gen

variable {α β : Type} {a b : List Step} {x : α} {y : β}

/-- The computation returns the result from every state, and what it writes are the steps. -/
def Writes (m : Gen α) (steps : List Step) (x : α) : Prop :=
  ∀ s, ∃ s', m s = .ok x s' ∧ s.Gains s' steps

theorem Writes.pure (x : α) : Writes (pure x) [] x := fun s => ⟨s, rfl, .of_code rfl⟩

/-- One thing after the other writes the steps of both. -/
theorem Writes.bind {m : Gen α} {f : α → Gen β} (hm : Writes m a x) (hf : Writes (f x) b y) :
    Writes (m >>= f) (a ++ b) y := by
  intro s
  obtain ⟨s₁, hr, hs₁⟩ := hm s
  obtain ⟨s₂, hr', hs₂⟩ := hf s₁
  exact ⟨s₂, (run_bind hr f).trans hr', hs₁.trans hs₂⟩

/-- A last part that writes nothing. -/
theorem Writes.before {m : Gen α} {f : α → Gen β} (hm : Writes m a x) (hf : Writes (f x) [] y) :
    Writes (m >>= f) a y := by
  simpa using hm.bind hf

theorem op_writes (o : Opcode) : Writes (op o) [.op o] () :=
  fun _ => ⟨_, rfl, .of_insn (Tape.toList_put _ _) rfl⟩

theorem callDirect_writes (h : Helper) : Writes (callDirect h) [.call h] () := by
  refine fun _ => ⟨_, rfl, .of_insn (Tape.toList_put _ _) ?_⟩
  exact congrArg (fun h => some (Step.call h)) (Registry.helper_resolve _ h)

theorem count_writes (f : Counters → Counters) : Writes (count f) [] () :=
  fun _ => ⟨_, rfl, .of_code rfl⟩

/-- A call is written as the steps that a machine takes for it. -/
theorem call_writes (h : Helper) : Writes (call h) (Conversion.call h) () := by
  unfold call Conversion.call
  split
  · exact (op_writes .ldctx).bind (callDirect_writes h)
  · exact callDirect_writes h

theorem step_writes (step : Step) : Writes (Gen.step step) [step] () := by
  cases step with
  | op o => exact op_writes o
  | call h => exact callDirect_writes h

theorem steps_writes (steps : List Step) : Writes (steps.forM Gen.step) steps () := by
  induction steps with
  | nil => exact .pure ()
  | cons step steps ih => exact (step_writes step).bind ih

theorem conversion_writes (c : Conversion) : Writes (conversion c) c.steps () := by
  unfold conversion
  split
  · rename_i hnil
    rw [List.isEmpty_iff.mp hnil]
    exact .pure ()
  · exact (count_writes _).bind (steps_writes c.steps)

/-- A conversion with a plan writes the steps of the plan. -/
theorem convert_writes {source target : Encoding} {hint : Hint} {c : Conversion}
    (h : plan? source hint target = some c) : Writes (convert source hint target) c.steps () := by
  unfold convert
  rw [h]
  exact conversion_writes c

end Gen

/-! ## Hints -/

theorem Hint.singular?_only (k : Kind) : (only k).singular? = some k := by cases k <;> rfl

theorem Hint.allows_only (k : Kind) : (only k).allows k = true := by cases k <;> rfl

/-- A hint that is right and has a single kind tells the kind of the value. -/
theorem Hint.kind_eq {hint : Hint} {k : Kind} {v : Value} (hk : hint.allows v.kind = true)
    (h : hint = only k) : v.kind = k := eq_of_singular? (h ▸ singular?_only k) hk

theorem Value.eq_long {v : Value} (h : v.kind = .int64) : ∃ n, v = .long n := by
  cases v <;> cases h
  exact ⟨_, rfl⟩

theorem Value.eq_double {v : Value} (h : v.kind = .double) : ∃ x, v = .double x := by
  cases v <;> cases h
  exact ⟨_, rfl⟩

/-- Arithmetic is done on doubles where one operand is a double and the other a number of known
kind. -/
theorem Gen.isFloating_iff {left right : Hint} : isFloating left right = true ↔
    (left = .only .double ∧ (right = .only .int64 ∨ right = .only .double)) ∨
      (left = .only .int64 ∧ right = .only .double) := by
  simp only [isFloating, Bool.and_eq_true, Bool.or_eq_true, decide_eq_true_eq]
  grind

theorem BinaryOp.resultHint_of_isFloating (a : Arithmetic) {left right : Hint}
    (h : Gen.isFloating left right = true) :
    (BinaryOp.arithmetic a).resultHint left right = .only .double := by
  rcases Gen.isFloating_iff.mp h with ⟨rfl, rfl | rfl⟩ | ⟨rfl, rfl⟩ <;> rfl

theorem BinaryOp.result?_arithmetic (a : Arithmetic) {v w : Value}
    (h : v.kind = .double ∨ w.kind = .double) :
    (BinaryOp.arithmetic a).result? v w =
      some (.double (a.onDoubles v.toDouble w.toDouble)) := by
  rcases h with h | h
  · obtain ⟨x, rfl⟩ := Value.eq_double h
    rfl
  · obtain ⟨y, rfl⟩ := Value.eq_double h
    cases v <;> rfl

/-! ## Code of expressions -/

namespace Machine

variable {a b : List Step} {v w u : Value} {e e' : Encoding}

/-- The steps put the value in the encoding on top of any stack. -/
def Pushes (steps : List Step) (v : Value) (e : Encoding) : Prop :=
  ∀ context stack, run context steps stack = .ok () (v.slotIn context e :: stack)

/-- The conversion of a value that has been pushed leaves it in the target encoding. -/
theorem Pushes.converted {source target : Encoding} {hint : Hint} {c : Conversion}
    (h : Pushes a v source) (hs : source.Holds v) (hk : hint.allows v.kind = true)
    (hplan : plan? source hint target = some c) (ht : ∀ cls, target ≠ .object (some cls)) :
    Pushes (a ++ c.steps) v target := by
  intro context stack
  have hc : Converts context v source target c.steps := plan?_converts hs hk hplan
  rw [run_append_ok (h context stack)]
  exact hc.yields (fun cls hcls => absurd hcls (ht cls)) stack

/-- An instruction on two operands. -/
theorem Pushes.operated {o : Opcode} (hl : Pushes a v e) (hr : Pushes b w e)
    (ho : ∀ context stack, exec context o (w.slotIn context e :: v.slotIn context e :: stack) =
      .ok () (u.slotIn context e' :: stack)) : Pushes (a ++ (b ++ [.op o])) u e' := by
  intro context stack
  rw [run_append_ok (hl context stack), run_append_ok (hr context _), run_singleton]
  exact ho context stack

theorem Pushes.negated (h : Pushes a v .bool) :
    Pushes (a ++ [.op (.ldcI4 0), .op .ceq]) (.bool !v.toBool) .bool := by
  intro context stack
  rw [run_append_ok (h context stack), run_cons_ok (by rfl), run_singleton]
  exact ceq_run (equal_zero v.toBool) stack

end Machine

namespace Expr

open Gen

variable {e left right : Expr} {v w : Value} {enc target : Encoding} {places : List Place}

/-- The expression has the value, its hint is right about it, and its code leaves it in the
encoding. -/
structure Computes (e : Expr) (v : Value) (enc : Encoding) (steps : List Step) : Prop where
  value : e.value? = some v
  allowed : e.hint.allows v.kind = true
  held : enc.Holds v
  writes : Writes (natural e) steps enc
  pushes : Pushes steps v enc

theorem Scalar.expr_eq (h : e.Scalar) (target : Encoding) :
    expr e target = (do let source ← natural e; convert source e.hint target) := by
  cases h <;> rfl

theorem Scalar.encoding_mem (h : e.Scalar) (places : List Place) :
    e.encoding places ∈ [.value, .bool, .int64, .double, .string] := by
  cases h with
  | literal l => cases l <;> simp [ofLiteral, encoding, Literal.encoding]
  | not => simp [ofNot, encoding]
  | arithmetic a hl hr h => simp [ofBinary, encoding, BinaryOp.encoding, h]
  | comparison ho => rcases ho with rfl | rfl <;> simp [ofBinary, encoding, BinaryOp.encoding]

/-- An operand that an instruction takes as a truth value or a number can always be converted to
it. -/
theorem Scalar.plan?_isSome (h : e.Scalar) (places : List Place)
    (ht : target ∈ [.bool, .int64, .double]) :
    (plan? (e.encoding places) e.hint target).isSome = true := by
  have hs := h.encoding_mem places
  generalize e.encoding places = source at hs
  simp only [List.mem_cons, List.not_mem_nil, or_false] at hs ht
  have hplan : plan? source e.hint target = (lower? source e.hint target).map (wrap [] · []) := by
    rcases hs with rfl | rfl | rfl | rfl | rfl <;> rcases ht with rfl | rfl | rfl <;> simp [plan?]
  have hcell : (cell source target).isSome = true := by
    rcases hs with rfl | rfl | rfl | rfl | rfl <;> rcases ht with rfl | rfl | rfl <;> rfl
  rw [hplan, Option.isSome_map, lower?_isSome hcell]

section Computes

variable {a b : List Step}

/-- An expression in another encoding: its code, and what the code leaves. -/
theorem Computes.converted {c : Conversion} (h : e.Computes v enc a) (hs : e.Scalar)
    (hplan : plan? enc e.hint target = some c) (ht : ∀ cls, target ≠ .object (some cls)) :
    Writes (expr e target) (a ++ c.steps) () ∧ Pushes (a ++ c.steps) v target := by
  rw [hs.expr_eq]
  exact ⟨h.writes.bind (convert_writes hplan), h.pushes.converted h.held h.allowed hplan ht⟩

/-- An operand as a truth value or a number. -/
theorem Computes.operand (h : e.Computes v (e.encoding places) a) (hs : e.Scalar)
    (target : Encoding) (ht : target ∈ [.bool, .int64, .double]) :
    ∃ steps, Writes (expr e target) steps () ∧ Pushes steps v target := by
  obtain ⟨c, hplan⟩ := Option.isSome_iff_exists.mp (hs.plan?_isSome places ht)
  exact ⟨_, h.converted hs hplan (by rintro cls rfl; simp at ht)⟩

/-- A constant computes itself, in its own encoding. -/
theorem literal_computes (l : Literal) :
    ∃ steps, (ofLiteral l).Computes l.value l.encoding steps := by
  have constant (o : Opcode) (hl : Gen.literal l = (do op o; return l.encoding))
      (hh : l.encoding.Holds l.value) (hk : l.hint.allows l.value.kind = true)
      (ho : ∀ context stack, exec context o stack =
        .ok () (l.value.slotIn context l.encoding :: stack)) :
      ∃ steps, (ofLiteral l).Computes l.value l.encoding steps := by
    refine ⟨[.op o], rfl, hk, hh, ?_, fun context stack => (run_singleton _ _).trans (ho _ _)⟩
    rw [ofLiteral, natural, hl]
    exact (op_writes o).before (.pure _)
  cases l with
  | null =>
    refine ⟨Conversion.call .nullValue, rfl, rfl, .value .null, ?_, fun _ _ => run_singleton _ _⟩
    rw [ofLiteral, natural]
    exact (call_writes .nullValue).before (.pure _)
  | bool x => exact constant (.ldcI4 (if x then 1 else 0)) rfl (.bool x) rfl fun _ _ => rfl
  | int n => exact constant (.ldcI8 n) rfl (.int64 n) rfl fun _ _ => rfl
  | double x => exact constant (.ldcR8 x) rfl (.double x) rfl fun _ _ => rfl
  | string s => exact constant (.ldstr s) rfl (.string s) rfl fun _ _ => rfl

/-- A negation computes the opposite of its operand. -/
theorem not_computes (h : e.Computes v (e.encoding places) a) (hs : e.Scalar) :
    ∃ steps, (ofNot e).Computes (.bool !v.toBool) .bool steps := by
  obtain ⟨operand, hwrites, hpushes⟩ := h.operand hs .bool (by simp)
  refine ⟨_, ?_, rfl, .bool _, ?_, hpushes.negated⟩
  · rw [ofNot, value?, h.value]
    rfl
  · rw [ofNot, natural]
    exact hwrites.bind ((op_writes _).bind ((op_writes _).before (.pure _)))

/-- Two operands and an instruction. -/
theorem operation_writes {o : Opcode} (hl : Writes (expr left target) a ())
    (hr : Writes (expr right target) b ()) (result : Encoding) :
    Writes (do expr left target; expr right target; op o; return result) (a ++ (b ++ [.op o]))
      result := hl.bind (hr.bind ((op_writes o).before (.pure result)))

theorem value?_ofBinary {o : BinaryOp} (hl : left.value? = some v) (hr : right.value? = some w) :
    (ofBinary o left right).value? = o.result? v w := by
  rw [ofBinary, value?, hl, hr]
  rfl

/-- Arithmetic on doubles converts both operands first. -/
theorem arithmetic_computes (o : Arithmetic) (hl : left.Computes v (left.encoding places) a)
    (hr : right.Computes w (right.encoding places) b) (hsl : left.Scalar) (hsr : right.Scalar)
    (h : isFloating left.hint right.hint = true) :
    ∃ steps, (ofBinary (.arithmetic o) left right).Computes
      (.double (o.onDoubles v.toDouble w.toDouble)) .double steps := by
  obtain ⟨al, hwl, hpl⟩ := hl.operand hsl .double (by simp)
  obtain ⟨ar, hwr, hpr⟩ := hr.operand hsr .double (by simp)
  -- One of the two is a double, since the hints are right.
  have hkind : v.kind = .double ∨ w.kind = .double := by
    rcases isFloating_iff.mp h with ⟨hd, -⟩ | ⟨-, hd⟩
    · exact .inl (Hint.kind_eq hl.allowed hd)
    · exact .inr (Hint.kind_eq hr.allowed hd)
  have hexec (context : Context) (stack : List Slot) :
      exec context (arithmeticOpcode o)
        (w.slotIn context .double :: v.slotIn context .double :: stack) =
      .ok () (.f64 (o.onDoubles v.toDouble w.toDouble) :: stack) := by
    cases o <;> exact binary_run rfl stack
  refine ⟨_, ?_, ?_, .double _, ?_, hpl.operated hpr hexec⟩
  · rw [value?_ofBinary hl.value hr.value, BinaryOp.result?_arithmetic o hkind]
  · rw [ofBinary, hint, BinaryOp.resultHint_of_isFloating o h]
    exact Hint.allows_only _
  · rw [ofBinary, natural]
    simp only [Gen.binary, h, if_true]
    exact operation_writes hwl hwr .double

/-- Two operands whose hints are right and say that both are integers, or that both are doubles, are
compared by one instruction. -/
theorem exists_comparison {o : BinaryOp} {l r : Hint} (ho : o = .equal ∨ o = .less)
    (hv : l.allows v.kind = true) (hw : r.allows w.kind = true)
    (h : (l = .only .int64 ∧ r = .only .int64) ∨ (l = .only .double ∧ r = .only .double)) :
    ∃ strict x, strictEncoding? l r = some strict ∧ strict ∈ [.bool, .int64, .double] ∧
      o.result? v w = some (.bool x) ∧
      ∀ context stack, exec context (if o = .equal then .ceq else .clt)
        (w.slotIn context strict :: v.slotIn context strict :: stack) =
          .ok () (.ofBool x :: stack) := by
  rcases h with ⟨rfl, rfl⟩ | ⟨rfl, rfl⟩
  · obtain ⟨n, rfl⟩ := Value.eq_long (Hint.kind_eq hv rfl)
    obtain ⟨m, rfl⟩ := Value.eq_long (Hint.kind_eq hw rfl)
    rcases ho with rfl | rfl
    all_goals exact ⟨.int64, _, rfl, by simp, rfl, fun _ stack => binary_run rfl stack⟩
  · obtain ⟨x, rfl⟩ := Value.eq_double (Hint.kind_eq hv rfl)
    obtain ⟨y, rfl⟩ := Value.eq_double (Hint.kind_eq hw rfl)
    rcases ho with rfl | rfl
    all_goals exact ⟨.double, _, rfl, by simp, rfl, fun _ stack => binary_run rfl stack⟩

/-- A comparison of numbers of one kind is an instruction. -/
theorem comparison_computes {o : BinaryOp} (ho : o = .equal ∨ o = .less)
    (hl : left.Computes v (left.encoding places) a)
    (hr : right.Computes w (right.encoding places) b) (hsl : left.Scalar) (hsr : right.Scalar)
    (h : (left.hint = .only .int64 ∧ right.hint = .only .int64) ∨
      (left.hint = .only .double ∧ right.hint = .only .double)) :
    ∃ x steps, (ofBinary o left right).Computes (.bool x) .bool steps := by
  obtain ⟨strict, x, hstrict, hmem, hx, hexec⟩ := exists_comparison ho hl.allowed hr.allowed h
  obtain ⟨al, hwl, hpl⟩ := hl.operand hsl strict hmem
  obtain ⟨ar, hwr, hpr⟩ := hr.operand hsr strict hmem
  have hvalue : (ofBinary o left right).value? = some (.bool x) :=
    (value?_ofBinary hl.value hr.value).trans hx
  refine ⟨x, _, hvalue, ?_, .bool x, ?_, hpl.operated hpr hexec⟩
  · rcases ho with rfl | rfl <;> rfl
  · rw [ofBinary, natural]
    rcases ho with rfl | rfl
    all_goals
      simp only [Gen.binary, hstrict]
      exact operation_writes hwl hwr .bool

/-- Every scalar expression has a value, and its code computes it. -/
theorem Scalar.computes (h : e.Scalar) (places : List Place) :
    ∃ v steps, e.Computes v (e.encoding places) steps := by
  induction h with
  | literal l => exact ⟨_, literal_computes l⟩
  | not hs ih =>
    obtain ⟨v, steps, hv⟩ := ih
    exact ⟨_, not_computes hv hs⟩
  | arithmetic o hsl hsr h ihl ihr =>
    obtain ⟨v, _, hv⟩ := ihl
    obtain ⟨w, _, hw⟩ := ihr
    have henc : (ofBinary (.arithmetic o) _ _).encoding places = .double := if_pos h
    rw [henc]
    exact ⟨_, arithmetic_computes o hv hw hsl hsr h⟩
  | @comparison o ho left right hsl hsr h ihl ihr =>
    obtain ⟨v, _, hv⟩ := ihl
    obtain ⟨w, _, hw⟩ := ihr
    have henc : (ofBinary o left right).encoding places = .bool := by
      rcases ho with rfl | rfl <;> rfl
    rw [henc]
    obtain ⟨x, hx⟩ := comparison_computes ho hv hw hsl hsr h
    exact ⟨_, hx⟩

end Computes

end Expr

namespace Gen

variable {e : Expr} {target : Encoding}

/-- A scalar expression can be written in an encoding just when there is a conversion to it from the
encoding that the expression has by itself. -/
theorem expr_ok_iff (h : e.Scalar) (s : State) :
    (∃ s', expr e target s = .ok () s') ↔
      (plan? (e.encoding s.places) e.hint target).isSome = true := by
  obtain ⟨v, steps, hv⟩ := h.computes s.places
  obtain ⟨s₁, hnatural, -⟩ := hv.writes s
  rw [h.expr_eq, run_bind hnatural]
  cases hplan : plan? (e.encoding s.places) e.hint target with
  | none => simp [convert, hplan, throw_ok]
  | some c =>
    obtain ⟨s', hconvert, -⟩ := convert_writes hplan s₁
    simp [hconvert]

/-- The code of a scalar expression in an encoding, whenever there is such code, puts one slot on
any stack and changes nothing below: the one that holds the value of the expression, as the weak
typing reads it in that encoding. -/
theorem expr_evaluates (h : e.Scalar) (ht : ∀ cls, target ≠ .object (some cls)) (s : State) :
    ∃ v, e.value? = some v ∧
      ((∃ s', expr e target s = .ok () s') ↔
        (plan? (e.encoding s.places) e.hint target).isSome = true) ∧
      ∀ s', expr e target s = .ok () s' → ∃ steps, s.Gains s' steps ∧
        ∀ (context : Context) (stack : List Slot),
          run context steps stack = .ok () (v.slotIn context target :: stack) ∧
            (v.slotIn context target).toValue? target = some (v.readAs context target) := by
  obtain ⟨v, steps, hv⟩ := h.computes s.places
  refine ⟨v, hv.value, expr_ok_iff h s, fun s' hr => ?_⟩
  obtain ⟨c, hplan⟩ := Option.isSome_iff_exists.mp ((expr_ok_iff h s).mp ⟨s', hr⟩)
  obtain ⟨hwrites, hpushes⟩ := hv.converted h hplan ht
  obtain ⟨s'', hr', hgains⟩ := hwrites s
  obtain rfl : s'' = s' := by
    rw [hr'] at hr
    cases hr
    rfl
  exact ⟨_, hgains, fun context stack =>
    ⟨hpushes context stack, v.toValue?_slotIn context target⟩⟩

end Gen

/-- Whether `1 + 2.5 * 3` is not less than `8`. -/
def Expr.threshold : Expr :=
  .ofNot (.ofBinary .less
    (.ofBinary (.arithmetic .add) (.ofLiteral (.int 1))
      (.ofBinary (.arithmetic .mul) (.ofLiteral (.double 2.5)) (.ofLiteral (.int 3))))
    (.ofLiteral (.double 8.0)))

/-- The result of a comparison with arithmetic in it, negated and written as text. -/
theorem Gen.threshold_evaluates :
    Expr.threshold.Scalar ∧ Expr.threshold.value? = some (.bool true) ∧
      ∃ s' steps, expr Expr.threshold .string { registry := {} } = .ok () s' ∧
        State.Gains { registry := {} } s' steps ∧
        ∀ (context : Context) (stack : List Slot),
          run context steps stack = .ok () (.str "1" :: stack) := by
  have hsum : Expr.Scalar (.ofBinary (.arithmetic .add) (.ofLiteral (.int 1))
      (.ofBinary (.arithmetic .mul) (.ofLiteral (.double 2.5)) (.ofLiteral (.int 3)))) :=
    .arithmetic .add (.literal _) (.arithmetic .mul (.literal _) (.literal _) rfl) rfl
  have hs : Expr.threshold.Scalar :=
    .not (.comparison (.inr rfl) hsum (.literal _) (.inr ⟨rfl, rfl⟩))
  have hvalue : Expr.threshold.value? = some (.bool true) := rfl
  have ht (cls : ClassId) : Encoding.string ≠ .object (some cls) := nofun
  obtain ⟨v, hv, hok, hrun⟩ := expr_evaluates hs ht { registry := {} }
  obtain rfl : v = .bool true := Option.some.inj (hv.symm.trans hvalue)
  obtain ⟨s', hr⟩ := hok.mpr rfl
  obtain ⟨steps, hgains, hsteps⟩ := hrun s' hr
  exact ⟨hs, hvalue, s', steps, hr, hgains, fun context stack => (hsteps context stack).1⟩

end Linearizer
