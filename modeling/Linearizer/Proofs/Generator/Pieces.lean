import Linearizer.Proofs.Closed.Identifiers
import Linearizer.Proofs.Generator.Plain

/-!
# What the code of values is made of

The functions that write expressions, conversions, stores and the straight-line parts of edges put
together a few computations. A property of computations that holds of these and is kept by
sequencing holds of all such code, so that no property has to follow these functions by itself.

* `Gen.Pieces known held P`: the property `P` holds of the pieces of expressions and of the
  statements that change a variable. `known` are the variables that may be looked up, and `held`
  is what is known of a place that was found. A conversion is counted once, together with the use
  of an address where it has one.
* `Gen.Parts known P`: beside that, `P` holds of all plain instructions and of what stores and edges
  do: they declare local variables and give enumerators to helpers.
* `Gen.Acts known P`: `P` holds of whole statements as well.
* The lemmas `Gen.Pieces.expr`, `Gen.Parts.storeTop`, `Gen.Acts.stmt` and so on are the results for
  the functions.
-/

namespace Linearizer
namespace Gen

/-- Counts a conversion. -/
def countConversion (c : Conversion) : Gen Unit :=
  count fun k => { k with
    conversions := k.conversions + 1
    specialized := k.specialized + c.specialized.toNat }

/-- Counts the use of an address. -/
def countAddress : Gen Unit := count fun k => { k with byAddress := k.byAddress + 1 }

/-- A property that holds of the pieces of the code of values (module doc). -/
structure Pieces (known : VarId → Prop) (held : Place → Prop) (P : (α : Type) → Gen α → Prop) :
    Prop where
  pure : ∀ {α : Type} (a : α), P α (pure a)
  bind : ∀ {α β : Type} {m : Gen α} {f : α → Gen β}, P α m → (∀ a, P β (f a)) → P β (m >>= f)
  unconvertible : ∀ source hint target, P Unit (throw (.noConversion source hint target))
  place : ∀ {β : Type} {v : VarId} {f : Place → Gen β}, known v →
    (∀ p, held p → P β (f p)) → P β (place v >>= f)
  load : ∀ {p : Place}, held p → P Unit (putAll p.load)
  loadAddress : ∀ {p : Place}, held p → P Unit (putAll p.loadAddress)
  store : ∀ {p : Place}, held p → P Unit (putAll p.store)
  op : ∀ {o : Opcode}, o.isTerminator = false → P Unit (op o)
  callDirect : ∀ {h : Helper}, h.takesEnumerator = false → h.isErased = true →
    P Unit (callDirect h)
  conversion : ∀ c, P Unit (countConversion c)
  address : ∀ c, P Unit (do countAddress; countConversion c)

namespace Pieces

variable {known : VarId → Prop} {held : Place → Prop} {P : (α : Type) → Gen α → Prop}
  (h : Pieces known held P)
include h

/-! ## Conversions -/

theorem call {x : Helper} (hx : x.takesEnumerator = false) (he : x.isErased = true) :
    P Unit (call x) := by
  unfold Gen.call
  split
  · exact h.bind (h.op rfl) fun _ => h.callDirect hx he
  · exact h.callDirect hx he

/-- The steps of a conversion that has a plan are plain. -/
theorem steps {l : List Step} (hl : l.all Step.isPlain = true) : P Unit (l.forM step) := by
  induction l with
  | nil => exact h.pure ()
  | cons x l ih =>
    rw [List.all_cons, Bool.and_eq_true] at hl
    refine h.bind ?_ fun _ => ih hl.2
    cases x with
    | op o => exact h.op (by simpa [Step.isPlain] using hl.1)
    | call x =>
      obtain ⟨hx, he⟩ : x.takesEnumerator = false ∧ x.isErased = true := by
        simpa [Step.isPlain] using hl.1
      exact h.callDirect hx he

/-- A conversion with a plan is counted and written, one without is a fault. -/
theorem convert (source : Encoding) (hint : Hint) (target : Encoding) :
    P Unit (convert source hint target) := by
  unfold Gen.convert
  split
  · rename_i c hplan
    unfold Gen.conversion
    split
    · exact h.pure ()
    · exact h.bind (h.conversion c) fun _ => h.steps (Conversion.plan?_isPlain hplan)
  · exact h.unconvertible source hint target

/-- A conversion of a value given by its address. -/
theorem conversionAt {source target : Encoding} {hint : Hint} {c : Conversion}
    (hplan : Conversion.planAt? source hint target = some c) :
    P Unit (do countAddress; Gen.conversion c) := by
  have eq : (do countAddress; Gen.conversion c : Gen Unit) =
      (do countAddress; countConversion c) >>= fun _ => c.steps.forM step := by
    rw [bind_assoc]
    unfold Gen.conversion
    rw [Conversion.planAt?_isIdentity hplan]
    rfl
  rw [eq]
  exact h.bind (h.address c) fun _ => h.steps (Conversion.planAt?_isPlain hplan)

/-- What is loaded before the value is stored: the place itself, the context, or nothing. -/
theorem prepare {p : Place} (hp : held p) : P Unit (putAll p.prepare) := by
  unfold Place.prepare
  split
  · exact h.load hp
  · split
    · exact h.op (o := .ldctx) rfl
    · exact h.pure ()

/-! ## Expressions -/

theorem literal (l : Literal) : P Encoding (literal l) := by
  cases l with
  | null => exact h.bind (h.call rfl rfl) fun _ => h.pure _
  | bool b | int n | double x | string s => exact h.bind (h.op rfl) fun _ => h.pure _

/-- A variable is converted by its address or after it has been loaded. -/
theorem valueAs {e : Expr} (he : ∀ v ∈ e.ids.vars, known v) {code : Gen Encoding}
    (hc : P Encoding code) (target : Encoding) : P Unit (valueAs e code target) := by
  have rest : P Unit (do let source ← code; Gen.convert source e.hint target) :=
    h.bind hc fun _ => h.convert _ _ _
  unfold Gen.valueAs
  split
  · refine h.place (he _ (by simp [Expr.ids, Ids.ofVars])) fun p hp => ?_
    split
    · split
      · rename_i c hplan
        refine h.bind (h.loadAddress hp) fun _ => ?_
        have converts := h.conversionAt hplan
        have ends := h.bind converts fun _ => h.pure ()
        rwa [bind_assoc] at ends
      · exact rest
    · exact rest
  · exact rest

/-- An operand of arithmetic is converted once or twice. -/
theorem numberOperand (e : Expr) {code : Gen Encoding} (hc : P Encoding code) :
    P Unit (numberOperand e code) := by
  refine h.bind hc fun source => ?_
  split
  · exact h.bind (h.convert _ _ _) fun _ => h.convert _ _ _
  · exact h.convert _ _ _

/-- The operands are written in their encodings, and then the operation. -/
theorem binary (o : BinaryOp) {left right : Expr} (hleft : ∀ v ∈ left.ids.vars, known v)
    (hright : ∀ v ∈ right.ids.vars, known v) {leftCode rightCode : Gen Encoding}
    (hl : P Encoding leftCode) (hr : P Encoding rightCode) :
    P Encoding (binary o left right leftCode rightCode) := by
  have operands (target : Encoding) {rest : Gen Encoding} (hrest : P Encoding rest) :
      P Encoding
        (do Gen.valueAs left leftCode target; Gen.valueAs right rightCode target; rest) :=
    h.bind (h.valueAs hleft hl target) fun _ => h.bind (h.valueAs hright hr target) fun _ => hrest
  cases o with
  | arithmetic a =>
    simp only [Gen.binary]
    split
    · refine operands _ (h.bind (h.op ?_) fun _ => h.pure _)
      cases a <;> rfl
    · refine h.bind (h.numberOperand left hl) fun _ => ?_
      exact h.bind (h.numberOperand right hr) fun _ => h.bind (h.call rfl rfl) fun _ => h.pure _
  | concat => exact operands _ (h.bind (h.call rfl rfl) fun _ => h.pure _)
  | equal | less =>
    simp only [Gen.binary]
    split
    · exact operands _ (h.bind (h.op (by rfl)) fun _ => h.pure _)
    · exact operands _ (h.bind (h.call (by rfl) (by rfl)) fun _ => h.pure _)

omit h in
theorem known_of_append {u w : Ids} (hk : ∀ v ∈ (u ++ w).vars, known v) :
    (∀ v ∈ u.vars, known v) ∧ ∀ v ∈ w.vars, known v :=
  ⟨fun v hv => hk v (List.mem_append_left _ hv), fun v hv => hk v (List.mem_append_right _ hv)⟩

mutual

/-- An expression, by the pieces of each form. -/
theorem natural : (e : Expr) → (∀ v ∈ e.ids.vars, known v) → P Encoding (natural e)
  | .literal l _, _ => by rw [Gen.natural]; exact h.literal l
  | .var v _, he => by
    rw [Gen.natural]
    exact h.place (he v (by simp [Expr.ids, Ids.ofVars])) fun p hp =>
      h.bind (h.load hp) fun _ => h.pure _
  | .binary o left right _, he => by
    rw [Expr.ids] at he
    obtain ⟨hl, hr⟩ := known_of_append he
    rw [Gen.natural]
    exact h.binary o hl hr (natural left hl) (natural right hr)
  | .not e _, he => by
    rw [Expr.ids] at he
    rw [Gen.natural]
    refine h.bind (h.valueAs he (natural e he) .bool) fun _ => ?_
    exact h.bind (h.op rfl) fun _ => h.bind (h.op rfl) fun _ => h.pure _
  | .array items _, he => by
    rw [Expr.ids] at he
    rw [Gen.natural]
    exact h.bind (h.call rfl rfl) fun _ => h.bind (arrayItems items he) fun _ => h.pure _
  | .new c _, _ => by
    rw [Gen.natural]
    exact h.bind (h.op rfl) fun _ => h.pure _

/-- The items of an array, each behind a copy of the array. -/
theorem arrayItems :
    (items : List Expr) → (∀ v ∈ (Expr.listIds items).vars, known v) → P Unit (arrayItems items)
  | [], _ => by rw [Gen.arrayItems]; exact h.pure ()
  | e :: rest, he => by
    rw [Expr.listIds] at he
    obtain ⟨he, hrest⟩ := known_of_append he
    rw [Gen.arrayItems]
    refine h.bind (h.op rfl) fun _ => h.bind (h.valueAs he (natural e he) .value) fun _ => ?_
    exact h.bind (h.call rfl rfl) fun _ => arrayItems rest hrest

end

/-- An expression in some encoding. -/
theorem expr {e : Expr} (he : ∀ v ∈ e.ids.vars, known v) (target : Encoding) :
    P Unit (expr e target) := h.valueAs he (h.natural e he) target

/-! ## Statements that change a variable -/

theorem assign {v : VarId} (hv : known v) {e : Expr} (he : ∀ w ∈ e.ids.vars, known w) :
    P Unit (assign v e) := by
  refine h.place hv fun p hp => h.bind (h.prepare hp) fun _ => ?_
  exact h.bind (h.expr he _) fun _ => h.store hp

/-- To append is to load, convert and store, unless the variable is a buffer. -/
theorem append {v : VarId} (hv : known v) {e : Expr} (he : ∀ w ∈ e.ids.vars, known w) :
    P Unit (append v e) := by
  refine h.place hv fun p hp => ?_
  split
  · exact h.bind (h.load hp) fun _ => h.bind (h.expr he _) fun _ => h.call rfl rfl
  · refine h.bind (h.prepare hp) fun _ => h.bind (h.load hp) fun _ => ?_
    refine h.bind (h.convert _ _ _) fun _ => h.bind (h.expr he _) fun _ => ?_
    exact h.bind (h.call rfl rfl) fun _ => h.bind (h.convert _ _ _) fun _ => h.store hp

end Pieces

/-! ## Stores and the parts of edges -/

/-- A property that holds of the parts that stores and edges are made of (module doc). -/
structure Parts (known : VarId → Prop) (P : (α : Type) → Gen α → Prop) : Prop where
  pure : ∀ {α : Type} (a : α), P α (pure a)
  bind : ∀ {α β : Type} {m : Gen α} {f : α → Gen β}, P α m → (∀ a, P β (f a)) → P β (m >>= f)
  unconvertible : ∀ source hint target, P Unit (throw (.noConversion source hint target))
  place : ∀ {v : VarId}, known v → P Place (place v)
  put : ∀ {i : Insn}, i.isPlain = true → i.callee? = none → P Unit (put i)
  callDirect : ∀ {h : Helper}, h.isErased = true → P Unit (callDirect h)
  conversion : ∀ c, P Unit (countConversion c)
  address : ∀ c, P Unit (do countAddress; countConversion c)
  declare : ∀ e, P LocalId (declare e)
  temp : ∀ e, P LocalId (temp e)
  /-- The exception that a handler starts with. -/
  assume : P Unit (modify fun s => { s with tape := s.tape.assume 1 })

namespace Parts

variable {known : VarId → Prop} {P : (α : Type) → Gen α → Prop} (h : Parts known P)
include h

/-- What follows from a property of the parts holds of them too. -/
theorem mono {Q : (α : Type) → Gen α → Prop} (hQ : ∀ {α : Type} {m : Gen α}, P α m → Q α m)
    (pure : ∀ {α : Type} (a : α), Q α (Pure.pure a))
    (bind : ∀ {α β : Type} {m : Gen α} {f : α → Gen β}, Q α m → (∀ a, Q β (f a)) → Q β (m >>= f)) :
    Parts known Q where
  pure := pure
  bind := bind
  unconvertible _ _ _ := hQ (h.unconvertible _ _ _)
  place hv := hQ (h.place hv)
  put hi hc := hQ (h.put hi hc)
  callDirect he := hQ (h.callDirect he)
  conversion c := hQ (h.conversion c)
  address c := hQ (h.address c)
  declare e := hQ (h.declare e)
  temp e := hQ (h.temp e)
  assume := hQ h.assume

/-- Two properties of the parts hold of them together. -/
theorem and {Q : (α : Type) → Gen α → Prop} (h' : Parts (fun _ => True) Q) :
    Parts known fun α m => P α m ∧ Q α m where
  pure a := ⟨h.pure a, h'.pure a⟩
  bind hm hf := ⟨h.bind hm.1 fun a => (hf a).1, h'.bind hm.2 fun a => (hf a).2⟩
  unconvertible _ _ _ := ⟨h.unconvertible _ _ _, h'.unconvertible _ _ _⟩
  place hv := ⟨h.place hv, h'.place trivial⟩
  put hi hc := ⟨h.put hi hc, h'.put hi hc⟩
  callDirect he := ⟨h.callDirect he, h'.callDirect he⟩
  conversion c := ⟨h.conversion c, h'.conversion c⟩
  address c := ⟨h.address c, h'.address c⟩
  declare e := ⟨h.declare e, h'.declare e⟩
  temp e := ⟨h.temp e, h'.temp e⟩
  assume := ⟨h.assume, h'.assume⟩

theorem op {o : Opcode} (ho : o.isTerminator = false) : P Unit (op o) :=
  h.put (by simp [Insn.isPlain, ho]) rfl

theorem putAll {code : List Insn} (hc : ∀ i ∈ code, i.isPlain = true ∧ i.callee? = none) :
    P Unit (putAll code) := by
  induction code with
  | nil => exact h.pure ()
  | cons i rest ih =>
    obtain ⟨⟨hi, hn⟩, hrest⟩ := List.forall_mem_cons.mp hc
    exact h.bind (h.put hi hn) fun _ => ih hrest

/-- The parts of stores and edges are those of values, and more. -/
theorem pieces : Pieces known (fun _ => True) P where
  pure := h.pure
  bind := h.bind
  unconvertible := h.unconvertible
  place hv hf := h.bind (h.place hv) fun p => hf p trivial
  load {p} _ := h.putAll p.plain_load
  loadAddress {p} _ := h.putAll p.plain_loadAddress
  store {p} _ := h.putAll p.plain_store
  op := h.op
  callDirect _ he := h.callDirect he
  conversion := h.conversion
  address := h.address

theorem call {x : Helper} (hx : x.isErased = true) : P Unit (call x) := by
  unfold Gen.call
  split
  · exact h.bind (h.op rfl) fun _ => h.callDirect hx
  · exact h.callDirect hx

theorem expr {e : Expr} (he : ∀ v ∈ e.ids.vars, known v) (target : Encoding) :
    P Unit (expr e target) := h.pieces.expr he target

theorem natural (e : Expr) (he : ∀ v ∈ e.ids.vars, known v) : P Encoding (natural e) :=
  h.pieces.natural e he

theorem assign {v : VarId} (hv : known v) {e : Expr} (he : ∀ w ∈ e.ids.vars, known w) :
    P Unit (assign v e) := h.pieces.assign hv he

theorem append {v : VarId} (hv : known v) {e : Expr} (he : ∀ w ∈ e.ids.vars, known w) :
    P Unit (append v e) := h.pieces.append hv he

/-- A store to a place with a receiver holds the value in a local variable for a moment. -/
theorem storeTop (p : Place) (source : Encoding) (hint : Hint) :
    P Unit (storeTop p source hint) := by
  have rest : P Unit (do Gen.convert source hint p.storeEncoding; Gen.putAll p.store) :=
    h.bind (h.pieces.convert _ _ _) fun _ => h.putAll p.plain_store
  unfold Gen.storeTop
  split
  · refine h.bind (h.temp _) fun spill => h.bind (h.put rfl rfl) fun _ => ?_
    exact h.bind (h.pieces.prepare trivial) fun _ => h.bind (h.put rfl rfl) fun _ => rest
  · exact rest

/-- An item of an enumeration is asked for and stored. -/
theorem storeCurrent (slot : LocalId) {x : Helper} (hx : x.isErased = true) {v : VarId}
    (hv : known v) : P Unit (storeCurrent slot x v) := by
  refine h.bind (h.put rfl rfl) fun _ => h.bind (h.call hx) fun _ => ?_
  exact h.bind (h.place hv) fun p => h.storeTop p _ _

/-- An enumeration is started, and its enumerator stored. -/
theorem acquire {subject : Expr} (he : ∀ v ∈ subject.ids.vars, known v) :
    P LocalId (acquire subject) := by
  refine h.bind (h.expr he _) fun _ => h.bind (h.call rfl) fun _ => ?_
  exact h.bind (h.declare _) fun slot => h.bind (h.put rfl rfl) fun _ => h.pure slot

theorem advance (slot : LocalId) : P Unit (advance slot) :=
  h.bind (h.put rfl rfl) fun _ => h.call rfl

theorem storeItem (slot : LocalId) {value : VarId} (hv : known value) {key : Option VarId}
    (hk : ∀ k ∈ key, known k) : P Unit (storeItem slot value key) := by
  refine h.bind (h.storeCurrent slot rfl hv) fun _ => ?_
  cases key with
  | none => exact h.pure ()
  | some k => exact h.storeCurrent slot rfl (hk k rfl)

theorem select {value : Expr} (he : ∀ v ∈ value.ids.vars, known v) : P LocalId (select value) := by
  refine h.bind (h.expr he _) fun _ => h.bind (h.temp _) fun scratch => ?_
  exact h.bind (h.put rfl rfl) fun _ => h.pure scratch

/-- A case is compared as an integer or as a value. -/
theorem compare (scratch : LocalId) (isInt : Bool) (c : Case) :
    P Unit (compare scratch isInt c) := by
  have loose (l : Literal) : P Unit (do Gen.expr (.ofLiteral l) .value; Gen.call .looseEquals) :=
    h.bind (h.expr (fun _ hv => by cases hv) _) fun _ => h.call rfl
  unfold Gen.compare
  refine h.bind (h.put rfl rfl) fun _ => ?_
  split
  · exact h.bind (h.op rfl) fun _ => h.op rfl
  · split
    · exact h.bind (h.pieces.convert _ _ _) fun _ => loose _
    · exact loose _

/-- The index into a table is computed, held and tested. -/
theorem tableIndex {value : Expr} (he : ∀ v ∈ value.ids.vars, known v) (range : TableRange) :
    P LocalId (tableIndex value range) := by
  have rest : P LocalId (do
      let index ← Gen.temp .int64
      Gen.put (.stloc index)
      Gen.put (.ldloc index)
      Gen.op (.ldcI8 (.ofNat range.size))
      Gen.op .cltUn
      return index) := by
    refine h.bind (h.temp _) fun index => h.bind (h.put rfl rfl) fun _ => ?_
    refine h.bind (h.put rfl rfl) fun _ => h.bind (h.op rfl) fun _ => ?_
    exact h.bind (h.op rfl) fun _ => h.pure index
  unfold Gen.tableIndex
  refine h.bind (h.expr he _) fun _ => ?_
  dsimp only
  split
  · exact h.bind (h.op rfl) fun _ => h.bind (h.op rfl) fun _ => rest
  · exact rest

theorem loadIndex (index : LocalId) : P Unit (loadIndex index) :=
  h.bind (h.put rfl rfl) fun _ => h.op rfl

/-- What a handler does with its exception, once the stack holds it. -/
theorem receive {x : Handler} (hx : ∀ v ∈ x.var, known v) : P Unit (receive x) := by
  unfold Gen.receive
  refine h.bind h.assume fun _ => ?_
  split
  · rename_i v hv
    exact h.bind (h.place (hx v hv)) fun p => h.storeTop p _ _
  · exact h.op rfl

/-- A return, for a property that may depend on the state in which a computation starts. -/
theorem returnTop (read : ∀ {α : Type} {f : State → Gen α}, (∀ s, P α (f s)) → P α (get >>= f))
    (invalid : P Unit (throw (.invalidExit .cleanup))) (ret : P Unit (Gen.op .ret))
    (fresh : P Label freshLabel)
    (share : ∀ exit, P Unit (modify fun s => { s with returnSlot := some exit }))
    (leave : ∀ l, P Unit (branch .leave l)) : P Unit returnTop := by
  have through (shared : LocalId × Label) : P Unit (do
      Gen.put (.stloc shared.1)
      branch .leave shared.2) :=
    h.bind (h.put rfl rfl) fun _ => leave shared.2
  refine read fun s => ?_
  by_cases hc : s.scopes.any (·.kind = .cleanup) = true
  on_goal 1 =>
    rw [if_pos hc]
    refine h.bind invalid fun _ => ?_
  on_goal 2 => rw [if_neg hc]
  -- From here on, both cases are the same.
  all_goals
    dsimp only
    by_cases hp : (!s.scopes.any (·.kind.isProtected)) = true
    · rw [if_pos hp]
      exact ret
    rw [if_neg hp]
    cases s.returnSlot with
    | some shared => exact through shared
    | none =>
      refine h.bind (h.declare _) fun slot => h.bind fresh fun label => ?_
      exact h.bind (share (slot, label)) fun _ => through (slot, label)

end Parts

/-! ## Statements -/

/-- A property that holds of what statements are made of (module doc). -/
structure Acts (known : VarId → Prop) (P : (α : Type) → Gen α → Prop) : Prop
    extends Parts known P where
  span : ∀ span, P Unit (modify fun s => { s with span := span <|> s.span })
  throw : P Unit (op .throw)
  returnTop : P Unit returnTop

namespace Acts

variable {known : VarId → Prop} {P : (α : Type) → Gen α → Prop} (h : Acts known P)
include h

/-- A statement of any kind. -/
theorem action {x : Action} (hx : ∀ v ∈ x.ids.vars, known v) : P Unit (action x) := by
  cases x with
  | assign v e =>
    obtain ⟨hv, he⟩ := Pieces.known_of_append hx
    exact h.assign (hv v List.mem_cons_self) he
  | append v e =>
    obtain ⟨hv, he⟩ := Pieces.known_of_append hx
    exact h.append (hv v List.mem_cons_self) he
  | echo e => exact h.bind (h.expr hx _) fun _ => h.call rfl
  | eval e => exact h.bind (h.natural e hx) fun _ => h.op rfl
  | ret value =>
    cases value with
    | none => exact h.bind (h.call rfl) fun _ => h.returnTop
    | some e => exact h.bind (h.expr hx _) fun _ => h.returnTop
  | throw e => exact h.bind (h.expr hx _) fun _ => h.throw

theorem stmt {x : Stmt} (hx : ∀ v ∈ x.action.ids.vars, known v) : P Unit (stmt x) :=
  h.bind (h.span _) fun _ => h.action hx

/-- The statements of a block, one after the other. -/
theorem statements {l : List Stmt} (hl : ∀ x ∈ l, ∀ v ∈ x.action.ids.vars, known v) :
    P Unit (l.forM Gen.stmt) := by
  induction l with
  | nil => exact h.pure ()
  | cons x l ih =>
    obtain ⟨hx, hl⟩ := List.forall_mem_cons.mp hl
    exact h.bind (h.stmt hx) fun _ => ih hl

end Acts
end Gen
end Linearizer
