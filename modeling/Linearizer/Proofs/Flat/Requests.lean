import Linearizer.Generator.Routine

/-!
# The conversions of a routine

Which conversions the code of a routine asks for can be read off the routine. An expression leaves
its value in an encoding of its own, and whoever uses it asks for its conversion; a variable that is
converted through its address needs no other one.

- **Places** (`Graph.places`): where the variables of a routine are stored.
- **Requests** (`Request`): a conversion that is asked for. The functions named `requests` list
  those of expressions, statements, edges and blocks, in the order in which they are asked for.
  Protected regions are left out.
-/

namespace Linearizer

/-! ## Places -/

/-- The places of some variables, where `slot` is the next local variable. -/
def Variable.places : (slot : LocalId) → List Variable → List Place
  | _, [] => []
  | slot, v :: rest =>
    match v.home with
    | .frame => ⟨.slot slot, v.encoding, v.hint⟩ :: places (slot + 1) rest
    | .param index => ⟨.argument index, v.encoding, v.hint⟩ :: places slot rest
    | .global => ⟨.field v.name, v.encoding, v.hint⟩ :: places slot rest

/-- Where the variables of a routine are stored. -/
def Graph.places (g : Graph) : List Place := Variable.places 0 g.vars

theorem Variable.length_places (slot : LocalId) (vars : List Variable) :
    (places slot vars).length = vars.length := by
  induction vars generalizing slot with
  | nil => rfl
  | cons v vars ih =>
    unfold places
    cases v.home <;> simp [ih]

theorem Graph.length_places (g : Graph) : g.places.length = g.vars.length :=
  Variable.length_places 0 g.vars

/-! ## Requests -/

/-- A conversion that is asked for. -/
structure Request where
  source : Encoding
  hint : Hint
  target : Encoding
deriving DecidableEq

namespace Request

/-- Whether there is such a conversion. -/
def isSupported (r : Request) : Bool := (Conversion.plan? r.source r.hint r.target).isSome

/-- What happens when there is none. -/
def fault (r : Request) : Fault := .noConversion r.source r.hint r.target

end Request

/-- The encoding that a constant is written in. -/
def Literal.encoding : Literal → Encoding
  | .null => .value
  | .bool _ => .bool
  | .int _ => .int64
  | .double _ => .double
  | .string _ => .string

/-- The encoding that an operation leaves its result in. -/
def BinaryOp.encoding (o : BinaryOp) (left right : Hint) : Encoding :=
  match o with
  | .arithmetic _ => if Gen.isFloating left right then .double else .number
  | .concat => .string
  | .equal | .less => .bool

namespace Expr

/-- The encoding that an expression leaves its value in. -/
def encoding (places : List Place) : Expr → Encoding
  | .literal l _ => l.encoding
  | .var v _ => (places[v]?.map Place.encoding).getD .value
  | .binary o left right _ => o.encoding left.hint right.hint
  | .not _ _ => .bool
  | .array _ _ => .array
  | .new c _ => .object (some c)

/-- Whether the expression is a variable that is converted through its address. -/
def isAddressed (places : List Place) (target : Encoding) : Expr → Bool
  | .var v hint => places[v]?.any fun p =>
    p.hasAddress && (Conversion.planAt? p.encoding hint target).isSome
  | _ => false

/-- The requests of an expression that is used in an encoding, where `inner` are its own. -/
def usedAs (places : List Place) (e : Expr) (inner : List Request) (target : Encoding) :
    List Request :=
  if e.isAddressed places target then [] else inner ++ [⟨e.encoding places, e.hint, target⟩]

/-- The requests of an operand of arithmetic. -/
def usedAsNumber (places : List Place) (e : Expr) (inner : List Request) : List Request :=
  inner ++
    if (e.encoding places).isTextual then
      [⟨e.encoding places, e.hint, .value⟩, ⟨.value, e.hint, .number⟩]
    else [⟨e.encoding places, e.hint, .number⟩]

/-- The requests of an operation, where `inner` and `inner'` are those of its operands. -/
def operands (places : List Place) (o : BinaryOp) (left right : Expr)
    (inner inner' : List Request) : List Request :=
  let both (target : Encoding) :=
    left.usedAs places inner target ++ right.usedAs places inner' target
  match o with
  | .arithmetic _ =>
    if Gen.isFloating left.hint right.hint then both .double
    else left.usedAsNumber places inner ++ right.usedAsNumber places inner'
  | .concat => both .string
  | .equal | .less => both ((Gen.strictEncoding? left.hint right.hint).getD .value)

mutual

/-- The requests of an expression whose value is left as it is. -/
def inner (places : List Place) : Expr → List Request
  | .literal _ _ | .var _ _ | .new _ _ => []
  | .binary o left right _ => operands places o left right (left.inner places) (right.inner places)
  | .not e _ => e.usedAs places (e.inner places) .bool
  | .array items _ => innerItems places items

/-- The requests of the items of an array. -/
def innerItems (places : List Place) : List Expr → List Request
  | [] => []
  | e :: rest => e.usedAs places (e.inner places) .value ++ innerItems places rest

end

/-- The requests of an expression whose value is used in an encoding. -/
def requests (places : List Place) (e : Expr) (target : Encoding) : List Request :=
  e.usedAs places (e.inner places) target

end Expr

/-- The encoding in which a variable is stored. -/
def Place.storeEncodingOf (places : List Place) (v : VarId) : Encoding :=
  (places[v]?.map Place.storeEncoding).getD .value

/-- The requests of an action. -/
def Action.requests (places : List Place) : Action → List Request
  | .assign v e => e.requests places (Place.storeEncodingOf places v)
  | .append v e =>
    match places[v]? with
    | some p =>
      if p.encoding = .mstring then e.requests places .string
      else ⟨p.encoding, p.hint, .string⟩ :: e.requests places .string ++
        [⟨.string, .only .string, p.storeEncoding⟩]
    | none => []
  | .echo e => e.requests places .string
  | .eval e => e.inner places
  | .ret none => []
  | .ret (some e) => e.requests places .value
  | .throw e => e.requests places (.object none)

/-- The requests of the comparison with a case, when the value of the switch is an integer and when
it is not. -/
def Case.requests (places : List Place) (isInt : Bool) (c : Case) : List Request :=
  match c.value, isInt with
  | .int _, true => []
  | l, _ =>
    (if isInt then [⟨.int64, .only .int64, .value⟩] else []) ++
      (Expr.ofLiteral l).requests places .value

/-- The requests of an edge. -/
def Edge.requests (places : List Place) : Edge → List Request
  | .goto _ | .protect .. => []
  | .conditional condition _ _ => condition.requests places .bool
  | .foreach subject _ => subject.requests places .value
  | .moveNext _ value key _ _ =>
    (value :: key.toList).map fun v => ⟨.value, .any, Place.storeEncodingOf places v⟩
  | .switch value cases _ =>
    let isInt : Bool := value.hint = .only .int64
    value.requests places (if isInt then .int64 else .value) ++
      cases.flatMap (Case.requests places isInt)

/-- The edge of a block, unless control never gets there. -/
def Block.exit? (b : Block) : Option Edge := if b.endsInTerminal then none else b.edge

/-- The requests of a block: those of its statements and of its edge. -/
def Block.requests (places : List Place) (b : Block) : List Request :=
  b.statements.flatMap (·.action.requests places) ++ b.exit?.toList.flatMap (Edge.requests places)

/-- The requests of a block of a routine. -/
def Graph.requests (g : Graph) (b : BlockId) : List Request :=
  ((g.block? b).map (Block.requests g.places)).getD []

end Linearizer
