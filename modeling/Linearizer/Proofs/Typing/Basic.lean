import Mathlib.Data.List.Nodup
import Linearizer.Graph.Basic
import Linearizer.Place

/-!
# Types of generated code

The shape of an entry of the evaluation stack says which encoding it has, without the class of an
object and with truth values and 32-bit integers as one. Generated code can be checked by keeping
the shapes of the entries: every instruction has to find the shapes that it needs on top, and the
stack has to be empty where control joins or parts, but for the exception that a handler starts
with.

- **Instructions** (`Insn.Types Γ i σ τ`): `i` finds what it needs on the stack `σ`, whose top comes
  first, and leaves `τ`. Here `Γ` relates storage to the encoding that it was declared with.
  `Opcode.retype?` and `Helper.retype?` are the stacks after what does not touch storage.
- **Code** (`Flows Γ σ code τ`): the same for the elements of some code, one after the other.
- **Declarations** (`Graph.Declares g locals`): what the variables of a routine and the local
  variables of a listing are declared with.
-/

namespace Linearizer

/-- What is known of an entry of the evaluation stack. -/
inductive Shape where
  /-- A truth value or a 32-bit integer. -/
  | int32
  | int64
  | double
  | string
  | mstring
  | number
  | array
  | object
  | value
  | alias
  /-- The context that the routine runs in. -/
  | context
  /-- The address of storage with such an entry. -/
  | address (content : Shape)
deriving DecidableEq

/-- Whether entries of the shape can be compared and calculated with by one instruction. -/
def Shape.isScalar : Shape → Bool
  | .int32 | .int64 | .double => true
  | _ => false

/-- The shape of an entry in an encoding. -/
def Encoding.shape : Encoding → Shape
  | .bool | .int32 => .int32
  | .int64 => .int64
  | .double => .double
  | .string => .string
  | .mstring => .mstring
  | .number => .number
  | .array => .array
  | .object _ => .object
  | .value => .value
  | .alias => .alias

/-! ## Opcodes and helpers -/

/-- The stack after an opcode that touches no storage, if it finds what it needs. -/
def Opcode.retype? : Opcode → List Shape → Option (List Shape)
  | .nop, σ => some σ
  | .pop, _ :: σ => some σ
  | .dup, x :: σ => some (x :: x :: σ)
  | .ldcI4 _, σ => some (.int32 :: σ)
  | .ldcI8 _, σ => some (.int64 :: σ)
  | .ldcR8 _, σ => some (.double :: σ)
  | .ldstr _, σ => some (.string :: σ)
  | .ldnull, σ | .newobj _, σ => some (.object :: σ)
  | .ldctx, σ => some (.context :: σ)
  | .add, x :: y :: σ | .sub, x :: y :: σ | .mul, x :: y :: σ =>
    if x = y ∧ x.isScalar then some (x :: σ) else none
  | .ceq, x :: y :: σ | .clt, x :: y :: σ | .cltUn, x :: y :: σ =>
    if x = y ∧ x.isScalar then some (.int32 :: σ) else none
  | .convI4, x :: σ => if x.isScalar then some (.int32 :: σ) else none
  | .convI8, x :: σ => if x.isScalar then some (.int64 :: σ) else none
  | .convR8, x :: σ => if x.isScalar then some (.double :: σ) else none
  | .castclass _, .object :: σ => some (.object :: σ)
  -- What ends a block ends it with an empty stack.
  | .ret, [.value] => some []
  | .throw, [.object] => some []
  | .endfinally, [] => some []
  | _, _ => none

/-- What a conversion of the run-time library returns. -/
def Coercion.result : Coercion → Shape
  | .toBoolean => .int32
  | .toLong => .int64
  | .toDouble => .double
  | .toString => .string
  | .toNumber => .number
  | .toClass => .object
  | .asArray => .array

namespace Helper

/-- The arguments of a helper in order, without the context. -/
def operands : Helper → List Shape
  | .convert _ source byAddress => [if byAddress then .address source.shape else source.shape]
  | .box source | .widen source | .payload source _ => [source.shape]
  | .boxObject | .moveNext | .currentValue | .currentKey => [.object]
  | .nullValue | .newArray => []
  | .newBuffer | .echo => [.string]
  | .bufferAppend => [.mstring, .string]
  | .newAlias | .getEnumerator => [.value]
  | .aliasValue => [.alias]
  | .arrayAdd => [.array, .value]
  | .arithmetic _ => [.number, .number]
  | .concat => [.string, .string]
  | .looseEquals | .looseLess => [.value, .value]

/-- The context as an argument of a helper that needs it. -/
def context (h : Helper) : List Shape := if h.needsContext then [.context] else []

/-- The arguments of a helper, the last one on top of the stack. -/
def arguments (h : Helper) : List Shape := h.context ++ h.operands.reverse

/-- What a helper returns. -/
def result? : Helper → Option Shape
  | .convert coercion _ _ => some coercion.result
  | .box _ | .boxObject | .nullValue | .aliasValue | .currentValue | .currentKey => some .value
  | .widen _ | .arithmetic _ => some .number
  | .payload _ target => some target.shape
  | .newBuffer => some .mstring
  | .newAlias => some .alias
  | .newArray => some .array
  | .concat => some .string
  | .looseEquals | .looseLess | .moveNext => some .int32
  | .getEnumerator => some .object
  | .bufferAppend | .arrayAdd | .echo => none

/-- The stack without some entries on top, if it has them. -/
def takeOff : (entries stack : List Shape) → Option (List Shape)
  | [], σ => some σ
  | x :: entries, y :: σ => if x = y then takeOff entries σ else none
  | _ :: _, [] => none

/-- The stack after a call, if the helper finds its arguments. -/
def retype? (h : Helper) (σ : List Shape) : Option (List Shape) :=
  (takeOff h.arguments σ).map (h.result?.toList ++ ·)

end Helper

/-! ## Elements of code -/

/-- What storage is declared with. -/
abbrev Declarations := Storage → Encoding → Prop

/-- What an element finds on the stack, and what it leaves (module doc). -/
inductive Insn.Types (Γ : Declarations) : Insn → (before after : List Shape) → Prop
  | op {o : Opcode} {σ τ : List Shape} : o.retype? σ = some τ → Types Γ (.op o) σ τ
  | call {callee : HelperRef} {σ τ : List Shape} :
    callee.helper.retype? σ = some τ → Types Γ (.call callee) σ τ
  | ldloc {id : LocalId} {e : Encoding} {σ : List Shape} :
    Γ (.slot id) e → Types Γ (.ldloc id) σ (e.shape :: σ)
  | ldloca {id : LocalId} {e : Encoding} {σ : List Shape} :
    Γ (.slot id) e → Types Γ (.ldloca id) σ (.address e.shape :: σ)
  | stloc {id : LocalId} {e : Encoding} {σ : List Shape} :
    Γ (.slot id) e → Types Γ (.stloc id) (e.shape :: σ) σ
  | ldarg {i : Nat} {e : Encoding} {σ : List Shape} :
    Γ (.argument i) e → Types Γ (.op (.ldarg i)) σ (e.shape :: σ)
  | ldarga {i : Nat} {e : Encoding} {σ : List Shape} :
    Γ (.argument i) e → Types Γ (.op (.ldarga i)) σ (.address e.shape :: σ)
  | starg {i : Nat} {e : Encoding} {σ : List Shape} :
    Γ (.argument i) e → Types Γ (.op (.starg i)) (e.shape :: σ) σ
  | ldfld {name : String} {e : Encoding} {σ : List Shape} :
    Γ (.field name) e → Types Γ (.op (.ldfld name)) (.context :: σ) (e.shape :: σ)
  | ldflda {name : String} {e : Encoding} {σ : List Shape} :
    Γ (.field name) e → Types Γ (.op (.ldflda name)) (.context :: σ) (.address e.shape :: σ)
  | stfld {name : String} {e : Encoding} {σ : List Shape} :
    Γ (.field name) e → Types Γ (.op (.stfld name)) (e.shape :: .context :: σ) σ
  /-- A store into the cell of an alias, which is a field of the alias. -/
  | stcell {σ : List Shape} : Types Γ (.op (.stfld "Value")) (.value :: .alias :: σ) σ
  | jump {b : BranchOp} {target : Label} :
    b.isConditional = false → Types Γ (.branch b target) [] []
  | branch {b : BranchOp} {target : Label} :
    b.isConditional = true → Types Γ (.branch b target) [.int32] []
  | switch {targets : List Label} : Types Γ (.switch targets) [.int32] []
  | label {mark : Label} : Types Γ (.label mark) [] []
  | beginTry : Types Γ .beginTry [] []
  /-- The code of a handler starts with the exception that it catches. -/
  | beginCatch {cls : ClassId} : Types Γ (.beginCatch cls) [] [.object]
  | beginFinally : Types Γ .beginFinally [] []
  | endTry : Types Γ .endTry [] []

/-- The elements of some code find what they need, one after the other, and leave `τ`. -/
inductive Flows (Γ : Declarations) : (before : List Shape) → List Insn → (after : List Shape) → Prop
  | nil {σ : List Shape} : Flows Γ σ [] σ
  | cons {i : Insn} {rest : List Insn} {σ τ υ : List Shape} :
    i.Types Γ σ τ → Flows Γ τ rest υ → Flows Γ σ (i :: rest) υ

section Weakening

variable {Γ Δ : Declarations} (sub : ∀ storage e, Γ storage e → Δ storage e)
include sub

/-- Further declarations keep an element typed. -/
theorem Insn.Types.mono {i : Insn} {σ τ : List Shape} (h : i.Types Γ σ τ) : i.Types Δ σ τ := by
  cases h with
  | ldloc hs => exact .ldloc (sub _ _ hs)
  | ldloca hs => exact .ldloca (sub _ _ hs)
  | stloc hs => exact .stloc (sub _ _ hs)
  | ldarg hs => exact .ldarg (sub _ _ hs)
  | ldarga hs => exact .ldarga (sub _ _ hs)
  | starg hs => exact .starg (sub _ _ hs)
  | ldfld hs => exact .ldfld (sub _ _ hs)
  | ldflda hs => exact .ldflda (sub _ _ hs)
  | stfld hs => exact .stfld (sub _ _ hs)
  | op hs => exact .op hs
  | call hs => exact .call hs
  | jump hb => exact .jump hb
  | branch hb => exact .branch hb
  | stcell => exact .stcell
  | switch => exact .switch
  | label => exact .label
  | beginTry => exact .beginTry
  | beginCatch => exact .beginCatch
  | beginFinally => exact .beginFinally
  | endTry => exact .endTry

theorem Flows.mono {code : List Insn} {σ τ : List Shape} (h : Flows Γ σ code τ) :
    Flows Δ σ code τ := by
  induction h with
  | nil => exact .nil
  | cons hi _ ih => exact .cons (hi.mono sub) ih

end Weakening

theorem Flows.append {Γ : Declarations} {code code' : List Insn} {σ τ υ : List Shape}
    (h : Flows Γ σ code τ) (h' : Flows Γ τ code' υ) : Flows Γ σ (code ++ code') υ := by
  induction h with
  | nil => exact h'
  | cons hi _ ih => exact .cons hi (ih h')

theorem Insn.Types.flows {Γ : Declarations} {i : Insn} {σ τ : List Shape} (h : i.Types Γ σ τ) :
    Flows Γ σ [i] τ := .cons h .nil

/-! ## Declarations of a routine -/

/-- The encoding that a local variable, an argument or a field of the context is declared with: in
the listing for the first, and by a variable of the routine for the others. -/
def Graph.Declares (g : Graph) (locals : List Encoding) : Declarations
  | .slot id, e => locals[id]? = some e
  | .argument i, e => ∃ v ∈ g.vars, v.home = .param i ∧ v.encoding = e
  | .field name, e => ∃ v ∈ g.vars, v.home = .global ∧ v.name = name ∧ v.encoding = e

namespace Graph

variable {g : Graph}

/-- Declarations stay when further local variables are declared. -/
theorem Declares.mono {locals locals' : List Encoding} (h : locals <+: locals') :
    ∀ storage e, g.Declares locals storage e → g.Declares locals' storage e := by
  intro storage e hd
  cases storage with
  | slot id =>
    obtain ⟨further, rfl⟩ := h
    have inside : id < locals.length := (List.getElem?_eq_some_iff.mp hd).1
    exact (List.getElem?_append_left inside).trans hd
  | argument i => exact hd
  | field name => exact hd

/-- Storage is declared once, but for parameters that share a number. -/
theorem Declares.unique {locals : List Encoding} (names : (g.vars.map Variable.name).Nodup)
    {storage : Storage} {e e' : Encoding} (h : g.Declares locals storage e)
    (h' : g.Declares locals storage e') :
    e = e' ∨ ∃ i, storage = .argument i ∧
      ∃ v ∈ g.vars, ∃ w ∈ g.vars, v ≠ w ∧ v.home = .param i ∧ w.home = .param i := by
  cases storage with
  | slot id => exact .inl (Option.some.inj (h.symm.trans h'))
  | argument i =>
    obtain ⟨v, hv, home, rfl⟩ := h
    obtain ⟨w, hw, home', rfl⟩ := h'
    by_cases same : v = w
    · exact .inl (congrArg Variable.encoding same)
    · exact .inr ⟨i, rfl, v, hv, w, hw, same, home, home'⟩
  | field name =>
    obtain ⟨v, hv, -, named, rfl⟩ := h
    obtain ⟨w, hw, -, named', rfl⟩ := h'
    have same : v = w := List.inj_on_of_nodup_map names hv hw (named.trans named'.symm)
    exact .inl (congrArg Variable.encoding same)

end Graph
end Linearizer
