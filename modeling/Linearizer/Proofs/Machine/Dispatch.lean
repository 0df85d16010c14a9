import Mathlib.Algebra.Group.Int.Defs
import Mathlib.Algebra.Group.Nat.Defs
import Mathlib.Logic.Function.Basic
import Linearizer.Machine.Run
import Linearizer.Proofs.Generator.Table

/-!
# Dispatch on the machine

Where code that ends in a choice between blocks transfers control to, when its opcodes and calls run
on the reference machine. Two such pieces of code choose by an integer, and both choose the target
of the first case with it.

- **Runs** (`Machine.act`, `Machine.transfer?`): what an element does to the stack and the local
  variables, and the first block that code leads to. Protected regions and labels that are not of
  blocks are left out: such a run leads nowhere.
- **Cases** (`Case.pick`): the target of the first case with an integer.
- **Comparisons** (`Machine.comparisons`): one case is compared after the other.
- **Tables** (`Machine.indexing`): the integer is turned into an index into a table. The subtraction
  wraps round, so one unsigned comparison finds what lies outside on both sides
  (`TableRange.sub_lt_size_iff`).
-/

namespace Linearizer

/-- The target of the first case with the integer, and the default when no case has it. -/
def Case.pick (x : Int64) (cases : List Case) (default : BlockId) : BlockId :=
  match cases.find? (·.int? = some x) with
  | some c => c.target
  | none => default

namespace Machine

/-! ## Runs -/

/-- What code works on: the stack, whose top comes first, and the local variables. -/
structure Frame where
  stack : List Slot
  locals : LocalId → Slot

/-- What comes of an element of a listing. -/
inductive Course where
  | next (frame : Frame)
  | transfer (b : BlockId)
  | stop

/-- Goes on with the stack that is left by a run. -/
def Course.after (r : EStateM.Result Trap (List Slot) Unit) (locals : LocalId → Slot) : Course :=
  match r with
  | .ok _ stack => .next ⟨stack, locals⟩
  | .error .. => .stop

/-- Transfers control to the block of a label. -/
def Course.to : Label → Course
  | .block b => .transfer b
  | .fresh _ => .stop

/-- Runs an element. -/
def act (context : Context) (f : Frame) : Insn → Course
  | .op o => .after (exec context o f.stack) f.locals
  | .call callee => .after (invoke context callee.helper f.stack) f.locals
  | .ldloc slot => .next { f with stack := f.locals slot :: f.stack }
  | .ldloca slot => .next { f with stack := .address (f.locals slot) :: f.stack }
  | .stloc slot =>
    match f.stack with
    | top :: stack => .next ⟨stack, Function.update f.locals slot top⟩
    | [] => .stop
  | .label l | .branch .br l | .branch .leave l => .to l
  | .branch .brtrue l =>
    match f.stack with
    | .i32 n :: stack => if n = 0 then .next { f with stack } else .to l
    | _ => .stop
  | .branch .brfalse l =>
    match f.stack with
    | .i32 n :: stack => if n = 0 then .to l else .next { f with stack }
    | _ => .stop
  | .switch targets =>
    match f.stack with
    | .i32 n :: stack =>
      match targets[n.toUInt32.toNat]? with
      | some l => .to l
      | none => .next { f with stack }
    | _ => .stop
  | .beginTry | .beginCatch _ | .beginFinally | .endTry => .stop

/-- The first block that control is transferred to, by a branch or by falling into its label. -/
def transfer? (context : Context) : List Insn → Frame → Option BlockId
  | [], _ => none
  | i :: rest, f =>
    match act context f i with
    | .next f => transfer? context rest f
    | .transfer b => some b
    | .stop => none

section Elements

variable (context : Context) (rest : List Insn) (stack : List Slot) (locals : LocalId → Slot)

@[simp] theorem transfer?_label (b : BlockId) (f : Frame) :
    transfer? context (.label (.block b) :: rest) f = some b := rfl

@[simp] theorem transfer?_br (b : BlockId) (f : Frame) :
    transfer? context (.branch .br (.block b) :: rest) f = some b := rfl

@[simp] theorem transfer?_brtrue (b : BlockId) (e : Bool) :
    transfer? context (.branch .brtrue (.block b) :: rest) ⟨.ofBool e :: stack, locals⟩ =
      if e then some b else transfer? context rest ⟨stack, locals⟩ := by
  cases e <;> rfl

@[simp] theorem transfer?_brfalse (b : BlockId) (e : Bool) :
    transfer? context (.branch .brfalse (.block b) :: rest) ⟨.ofBool e :: stack, locals⟩ =
      if e then transfer? context rest ⟨stack, locals⟩ else some b := by
  cases e <;> rfl

/-- A jump through a table goes to the target at the index. -/
theorem transfer?_switch {targets : List BlockId} {n : Int32} {b : BlockId}
    (h : targets[n.toUInt32.toNat]? = some b) :
    transfer? context (.switch (targets.map .block) :: rest) ⟨.i32 n :: stack, locals⟩ =
      some b := by
  have hmap : (targets.map Label.block)[n.toUInt32.toNat]? = some (.block b) := by
    rw [List.getElem?_map, h]
    rfl
  simp only [transfer?, act, hmap, Course.to]

@[simp] theorem transfer?_ldloc (slot : LocalId) :
    transfer? context (.ldloc slot :: rest) ⟨stack, locals⟩ =
      transfer? context rest ⟨locals slot :: stack, locals⟩ := rfl

@[simp] theorem transfer?_stloc (slot : LocalId) (top : Slot) :
    transfer? context (.stloc slot :: rest) ⟨top :: stack, locals⟩ =
      transfer? context rest ⟨stack, Function.update locals slot top⟩ := rfl

@[simp] theorem transfer?_ldcI8 (n : Int64) :
    transfer? context (.op (.ldcI8 n) :: rest) ⟨stack, locals⟩ =
      transfer? context rest ⟨.i64 n :: stack, locals⟩ := rfl

@[simp] theorem transfer?_ceq (a b : Int64) :
    transfer? context (.op .ceq :: rest) ⟨.i64 b :: .i64 a :: stack, locals⟩ =
      transfer? context rest ⟨.ofBool (a == b) :: stack, locals⟩ := rfl

@[simp] theorem transfer?_sub (a b : Int64) :
    transfer? context (.op .sub :: rest) ⟨.i64 b :: .i64 a :: stack, locals⟩ =
      transfer? context rest ⟨.i64 (a - b) :: stack, locals⟩ := rfl

@[simp] theorem transfer?_cltUn (a b : Int64) :
    transfer? context (.op .cltUn :: rest) ⟨.i64 b :: .i64 a :: stack, locals⟩ =
      transfer? context rest ⟨.ofBool (a.toUInt64 < b.toUInt64) :: stack, locals⟩ := rfl

@[simp] theorem transfer?_convI4 (a : Int64) :
    transfer? context (.op .convI4 :: rest) ⟨.i64 a :: stack, locals⟩ =
      transfer? context rest ⟨.i32 a.toInt32 :: stack, locals⟩ := rfl

end Elements

/-! ## Comparisons -/

/-- Compares the integer in a local variable with each case in turn, and branches to the first one
that is equal. -/
def comparisons (scratch : LocalId) (cases : List Case) : List Insn :=
  cases.flatMap fun c =>
    [.ldloc scratch, .op (.ldcI8 (c.int?.getD 0)), .op .ceq, .branch .brtrue (.block c.target)]

/-- The first case with the integer is branched to, and the code goes on when there is none. -/
theorem transfer?_comparisons {context : Context} {stack : List Slot} {locals : LocalId → Slot}
    {scratch : LocalId} {x : Int64} (hx : locals scratch = .i64 x) {cases : List Case}
    (hcases : ∀ c ∈ cases, c.int?.isSome = true) {rest : List Insn} {default : BlockId}
    (hrest : transfer? context rest ⟨stack, locals⟩ = some default) :
    transfer? context (comparisons scratch cases ++ rest) ⟨stack, locals⟩ =
      some (Case.pick x cases default) := by
  induction cases with
  | nil => exact hrest
  | cons c cases ih =>
    obtain ⟨n, hn⟩ := Option.isSome_iff_exists.mp (hcases c List.mem_cons_self)
    have ih := ih fun d hd => hcases d (List.mem_cons_of_mem c hd)
    change transfer? context (.ldloc scratch :: .op (.ldcI8 (c.int?.getD 0)) :: .op .ceq ::
      .branch .brtrue (.block c.target) :: (comparisons scratch cases ++ rest)) _ = _
    simp only [transfer?_ldloc, hx, transfer?_ldcI8, transfer?_ceq, transfer?_brtrue, hn,
      Option.getD_some, beq_iff_eq]
    by_cases hc : x = n
    · simp [Case.pick, hn, hc]
    · have hne : ¬ n = x := fun h => hc h.symm
      simp only [hc, if_false, ih, Case.pick, List.find?_cons, hn, Option.some.injEq, hne,
        decide_false]

end Machine

/-! ## The range of a table -/

namespace TableRange

variable {g : Graph} {cases : List Case} {default : BlockId} {range : TableRange}

/-- A range of integers ends where the integers end. -/
theorem spanning?_le {ints : List Int64} (h : spanning? ints = some range) :
    range.least.toInt + range.size ≤ 2 ^ 63 := by
  cases ints with
  | nil => cases h
  | cons k rest =>
    have hbounds := spanning?_bounds h (List.mem_cons_self (a := k))
    cases h
    have hlt := (rest.foldl max k).toInt_lt
    dsimp only at hbounds ⊢
    omega

/-- The subtraction of two integers wraps round. -/
theorem toNat_sub (x y : Int64) :
    ((x - y).toUInt64.toNat : Int) = (x.toInt - y.toInt) % 2 ^ 64 := by
  have hx : x.toInt = _ := x.toBitVec.toInt_eq_toNat_cond
  have hy : y.toInt = _ := y.toBitVec.toInt_eq_toNat_cond
  have hsub : (x - y).toUInt64.toNat = _ := BitVec.toNat_sub x.toBitVec y.toBitVec
  have hxlt := x.toBitVec.isLt
  have hylt := y.toBitVec.isLt
  rw [hx, hy, hsub]
  omega

theorem toNat_ofNat {n : Nat} (h : n ≤ 2 ^ 31) : (Int64.ofNat n).toUInt64.toNat = n := by
  have hword : (BitVec.ofNat 64 n).toNat = n := by
    rw [BitVec.toNat_ofNat]
    exact Nat.mod_eq_of_lt (by omega)
  exact hword

theorem toNat_toInt32 (x : Int64) : x.toInt32.toUInt32.toNat = x.toUInt64.toNat % 2 ^ 32 := by
  have hword : x.toInt32.toUInt32.toNat = (x.toBitVec.signExtend 32).toNat := rfl
  rw [hword, BitVec.signExtend_eq_setWidth_of_le _ (by decide), BitVec.toNat_setWidth]
  rfl

/-- What is less than the first integer of the range wraps round to more than its size. -/
theorem sub_lt_size_iff (hend : range.least.toInt + range.size ≤ 2 ^ 63)
    (hsize : range.size ≤ 2 ^ 31) (x : Int64) :
    (x - range.least).toUInt64 < (Int64.ofNat range.size).toUInt64 ↔
      range.least.toInt ≤ x.toInt ∧ x.toInt < range.least.toInt + range.size := by
  have hx := x.toInt_lt
  have hx' := x.le_toInt
  have hleast := range.least.toInt_lt
  have hleast' := range.least.le_toInt
  have hsub := toNat_sub x range.least
  rw [UInt64.lt_iff_toNat_lt, toNat_ofNat hsize]
  omega

/-- The index of an integer of the range is not changed when it is narrowed. -/
theorem toNat_index (hsize : range.size ≤ 2 ^ 31) {x : Int64}
    (hlo : range.least.toInt ≤ x.toInt) (hhi : x.toInt < range.least.toInt + range.size) :
    range.least.toInt + (x - range.least).toInt32.toUInt32.toNat = x.toInt ∧
      (x - range.least).toInt32.toUInt32.toNat < range.size := by
  have hsub := toNat_sub x range.least
  rw [toNat_toInt32]
  omega

/-- Integers are compared as their values. -/
theorem find?_toInt_eq (x : Int64) :
    (cases.find? fun c => c.int?.map Int64.toInt = some x.toInt) =
      cases.find? (·.int? = some x) := by
  congr 1
  funext c
  cases c.int? <;> simp [Int64.toInt_inj]

/-- The entry of an integer is the target that is picked for it, when every target is live. -/
theorem getElem?_targets (hlive : ∀ c ∈ cases, g.isLive c.target = true) {x : Int64} {i : Nat}
    (hi : range.least.toInt + i = x.toInt) (hlt : i < range.size) :
    (range.targets g cases default)[i]? = some (Case.pick x cases default) := by
  unfold targets Case.pick
  rw [List.getElem?_map, List.getElem?_range hlt]
  simp only [Option.map_some, hi, find?_toInt_eq]
  cases hfind : cases.find? (·.int? = some x) with
  | none => rfl
  | some c => simp [hlive c (List.mem_of_find?_eq_some hfind)]

/-- No case has an integer outside of the range. -/
theorem pick_of_outside {ints : List Int64} (hints : cases.mapM Case.int? = some ints)
    (hspan : spanning? ints = some range) {x : Int64}
    (hx : ¬(range.least.toInt ≤ x.toInt ∧ x.toInt < range.least.toInt + range.size)) :
    Case.pick x cases default = default := by
  unfold Case.pick
  cases hfind : cases.find? (·.int? = some x) with
  | none => rfl
  | some c =>
    have hc : c.int? = some x := by simpa using List.find?_some hfind
    obtain ⟨n, hn, hcn⟩ := int?_of_mapM hints (List.mem_of_find?_eq_some hfind)
    obtain rfl : n = x := Option.some.inj (hcn.symm.trans hc)
    exact absurd (spanning?_bounds hspan hn) hx

end TableRange

/-! ## Tables -/

namespace Machine

/-- Turns an integer into an index into a table and jumps through it; what has no entry goes to the
default before. Nothing is subtracted where the range starts at zero. -/
def indexing (range : TableRange) (index : LocalId) (targets : List BlockId) (default : BlockId) :
    List Insn :=
  (if range.least = 0 then [] else [.op (.ldcI8 range.least), .op .sub]) ++
    [.stloc index, .ldloc index, .op (.ldcI8 (.ofNat range.size)), .op .cltUn,
      .branch .brfalse (.block default), .ldloc index, .op .convI4,
      .switch (targets.map .block)]

/-- A table leads to the target that is picked. -/
theorem transfer?_indexing {context : Context} {range : TableRange} {g : Graph} {cases : List Case}
    {default : BlockId} {ints : List Int64} (hints : cases.mapM Case.int? = some ints)
    (hspan : TableRange.spanning? ints = some range) (hsize : range.size ≤ 2 ^ 31)
    (hlive : ∀ c ∈ cases, g.isLive c.target = true) (index : LocalId) (rest : List Insn) (x : Int64)
    (stack : List Slot) (locals : LocalId → Slot) :
    transfer? context (indexing range index (range.targets g cases default) default ++ rest)
      ⟨.i64 x :: stack, locals⟩ = some (Case.pick x cases default) := by
  -- The smallest case is subtracted, unless it is zero.
  have hshift (code : List Insn) :
      transfer? context ((if range.least = 0 then [] else
        [.op (.ldcI8 range.least), .op .sub]) ++ code) ⟨.i64 x :: stack, locals⟩ =
      transfer? context code ⟨.i64 (x - range.least) :: stack, locals⟩ := by
    by_cases hzero : range.least = 0
    · simp [hzero]
    · simp [hzero]
  unfold indexing
  rw [List.append_assoc, hshift]
  simp only [List.cons_append, List.nil_append, transfer?_stloc, transfer?_ldloc,
    Function.update_self, transfer?_ldcI8, transfer?_cltUn, transfer?_brfalse, transfer?_convI4,
    decide_eq_true_eq, TableRange.sub_lt_size_iff (TableRange.spanning?_le hspan) hsize]
  -- Inside the range the entry of the table decides, outside the default.
  split
  · rename_i hin
    obtain ⟨hindex, hlt⟩ := TableRange.toNat_index hsize hin.1 hin.2
    exact transfer?_switch _ _ _ _ (TableRange.getElem?_targets hlive hindex hlt)
  · rename_i hout
    rw [TableRange.pick_of_outside hints hspan hout]

end Machine
end Linearizer
