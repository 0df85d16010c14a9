import Linearizer.Proofs.Generator.Move
import Linearizer.Proofs.Graph.Reachable
import Linearizer.Proofs.Machine.Dispatch

/-!
# Switches with and without a table

A switch over integers that is written as a jump through a table transfers control as it does when
it is written as comparisons: to the target of the first case with the integer, and to the default
when no case has it.

- **Near blocks** (`State.Near`): live blocks of the innermost scope. A conditional branch to one is
  a single element (`Gen.branchTo_near`), and a visit of one starts with its label or with a branch
  to it (`Gen.visit_near`).
- **Switches** (`State.Dispatches`): the code between two states transfers control by the integer on
  top of the stack. `Gen.compareChain_dispatches` and `Gen.jumpTable_dispatches` say so of both
  forms, and `Gen.switch_dispatches_alike` puts them side by side.
-/

namespace Linearizer

open Machine

namespace State

/-- The block is live and lies in the innermost scope. -/
structure Near (g : Graph) (s : State) (b : BlockId) : Prop where
  live : g.isLive b = true
  within : (s.innermost g).contains b = true

theorem Near.congr {g : Graph} {s s' : State} {b : BlockId} (h : s.Near g b)
    (hf : s'.frames = s.frames) : s'.Near g b :=
  ⟨h.live, (contains_innermost_congr hf b).trans h.within⟩

theorem Near.bounds {g : Graph} {s : State} {b : BlockId} (h : s.Near g b) :
    (s.innermost g).lo ≤ b ∧ b < (s.innermost g).hi := by
  simpa [Scope.contains] using h.within

/-- The code that is written on the way from `s` to `s'` transfers control to the block that is
picked for the integer on top of the stack, whatever comes after it. -/
def Dispatches (s s' : State) (cases : List Case) (default : BlockId) : Prop :=
  ∃ code, s'.code = s.code ++ code ∧
    ∀ (more : List Insn) (context : Context) (x : Int64) (stack : List Slot)
      (locals : LocalId → Slot),
      transfer? context (code ++ more) ⟨.i64 x :: stack, locals⟩ = some (Case.pick x cases default)

end State

theorem TableRange.ofCases?_disabled (options : Options) (scope : Scope) (value : Expr)
    (cases : List Case) (default : BlockId) :
    ofCases? { options with jumpTables := false } scope value cases default = none := rfl

namespace Gen

variable {setting : Setting} {s : State} {b : BlockId}

/-! ## Near blocks -/

theorem schedule_near {g : Graph} (h : s.Near g b) :
    ∃ s', (schedule g b : Gen Unit) s = .ok () s' ∧ s'.code = s.code ∧ s'.frames = s.frames := by
  obtain ⟨block, hb, hd⟩ := Graph.isLive_iff.mp h.live
  rw [schedule_run]
  simp only [hb, hd, h.within, if_true, Bool.false_eq_true, false_or]
  split
  · exact ⟨s, rfl, rfl, rfl⟩
  · exact ⟨_, rfl, by simp [State.code, State.claimed], s.frames_claimed b⟩

theorem schedules_near {g : Graph} {targets : List BlockId} (h : ∀ b ∈ targets, s.Near g b) :
    ∃ s', (targets.forM (schedule g) : Gen Unit) s = .ok () s' ∧ s'.code = s.code ∧
      s'.frames = s.frames := by
  induction targets generalizing s with
  | nil => exact ⟨s, rfl, rfl, rfl⟩
  | cons b targets ih =>
    obtain ⟨s₁, h₁, hcode₁, hframes₁⟩ := schedule_near (h b List.mem_cons_self)
    obtain ⟨s₂, h₂, hcode₂, hframes₂⟩ := ih (s := s₁) fun c hc =>
      (h c (List.mem_cons_of_mem b hc)).congr hframes₁
    exact ⟨s₂, (run_bind h₁ _).trans h₂, hcode₂.trans hcode₁, hframes₂.trans hframes₁⟩

/-- A branch to a near block is one element. -/
theorem branchTo_near (visit : Visit) (o : BranchOp) (h : s.Near setting.graph b) :
    ∃ s', branchTo setting visit o b s = .ok () s' ∧
      s'.code = s.code ++ [.branch o (.block b)] ∧ s'.frames = s.frames := by
  obtain ⟨block, hb, hd⟩ := Graph.isLive_iff.mp h.live
  have hlo : ¬ b < (s.innermost setting.graph).lo := Nat.not_lt.mpr h.bounds.1
  have hbranched : (s.branched o (.block b)).Near setting.graph b := h.congr rfl
  obtain ⟨s', hs', hcode, hframes⟩ := schedule_near hbranched
  refine ⟨s', ?_, hcode.trans (s.code_branched _ _), hframes⟩
  rw [branchTo_run]
  simp only [hb, hd, hlo, h.within, and_false, if_false, if_true, Bool.false_eq_true, hs']

/-- The visit of a near block leads to it first, however it ends. -/
theorem visit_near (depth : Nat) (hs : s.scopes ≠ []) (h : s.Near setting.graph b) :
    DoesFrom (fun s s' => ∃ i rest, s'.code = s.code ++ i :: rest ∧
        (i = .label (.block b) ∨ i = .branch .br (.block b)))
      (visit setting (depth + 1) true b) s := by
  obtain ⟨block, hb, hd⟩ := Graph.isLive_iff.mp h.live
  have hlo : ¬ b < (s.innermost setting.graph).lo := Nat.not_lt.mpr h.bounds.1
  have run := visitWith_run setting (visit setting depth) true b s
  simp only [hb, hd, hlo, h.bounds.2, if_true, if_false, Bool.false_eq_true] at run
  by_cases he : b ∈ s.emitted
  · obtain ⟨scope, outer, hscopes⟩ := List.exists_cons_of_ne_nil hs
    have within := h.within
    rw [State.innermost, hscopes] at within
    have hexit : exitInsn s.scopes b = .branch .br (.block b) := by
      rw [hscopes, exitInsn_of_contains within]
    rw [if_pos he] at run
    exact .to_ok run ⟨_, [], s.code_revisited b, .inr hexit⟩
  · rw [if_neg he] at run
    have hframes : (s.entered true b).frames = s.frames := s.frames_unqueue b
    have hbody := blockBody_steps depth hb (State.scopes_ne_nil hframes hs)
    -- What has been written when the body starts stays, also where it fails.
    refine hbody.along run fun s' hsteps => ?_
    obtain ⟨rest, hrest⟩ := hsteps.grows
    refine ⟨_, rest, ?_, .inl rfl⟩
    rw [← hrest, State.code_entered, List.append_assoc]
    rfl

theorem temp_run (e : Encoding) (s : State) :
    ∃ slot s', temp e s = .ok slot s' ∧ s'.code = s.code ∧ s'.scopes = s.scopes := by
  unfold temp
  rw [run_bind (get_run s)]
  cases s.temps.lookup e with
  | some slot => exact ⟨slot, s, rfl, rfl, rfl⟩
  | none => exact ⟨_, _, rfl, rfl, rfl⟩

/-! ## The code of both forms -/

section Forms

variable {cases : List Case} {default : BlockId} {value : Expr} {s₁ : State}

theorem compareCase_near (visit : Visit) (scratch : LocalId) {c : Case}
    (hc : c.int?.isSome = true) (h : s.Near setting.graph c.target) :
    ∃ s', compareCase setting visit scratch true c s = .ok () s' ∧
      s'.code = s.code ++ comparisons scratch [c] ∧ s'.frames = s.frames := by
  obtain ⟨n, hn⟩ := Option.isSome_iff_exists.mp hc
  let s₁ := ((s.written (.ldloc scratch)).written (.op (.ldcI8 n))).written (.op .ceq)
  have hcompare : compare scratch true c s = .ok () s₁ := by
    unfold compare
    cases hvalue : c.value <;> simp only [Case.int?, hvalue] at hn <;> cases hn
    rfl
  have hnear : s₁.Near setting.graph c.target := h.congr rfl
  obtain ⟨s', hs', hcode, hframes⟩ := branchTo_near visit .brtrue hnear
  refine ⟨s', ?_, ?_, hframes⟩
  · exact (run_bind hcompare _).trans hs'
  · rw [hcode]
    simp [s₁, comparisons, hn]

theorem compareCases_near (visit : Visit) (scratch : LocalId)
    (hcases : ∀ c ∈ cases, c.int?.isSome = true)
    (h : ∀ c ∈ cases, s.Near setting.graph c.target) :
    ∃ s', cases.forM (compareCase setting visit scratch true) s = .ok () s' ∧
      s'.code = s.code ++ comparisons scratch cases ∧ s'.frames = s.frames := by
  induction cases generalizing s with
  | nil => exact ⟨s, rfl, by simp [comparisons], rfl⟩
  | cons c cases ih =>
    obtain ⟨s₁, h₁, hcode₁, hframes₁⟩ :=
      compareCase_near visit scratch (hcases c List.mem_cons_self) (h c List.mem_cons_self)
    obtain ⟨s₂, h₂, hcode₂, hframes₂⟩ := ih (s := s₁)
      (fun d hd => hcases d (List.mem_cons_of_mem c hd))
      fun d hd => (h d (List.mem_cons_of_mem c hd)).congr hframes₁
    refine ⟨s₂, (run_bind h₁ _).trans h₂, ?_, hframes₂.trans hframes₁⟩
    rw [hcode₂, hcode₁, List.append_assoc]
    rfl

/-- A switch without a table goes on with the default after all comparisons. -/
theorem compareChain_run (visit : Visit) (hhint : value.hint = .only .int64)
    (hvalue : expr value .int64 s = .ok () s₁) (hcases : ∀ c ∈ cases, c.int?.isSome = true)
    (h : ∀ c ∈ cases, s.Near setting.graph c.target) :
    ∃ scratch s₂, compareChain setting visit value cases default s = visit true default s₂ ∧
      s₂.code = s₁.code ++ .stloc scratch :: comparisons scratch cases ∧
      s₂.frames = s.frames := by
  have hscopes₁ : s₁.scopes = s.scopes := ((expr_straight value .int64).of_ok hvalue).scopes
  obtain ⟨scratch, s₂, htemp, hcode₂, hscopes₂⟩ := temp_run .int64 s₁
  -- The value is an integer, so it is not converted before it is stored.
  have hselect : select value s = .ok scratch (s₂.written (.stloc scratch)) := by
    unfold select
    simp only [hhint, if_true]
    rw [run_bind hvalue, run_bind htemp]
    rfl
  have hframes₂ : (s₂.written (.stloc scratch)).frames = s.frames := by
    simp only [State.frames, State.written, hscopes₂, hscopes₁]
  obtain ⟨s₃, hforM, hcode₃, hframes₃⟩ := compareCases_near visit scratch hcases fun c hc =>
    (h c hc).congr hframes₂
  refine ⟨scratch, s₃, ?_, ?_, hframes₃.trans hframes₂⟩
  · unfold compareChain
    simp only [monadLift_self, hhint, decide_true]
    rw [run_bind hselect]
    exact run_bind hforM _
  · rw [hcode₃, State.code_written, hcode₂, List.append_assoc]
    rfl

theorem tableIndex_run (range : TableRange) (hvalue : expr value .int64 s = .ok () s₁) :
    ∃ index s₂, tableIndex value range s = .ok index s₂ ∧
      s₂.code = s₁.code ++ (if range.least = 0 then [] else [.op (.ldcI8 range.least), .op .sub]) ++
        [.stloc index, .ldloc index, .op (.ldcI8 (.ofNat range.size)), .op .cltUn] ∧
      s₂.frames = s.frames := by
  have hscopes₁ : s₁.scopes = s.scopes := ((expr_straight value .int64).of_ok hvalue).scopes
  -- What is subtracted, if anything.
  let s₂ := if range.least = 0 then s₁
    else (s₁.written (.op (.ldcI8 range.least))).written (.op .sub)
  have hcode₂ : s₂.code = s₁.code ++
      (if range.least = 0 then [] else [.op (.ldcI8 range.least), .op .sub]) := by
    by_cases hzero : range.least = 0 <;> simp [s₂, hzero]
  have hscopes₂ : s₂.scopes = s₁.scopes := by
    by_cases hzero : range.least = 0 <;> simp [s₂, hzero, State.written]
  obtain ⟨index, s₃, htemp, hcode₃, hscopes₃⟩ := temp_run .int64 s₂
  refine ⟨index, (((s₃.written (.stloc index)).written (.ldloc index)).written
    (.op (.ldcI8 (.ofNat range.size)))).written (.op .cltUn), ?_, ?_, ?_⟩
  · unfold tableIndex
    rw [run_bind hvalue]
    by_cases hzero : range.least = 0
    · simp only [s₂, hzero, if_true] at htemp
      simp only [hzero, bne_self_eq_false, Bool.false_eq_true, if_false]
      exact run_bind htemp _
    · simp only [s₂, hzero, if_false] at htemp
      simp only [bne_iff_ne, ne_eq, hzero, not_false_eq_true, if_true]
      exact run_bind htemp _
  · simp [hcode₃, hcode₂]
  · simp only [State.frames, State.written, hscopes₃, hscopes₂, hscopes₁]

/-- A switch with a table goes on with the default after the table. -/
theorem jumpTable_run (visit : Visit) (range : TableRange)
    (hvalue : expr value .int64 s = .ok () s₁) (h : ∀ c ∈ cases, s.Near setting.graph c.target)
    (hdefault : s.Near setting.graph default) :
    ∃ index s₂, jumpTable setting visit value cases default range s = visit true default s₂ ∧
      s₂.code = s₁.code ++
        indexing range index (range.targets setting.graph cases default) default ∧
      s₂.frames = s.frames := by
  obtain ⟨index, s₂, hindex, hcode₂, hframes₂⟩ := tableIndex_run range hvalue
  obtain ⟨s₃, hbranch, hcode₃, hframes₃⟩ :=
    branchTo_near visit .brfalse (hdefault.congr hframes₂)
  let targets := range.targets setting.graph cases default
  let s₄ := ((s₃.written (.ldloc index)).written (.op .convI4)).tabled targets
  have hframes₄ : s₄.frames = s.frames := hframes₃.trans hframes₂
  -- Entries lead to a case or to the default, both of which are near.
  have hnear : ∀ b ∈ targets, s₄.Near setting.graph b := by
    intro b hb
    refine State.Near.congr (s := s) ?_ hframes₄
    rcases TableRange.mem_of_mem_targets hb with ⟨c, hc, rfl⟩ | rfl
    · exact h c hc
    · exact hdefault
  obtain ⟨s₅, hschedule, hcode₅, hframes₅⟩ := schedules_near hnear
  refine ⟨index, s₅, ?_, ?_, hframes₅.trans hframes₄⟩
  · unfold jumpTable
    simp only [monadLift_self]
    rw [run_bind hindex, run_bind hbranch]
    exact run_bind hschedule _
  · rw [hcode₅]
    simp [s₄, targets, indexing, hcode₃, hcode₂]

end Forms

/-! ## Switches -/

section Switch

variable {cases : List Case} {default : BlockId} {value : Expr} {s₁ : State} {depth : Nat}

/-- A form of a switch that writes some code and goes on with the default dispatches, if that code
picks the target whenever what follows it leads to the default. -/
theorem dispatches_of_run {m : Gen Unit} {s₂ : State} {code : List Insn}
    (hrun : m s = (visit setting (depth + 1) true default : Gen Unit) s₂) (hscopes : s.scopes ≠ [])
    (hdefault : s.Near setting.graph default) (hframes : s₂.frames = s.frames)
    (hcode : s₂.code = s₁.code ++ code)
    (hpick : ∀ (rest : List Insn) (context : Context) (x : Int64) (stack : List Slot)
      (locals : LocalId → Slot), (∀ f, transfer? context rest f = some default) →
      transfer? context (code ++ rest) ⟨.i64 x :: stack, locals⟩ =
        some (Case.pick x cases default)) :
    DoesFrom (fun _ s' => s₁.Dispatches s' cases default) m s := by
  have hvisit := visit_near depth (State.scopes_ne_nil hframes hscopes) (hdefault.congr hframes)
  refine hvisit.along hrun fun s' h => ?_
  obtain ⟨i, rest, hs', hi⟩ := h
  refine ⟨code ++ i :: rest, by rw [hs', hcode, List.append_assoc], ?_⟩
  intro more context x stack locals
  rw [List.append_assoc]
  refine hpick _ context x stack locals fun f => ?_
  rcases hi with rfl | rfl
  · exact transfer?_label context _ default f
  · exact transfer?_br context _ default f

theorem compareChain_dispatches (hscopes : s.scopes ≠ []) (hhint : value.hint = .only .int64)
    (hvalue : expr value .int64 s = .ok () s₁) (hcases : ∀ c ∈ cases, c.int?.isSome = true)
    (h : ∀ c ∈ cases, s.Near setting.graph c.target) (hdefault : s.Near setting.graph default) :
    DoesFrom (fun _ s' => s₁.Dispatches s' cases default)
      (compareChain setting (visit setting (depth + 1)) value cases default) s := by
  obtain ⟨scratch, s₂, hrun, hcode, hframes⟩ :=
    compareChain_run (visit setting (depth + 1)) hhint hvalue hcases h
  refine dispatches_of_run hrun hscopes hdefault hframes hcode ?_
  intro rest context x stack locals hrest
  rw [List.cons_append, transfer?_stloc]
  exact transfer?_comparisons (Function.update_self scratch _ locals) hcases (hrest _)

theorem jumpTable_dispatches {range : TableRange} {ints : List Int64} (hscopes : s.scopes ≠ [])
    (hvalue : expr value .int64 s = .ok () s₁) (hints : cases.mapM Case.int? = some ints)
    (hspan : TableRange.spanning? ints = some range) (hsize : range.size ≤ 2 ^ 31)
    (h : ∀ c ∈ cases, s.Near setting.graph c.target) (hdefault : s.Near setting.graph default) :
    DoesFrom (fun _ s' => s₁.Dispatches s' cases default)
      (jumpTable setting (visit setting (depth + 1)) value cases default range) s := by
  obtain ⟨index, s₂, hrun, hcode, hframes⟩ :=
    jumpTable_run (visit setting (depth + 1)) range hvalue h hdefault
  refine dispatches_of_run hrun hscopes hdefault hframes hcode ?_
  intro rest context x stack locals _
  exact transfer?_indexing hints hspan hsize (fun c hc => (h c hc).live) index rest x stack locals

/-- A switch whose value has been computed transfers control to the target of the first case with
that integer, or to the default, whether it is written as a jump through a table or, without tables,
as comparisons. The code is that of a run which may also fail later on. -/
theorem switch_dispatches_alike {g : Graph} {options : Options} {range : TableRange}
    (hscopes : s.scopes ≠ []) (hvalue : expr value .int64 s = .ok () s₁)
    (hrange : TableRange.ofCases? options (s.innermost g) value cases default = some range)
    (hsize : range.size ≤ 2 ^ 31) (live : ∀ c ∈ cases, g.isLive c.target = true)
    (hdefault : g.isLive default = true) (depth : Nat) (id : BlockId) :
    DoesFrom (fun _ s' => s₁.Dispatches s' cases default)
        (edge ⟨g, options⟩ (visit ⟨g, options⟩ (depth + 1)) id (.switch value cases default)) s ∧
      DoesFrom (fun _ s' => s₁.Dispatches s' cases default)
        (edge ⟨g, { options with jumpTables := false }⟩
          (visit ⟨g, { options with jumpTables := false }⟩ (depth + 1)) id
          (.switch value cases default)) s := by
  obtain ⟨-, ⟨ints, hints, hspan⟩, hwithin, hwithinDefault⟩ := TableRange.ofCases?_eq_some hrange
  have hnear : ∀ c ∈ cases, s.Near g c.target := fun c hc => ⟨live c hc, hwithin c hc⟩
  have hcases : ∀ c ∈ cases, c.int?.isSome = true := fun c hc => by
    obtain ⟨n, -, hn⟩ := TableRange.int?_of_mapM hints hc
    rw [hn]
    rfl
  constructor
  · unfold DoesFrom
    rw [switch_run]
    simp only [hrange]
    exact jumpTable_dispatches hscopes hvalue hints hspan hsize hnear ⟨hdefault, hwithinDefault⟩
  · unfold DoesFrom
    rw [switch_run]
    simp only [TableRange.ofCases?_disabled]
    exact compareChain_dispatches hscopes (TableRange.hint_of_ofCases? hrange) hvalue hcases hnear
      ⟨hdefault, hwithinDefault⟩

end Switch

end Gen

/-- The cases of a switch over the least integers, one of them twice, with a gap between them. -/
def Case.extremes : List Case :=
  [⟨.int Int64.minValue, 1⟩, ⟨.int (Int64.minValue + 3), 2⟩, ⟨.int (Int64.minValue + 1), 3⟩,
    ⟨.int (Int64.minValue + 3), 1⟩]

/-- A routine with a switch over the least integers. -/
def Graph.extremes : Graph where
  name := "extremes"
  vars := [⟨"key", .param 0, .int64, .only .int64⟩]
  blocks := [
    ⟨"entry", false, [], some (.switch (.var 0 (.only .int64)) Case.extremes 4)⟩,
    ⟨"first", false, [⟨.ret none, none⟩], none⟩,
    ⟨"last", false, [⟨.ret none, none⟩], none⟩,
    ⟨"second", false, [], some (.goto 0)⟩,
    ⟨"other", false, [⟨.ret none, none⟩], none⟩]

/-- The state in which the edge of the first block of the routine is written. -/
def State.atExtremes : State :=
  let start : State := { registry := {}, places := [⟨.argument 0, .int64, .only .int64⟩] }
  (start.opened .routine Graph.entry 5).entered false Graph.entry

/-- The table starts at the least integer, so that the difference to it wraps round for every
integer from zero on. -/
theorem Graph.extremes_dispatches_alike :
    State.atExtremes.scopes ≠ [] ∧
      ∃ s₁ range, Gen.expr (.var 0 (.only .int64)) .int64 State.atExtremes = .ok () s₁ ∧
        TableRange.ofCases? {} (State.atExtremes.innermost extremes) (.var 0 (.only .int64))
          Case.extremes 4 = some range ∧ range.size ≤ 2 ^ 31 ∧
        (∀ c ∈ Case.extremes, extremes.isLive c.target = true) ∧ extremes.isLive 4 = true ∧
        Gen.DoesFrom (fun _ s' => s₁.Dispatches s' Case.extremes 4)
          (Gen.edge ⟨extremes, {}⟩ (Gen.visit ⟨extremes, {}⟩ 5) 0
            (.switch (.var 0 (.only .int64)) Case.extremes 4)) State.atExtremes ∧
        Gen.DoesFrom (fun _ s' => s₁.Dispatches s' Case.extremes 4)
          (Gen.edge ⟨extremes, { jumpTables := false }⟩
            (Gen.visit ⟨extremes, { jumpTables := false }⟩ 5) 0
            (.switch (.var 0 (.only .int64)) Case.extremes 4)) State.atExtremes := by
  have hscopes : State.atExtremes.scopes ≠ [] := nofun
  obtain ⟨s₁, hvalue⟩ : ∃ s₁, Gen.expr (.var 0 (.only .int64)) .int64 State.atExtremes =
      .ok () s₁ := ⟨_, rfl⟩
  have hrange : TableRange.ofCases? {} (State.atExtremes.innermost extremes)
      (.var 0 (.only .int64)) Case.extremes 4 = some ⟨Int64.minValue, 4⟩ := by decide +kernel
  have live : ∀ c ∈ Case.extremes, extremes.isLive c.target = true := by decide
  exact ⟨hscopes, s₁, _, hvalue, hrange, by decide, live, rfl,
    Gen.switch_dispatches_alike hscopes hvalue hrange (by decide) live rfl 4 0⟩

end Linearizer
