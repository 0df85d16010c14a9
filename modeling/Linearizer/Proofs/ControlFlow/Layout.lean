import Linearizer.Proofs.ControlFlow.Trace
import Linearizer.Proofs.Generator.Coverage

/-!
# The layout of code without protected regions

Where no region is protected, no block is dead and no jump table is used, the code of a routine has
a simple shape: the label of a block is followed by its statements and by the code of its edge,
which ends with the label of the next block or with a branch to it.

- **Shapes** (`Walk`, `Reaches`, `EdgeAt`, `BodyAt`, `BlockAt`): what stands at a place of the code.
- **Layout** (`Emits.laid`): the code that a task writes has its shape, whatever comes after it, and
  so has that of every block that it writes.
-/

namespace Linearizer

/-! ## Shapes of code -/

/-- Control walks through plain instructions from `p` to `q`. -/
def Walk (code : List Insn) (p q : Nat) : Prop :=
  p ≤ q ∧ ∀ j, p ≤ j → j < q → ∃ i, code[j]? = some i ∧ i.isPlain = true

/-- At `p` stands the label of the block, or a branch to it. -/
def Reaches (code : List Insn) (p : Nat) (b : BlockId) : Prop :=
  code[p]? = some (.label (.block b)) ∨ code[p]? = some (.branch .br (.block b))

/-- The comparisons of a switch stand between two places. -/
inductive CasesAt (code : List Insn) : Nat → List Case → Nat → Prop
  | nil {p : Nat} : CasesAt code p [] p
  | cons {p q r : Nat} {c : Case} {rest : List Case} (hw : Walk code p q)
      (hb : code[q]? = some (.branch .brtrue (.block c.target)))
      (hr : CasesAt code (q + 1) rest r) : CasesAt code p (c :: rest) r

/-- At `p` stands the code of the edge. -/
inductive EdgeAt (code : List Insn) (p : Nat) : Edge → Prop
  | goto {target : BlockId} (h : Reaches code p target) : EdgeAt code p (.goto target)
  | conditional {condition : Expr} {ifTrue ifFalse : BlockId} {q : Nat} (hw : Walk code p q)
      (hb : code[q]? = some (.branch .brfalse (.block ifFalse)))
      (h : Reaches code (q + 1) ifTrue) : EdgeAt code p (.conditional condition ifTrue ifFalse)
  | «foreach» {subject : Expr} {next : BlockId} {q : Nat} (hw : Walk code p q)
      (h : Reaches code q next) : EdgeAt code p (.foreach subject next)
  | moveNext {source : BlockId} {value : VarId} {key : Option VarId} {body after : BlockId}
      {q r : Nat} (hw : Walk code p q) (hb : code[q]? = some (.branch .brfalse (.block after)))
      (hs : Walk code (q + 1) r) (h : Reaches code r body) :
      EdgeAt code p (.moveNext source value key body after)
  | switch {value : Expr} {cases : List Case} {default : BlockId} {q r : Nat}
      (hw : Walk code p q) (hc : CasesAt code q cases r) (h : Reaches code r default) :
      EdgeAt code p (.switch value cases default)

/-- At `p` stands an element that ends a run. -/
def EndsAt (code : List Insn) (p : Nat) (e : Ending) : Prop :=
  ∃ i, code[p]? = some i ∧ i.ending? = some e

/-- At `p` stands what follows the label of the block. -/
def BodyAt (code : List Insn) (p : Nat) (block : Block) : Prop :=
  ∃ q, Walk code p q ∧ match block.ending?, block.edge with
    | some e, _ => EndsAt code q e
    | none, none => EndsAt code q .returned
    | none, some e => EdgeAt code q e

/-- The label of the block stands somewhere, with its code after it. -/
def BlockAt (g : Graph) (code : List Insn) (b : BlockId) : Prop :=
  ∃ p block, g.block? b = some block ∧ code[p]? = some (.label (.block b)) ∧
    BodyAt code (p + 1) block

/-- Between `p` and `q` stands what the task has written. -/
def Task.At (code : List Insn) (p q : Nat) : Task → Prop
  | .visit _ b => Reaches code p b
  | .body _ block => BodyAt code p block
  | .edge _ e => EdgeAt code p e
  | .branch o target => code[p]? = some (.branch o (.block target)) ∧ q = p + 1
  | .cases _ _ list => CasesAt code p list q
  | _ => True

theorem Walk.refl (code : List Insn) (p : Nat) : Walk code p p :=
  ⟨Nat.le_refl p, fun _ hlo hhi => absurd hlo (Nat.not_le.mpr hhi)⟩

theorem Walk.trans {code : List Insn} {p q r : Nat} (h : Walk code p q) (h' : Walk code q r) :
    Walk code p r := by
  refine ⟨Nat.le_trans h.1 h'.1, fun j hp hr => ?_⟩
  rcases Nat.lt_or_ge j q with hq | hq
  · exact h.2 j hp hq
  · exact h'.2 j hq hr

/-! ## Code of states -/

section Code

variable {code : List Insn} {s s₁ s' : State}

theorem getElem?_of_grows {i : Insn} {rest : List Insn} (hc : s'.code = s.code ++ i :: rest)
    (h : s'.code <+: code) : code[s.code.length]? = some i := by
  obtain ⟨tail, rfl⟩ := h
  simp [hc]

/-- Control walks through plain code. -/
theorem Walk.of_plain {plain : List Insn} (hp : plain.all Insn.isPlain = true)
    (h : s.code ++ plain <+: code) : Walk code s.code.length (s.code.length + plain.length) := by
  refine ⟨Nat.le_add_right _ _, fun j hlo hhi => ?_⟩
  obtain ⟨tail, rfl⟩ := h
  have hj : j - s.code.length < plain.length := by omega
  refine ⟨plain[j - s.code.length], ?_, List.all_eq_true.mp hp _ (List.getElem_mem hj)⟩
  rw [List.append_assoc, List.getElem?_append_right hlo, List.getElem?_append_left hj]
  exact List.getElem?_eq_getElem hj

/-- So it does through what straight-line code has written. -/
theorem Straight.walk (h : Straight s s') (hc : s'.code <+: code) :
    Walk code s.code.length s'.code.length := by
  obtain ⟨plain, he, hp⟩ := h.code
  rw [he, List.length_append]
  rw [he] at hc
  exact .of_plain hp hc

end Code

/-! ## The one open scope -/

/-- The scope of the whole routine is the only one that is open. -/
def State.InRoutine (g : Graph) (s : State) : Prop := s.frames = [(.routine, 0, g.size)]

namespace State.InRoutine

variable {g : Graph} {s s' : State} {b : BlockId} {block : Block}

theorem scopes_eq (h : s.InRoutine g) : ∃ pending, s.scopes = [⟨.routine, 0, g.size, pending⟩] := by
  unfold InRoutine frames at h
  obtain ⟨scope, hs, hf⟩ := List.map_eq_singleton_iff.mp h
  obtain ⟨kind, lo, hi, pending⟩ := scope
  simp only [Prod.mk.injEq] at hf
  obtain ⟨rfl, rfl, rfl⟩ := hf
  exact ⟨pending, hs⟩

theorem lt_size (hb : g.block? b = some block) : b < g.size :=
  (List.getElem?_eq_some_iff.mp hb).1

/-- Every block lies in the scope of the routine. -/
theorem contains (h : s.InRoutine g) (hb : g.block? b = some block) :
    (s.innermost g).contains b = true := by
  obtain ⟨pending, hs⟩ := h.scopes_eq
  simp [innermost, hs, Scope.contains, lt_size hb]

/-- In the scope of the routine every exit is a branch. -/
theorem exitInsn_eq (h : s.InRoutine g) (hb : g.block? b = some block) :
    exitInsn s.scopes b = .branch .br (.block b) := by
  obtain ⟨pending, hs⟩ := h.scopes_eq
  simp [exitInsn, Gen.exitTo, hs, Scope.contains, lt_size hb]

theorem returnTop_run (h : s.InRoutine g) :
    Gen.returnTop s = .ok () (s.written (.op .ret)) := by
  obtain ⟨pending, hs⟩ := h.scopes_eq
  unfold Gen.returnTop
  rw [Gen.run_bind (Gen.get_run s), hs]
  rfl

end State.InRoutine

/-! ## Statements -/

/-- Straight-line code leads from `s` to `s'`, or to an element that ends the run. -/
def Ends (s s' : State) : Option Ending → Prop
  | none => Straight s s'
  | some e => ∃ s₁ i, Straight s s₁ ∧ i.ending? = some e ∧ (s₁.written i).code <+: s'.code

theorem Ends.after {s s₁ s' : State} {e : Option Ending} (h : Ends s₁ s' e) (hs : Straight s s₁) :
    Ends s s' e := by
  cases e with
  | none => exact hs.trans h
  | some e =>
    obtain ⟨s₂, i, hs₂, hi, hp⟩ := h
    exact ⟨s₂, i, hs.trans hs₂, hi, hp⟩

namespace Gen

variable {g : Graph} {s s' : State}

theorem returnTop_ends (h : s.InRoutine g) {m : Gen Unit} (hm : Does Straight m)
    (hr : (m >>= fun _ => returnTop) s = .ok () s') : Ends s s' (some .returned) := by
  obtain ⟨_, s₁, h₁, h₂⟩ := bind_ok hr
  have hs := hm.of_ok h₁
  have hin : s₁.InRoutine g := hs.frames.trans h
  rw [hin.returnTop_run] at h₂
  cases h₂
  exact ⟨s₁, _, hs, rfl, List.prefix_refl _⟩

/-- A statement that ends control ends with the instruction for it. -/
theorem action_ends (h : s.InRoutine g) {a : Action} (ha : action a s = .ok () s') :
    Ends s s' a.ending? := by
  cases a with
  | assign v e => exact (assign_straight v e).of_ok ha
  | append v e => exact (append_straight v e).of_ok ha
  | echo e => exact ((expr_straight e _).bind fun _ => call_straight rfl).of_ok ha
  | eval e => exact ((natural_straight e).bind fun _ => op_straight rfl).of_ok ha
  | ret value =>
    cases value with
    | none => exact returnTop_ends h (call_straight rfl) ha
    | some e => exact returnTop_ends h (expr_straight e _) ha
  | throw e =>
    obtain ⟨_, s₁, h₁, h₂⟩ := bind_ok ha
    cases h₂
    exact ⟨s₁, _, (expr_straight e _).of_ok h₁, rfl, List.prefix_refl _⟩

/-- What follows the first statement that ends the run is never reached. -/
theorem statements_ends (h : s.InRoutine g) {l : List Stmt} (hl : l.forM stmt s = .ok () s') :
    Ends s s' (l.findSome? (·.action.ending?)) := by
  induction l generalizing s with
  | nil =>
    cases hl
    exact .refl _
  | cons x rest ih =>
    obtain ⟨_, s₁, h₁, h₂⟩ := bind_ok hl
    have hspan : Straight s { s with span := x.span <|> s.span } :=
      ⟨⟨[], by simp [State.code], rfl⟩, rfl, rfl, rfl, rfl, rfl, rfl⟩
    have hx := (action_ends (s := { s with span := x.span <|> s.span }) h h₁).after hspan
    rw [List.findSome?_cons]
    cases he : x.action.ending? with
    | some e =>
      rw [he] at hx
      obtain ⟨s₂, i, hs₂, hi, hp⟩ := hx
      exact ⟨s₂, i, hs₂, hi, hp.trans (statements_calm g h₂).grows⟩
    | none =>
      rw [he] at hx
      have hin : s₁.InRoutine g := (Straight.frames hx).trans h
      exact (ih hin h₂).after hx

theorem nextPending_keeps {b : BlockId} (h : nextPending s = .ok (some b) s') :
    s'.frames = s.frames ∧ s'.code = s.code ∧ s'.emitted = s.emitted := by
  refine ⟨nextPending_frames h, ?_⟩
  obtain ⟨_, _, _, -, -, rfl⟩ := nextPending_some h
  exact ⟨rfl, rfl⟩

/-- The end of a block without an edge returns. -/
theorem fallOff_ends (h : s.InRoutine g) (hf : fallOff g s = .ok () s') :
    Ends s s' (some .returned) := by
  unfold fallOff at hf
  rw [run_bind (currentScope_run g s)] at hf
  obtain ⟨pending, hs⟩ := h.scopes_eq
  have hk : ¬ (s.innermost g).kind = .cleanup := by simp [State.innermost, hs]
  rw [if_neg hk] at hf
  exact returnTop_ends h (call_straight rfl) hf

end Gen

/-- What the generator takes for the end of a block is one. -/
theorem Block.ending?_of_endsInTerminal {block : Block} (h : block.endsInTerminal = true) :
    block.ending?.isSome = true := by
  obtain ⟨x, hx, ht⟩ := (Option.any_eq_true ..).mp h
  refine List.findSome?_isSome_iff.mpr ⟨x, List.mem_of_getLast? hx, ?_⟩
  cases ha : x.action with
  | ret | throw => rfl
  | _ =>
    rw [ha] at ht
    cases ht

/-- The place where the run ends. -/
theorem Ends.at {code : List Insn} {s s' : State} {e : Ending} (h : Ends s s' (some e))
    (hc : s'.code <+: code) : ∃ q, Walk code s.code.length q ∧ EndsAt code q e := by
  obtain ⟨s₁, i, hs, hi, hp⟩ := h
  have hw := hp.trans hc
  refine ⟨s₁.code.length, hs.walk ?_, i, getElem?_of_grows (s₁.code_written i) hw, hi⟩
  rw [State.code_written] at hw
  exact (List.prefix_append _ _).trans hw

/-- The code of a block is that of its statements and, if they go on, that of its edge. -/
theorem BodyAt.of_ends {code : List Insn} {s s₁ : State} {block : Block}
    (h : Ends s s₁ block.ending?) (hc : s₁.code <+: code)
    (hrest : block.ending? = none → ∃ q, Walk code s₁.code.length q ∧ match block.edge with
      | none => EndsAt code q .returned
      | some e => EdgeAt code q e) : BodyAt code s.code.length block := by
  unfold BodyAt
  cases he : block.ending? with
  | some e =>
    rw [he] at h
    exact h.at hc
  | none =>
    rw [he] at h
    obtain ⟨q, hw, hq⟩ := hrest he
    refine ⟨q, (Straight.walk h hc).trans hw, ?_⟩
    cases hedge : block.edge with
    | none =>
      rw [hedge] at hq
      exact hq
    | some e =>
      rw [hedge] at hq
      exact hq

/-! ## Layout -/

/-- The code that a block writes on the way from `s` to `s'` has its shape. -/
structure Lays (g : Graph) (s s' : State) : Prop where
  grows : s.code <+: s'.code
  blocks : ∀ code, s'.code <+: code → ∀ b ∈ s'.emitted, b ∈ s.emitted ∨ BlockAt g code b

namespace Lays

variable {g : Graph} {s s₁ s' : State}

theorem of_emitted (hg : s.code <+: s'.code) (he : s'.emitted = s.emitted) : Lays g s s' :=
  ⟨hg, fun _ _ _ hb => .inl (he ▸ hb)⟩

theorem of_straight (h : Straight s s') : Lays g s s' := of_emitted h.grows h.emitted

theorem of_calm (h : Calm s s') : Lays g s s' := of_emitted h.grows h.emitted

/-- Code that lays out blocks, after such code. -/
theorem trans (h : Lays g s s₁) (h' : Lays g s₁ s') : Lays g s s' := by
  refine ⟨h.grows.trans h'.grows, fun code hc b hb => ?_⟩
  obtain hb | hb := h'.blocks code hc b hb
  · exact h.blocks code (h'.grows.trans hc) b hb
  · exact .inr hb

end Lays

/-- The task has laid out its code. -/
structure Laid (g : Graph) (task : Task) (s s' : State) : Prop where
  lays : Lays g s s'
  shape : ∀ code, s'.code <+: code → task.At code s.code.length s'.code.length

/-- The label of a block stands before its code. -/
theorem Laid.of_entered {g : Graph} {viaEdge : Bool} {b : BlockId} {block : Block} {s s' : State}
    (hb : g.block? b = some block) (h : Laid g (.body b block) (s.entered viaEdge b) s') :
    Laid g (.visit viaEdge b) s s' := by
  have hc := s.code_entered viaEdge b
  have hgrows : s.code <+: (s.entered viaEdge b).code := ⟨_, hc.symm⟩
  refine ⟨⟨hgrows.trans h.lays.grows, fun code hp c hm => ?_⟩, fun code hp => ?_⟩
  · obtain hm | hm := h.lays.blocks code hp c hm
    · rw [State.emitted_entered, List.mem_cons] at hm
      refine hm.symm.imp_right ?_
      rintro rfl
      refine ⟨s.code.length, block, hb, getElem?_of_grows hc (h.lays.grows.trans hp), ?_⟩
      have hbody : BodyAt code (s.entered viaEdge c).code.length block := h.shape code hp
      rwa [hc, List.length_append] at hbody
    · exact .inr hm
  · exact .inl (getElem?_of_grows hc (h.lays.grows.trans hp))

/-- What the task does in the state is without protected regions. -/
def Task.Simple (g : Graph) (s : State) : Task → Prop
  | .body _ block => s.InRoutine g ∧ ∀ e ∈ block.edge, e.isProtected = false
  | .edge _ e => s.InRoutine g ∧ e.isProtected = false
  | .scope .. | .handlers _ | .cleanup .. => False
  | _ => s.InRoutine g

open Gen in
/-- Without protected regions, dead blocks and jump tables every task lays out its code. -/
theorem Emits.laid {setting : Setting} {task : Task} {s s' : State}
    (hj : setting.options.jumpTables = false)
    (hlive : ∀ block ∈ setting.graph.blocks, block.dead = false)
    (hprot : ∀ block ∈ setting.graph.blocks, ∀ e ∈ block.edge, e.isProtected = false)
    (h : Emits setting task s s') (hs : task.Simple setting.graph s) :
    Laid setting.graph task s s' := by
  induction h with
  | @revisit viaEdge b block s hb he =>
    have hc : (s.revisited b).code = s.code ++ [.branch .br (.block b)] := by
      rw [State.code_revisited, State.InRoutine.exitInsn_eq hs hb]
    exact ⟨.of_emitted ⟨_, hc.symm⟩ rfl, fun code hp => .inr (getElem?_of_grows hc hp)⟩
  -- No block is dead.
  | pass hb _ hd =>
    rw [hlive _ (List.mem_of_getElem? hb)] at hd
    cases hd
  | @enter viaEdge b block s s' hb _ _ _ _ ih =>
    refine .of_entered hb (ih ⟨(s.frames_unqueue b).trans hs, ?_⟩)
    exact hprot block (List.mem_of_getElem? hb)
  -- The scope of the routine has all blocks, so none is left to another one.
  | leave hb _ _ out _ =>
    have hc := State.InRoutine.contains hs hb
    exact absurd out (Nat.not_le.mpr (of_decide_eq_true (Bool.and_eq_true_iff.mp hc).2))
  | @stop b block s s' hst ht =>
    -- The block ends with a statement, which is all of its code.
    refine ⟨.of_calm (statements_calm setting.graph hst), fun code hp => ?_⟩
    refine .of_ends (statements_ends hs.1 hst) hp fun hn => ?_
    have hsome := Block.ending?_of_endsInTerminal ht
    rw [hn] at hsome
    cases hsome
  | @goOn b block e s s₁ s' hst _ he _ ih =>
    have hcalm := statements_calm setting.graph hst
    have hlaid := ih ⟨hcalm.frames.trans hs.1, hs.2 e he⟩
    refine ⟨(Lays.of_calm hcalm).trans hlaid.lays, fun code hp => ?_⟩
    refine .of_ends (statements_ends hs.1 hst) (hlaid.lays.grows.trans hp) fun _ => ?_
    rw [he]
    exact ⟨s₁.code.length, .refl _ _, hlaid.shape code hp⟩
  | @fallOff b block s s₁ s' hst _ he hf =>
    have hcalm := statements_calm setting.graph hst
    have hoff := fallOff_calm hf
    refine ⟨.of_calm (hcalm.trans hoff), fun code hp => ?_⟩
    refine .of_ends (statements_ends hs.1 hst) (hoff.grows.trans hp) fun _ => ?_
    rw [he]
    exact (fallOff_ends (hcalm.frames.trans hs.1) hf).at hp
  | drop hb hd _ =>
    rw [hlive _ (List.mem_of_getElem? hb)] at hd
    cases hd
  | @direct o target block s s' _ _ _ _ hsch =>
    have ha := schedule_adds hsch
    have hc := ha.code_eq.trans (s.code_branched o (.block target))
    refine ⟨.of_emitted ⟨_, hc.symm⟩ ha.emitted, fun code hp => ⟨getElem?_of_grows hc hp, ?_⟩⟩
    rw [hc, List.length_append]
    rfl
  -- A jump over an exit would leave the scope of the routine.
  | detour _ hb _ out =>
    rw [State.InRoutine.contains hs hb] at out
    cases out
  | scope => exact hs.elim
  | drained => exact ⟨.of_emitted (List.prefix_refl _) rfl, fun _ _ => trivial⟩
  | skip hn _ _ ih =>
    obtain ⟨hf, hc, he⟩ := nextPending_keeps hn
    have hlaid := ih (hf.trans hs)
    exact ⟨(Lays.of_emitted (hc ▸ List.prefix_refl _) he).trans hlaid.lays, fun _ _ => trivial⟩
  | next hn _ hvisit _ ihv ihr =>
    obtain ⟨hf, hc, he⟩ := nextPending_keeps hn
    have hv := ihv (hf.trans hs)
    have hr := ihr (hvisit.frames.trans (hf.trans hs))
    exact ⟨(Lays.of_emitted (hc ▸ List.prefix_refl _) he).trans (hv.lays.trans hr.lays), fun _ _ =>
      trivial⟩
  | goto _ ih =>
    have hlaid := ih hs.1
    exact ⟨hlaid.lays, fun code hp => .goto (hlaid.shape code hp)⟩
  | conditional hc hbranch _ ihb ihv =>
    have hst := (expr_straight _ _).of_ok hc
    have hb := ihb (hst.frames.trans hs.1)
    have hv := ihv (hbranch.frames.trans (hst.frames.trans hs.1))
    refine ⟨(Lays.of_straight hst).trans (hb.lays.trans hv.lays), fun code hp => ?_⟩
    have hp₂ := hv.lays.grows.trans hp
    obtain ⟨hi, hq⟩ := hb.shape code hp₂
    exact .conditional (hst.walk (hb.lays.grows.trans hp₂)) hi (hq ▸ hv.shape code hp)
  | «foreach» ha _ ih =>
    have hst := (acquire_straight _).of_ok ha
    have hv := ih (hst.frames.trans hs.1)
    refine ⟨(Lays.of_straight hst).trans ⟨hv.lays.grows, hv.lays.blocks⟩, fun code hp => ?_⟩
    exact .foreach (hst.walk (hv.lays.grows.trans hp)) (hv.shape code hp)
  | moveNext _ ha hbranch hstore _ ihb ihv =>
    have hst := (advance_straight _).of_ok ha
    have hst' := (storeItem_straight _ _ _).of_ok hstore
    have hin := hbranch.frames.trans (hst.frames.trans hs.1)
    have hb := ihb (hst.frames.trans hs.1)
    have hv := ihv (hst'.frames.trans hin)
    have hrest := (Lays.of_straight hst').trans hv.lays
    refine ⟨(Lays.of_straight hst).trans (hb.lays.trans hrest), fun code hp => ?_⟩
    have hp₃ := hv.lays.grows.trans hp
    have hp₂ := hst'.grows.trans hp₃
    obtain ⟨hi, hq⟩ := hb.shape code hp₂
    exact .moveNext (hst.walk (hb.lays.grows.trans hp₂)) hi (hq ▸ hst'.walk hp₃) (hv.shape code hp)
  | chain _ hv hcases _ ihc ihv =>
    have hst := (select_straight _).of_ok hv
    have hc := ihc (hst.frames.trans hs.1)
    have hd := ihv (hcases.frames.trans (hst.frames.trans hs.1))
    refine ⟨(Lays.of_straight hst).trans (hc.lays.trans hd.lays), fun code hp => ?_⟩
    have hp₂ := hd.lays.grows.trans hp
    exact .switch (hst.walk (hc.lays.grows.trans hp₂)) (hc.shape code hp₂) (hd.shape code hp)
  -- Jump tables are switched off.
  | table hr =>
    rw [(TableRange.ofCases?_eq_some hr).1] at hj
    cases hj
  | noCase => exact ⟨.of_emitted (List.prefix_refl _) rfl, fun _ _ => .nil⟩
  | case hc hbranch _ ihb ihr =>
    have hst := (compare_straight _ _ _).of_ok hc
    have hb := ihb (hst.frames.trans hs)
    have hr := ihr (hbranch.frames.trans (hst.frames.trans hs))
    refine ⟨(Lays.of_straight hst).trans (hb.lays.trans hr.lays), fun code hp => ?_⟩
    have hp₂ := hr.lays.grows.trans hp
    obtain ⟨hi, hq⟩ := hb.shape code hp₂
    exact .cons (hst.walk (hb.lays.grows.trans hp₂)) hi (hq ▸ hr.shape code hp)
  | protect => cases hs.2
  | noHandler | handler | noCleanup | cleanup => exact hs.elim

end Linearizer
