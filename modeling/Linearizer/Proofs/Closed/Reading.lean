import Linearizer.Proofs.Closed.Identifiers
import Linearizer.Source.Routine

/-!
# The reader keeps routines closed

Reading a line looks up variables and blocks that the routine has, and adds classes and variables
that it does not have yet. What was read before stays in range while the routine grows.

* `Read.Gives known ids m`: in a routine that has what `known` names, `m` extends the routine, and
  the result of a run that returns names what the routine has then;
* the `*_gives` lemmas follow the functions that read tokens, expressions and lines;
* `Source.routine_closed` and `Source.parse_closed` are the results for routines and whole texts.
-/

namespace Linearizer
namespace Source
namespace Read

/-- What a line inside a block names. -/
def Content.ids : Content → Ids
  | .action a => a.ids
  | .edge e => e.ids

variable {α β : Type} {known : Ids} {ids : α → Ids} {ids' : β → Ids}

/-- What a computation gives (module doc). -/
def Gives (known : Ids) (ids : α → Ids) (m : Read α) : Prop :=
  ∀ r a r', known.In r.graph → m r = .ok a r' →
    r.graph.Extends r'.graph ∧ (ids a).In r'.graph

/-! ## Rules -/

/-- A result that names only what is known leaves the routine as it is. -/
theorem Gives.pure {a : α} (h : ∀ g, known.In g → (ids a).In g) :
    Gives known ids (pure a : Read α) := by
  rintro r _ _ hk ⟨⟩
  exact ⟨.refl _, h _ hk⟩

theorem Gives.throw (c : Complaint) : Gives known ids (throw c : Read α) := nofun

/-- What is known before a computation is known after it, together with what its result names. -/
theorem Gives.bind {m : Read α} {f : α → Read β} (hm : Gives known ids m)
    (hf : ∀ a, Gives (known ++ ids a) ids' (f a)) : Gives known ids' (m >>= f) := by
  intro r b r' hk h
  change EStateM.bind m f r = _ at h
  unfold EStateM.bind at h
  cases hr : m r with
  | error c r₁ =>
    rw [hr] at h
    cases h
  | ok a r₁ =>
    rw [hr] at h
    obtain ⟨hg, ha⟩ := hm r a r₁ hk hr
    obtain ⟨hg', hb⟩ := hf a r₁ b r' (Ids.in_append.mpr ⟨hk.extends hg, ha⟩) h
    exact ⟨hg.trans hg', hb⟩

theorem Gives.get_bind {f : Reader → Read β} (h : ∀ r, Gives known ids' (f r)) :
    Gives known ids' (get >>= f) := fun r => h r r

/-- A function of the result names what the result does. -/
theorem Gives.map {m : Read α} {f : α → β} (hm : Gives known ids m)
    (h : ∀ a g, known.In g → (ids a).In g → (ids' (f a)).In g) : Gives known ids' (f <$> m) := by
  rw [map_eq_pure_bind]
  refine hm.bind fun a => Gives.pure fun g hk => ?_
  exact h a g (Ids.in_append.mp hk).1 (Ids.in_append.mp hk).2

/-- A change that extends the routine. -/
theorem Gives.modify {f : Reader → Reader}
    (h : ∀ r : Reader, known.In r.graph → r.graph.Extends (f r).graph) :
    Gives known (fun _ => ∅) (modify f : Read Unit) := by
  rintro r _ _ hk ⟨⟩
  exact ⟨h r hk, Ids.in_empty⟩

/-! ## Single tokens -/

theorem peek_gives : Gives known (fun _ => ∅) peek := by
  rintro r _ _ - ⟨⟩
  exact ⟨.refl _, Ids.in_empty⟩

theorem skip_gives : Gives known (fun _ => ∅) skip := Gives.modify fun r _ => .refl r.graph

theorem missing_gives (wanted : Wanted) : Gives known ids (missing wanted) :=
  peek_gives.bind fun _ => Gives.throw _

theorem finish_gives : Gives known (fun _ => ∅) finish := by
  refine peek_gives.bind fun found => ?_
  split
  · exact Gives.throw _
  · exact Gives.pure fun _ _ => Ids.in_empty

theorem eat_gives (token : Token) : Gives known (fun _ => ∅) (eat token) := by
  refine peek_gives.bind fun found => ?_
  split
  · exact skip_gives.bind fun _ => Gives.pure fun _ _ => Ids.in_empty
  · exact Gives.pure fun _ _ => Ids.in_empty

theorem expectSymbol_gives (s : Symbol) : Gives known (fun _ => ∅) (expectSymbol s) := by
  refine (eat_gives _).bind fun found => ?_
  split
  · exact missing_gives _
  · exact Gives.pure fun _ _ => Ids.in_empty

theorem expectKeyword_gives (w : String) : Gives known (fun _ => ∅) (expectKeyword w) := by
  refine (eat_gives _).bind fun found => ?_
  split
  · exact missing_gives _
  · exact Gives.pure fun _ _ => Ids.in_empty

theorem word_gives (wanted : Wanted) : Gives known (fun _ => ∅) (word wanted) := by
  refine peek_gives.bind fun found => ?_
  split
  · exact skip_gives.bind fun _ => Gives.pure fun _ _ => Ids.in_empty
  · exact missing_gives _

theorem optionalName_gives : Gives known (fun _ => ∅) optionalName := by
  refine peek_gives.bind fun found => ?_
  split
  · exact skip_gives.bind fun _ => Gives.pure fun _ _ => Ids.in_empty
  · exact Gives.pure fun _ _ => Ids.in_empty

theorem variableName_gives : Gives known (fun _ => ∅) variableName := by
  refine optionalName_gives.bind fun name => ?_
  split
  · exact Gives.pure fun _ _ => Ids.in_empty
  · exact missing_gives _

/-! ## Names -/

/-- A name that the routine is searched for gives the place at which it is found. -/
theorem lookup_gives (find : Graph → Option Nat) (c : Complaint) {ids : Nat → Ids}
    (h : ∀ g i, find g = some i → (ids i).In g) :
    Gives known ids (do
      match find (← get).graph with
      | some i => return i
      | none => throw c) := by
  intro r i r' _ hr
  change (match find r.graph with
    | some i => return i
    | none => throw c : Read Nat) r = _ at hr
  cases hf : find r.graph with
  | none =>
    rw [hf] at hr
    cases hr
  | some j =>
    rw [hf] at hr
    cases hr
    exact ⟨.refl _, h _ _ hf⟩

/-- The variable of a name that is found is one of the routine's. -/
theorem varId_gives (name : String) : Gives known (fun v => .ofVars [v]) (varId name) := by
  refine lookup_gives (·.findVar? name) (.undeclared name) fun g v hv => ?_
  refine Ids.in_ofVars.mpr fun w hw => ?_
  obtain rfl := List.mem_singleton.mp hw
  exact (List.findIdx?_eq_some_iff_getElem.mp hv).1

theorem var_gives : Gives known (fun v => .ofVars [v]) var :=
  variableName_gives.bind fun name => varId_gives name

theorem var?_gives : Gives known (fun v => .ofVars v.toList) var? := by
  refine optionalName_gives.bind fun name => ?_
  split
  · exact (varId_gives _).map fun v g _ hv => by simpa using hv
  · exact Gives.pure fun g _ => by simp

/-- So is the block of a name that is found. -/
theorem block_gives : Gives known (fun b => .ofBlocks [b]) block := by
  refine (word_gives _).bind fun name => ?_
  refine lookup_gives (·.findBlock? name) (.unknownBlock name) fun g b hb => ?_
  refine Ids.in_ofBlocks.mpr fun c hc => ?_
  obtain rfl := List.mem_singleton.mp hc
  exact (List.findIdx?_eq_some_iff_getElem.mp hb).1

/-- A class that is looked up or added is one of the routine's, and the names stay distinct. -/
theorem internClass_extends (g : Graph) (name : String) :
    g.Extends (g.internClass name).2 ∧
      (g.internClass name).1 < (g.internClass name).2.classes.length := by
  unfold Graph.internClass
  split
  · rename_i c hc
    exact ⟨.refl g, (List.findIdx?_eq_some_iff_getElem.mp hc).1⟩
  · rename_i hn
    have hnew : name ∉ g.classes := by simpa [List.idxOf?_eq_none_iff] using hn
    refine ⟨⟨Nat.le_refl _, Nat.le_refl _, by simp, fun h => ?_⟩, by simp⟩
    refine ⟨h.blockNames, h.varNames, ?_, ?_⟩
    · exact List.nodup_append.mpr ⟨h.classNames, List.nodup_singleton _, by grind⟩
    · exact h.ids.mono (Nat.le_refl _) (Nat.le_refl _) (by simp)

/-- A class is the routine's after its name has been read, since it is added where it is new. -/
theorem cls_gives : Gives known (fun c => .ofClasses [c]) cls := by
  refine (word_gives _).bind fun name => ?_
  rintro r _ _ - ⟨⟩
  obtain ⟨hg, hc⟩ := internClass_extends r.graph name
  refine ⟨hg, Ids.in_ofClasses.mpr fun c h => ?_⟩
  obtain rfl := List.mem_singleton.mp h
  exact hc

/-! ## Hints and encodings -/

theorem moreNames_gives (steps : Nat) : Gives known (fun _ => ∅) (moreNames steps) := by
  induction steps generalizing known with
  | zero => exact Gives.pure fun _ _ => Ids.in_empty
  | succ steps ih =>
    refine (eat_gives _).bind fun found => ?_
    split
    · refine (word_gives _).bind fun name => ih.bind fun rest => ?_
      exact Gives.pure fun _ _ => Ids.in_empty
    · exact Gives.pure fun _ _ => Ids.in_empty

theorem hint_gives : Gives known (fun _ => ∅) hint := by
  refine (word_gives _).bind fun first => Gives.get_bind fun r => ?_
  refine (moreNames_gives _).bind fun rest => ?_
  split
  · exact Gives.pure fun _ _ => Ids.in_empty
  · exact Gives.throw _

/-- An encoding names at most the class of its objects. -/
theorem encoding_gives : Gives known Encoding.ids encoding := by
  refine (word_gives _).bind fun name => ?_
  split
  · refine (eat_gives _).bind fun found => ?_
    split
    · refine cls_gives.bind fun c => (expectSymbol_gives _).bind fun _ => ?_
      exact Gives.pure fun g hk => by simp_all [Encoding.ids]
    · exact Gives.pure fun g _ => by simp [Encoding.ids]
  · rename_i e hne _
    refine Gives.pure fun g _ => ?_
    cases e with
    | object cls => exact absurd rfl (hne cls)
    | _ => exact Ids.in_empty
  · exact Gives.throw _

theorem declaration_gives : Gives known (fun d => d.2.1.ids) declaration := by
  refine variableName_gives.bind fun name => (expectSymbol_gives _).bind fun _ => ?_
  refine encoding_gives.bind fun e => (eat_gives _).bind fun found => ?_
  split
  · exact hint_gives.bind fun h => Gives.pure fun g hk => by simp_all
  · exact Gives.pure fun g hk => by simp_all

/-! ## Expressions -/

/-- A hint does not change what an expression names. -/
theorem rehint_gives (e : Expr) (h : ∀ g, known.In g → e.ids.In g) :
    Gives known Expr.ids (e.withHint <$> hint) :=
  hint_gives.map fun _ g hk _ => by simpa using h g hk

/-- Expressions and lists of them, one step after the other. -/
theorem within_gives (steps : Nat) :
    (∀ known, Gives known Expr.ids (exprWithin steps)) ∧
      ∀ known, Gives known Expr.listIds (itemsWithin steps) := by
  induction steps with
  | zero => exact ⟨fun _ => missing_gives _, fun _ => missing_gives _⟩
  | succ steps ih =>
    obtain ⟨exprGives, itemsGive⟩ := ih
    -- What is known grows from token to token, so the hypotheses are for all of it.
    refine ⟨fun known => ?_, fun known => ?_⟩
    · refine peek_gives.bind fun token => skip_gives.bind fun _ => ?_
      cases token with
      | none => exact Gives.throw _
      | some token =>
        cases token with
        | int n => exact Gives.pure fun _ _ => Ids.in_empty
        | double x => exact Gives.pure fun _ _ => Ids.in_empty
        | text s => exact Gives.pure fun _ _ => Ids.in_empty
        | «variable» name =>
          refine (varId_gives _).bind fun v => Gives.get_bind fun r => ?_
          exact Gives.pure fun g hk => (Ids.in_append.mp hk).2
        | symbol s =>
          cases s with
          | openParen =>
            refine (exprGives _).bind fun inner => (eat_gives _).bind fun found => ?_
            split
            · refine (rehint_gives inner fun g hk => ?_).bind fun e => ?_
              · exact (Ids.in_append.mp (Ids.in_append.mp hk).1).2
              · exact (expectSymbol_gives _).bind fun _ => Gives.pure fun g hk => by simp_all
            · exact (expectSymbol_gives _).bind fun _ => Gives.pure fun g hk => by simp_all
          | _ => exact Gives.throw _
        | word name =>
          dsimp only
          split
          · exact cls_gives.bind fun c => Gives.pure fun g hk => (Ids.in_append.mp hk).2
          · exact (exprGives _).bind fun e => Gives.pure fun g hk => (Ids.in_append.mp hk).2
          · refine (expectSymbol_gives _).bind fun _ => (eat_gives _).bind fun found => ?_
            split
            · exact Gives.pure fun _ _ => Ids.in_empty
            · exact (itemsGive _).bind fun items => Gives.pure fun g hk => (Ids.in_append.mp hk).2
          · split
            · exact Gives.pure fun _ _ => Ids.in_empty
            · refine (exprGives _).bind fun left => (expectSymbol_gives _).bind fun _ => ?_
              refine (exprGives _).bind fun right => Gives.pure fun g hk => ?_
              simp_all [Expr.ofBinary, Expr.ids]
            · exact Gives.throw _
    · refine (exprGives _).bind fun first => (eat_gives _).bind fun found => ?_
      split
      · exact Gives.pure fun g hk => by simp_all [Expr.listIds]
      · refine (expectSymbol_gives _).bind fun _ => (itemsGive _).bind fun rest => ?_
        exact Gives.pure fun g hk => by simp_all [Expr.listIds]

theorem expr_gives : Gives known Expr.ids expr :=
  Gives.get_bind fun r => (within_gives r.tokens.length).1 known

/-! ## Lines -/

/-- Handlers, one clause after the other. -/
theorem handlers_gives (steps : Nat) :
    Gives known (fun hs => .gather (hs.map Handler.ids)) (handlers steps) := by
  induction steps generalizing known with
  | zero => exact Gives.pure fun _ _ => by simp
  | succ steps ih =>
    refine (eat_gives _).bind fun found => ?_
    split
    · refine cls_gives.bind fun c => var?_gives.bind fun v => ?_
      refine (expectSymbol_gives _).bind fun _ => block_gives.bind fun target => ?_
      refine ih.bind fun rest => Gives.pure fun g hk => ?_
      simp only [Ids.in_append, Ids.in_empty, and_true] at hk
      obtain ⟨⟨⟨⟨-, hc⟩, hv⟩, ht⟩, hrest⟩ := hk
      rw [List.map_cons, Ids.in_gather, List.forall_mem_cons]
      exact ⟨by simp_all [Handler.ids], Ids.in_gather.mp hrest⟩
    · exact Gives.pure fun _ _ => by simp

/-- A protected region names its blocks and what its handlers name. -/
theorem protect_gives : Gives known Edge.ids protect := by
  have rest (body : BlockId) (hs : List Handler) (cleanup : Option BlockId) {known : Ids}
      (h : ∀ g, known.In g →
        (Ids.ofBlocks (body :: cleanup.toList) ++ .gather (hs.map Handler.ids)).In g) :
      Gives known Edge.ids (do
        expectKeyword "end"
        return .protect body hs cleanup (← block)) := by
    refine (expectKeyword_gives _).bind fun _ => block_gives.bind fun next => ?_
    refine Gives.pure fun g hk => ?_
    simp only [Ids.in_append, Ids.in_empty, and_true] at hk
    have := h g hk.1
    simp_all [Edge.ids, or_imp, forall_and]
  refine block_gives.bind fun body => Gives.get_bind fun r => ?_
  refine (handlers_gives _).bind fun hs => (eat_gives _).bind fun found => ?_
  split
  · have cleanup_gives {known : Ids} :
        Gives known (fun c => .ofBlocks c.toList) (some <$> block) :=
      block_gives.map fun c g _ hc => by simpa using hc
    exact cleanup_gives.bind fun cleanup => rest body hs cleanup fun g hk => by simp_all
  · exact rest body hs none fun g hk => by simp_all

/-- The cases of a switch, one clause after the other. -/
theorem cases_gives (steps : Nat) :
    Gives known (fun cs => .ofBlocks (cs.map Case.target)) (cases steps) := by
  induction steps generalizing known with
  | zero => exact Gives.pure fun _ _ => by simp
  | succ steps ih =>
    refine (eat_gives _).bind fun found => ?_
    split
    · refine expr_gives.bind fun e => ?_
      split
      · refine (expectSymbol_gives _).bind fun _ => block_gives.bind fun target => ?_
        exact ih.bind fun rest => Gives.pure fun g hk => by simp_all
      · exact Gives.throw _
    · exact Gives.pure fun _ _ => by simp

theorem switch_gives : Gives known Edge.ids switch := by
  refine expr_gives.bind fun value => Gives.get_bind fun r => ?_
  refine (cases_gives _).bind fun cs => (expectKeyword_gives _).bind fun _ => ?_
  refine (expectSymbol_gives _).bind fun _ => block_gives.bind fun default => ?_
  refine Gives.pure fun g hk => ?_
  simp_all [Edge.ids, or_imp]

/-- What follows the first word of a line names what the routine has. -/
theorem afterWord_gives (w : String) : Gives known Content.ids (afterWord w) := by
  unfold afterWord
  split
  · exact expr_gives.bind fun e => Gives.pure fun g hk => (Ids.in_append.mp hk).2
  · exact expr_gives.bind fun e => Gives.pure fun g hk => (Ids.in_append.mp hk).2
  · exact expr_gives.bind fun e => Gives.pure fun g hk => (Ids.in_append.mp hk).2
  · -- A return with a value or without.
    refine peek_gives.bind fun found => ?_
    split
    · exact Gives.pure fun g _ => Ids.in_empty
    · exact expr_gives.bind fun e => Gives.pure fun g hk => (Ids.in_append.mp hk).2
  · exact block_gives.bind fun b => Gives.pure fun g hk => (Ids.in_append.mp hk).2
  · -- A conditional branch.
    refine expr_gives.bind fun e => (expectKeyword_gives _).bind fun _ => ?_
    refine block_gives.bind fun ifTrue => (expectKeyword_gives _).bind fun _ => ?_
    refine block_gives.bind fun ifFalse => Gives.pure fun g hk => ?_
    simp_all [Content.ids, Edge.ids]
  · exact protect_gives.bind fun e => Gives.pure fun g hk => (Ids.in_append.mp hk).2
  · -- The start of an enumeration.
    refine expr_gives.bind fun e => (expectSymbol_gives _).bind fun _ => ?_
    refine block_gives.bind fun next => Gives.pure fun g hk => ?_
    simp_all [Content.ids, Edge.ids]
  · -- Its next item.
    refine block_gives.bind fun source => var_gives.bind fun value => var?_gives.bind fun key => ?_
    refine (expectKeyword_gives _).bind fun _ => block_gives.bind fun body => ?_
    refine (expectKeyword_gives _).bind fun _ => block_gives.bind fun after => ?_
    refine Gives.pure fun g hk => ?_
    simp_all [Content.ids, Edge.ids]
  · exact switch_gives.bind fun e => Gives.pure fun g hk => (Ids.in_append.mp hk).2
  · exact Gives.throw _

/-- A line inside a block names what the routine has. -/
theorem line_gives : Gives known Content.ids line := by
  refine var?_gives.bind fun target => ?_
  split
  · refine (eat_gives _).bind fun found => ?_
    split
    · refine expr_gives.bind fun e => Gives.pure fun g hk => ?_
      simp_all [Content.ids, Action.ids]
    · refine (expectSymbol_gives _).bind fun _ => expr_gives.bind fun e => ?_
      refine Gives.pure fun g hk => ?_
      simp_all [Content.ids, Action.ids]
  · exact (word_gives _).bind fun w => afterWord_gives w

theorem contentLine_gives : Gives known Content.ids contentLine := by
  refine line_gives.bind fun content => finish_gives.bind fun _ => ?_
  exact Gives.pure fun g hk => by simp_all

/-! ## Declarations -/

/-- A variable of a new name, with an encoding that the routine knows. -/
theorem declare_extends {g : Graph} {v : Variable} (hv : v.encoding.ids.In g)
    (hn : g.findVar? v.name = none) : g.Extends (g.declare v) := by
  refine ⟨Nat.le_refl _, by simp [Graph.declare], Nat.le_refl _, fun h => ?_⟩
  have grown {u : Ids} (hu : u.In g) : u.In (g.declare v) :=
    hu.mono (Nat.le_refl _) (by simp [Graph.declare]) (Nat.le_refl _)
  refine ⟨h.blockNames, ?_, h.classNames, ?_⟩
  · have hnew : v.name ∉ g.vars.map Variable.name := by
      simpa [Graph.findVar?] using hn
    simpa [Graph.declare, List.nodup_append] using ⟨h.varNames, by grind⟩
  · have hids := grown h.ids
    have hv' := grown hv
    simp_all [Graph.ids, Graph.declare, or_imp]

/-- A declaration extends the routine if a new variable of its name does. -/
theorem declare_gives {name : String} {add : Graph → Graph}
    (h : ∀ g, known.In g → g.findVar? name = none → g.Extends (add g)) :
    Gives known (fun _ => ∅) (declare name add) := by
  intro r _ r' hk hr
  change (if (r.graph.findVar? name).isSome then _ else _ : Read Unit) r = _ at hr
  split at hr
  · cases hr
  · rename_i hn
    cases hr
    exact ⟨h _ hk (by simpa using hn), Ids.in_empty⟩

/-- Parameters, one after the other. -/
theorem params_gives (steps : Nat) : Gives known (fun _ => ∅) (params steps) := by
  induction steps generalizing known with
  | zero => exact missing_gives _
  | succ steps ih =>
    refine declaration_gives.bind fun d => ?_
    refine (declare_gives fun g hk hn => ?_).bind fun _ => (eat_gives _).bind fun found => ?_
    · exact declare_extends (Ids.in_append.mp hk).2 hn
    · split
      · exact Gives.pure fun _ _ => Ids.in_empty
      · exact (expectSymbol_gives _).bind fun _ => ih

/-- The line that opens a routine names it and declares its parameters. -/
theorem header_gives : Gives known (fun _ => ∅) header := by
  have rest {known : Ids} : Gives known (fun _ => ∅) (do expectSymbol .openBrace; finish) :=
    (expectSymbol_gives _).bind fun _ => finish_gives
  refine (expectKeyword_gives _).bind fun _ => (word_gives _).bind fun name => ?_
  refine (Gives.modify fun r _ => ?_).bind fun _ => (expectSymbol_gives _).bind fun _ => ?_
  -- The name of a routine is not among what lines refer to.
  · exact ⟨Nat.le_refl _, Nat.le_refl _, Nat.le_refl _, fun h =>
      ⟨h.blockNames, h.varNames, h.classNames, h.ids.mono (Nat.le_refl _) (Nat.le_refl _)
        (Nat.le_refl _)⟩⟩
  · refine (eat_gives _).bind fun found => ?_
    split
    · exact Gives.get_bind fun r => (params_gives _).bind fun _ => rest
    · exact rest

theorem variableLine_gives (home : VarHome) :
    Gives known (fun _ => ∅) (variableLine home) := by
  refine declaration_gives.bind fun d => finish_gives.bind fun _ => ?_
  refine declare_gives fun g hk hn => declare_extends ?_ hn
  exact (Ids.in_append.mp (Ids.in_append.mp hk).1).2

end Read

/-! ## Routines -/

theorem bind_eq_ok {ε α β : Type} {x : Except ε α} {f : α → Except ε β} {b : β}
    (h : x >>= f = .ok b) : ∃ a, x = .ok a ∧ f a = .ok b := by
  cases x with
  | error e => cases h
  | ok a => exact ⟨a, rfl, h⟩

/-- Reading a line of a routine extends it. -/
theorem readLine_gives {α : Type} {ids : α → Ids} {m : Read α} (hm : Read.Gives ∅ ids m) {l : Line}
    {g g' : Graph} {a : α} (h : readLine l g m = .ok (a, g')) : g.Extends g' ∧ (ids a).In g' := by
  unfold readLine at h
  split at h
  · rename_i r hr
    cases h
    exact hm _ _ _ Ids.in_empty hr
  · cases h

/-- A block without content, with a label that is new. -/
theorem collectBlocks_closed {lines : List Line} {g g' : Graph} (h : g.Closed)
    (hr : collectBlocks lines g = .ok g') : g'.Closed := by
  induction lines generalizing g with
  | nil =>
    cases hr
    exact h
  | cons l rest ih =>
    unfold collectBlocks at hr
    split at hr
    · exact ih h hr
    · rename_i name dead _
      split at hr
      · cases hr
      · rename_i hn
        have hnew : name ∉ g.blocks.map Block.name := by simpa [Graph.findBlock?] using hn
        refine ih (h.withBlocks (by simp [Graph.size]) ?_ fun b hb => ?_) hr
        · rw [List.map_append]
          exact List.nodup_append.mpr ⟨h.blockNames, List.nodup_singleton _, by grind⟩
        · rcases List.mem_append.mp hb with hb | hb
          · exact h.block hb
          -- Blocks are collected before any has content, so the new one names nothing.
          · obtain rfl := List.mem_singleton.mp hb
            simp [Block.ids]

/-- New content of a block adds what it names itself. -/
theorem addContent_ids {g : Graph} {content : Read.Content} (hc : content.ids.In g) (l : Line)
    {b : Block} (hb : b.ids.In g) : (addContent l content b).ids.In g := by
  cases content with
  | action a => simp_all [addContent, Block.ids, Read.Content.ids, or_imp]
  | edge e => simp_all [addContent, Block.ids, Read.Content.ids]

/-- A block may take any content that names what the routine has. -/
theorem addContent_extends {g : Graph} {content : Read.Content} (hc : content.ids.In g) (l : Line)
    (b : BlockId) :
    g.Extends { g with blocks := g.blocks.modify b (addContent l content) } := by
  have hname (x : Block) : (addContent l content x).name = x.name := by
    cases content <;> rfl
  have hnames : (g.blocks.modify b (addContent l content)).map Block.name =
      g.blocks.map Block.name := by
    refine List.ext_getElem (by simp) fun i hi _ => ?_
    simp only [List.getElem_map, List.getElem_modify]
    split <;> simp [hname]
  have hsize : g.size ≤ (g.blocks.modify b (addContent l content)).length := by
    simp [Graph.size]
  refine ⟨hsize, Nat.le_refl _, Nat.le_refl _, fun h => ?_⟩
  refine h.withBlocks hsize (hnames ▸ h.blockNames) fun x hx => ?_
  obtain ⟨i, hi, rfl⟩ := List.mem_iff_getElem.mp hx
  rw [List.getElem_modify]
  split
  · exact addContent_ids hc l (h.block (List.getElem_mem _))
  · exact h.block (List.getElem_mem _)

/-- A line of the body extends the routine. -/
theorem bodyLine_extends {l : Line} {current : Option BlockId} {g g' : Graph}
    (hr : bodyLine l current g = .ok g') : g.Extends g' := by
  have declared {home : VarHome} {l : Line}
      (hr : Prod.snd <$> readLine l g (Read.variableLine home) = .ok g') : g.Extends g' := by
    obtain ⟨x, hl, hx⟩ := bind_eq_ok ((map_eq_pure_bind _ _).symm.trans hr)
    cases hx
    exact (readLine_gives (Read.variableLine_gives home) hl).1
  unfold bodyLine at hr
  split at hr
  · exact declared hr
  · exact declared hr
  · split at hr
    · cases hr
    · split at hr
      · cases hr
      -- A line inside a block that has no edge yet.
      · obtain ⟨x, hl, hx⟩ := bind_eq_ok hr
        cases hx
        obtain ⟨hg, hc⟩ := readLine_gives Read.contentLine_gives hl
        exact hg.trans (addContent_extends hc l _)

/-- So do all lines of the body. -/
theorem body_extends {lines : List Line} {current : Option BlockId} {g g' : Graph}
    (hr : body lines current g = .ok g') : g.Extends g' := by
  induction lines generalizing current g with
  | nil =>
    cases hr
    exact .refl _
  | cons l rest ih =>
    unfold body at hr
    split at hr
    · exact ih hr
    · obtain ⟨g₁, hl, hrest⟩ := bind_eq_ok hr
      exact (bodyLine_extends hl).trans (ih hrest)

/-- A routine that is read has a block and is closed. -/
theorem routine_closed {headerLine : Line} {lines : List Line} {g : Graph}
    (hr : routine headerLine lines = .ok g) : 0 < g.size ∧ g.Closed := by
  obtain ⟨⟨_, g₁⟩, hh, hr⟩ := bind_eq_ok hr
  have hempty : Graph.Closed { name := "" } := ⟨.nil, .nil, .nil, by simp [Graph.ids]⟩
  have h₁ : g₁.Closed := (readLine_gives Read.header_gives hh).1.closed hempty
  obtain ⟨g₂, hc, hr⟩ := bind_eq_ok hr
  have h₂ : g₂.Closed := collectBlocks_closed h₁ hc
  split at hr
  · cases hr
  · rename_i hne
    have hpos : 0 < g₂.size := List.length_pos_iff.mpr (by simpa using hne)
    have hg := body_extends hr
    exact ⟨Nat.lt_of_lt_of_le hpos hg.blocks, hg.closed h₂⟩

/-- Every routine of some lines has a block and is closed. -/
theorem routinesWithin_closed {steps : Nat} {lines : List Line} {graphs : List Graph}
    (hr : routinesWithin steps lines = .ok graphs) : ∀ g ∈ graphs, 0 < g.size ∧ g.Closed := by
  induction steps generalizing lines graphs with
  | zero =>
    cases hr
    exact nofun
  | succ steps ih =>
    cases lines with
    | nil =>
      cases hr
      exact nofun
    | cons headerLine rest =>
      unfold routinesWithin at hr
      by_cases hh : (!headerLine.isHeader) = true
      · rw [if_pos hh] at hr
        cases hr
      · rw [if_neg hh] at hr
        dsimp only at hr
        split at hr
        · cases hr
        · obtain ⟨g, hg, hr⟩ := bind_eq_ok hr
          obtain ⟨others, ho, hr⟩ := bind_eq_ok hr
          cases hr
          exact List.forall_mem_cons.mpr ⟨routine_closed hg, ih ho⟩

/-- All routines of a text have a block and are closed. -/
theorem parse_closed {text : String} {graphs : List Graph} (hr : parse text = .ok graphs) :
    ∀ g ∈ graphs, 0 < g.size ∧ g.Closed := by
  obtain ⟨lines, -, hr⟩ := bind_eq_ok hr
  exact routinesWithin_closed hr

end Source
end Linearizer
