import Linearizer.Proofs.Closed.Reading

/-!
# Written forms

Expressions, statements and edges of a routine as tokens, and the reader as the inverse of writing.
An expression stands in parentheses with its hint exactly where the hint is another one than the
form of the expression or the declaration of the variable gives.

- **Writing** (`Expr.written`, `Content.written`): the tokens of an expression and of a line inside
  a block, with blocks, variables and classes by their names in the routine.
- **Runs of the reader** (the `*_run` lemmas): what each function does on the tokens it looks for.
  Hints, handlers and cases go on as long as the next token lets them, so that what follows them is
  part of the lemma.
- **Inverse** (`Source.read_written`): the reader gives back what was written, whatever follows an
  expression, and up to the end of the line for statements and edges.
-/

namespace Linearizer

open Source

/-! ## Hints -/

namespace Hint

/-- The names that a hint is written with. -/
def names (h : Hint) : List String :=
  if h = any then ["any"] else if h.isEmpty then ["none"] else h.kinds.map Kind.name

/-- The tokens of a hint: its names with bars between them. -/
def written (h : Hint) : List Token := (h.names.map .word).intersperse (.symbol .bar)

theorem ofName?_name (k : Kind) : ofName? k.name = some (only k) := by
  cases k <;> rfl

/-- The names of some kinds are read as the hint that allows these kinds. -/
theorem ofNames?_map_name (ks : List Kind) :
    ofNames? (ks.map Kind.name) = some (ofPred fun k => k ∈ ks) := by
  induction ks with
  | nil => rfl
  | cons k ks ih =>
    rw [List.map_cons, ofNames?, ofName?_name, ih]
    simp [union, only, ofPred, allows, eq_comm]

theorem ofPred_kinds (h : Hint) : (ofPred fun k => k ∈ h.kinds) = h := by
  simp [ofPred, kinds, Kind.all, allows]

/-- The names of a hint are read as the hint. -/
theorem ofNames?_names (h : Hint) : ofNames? h.names = some h := by
  unfold names
  split
  · rename_i ha
    rw [ha]
    rfl
  · split
    · rename_i he
      have hk : h.kinds = [] := List.isEmpty_iff.mp he
      rw [← ofPred_kinds h, hk]
      rfl
    · rw [ofNames?_map_name, ofPred_kinds]

theorem names_ne_nil (h : Hint) : h.names ≠ [] := by
  unfold names
  split
  · exact List.cons_ne_nil _ _
  · split
    · exact List.cons_ne_nil _ _
    · rename_i he
      simpa [isEmpty] using he

end Hint

/-! ## Writing -/

namespace Graph

/-- The name of a variable. -/
def varName (g : Graph) (v : VarId) : String := (g.vars[v]?.map Variable.name).getD ""

/-- The label of a block. -/
def blockLabel (g : Graph) (b : BlockId) : String := ((g.block? b).map Block.name).getD ""

/-- The name of a class of the routine. -/
def classLabel (g : Graph) (c : ClassId) : String := (g.className? c).getD ""

/-- No name is given twice. -/
structure Named (g : Graph) : Prop where
  blocks : (g.blocks.map Block.name).Nodup
  vars : (g.vars.map Variable.name).Nodup
  classes : g.classes.Nodup

/-- The routines of a text have such names, since they are closed. -/
theorem Closed.named {g : Graph} (h : g.Closed) : g.Named :=
  ⟨h.blockNames, h.varNames, h.classNames⟩

end Graph

/-- The token of a constant. -/
def Literal.token : Literal → Token
  | .null => .word "null"
  | .bool b => .word (if b then "true" else "false")
  | .int n => .int n
  | .double x => .double x
  | .string s => .text s

/-- Tokens of an expression with the hint `own`, in parentheses when it has another one. -/
def Hint.annotate (own h : Hint) (tokens : List Token) : List Token :=
  if h = own then tokens
  else .symbol .openParen :: (tokens ++ .symbol .colon :: (h.written ++ [.symbol .closeParen]))

theorem Expr.withHint_hint (e : Expr) : e.withHint e.hint = e := by
  cases e <;> rfl

mutual

/-- The tokens of an expression. -/
def Expr.written (g : Graph) : Expr → List Token
  | .literal l h => l.hint.annotate h [l.token]
  | .var v h => (g.varHint v).annotate h [.variable (g.varName v)]
  | .binary o left right h =>
    (o.resultHint left.hint right.hint).annotate h
      (.word o.name :: (left.written g ++ .symbol .comma :: right.written g))
  | .not e h => (Hint.only .bool).annotate h (.word "not" :: e.written g)
  | .array items h =>
    (Hint.only .array).annotate h
      (.word "array" :: .symbol .openParen :: Expr.writtenItems g items)
  | .new c h => (Hint.only .object).annotate h [.word "new", .word (g.classLabel c)]

/-- The tokens of the items of an array, up to the parenthesis after them. -/
def Expr.writtenItems (g : Graph) : List Expr → List Token
  | [] => [.symbol .closeParen]
  | [e] => e.written g ++ [.symbol .closeParen]
  | e :: e' :: rest => e.written g ++ .symbol .comma :: Expr.writtenItems g (e' :: rest)

end

/-- The tokens of an action. -/
def Action.written (g : Graph) : Action → List Token
  | .assign v e => .variable (g.varName v) :: .symbol .equals :: e.written g
  | .append v e => .variable (g.varName v) :: .symbol .append :: e.written g
  | .echo e => .word "echo" :: e.written g
  | .eval e => .word "eval" :: e.written g
  | .throw e => .word "throw" :: e.written g
  | .ret none => [.word "return"]
  | .ret (some e) => .word "return" :: e.written g

/-- The token of a variable that may be left out. -/
def Graph.optional (g : Graph) (v : Option VarId) : List Token :=
  v.toList.map fun v => .variable (g.varName v)

/-- The tokens of a handler. -/
def Handler.written (g : Graph) (h : Handler) : List Token :=
  .word "catch" :: .word (g.classLabel h.cls) ::
    (g.optional h.var ++ [.symbol .arrow, .word (g.blockLabel h.target)])

/-- The tokens of a case. -/
def Case.written (g : Graph) (c : Case) : List Token :=
  [.word "case", c.value.token, .symbol .arrow, .word (g.blockLabel c.target)]

/-- The tokens of an edge. -/
def Edge.written (g : Graph) : Edge → List Token
  | .goto target => [.word "goto", .word (g.blockLabel target)]
  | .conditional condition ifTrue ifFalse =>
    .word "if" :: (condition.written g ++
      [.word "then", .word (g.blockLabel ifTrue), .word "else", .word (g.blockLabel ifFalse)])
  | .protect body handlers cleanup next =>
    .word "try" :: .word (g.blockLabel body) :: (handlers.flatMap (Handler.written g) ++
      (cleanup.toList.flatMap (fun b => [.word "finally", .word (g.blockLabel b)]) ++
        [.word "end", .word (g.blockLabel next)]))
  | .foreach subject next =>
    .word "foreach" :: (subject.written g ++ [.symbol .arrow, .word (g.blockLabel next)])
  | .moveNext source value key body after =>
    .word "movenext" :: .word (g.blockLabel source) :: .variable (g.varName value) ::
      (g.optional key ++
        [.word "body", .word (g.blockLabel body), .word "after", .word (g.blockLabel after)])
  | .switch value cases default =>
    .word "switch" :: (value.written g ++ (cases.flatMap (Case.written g) ++
      [.word "default", .symbol .arrow, .word (g.blockLabel default)]))

namespace Source

/-- The tokens of a line inside a block. -/
def Read.Content.written (g : Graph) : Content → List Token
  | .action a => a.written g
  | .edge e => e.written g

namespace Read

variable {α β : Type} {g : Graph}

/-! ## Single tokens -/

theorem run_bind {m : Read α} {r r' : Reader} {a : α} (h : m r = .ok a r') (f : α → Read β) :
    (m >>= f) r = f a r' := by
  change EStateM.bind m f r = _
  rw [EStateM.bind, h]

theorem pure_run (a : α) (r : Reader) : (pure a : Read α) r = .ok a r := rfl

theorem get_run (r : Reader) : (get : Read Reader) r = .ok r r := rfl

theorem peek_run (r : Reader) : peek r = .ok r.tokens.head? r := rfl

theorem run_map {m : Read α} {r r' : Reader} {a : α} (h : m r = .ok a r') (f : α → β) :
    (f <$> m) r = .ok (f a) r' := by
  rw [map_eq_pure_bind, run_bind h]
  rfl

theorem eat_run (t : Token) (ts : List Token) : eat t ⟨t :: ts, g⟩ = .ok true ⟨ts, g⟩ := by
  have next : (⟨t :: ts, g⟩ : Reader).tokens.head? = some t := rfl
  unfold eat
  rw [run_bind (peek_run _), if_pos next]
  rfl

/-- Another token stays. -/
theorem eat_run_other {t : Token} {ts : List Token} (h : ts.head? ≠ some t) :
    eat t ⟨ts, g⟩ = .ok false ⟨ts, g⟩ := by
  unfold eat
  rw [run_bind (peek_run _), if_neg h]
  rfl

theorem expectSymbol_run (s : Symbol) (ts : List Token) :
    expectSymbol s ⟨.symbol s :: ts, g⟩ = .ok () ⟨ts, g⟩ := by
  unfold expectSymbol
  rw [run_bind (eat_run _ ts)]
  rfl

theorem expectKeyword_run (w : String) (ts : List Token) :
    expectKeyword w ⟨.word w :: ts, g⟩ = .ok () ⟨ts, g⟩ := by
  unfold expectKeyword
  rw [run_bind (eat_run _ ts)]
  rfl

theorem word_run (wanted : Wanted) (w : String) (ts : List Token) :
    word wanted ⟨.word w :: ts, g⟩ = .ok w ⟨ts, g⟩ := rfl

/-! ## Names -/

/-- Where no name is given twice, a name leads to the element that has it. -/
theorem findIdx?_name {l : List α} {name : α → String} (distinct : (l.map name).Nodup) {i : Nat}
    (hi : i < l.length) : (l.findIdx? fun x => name x == name l[i]) = some i := by
  refine List.findIdx?_eq_some_iff_getElem.mpr ⟨hi, by simp, fun j hj => ?_⟩
  -- An earlier element of the same name would be found first.
  have hne := List.nodup_iff_getElem?_ne_getElem?.mp distinct j i hj (by simpa using hi)
  have hj' : j < l.length := Nat.lt_trans hj hi
  simpa [hi, hj'] using hne

theorem findVar?_varName (names : g.Named) {v : VarId} (hv : v < g.vars.length) :
    g.findVar? (g.varName v) = some v := by
  have hname : g.varName v = g.vars[v].name := by simp [Graph.varName, hv]
  rw [hname]
  exact findIdx?_name names.vars hv

theorem findBlock?_blockLabel (names : g.Named) {b : BlockId} (hb : b < g.size) :
    g.findBlock? (g.blockLabel b) = some b := by
  have hb : b < g.blocks.length := hb
  have hname : g.blockLabel b = g.blocks[b].name := by simp [Graph.blockLabel, Graph.block?, hb]
  rw [hname]
  exact findIdx?_name names.blocks hb

/-- A class of the routine is found, not added. -/
theorem internClass_classLabel (names : g.Named) {c : ClassId} (hc : c < g.classes.length) :
    g.internClass (g.classLabel c) = (c, g) := by
  have hname : g.classLabel c = g.classes[c] := by simp [Graph.classLabel, Graph.className?, hc]
  have distinct : (g.classes.map id).Nodup := by simpa using names.classes
  have hfound : g.classes.idxOf? g.classes[c] = some c := findIdx?_name distinct hc
  rw [Graph.internClass, hname, hfound]

section Names

variable (names : g.Named) (ts : List Token)
include names

theorem varId_run {v : VarId} (hv : v < g.vars.length) :
    varId (g.varName v) ⟨ts, g⟩ = .ok v ⟨ts, g⟩ := by
  unfold varId
  rw [run_bind (get_run _), findVar?_varName names hv]
  rfl

theorem var_run {v : VarId} (hv : v < g.vars.length) :
    var ⟨.variable (g.varName v) :: ts, g⟩ = .ok v ⟨ts, g⟩ := varId_run names ts hv

/-- A variable that may be left out, before a token that is none. -/
theorem var?_run {v : Option VarId} (hv : ∀ x ∈ v, x < g.vars.length)
    (next : ∀ name, ts.head? ≠ some (.variable name)) :
    var? ⟨g.optional v ++ ts, g⟩ = .ok v ⟨ts, g⟩ := by
  cases v with
  | some v => exact run_map (varId_run names ts (hv v rfl)) some
  | none =>
    have absent : optionalName ⟨ts, g⟩ = .ok none ⟨ts, g⟩ := by
      unfold optionalName
      rw [run_bind (peek_run _)]
      cases hh : ts.head? with
      | none => rfl
      | some t =>
        cases t with
        | «variable» name => exact absurd hh (next name)
        | _ => rfl
    exact run_bind absent _

theorem block_run {b : BlockId} (hb : b < g.size) :
    block ⟨.word (g.blockLabel b) :: ts, g⟩ = .ok b ⟨ts, g⟩ := by
  unfold block
  rw [run_bind (word_run _ _ ts), run_bind (get_run _), findBlock?_blockLabel names hb]
  rfl

theorem cls_run {c : ClassId} (hc : c < g.classes.length) :
    cls ⟨.word (g.classLabel c) :: ts, g⟩ = .ok c ⟨ts, g⟩ := by
  unfold cls
  rw [run_bind (word_run _ _ ts), run_bind (get_run _), internClass_classLabel names hc]
  rfl

end Names

/-! ## Hints -/

/-- The names after the first one, before a token that is no bar. -/
theorem moreNames_run (rest : List String) {ts : List Token}
    (next : ts.head? ≠ some (.symbol .bar)) {steps : Nat} (hs : rest.length ≤ steps) :
    moreNames steps ⟨rest.flatMap (fun name => [.symbol .bar, .word name]) ++ ts, g⟩ =
      .ok rest ⟨ts, g⟩ := by
  induction rest generalizing steps with
  | nil =>
    cases steps with
    | zero => rfl
    | succ steps =>
      unfold moreNames
      rw [List.flatMap_nil, List.nil_append, run_bind (eat_run_other next)]
      rfl
  | cons name rest ih =>
    cases steps with
    | zero => simp at hs
    | succ steps =>
      unfold moreNames
      rw [List.flatMap_cons, List.append_assoc]
      have hrest := ih (Nat.le_of_succ_le_succ hs)
      exact (run_bind (eat_run _ _) _).trans (run_bind hrest _)

/-- A hint is read up to a token that is no bar. -/
theorem hint_run (h : Hint) {ts : List Token} (next : ts.head? ≠ some (.symbol .bar)) :
    hint ⟨h.written ++ ts, g⟩ = .ok h ⟨ts, g⟩ := by
  cases hn : h.names with
  | nil => exact absurd hn h.names_ne_nil
  | cons first rest =>
    have tokens : h.written =
        .word first :: rest.flatMap fun name => [.symbol .bar, .word name] := by
      -- A bar between two names is a bar before each name but the first.
      rw [Hint.written, hn]
      clear hn
      induction rest generalizing first with
      | nil => rfl
      | cons name rest ih =>
        rw [List.map_cons, List.map_cons, List.intersperse_cons_cons, ← List.map_cons, ih]
        rfl
    rw [tokens]
    unfold hint
    rw [List.cons_append, run_bind (word_run _ _ _), run_bind (get_run _)]
    rw [run_bind (moreNames_run rest next (by simp; omega)), ← hn, h.ofNames?_names]
    rfl

/-! ## Expressions -/

/-- The reader gives `e` for some tokens in front of any others, if it has a step for each. -/
def Parses (g : Graph) (tokens : List Token) (e : Expr) : Prop :=
  ∀ steps ts, tokens.length ≤ steps → exprWithin steps ⟨tokens ++ ts, g⟩ = .ok e ⟨ts, g⟩

/-- One token that is an expression by itself. -/
theorem Parses.token {t : Token} {e : Expr}
    (h : ∀ steps ts, exprWithin (steps + 1) ⟨t :: ts, g⟩ = .ok e ⟨ts, g⟩) : Parses g [t] e := by
  intro steps ts hs
  cases steps with
  | zero => simp at hs
  | succ steps => exact h steps ts

/-- Tokens that start with one which the reader goes on from. -/
theorem Parses.cons {t : Token} {tokens : List Token} {e : Expr}
    (h : ∀ steps ts, tokens.length ≤ steps →
      exprWithin (steps + 1) ⟨t :: (tokens ++ ts), g⟩ = .ok e ⟨ts, g⟩) :
    Parses g (t :: tokens) e := by
  intro steps ts hs
  cases steps with
  | zero => simp at hs
  | succ steps => exact h steps ts (Nat.le_of_succ_le_succ hs)

/-- A hint in parentheses takes the place of the one that the expression has by itself. -/
theorem Parses.annotate {tokens : List Token} {e : Expr} (h : Parses g tokens e) (hint : Hint) :
    Parses g (e.hint.annotate hint tokens) (e.withHint hint) := by
  unfold Hint.annotate
  split
  · rename_i same
    rw [same, Expr.withHint_hint]
    exact h
  · refine .cons fun steps ts hs => ?_
    rw [List.append_assoc, List.cons_append, List.append_assoc]
    have inner := h steps (.symbol .colon :: (hint.written ++ .symbol .closeParen :: ts))
      (by simp at hs; omega)
    have closes : (Token.symbol .closeParen :: ts).head? ≠ some (.symbol .bar) := by simp
    have given := hint_run (g := g) hint closes
    refine (run_bind inner _).trans ((run_bind (eat_run _ _) _).trans ?_)
    exact (run_bind (run_map given _) _).trans (run_bind (expectSymbol_run _ _) _)

theorem parses_literal (l : Literal) : Parses g [l.token] (.ofLiteral l) := by
  refine .token fun steps ts => ?_
  cases l with
  | bool b => cases b <;> rfl
  | _ => rfl

theorem parses_var (names : g.Named) {v : VarId} (hv : v < g.vars.length) :
    Parses g [.variable (g.varName v)] (.var v (g.varHint v)) :=
  .token fun _ ts => run_bind (varId_run names ts hv) _

theorem parses_new (names : g.Named) {c : ClassId} (hc : c < g.classes.length) :
    Parses g [.word "new", .word (g.classLabel c)] (.ofClass c) :=
  .cons fun _ ts _ => run_bind (cls_run names ts hc) fun c => return Expr.ofClass c

/-- The operand of a negation follows it. -/
theorem Parses.not {tokens : List Token} {e : Expr} (h : Parses g tokens e) :
    Parses g (.word "not" :: tokens) (.ofNot e) :=
  .cons fun steps ts hs => run_bind (h steps ts hs) _

/-- The operands of an operator follow its name, with a comma between them. -/
theorem Parses.binary (o : BinaryOp) {ls rs : List Token} {left right : Expr}
    (hl : Parses g ls left) (hr : Parses g rs right) :
    Parses g (.word o.name :: (ls ++ .symbol .comma :: rs)) (.ofBinary o left right) := by
  refine .cons fun steps ts hs => ?_
  rw [List.append_assoc, List.cons_append]
  rw [List.length_append, List.length_cons] at hs
  have both : (do
      let left ← exprWithin steps
      expectSymbol .comma
      let right ← exprWithin steps
      return .ofBinary o left right : Read Expr) ⟨ls ++ .symbol .comma :: (rs ++ ts), g⟩ =
        .ok (.ofBinary o left right) ⟨ts, g⟩ := by
    rw [run_bind (hl steps _ (by omega)), run_bind (expectSymbol_run _ _)]
    exact run_bind (hr steps ts (by omega)) _
  -- The reader tells the operators apart by their names.
  cases o with
  | arithmetic a => cases a <;> exact both
  | _ => exact both

/-- The same for the items of an array and the parenthesis after them. -/
def ParsesItems (g : Graph) (tokens : List Token) (items : List Expr) : Prop :=
  ∀ steps ts, tokens.length ≤ steps → itemsWithin steps ⟨tokens ++ ts, g⟩ = .ok items ⟨ts, g⟩

/-- The last item of an array stands before the parenthesis. -/
theorem Parses.last {tokens : List Token} {e : Expr} (h : Parses g tokens e) :
    ParsesItems g (tokens ++ [.symbol .closeParen]) [e] := by
  intro steps ts hs
  rw [List.length_append, List.length_singleton] at hs
  cases steps with
  | zero => simp at hs
  | succ steps =>
    rw [List.append_assoc]
    have first := h steps (.symbol .closeParen :: ts) (Nat.le_of_succ_le_succ hs)
    exact (run_bind first _).trans (run_bind (eat_run _ _) _)

/-- Another item stands before a comma. -/
theorem Parses.followed {tokens rest : List Token} {e : Expr} {items : List Expr}
    (h : Parses g tokens e) (hr : ParsesItems g rest items) :
    ParsesItems g (tokens ++ .symbol .comma :: rest) (e :: items) := by
  intro steps ts hs
  rw [List.length_append, List.length_cons] at hs
  cases steps with
  | zero => simp at hs
  | succ steps =>
    rw [List.append_assoc, List.cons_append]
    have first := h steps (.symbol .comma :: (rest ++ ts)) (by omega)
    have goesOn : eat (.symbol .closeParen) ⟨.symbol .comma :: (rest ++ ts), g⟩ = .ok false _ :=
      eat_run_other (by simp)
    refine (run_bind first _).trans ((run_bind goesOn _).trans ?_)
    exact (run_bind (expectSymbol_run _ _) _).trans (run_bind (hr steps ts (by omega)) _)

/-- An array that has items is read through them; without items it ends at once. -/
theorem ParsesItems.array {tokens : List Token} {items : List Expr} (h : ParsesItems g tokens items)
    (filled : tokens.head? ≠ some (.symbol .closeParen)) (nonempty : tokens ≠ []) :
    Parses g (.word "array" :: .symbol .openParen :: tokens) (.ofItems items) := by
  refine .cons fun steps ts hs => ?_
  have goesOn : eat (.symbol .closeParen) ⟨tokens ++ ts, g⟩ = .ok false ⟨tokens ++ ts, g⟩ :=
    eat_run_other (by rwa [List.head?_append_of_ne_nil _ nonempty])
  change (do
    expectSymbol .openParen
    if ← eat (.symbol .closeParen) then return .ofItems []
    return .ofItems (← itemsWithin steps) : Read Expr) ⟨.symbol .openParen :: (tokens ++ ts), g⟩ = _
  rw [run_bind (expectSymbol_run _ _), run_bind goesOn]
  exact run_bind (h steps ts (Nat.le_of_succ_le hs)) _

/-- The first token of an expression, which no parenthesis closes. -/
theorem written_cons (e : Expr) :
    ∃ t tokens, e.written g = t :: tokens ∧ t ≠ .symbol .closeParen := by
  have annotated {own h : Hint} {t : Token} {tokens : List Token} (ht : t ≠ .symbol .closeParen) :
      ∃ t' tokens', own.annotate h (t :: tokens) = t' :: tokens' ∧ t' ≠ .symbol .closeParen := by
    unfold Hint.annotate
    split
    · exact ⟨t, tokens, rfl, ht⟩
    · exact ⟨_, _, rfl, by simp⟩
  cases e with
  | literal l h =>
    rw [Expr.written]
    exact annotated (by cases l <;> simp [Literal.token])
  | _ =>
    rw [Expr.written]
    exact annotated (by simp)

/-- The items of an array do not start with the parenthesis that ends them. -/
theorem writtenItems_cons (e : Expr) (rest : List Expr) :
    ∃ t tokens, Expr.writtenItems g (e :: rest) = t :: tokens ∧ t ≠ .symbol .closeParen := by
  obtain ⟨t, tokens, he, ht⟩ := written_cons (g := g) e
  cases rest with
  | nil => exact ⟨t, _, by rw [Expr.writtenItems, he]; rfl, ht⟩
  | cons e' rest => exact ⟨t, _, by rw [Expr.writtenItems, he]; rfl, ht⟩

mutual

/-- An expression is read from what is written for it, one case for each form. -/
theorem parses_written (names : g.Named) : (e : Expr) → e.ids.In g → Parses g (e.written g) e
  | .literal l h, _ => by
    rw [Expr.written]
    exact (parses_literal l).annotate h
  | .var v h, ids => by
    rw [Expr.ids, Ids.in_ofVars] at ids
    rw [Expr.written]
    exact (parses_var names (ids v (by simp))).annotate h
  | .binary o left right h, ids => by
    rw [Expr.ids, Ids.in_append] at ids
    rw [Expr.written]
    have hl := parses_written names left ids.1
    have hr := parses_written names right ids.2
    exact (hl.binary o hr).annotate h
  | .not e h, ids => by
    rw [Expr.ids] at ids
    rw [Expr.written]
    exact (parses_written names e ids).not.annotate h
  | .array [] h, _ => by
    rw [Expr.written]
    have empty : Parses g (.word "array" :: .symbol .openParen :: Expr.writtenItems g [])
      (.ofItems []) := .cons fun _ _ _ => rfl
    exact empty.annotate h
  | .array (e :: rest) h, ids => by
    rw [Expr.ids] at ids
    rw [Expr.written]
    have items := parsesItems_written names (e :: rest) (List.cons_ne_nil _ _) ids
    obtain ⟨t, tokens, hi, ht⟩ := writtenItems_cons (g := g) e rest
    exact (items.array (by simpa [hi] using ht) (by simp [hi])).annotate h
  | .new c h, ids => by
    rw [Expr.ids, Ids.in_ofClasses] at ids
    rw [Expr.written]
    exact (parses_new names (ids c (by simp))).annotate h

/-- The items of an array that has any. -/
theorem parsesItems_written (names : g.Named) : (items : List Expr) → items ≠ [] →
    (Expr.listIds items).In g → ParsesItems g (Expr.writtenItems g items) items
  | [], filled, _ => absurd rfl filled
  | [e], _, ids => by
    rw [Expr.listIds, Ids.in_append] at ids
    rw [Expr.writtenItems]
    exact (parses_written names e ids.1).last
  | e :: e' :: rest, _, ids => by
    rw [Expr.listIds, Ids.in_append] at ids
    rw [Expr.writtenItems]
    have others := parsesItems_written names (e' :: rest) (List.cons_ne_nil _ _) ids.2
    exact (parses_written names e ids.1).followed others

end

/-- The reader has a step for each token, which is enough. -/
theorem expr_run (names : g.Named) {e : Expr} (ids : e.ids.In g) (ts : List Token) :
    expr ⟨e.written g ++ ts, g⟩ = .ok e ⟨ts, g⟩ := by
  refine (run_bind (get_run _) _).trans (parses_written names e ids _ ts ?_)
  rw [List.length_append]
  exact Nat.le_add_right _ _

/-! ## Edges -/

section Edges

variable (names : g.Named)
include names

/-- The handlers of a protected region, before a token that starts no other one. -/
theorem handlers_run (hs : List Handler) (ids : ∀ h ∈ hs, h.ids.In g) {ts : List Token}
    (next : ts.head? ≠ some (.word "catch")) {steps : Nat}
    (enough : (hs.flatMap (Handler.written g)).length ≤ steps) :
    handlers steps ⟨hs.flatMap (Handler.written g) ++ ts, g⟩ = .ok hs ⟨ts, g⟩ := by
  induction hs generalizing steps with
  | nil =>
    cases steps with
    | zero => rfl
    | succ steps => exact run_bind (eat_run_other next) _
  | cons h hs ih =>
    rw [List.flatMap_cons, Handler.written, List.length_append, List.length_cons] at enough
    cases steps with
    | zero => simp at enough
    | succ steps =>
      -- Every handler is written with some tokens, so there are steps enough for the others.
      have fewer : (hs.flatMap (Handler.written g)).length ≤ steps := by omega
      have rest := ih (fun h' mem => ids h' (.tail h mem)) fewer
      have hids := ids h List.mem_cons_self
      rw [Handler.ids, Ids.in_append, Ids.in_append, Ids.in_ofClasses, Ids.in_ofVars,
        Ids.in_ofBlocks] at hids
      obtain ⟨⟨hc, hv⟩, hb⟩ := hids
      rw [List.flatMap_cons, Handler.written, List.cons_append, List.cons_append, List.cons_append,
        List.cons_append, List.append_assoc, List.append_assoc]
      refine (run_bind (eat_run _ _) _).trans ?_
      refine (run_bind (cls_run names _ (hc h.cls (by simp))) _).trans ?_
      refine (run_bind (var?_run names _ (by simpa using hv) (by simp)) _).trans ?_
      refine (run_bind (expectSymbol_run _ _) _).trans ?_
      refine (run_bind (block_run names _ (hb h.target (by simp))) _).trans ?_
      exact run_bind rest _

/-- The cases of a switch, before a token that starts no other one. -/
theorem cases_run (cs : List Case) (targets : ∀ c ∈ cs, c.target < g.size) {ts : List Token}
    (next : ts.head? ≠ some (.word "case")) {steps : Nat}
    (enough : (cs.flatMap (Case.written g)).length ≤ steps) :
    cases steps ⟨cs.flatMap (Case.written g) ++ ts, g⟩ = .ok cs ⟨ts, g⟩ := by
  induction cs generalizing steps with
  | nil =>
    cases steps with
    | zero => rfl
    | succ steps => exact run_bind (eat_run_other next) _
  | cons c cs ih =>
    rw [List.flatMap_cons, Case.written, List.length_append, List.length_cons] at enough
    cases steps with
    | zero => simp at enough
    | succ steps =>
      have fewer : (cs.flatMap (Case.written g)).length ≤ steps := by omega
      have rest := ih (fun c' mem => targets c' (.tail c mem)) fewer
      have value : expr ⟨c.value.token :: (.symbol .arrow :: .word (g.blockLabel c.target) ::
          (cs.flatMap (Case.written g) ++ ts)), g⟩ = .ok (.ofLiteral c.value) ⟨_, g⟩ :=
        parses_literal c.value _ _ (by simp)
      rw [List.flatMap_cons, List.append_assoc]
      refine (run_bind (eat_run _ _) _).trans ?_
      refine (run_bind value _).trans ?_
      refine (run_bind (expectSymbol_run _ _) _).trans ?_
      refine (run_bind (block_run names _ (targets c List.mem_cons_self)) _).trans ?_
      exact run_bind rest _

/-- A protected region is read from what is written after its keyword. -/
theorem protect_run {body next : BlockId} {hs : List Handler} {cleanup : Option BlockId}
    (ids : (Edge.protect body hs cleanup next).ids.In g) :
    protect ⟨((Edge.protect body hs cleanup next).written g).tail, g⟩ =
      .ok (.protect body hs cleanup next) ⟨[], g⟩ := by
  rw [Edge.ids, Ids.in_append, Ids.in_ofBlocks, Ids.in_gather] at ids
  obtain ⟨hb, hh⟩ := ids
  have handled {ts : List Token} (next : ts.head? ≠ some (.word "catch")) :
      handlers (hs.flatMap (Handler.written g) ++ ts).length
        ⟨hs.flatMap (Handler.written g) ++ ts, g⟩ = .ok hs ⟨ts, g⟩ :=
    handlers_run names hs (fun h mem => hh _ (List.mem_map_of_mem mem)) next (by simp)
  have hend := block_run names [] (hb next (by simp))
  refine (run_bind (block_run names _ (hb body (by simp))) _).trans ?_
  refine (run_bind (get_run _) _).trans ?_
  cases cleanup with
  | none =>
    refine (run_bind (handled (by simp)) _).trans ?_
    refine (run_bind (eat_run_other (by simp)) _).trans ?_
    refine (run_bind (pure_run none _) _).trans ?_
    refine (run_bind (expectKeyword_run _ _) _).trans ?_
    exact run_bind hend _
  | some cleanup =>
    refine (run_bind (handled (by simp)) _).trans ?_
    refine (run_bind (eat_run _ _) _).trans ?_
    refine (run_bind (run_map (block_run names _ (hb cleanup (by simp))) some) _).trans ?_
    refine (run_bind (expectKeyword_run _ _) _).trans ?_
    exact run_bind hend _

/-- A switch is read from what is written after its keyword. -/
theorem switch_run {value : Expr} {cs : List Case} {default : BlockId}
    (ids : (Edge.switch value cs default).ids.In g) :
    switch ⟨((Edge.switch value cs default).written g).tail, g⟩ =
      .ok (.switch value cs default) ⟨[], g⟩ := by
  rw [Edge.ids, Ids.in_append, Ids.in_ofBlocks] at ids
  obtain ⟨hv, hb⟩ := ids
  refine (run_bind (expr_run names hv _) _).trans ?_
  refine (run_bind (get_run _) _).trans ?_
  have targets : ∀ c ∈ cs, c.target < g.size := fun c mem =>
    hb _ (List.mem_append_left _ (List.mem_map_of_mem mem))
  refine (run_bind (cases_run names cs targets (by simp) (by simp)) _).trans ?_
  refine (run_bind (expectKeyword_run _ _) _).trans ?_
  refine (run_bind (expectSymbol_run _ _) _).trans ?_
  exact run_bind (block_run names _ (hb default (by simp))) _

/-- A line with an edge, one case for each form. -/
theorem edge_run : (e : Edge) → e.ids.In g → line ⟨e.written g, g⟩ = .ok (.edge e) ⟨[], g⟩
  | .goto target, ids => by
    rw [Edge.ids, Ids.in_ofBlocks] at ids
    exact run_bind (block_run names [] (ids target (by simp))) _
  | .conditional condition ifTrue ifFalse, ids => by
    rw [Edge.ids, Ids.in_append, Ids.in_ofBlocks] at ids
    obtain ⟨hc, hb⟩ := ids
    refine (run_bind (expr_run names hc _) _).trans ?_
    refine (run_bind (expectKeyword_run _ _) _).trans ?_
    refine (run_bind (block_run names _ (hb ifTrue (by simp))) _).trans ?_
    refine (run_bind (expectKeyword_run _ _) _).trans ?_
    exact run_bind (block_run names _ (hb ifFalse (by simp))) _
  | .protect body hs cleanup next, ids => run_bind (protect_run names ids) _
  | .foreach subject next, ids => by
    rw [Edge.ids, Ids.in_append, Ids.in_ofBlocks] at ids
    obtain ⟨hs, hb⟩ := ids
    refine (run_bind (expr_run names hs _) _).trans ?_
    refine (run_bind (expectSymbol_run _ _) _).trans ?_
    exact run_bind (block_run names _ (hb next (by simp))) _
  | .moveNext source value key body after, ids => by
    rw [Edge.ids, Ids.in_append, Ids.in_ofVars, Ids.in_ofBlocks] at ids
    obtain ⟨hv, hb⟩ := ids
    refine (run_bind (block_run names _ (hb source (by simp))) _).trans ?_
    refine (run_bind (var_run names _ (hv value (by simp))) _).trans ?_
    refine (run_bind (var?_run names _ (fun v hk => hv v (by simp_all)) (by simp)) _).trans ?_
    refine (run_bind (expectKeyword_run _ _) _).trans ?_
    refine (run_bind (block_run names _ (hb body (by simp))) _).trans ?_
    refine (run_bind (expectKeyword_run _ _) _).trans ?_
    exact run_bind (block_run names _ (hb after (by simp))) _
  | .switch value cs default, ids => run_bind (switch_run names ids) _

/-- A line with an action. -/
theorem action_run (a : Action) (ids : a.ids.In g) :
    line ⟨a.written g, g⟩ = .ok (.action a) ⟨[], g⟩ := by
  have reads {e : Expr} (he : e.ids.In g) : expr ⟨e.written g, g⟩ = .ok e ⟨[], g⟩ := by
    simpa using expr_run names he []
  have target {v : VarId} {e : Expr} (h : (Ids.ofVars [v] ++ e.ids).In g) (s : Symbol) :
      var? ⟨.variable (g.varName v) :: .symbol s :: e.written g, g⟩ =
        .ok (some v) ⟨.symbol s :: e.written g, g⟩ :=
    var?_run names _ (v := some v)
      (fun x hx => Ids.in_ofVars.mp (Ids.in_append.mp h).1 x (by simp_all)) (by simp)
  cases a with
  | assign v e =>
    refine (run_bind (target ids .equals) _).trans ?_
    refine (run_bind (eat_run_other (by simp)) _).trans ?_
    refine (run_bind (expectSymbol_run _ _) _).trans ?_
    exact run_bind (reads (Ids.in_append.mp ids).2) _
  | append v e =>
    refine (run_bind (target ids .append) _).trans ?_
    refine (run_bind (eat_run _ _) _).trans ?_
    exact run_bind (reads (Ids.in_append.mp ids).2) _
  | echo e => exact run_bind (reads ids) _
  | eval e => exact run_bind (reads ids) _
  | throw e => exact run_bind (reads ids) _
  | ret value =>
    cases value with
    | none => rfl
    | some e =>
      -- A return looks at the token after it, so that token has to be exhibited.
      obtain ⟨t, tokens, he, -⟩ := written_cons (g := g) e
      have hread := reads ids
      rw [he] at hread
      rw [Action.written, he]
      exact run_bind hread _

end Edges

end Read

/-- The reader gives back what was written (module doc). -/
theorem read_written {g : Graph} (names : g.Named) :
    (∀ e : Expr, e.ids.In g → ∀ rest, Read.expr ⟨e.written g ++ rest, g⟩ = .ok e ⟨rest, g⟩) ∧
      ∀ content : Read.Content, content.ids.In g →
        Read.line ⟨content.written g, g⟩ = .ok content ⟨[], g⟩ := by
  refine ⟨fun e ids rest => Read.expr_run names ids rest, fun content ids => ?_⟩
  cases content with
  | action a => exact Read.action_run names a ids
  | edge e => exact Read.edge_run names e ids

/-- A routine with two labels that are keywords, a class and a variable. -/
def keywords : Graph where
  name := "keywords"
  vars := [⟨"n", .param 0, .value, .any⟩]
  classes := ["finally"]
  blocks := [⟨"catch", false, [], none⟩, ⟨"end", false, [], none⟩]

/-- Names that are keywords do not lead the reader astray. -/
theorem read_written_keywords :
    let sum := Expr.binary (.arithmetic .add) (.var 0 .number) (.array [.new 0 .any] .none) .number
    let edge := Edge.protect 0 [⟨0, none, 0⟩, ⟨0, some 0, 1⟩] (some 0) 1
    (keywords.Named ∧ sum.ids.In keywords ∧ edge.ids.In keywords) ∧
      (∀ rest, Read.expr ⟨[.word "add", .symbol .openParen, .variable "n", .symbol .colon,
          .word "int64", .symbol .bar, .word "double", .symbol .closeParen, .symbol .comma,
          .symbol .openParen, .word "array", .symbol .openParen, .symbol .openParen, .word "new",
          .word "finally", .symbol .colon, .word "any", .symbol .closeParen, .symbol .closeParen,
          .symbol .colon, .word "none", .symbol .closeParen] ++ rest, keywords⟩ =
        .ok sum ⟨rest, keywords⟩) ∧
      Read.line ⟨[.word "try", .word "catch", .word "catch", .word "finally", .symbol .arrow,
          .word "catch", .word "catch", .word "finally", .variable "n", .symbol .arrow, .word "end",
          .word "finally", .word "catch", .word "end", .word "end"], keywords⟩ =
        .ok (.edge edge) ⟨[], keywords⟩ := by
  intro sum edge
  have names : keywords.Named := ⟨by decide, by decide, by decide⟩
  have hsum : sum.ids.In keywords := ⟨by decide, by decide, by decide⟩
  have hedge : edge.ids.In keywords := ⟨by decide, by decide, by decide⟩
  have written := read_written names
  exact ⟨⟨names, hsum, hedge⟩, written.1 sum hsum, written.2 (.edge edge) hedge⟩

end Source
end Linearizer
