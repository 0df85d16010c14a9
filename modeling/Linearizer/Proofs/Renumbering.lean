import Linearizer.Source.Routine

/-!
# Numbers of lines

The reader uses the number of a line for two things only: the place of a statement, and the line of
an error. Lines with other numbers are read to the same routines with other places, or fail with
the same complaint about the line with the other number.

- **Renumbering** (`renumber f`): every number of a line is replaced by its image under `f`, which
  may be any function.
- **Blind computations** (`Read.Blind f m`): `m` does not look at the places of the routine so far.
  This is closed under the rules of the monad, and the `*_blind` lemmas follow the functions that
  read tokens, expressions and lines.
- **Routines** (`Source.routinesWithin_renumber`): reading renumbered lines gives renumbered
  results.
-/

namespace Linearizer

/-- The statement with its line renumbered. -/
def Stmt.renumber (f : Nat → Nat) (s : Stmt) : Stmt :=
  { s with span := s.span.map fun p => { p with line := f p.line } }

/-- The block with the lines of its statements renumbered. -/
def Block.renumber (f : Nat → Nat) (b : Block) : Block :=
  { b with statements := b.statements.map (Stmt.renumber f) }

namespace Graph

/-- The routine with the lines of its statements renumbered. -/
def renumber (f : Nat → Nat) (g : Graph) : Graph :=
  { g with blocks := g.blocks.map (Block.renumber f) }

variable (f : Nat → Nat) (g : Graph)

@[simp] theorem name_renumber : (g.renumber f).name = g.name := rfl

@[simp] theorem findVar?_renumber (name : String) :
    (g.renumber f).findVar? name = g.findVar? name := rfl

@[simp] theorem varHint_renumber (v : VarId) : (g.renumber f).varHint v = g.varHint v := rfl

/-- Blocks are found by name, whatever the lines of their statements. -/
@[simp] theorem findBlock?_renumber (name : String) :
    (g.renumber f).findBlock? name = g.findBlock? name := by
  unfold findBlock? renumber
  rw [List.findIdx?_map]
  rfl

@[simp] theorem isEmpty_blocks_renumber :
    (g.renumber f).blocks.isEmpty = g.blocks.isEmpty := by
  simp [renumber]

theorem edge_renumber (b : BlockId) :
    ((g.renumber f).block? b).bind (·.edge) = (g.block? b).bind (·.edge) := by
  simp [block?, renumber, Option.bind_map, Function.comp_def, Block.renumber]

/-- Classes are numbered without regard to lines. -/
theorem internClass_renumber (name : String) :
    (g.renumber f).internClass name =
      ((g.internClass name).1, (g.internClass name).2.renumber f) := by
  unfold internClass
  rw [show (g.renumber f).classes = g.classes from rfl]
  cases g.classes.idxOf? name <;> rfl

end Graph

namespace Source

/-- The error with its line renumbered. -/
def ParseError.renumber (f : Nat → Nat) (e : ParseError) : ParseError := { e with line := f e.line }

/-- The line with another number. -/
def Line.renumber (f : Nat → Nat) (l : Line) : Line := { l with number := f l.number }

/-- The reader with the lines of the routine so far renumbered. -/
def Reader.renumber (f : Nat → Nat) (r : Reader) : Reader := ⟨r.tokens, r.graph.renumber f⟩

@[simp] theorem Reader.tokens_renumber (f : Nat → Nat) (r : Reader) :
    (r.renumber f).tokens = r.tokens := rfl

@[simp] theorem Reader.graph_renumber (f : Nat → Nat) (r : Reader) :
    (r.renumber f).graph = r.graph.renumber f := rfl

namespace Read

variable {α β : Type} {f : Nat → Nat}

/-- The result of a run with the lines of the routine renumbered. -/
def renumbered (f : Nat → Nat) :
    EStateM.Result Complaint Reader α → EStateM.Result Complaint Reader α
  | .ok a r => .ok a (r.renumber f)
  | .error c r => .error c (r.renumber f)

/-- The computation does not depend on the numbers of lines (module doc). -/
def Blind (f : Nat → Nat) (m : Read α) : Prop := ∀ r, m (r.renumber f) = renumbered f (m r)

/-! ## Rules -/

theorem Blind.pure (a : α) : Blind f (pure a : Read α) := fun _ => rfl

theorem Blind.throw (c : Complaint) : Blind f (throw c : Read α) := fun _ => rfl

/-- Reading one thing after the other does not look at lines if neither part does. -/
theorem Blind.bind {m : Read α} {k : α → Read β} (hm : Blind f m) (hk : ∀ a, Blind f (k a)) :
    Blind f (m >>= k) := by
  intro r
  change EStateM.bind m k _ = renumbered f (EStateM.bind m k r)
  unfold EStateM.bind
  rw [hm r]
  cases m r with
  | ok a r' => exact hk a r'
  | error c r' => rfl

theorem Blind.map {m : Read α} (hm : Blind f m) (k : α → β) : Blind f (k <$> m) := by
  rw [map_eq_pure_bind]
  exact hm.bind fun a => Blind.pure (k a)

/-- A computation that uses of the reader what stays when lines are renumbered. -/
theorem Blind.get_bind {k : Reader → Read β} (same : ∀ r, k (r.renumber f) = k r)
    (hk : ∀ r, Blind f (k r)) : Blind f (get >>= k) := by
  intro r
  change k (r.renumber f) (r.renumber f) = renumbered f (k r r)
  rw [same]
  exact hk r r

/-- A change of the reader that commutes with renumbering does not look at lines. -/
theorem Blind.modify {k : Reader → Reader} (h : ∀ r, k (r.renumber f) = (k r).renumber f) :
    Blind f (modify k : Read Unit) := by
  intro r
  change EStateM.Result.ok () (k (r.renumber f)) = .ok () ((k r).renumber f)
  rw [h]

/-! ## Single tokens -/

theorem peek_blind : Blind f peek := fun _ => rfl

theorem skip_blind : Blind f skip := Blind.modify fun _ => rfl

theorem missing_blind (wanted : Wanted) : Blind f (missing wanted : Read α) :=
  peek_blind.bind fun _ => Blind.throw _

theorem finish_blind : Blind f finish := by
  refine peek_blind.bind fun found => ?_
  cases found with
  | none => exact Blind.pure _
  | some found => exact Blind.throw _

theorem eat_blind (token : Token) : Blind f (eat token) := by
  refine peek_blind.bind fun found => ?_
  split
  · exact skip_blind.bind fun _ => Blind.pure _
  · exact Blind.pure _

theorem expectSymbol_blind (s : Symbol) : Blind f (expectSymbol s) := by
  refine (eat_blind _).bind fun found => ?_
  split
  · exact missing_blind _
  · exact Blind.pure _

theorem expectKeyword_blind (w : String) : Blind f (expectKeyword w) := by
  refine (eat_blind _).bind fun found => ?_
  split
  · exact missing_blind _
  · exact Blind.pure _

theorem word_blind (wanted : Wanted) : Blind f (word wanted) := by
  refine peek_blind.bind fun found => ?_
  split
  · exact skip_blind.bind fun _ => Blind.pure _
  · exact missing_blind _

theorem optionalName_blind : Blind f optionalName := by
  refine peek_blind.bind fun found => ?_
  split
  · exact skip_blind.bind fun _ => Blind.pure _
  · exact Blind.pure _

theorem variableName_blind : Blind f variableName := by
  refine optionalName_blind.bind fun name => ?_
  split
  · exact Blind.pure _
  · exact missing_blind _

/-! ## Names -/

/-- A name that the routine is searched for, where the search does not look at places. -/
theorem lookup_blind (find : Graph → Option Nat) (c : Complaint)
    (h : ∀ g : Graph, find (g.renumber f) = find g) :
    Blind f (do
      match find (← get).graph with
      | some i => return i
      | none => throw c) := by
  refine Blind.get_bind (fun r => by rw [r.graph_renumber, h]) fun r => ?_
  cases find r.graph with
  | none => exact Blind.throw _
  | some i => exact Blind.pure _

theorem varId_blind (name : String) : Blind f (varId name) :=
  lookup_blind (·.findVar? name) _ fun _ => rfl

theorem var_blind : Blind f var := variableName_blind.bind fun name => varId_blind name

theorem var?_blind : Blind f var? := by
  refine optionalName_blind.bind fun name => ?_
  split
  · exact (varId_blind _).map _
  · exact Blind.pure _

theorem block_blind : Blind f block :=
  (word_blind _).bind fun name =>
    lookup_blind (·.findBlock? name) _ fun g => g.findBlock?_renumber f name

/-- A class is read, and numbered, without a look at lines. -/
theorem cls_blind : Blind f cls := by
  refine (word_blind _).bind fun name r => ?_
  have h := r.graph.internClass_renumber f name
  change EStateM.Result.ok ((r.graph.renumber f).internClass name).1
    (Reader.mk r.tokens ((r.graph.renumber f).internClass name).2) = _
  rw [h]
  rfl

/-! ## Hints and encodings -/

theorem moreNames_blind (steps : Nat) : Blind f (moreNames steps) := by
  induction steps with
  | zero => exact Blind.pure _
  | succ steps ih =>
    refine (eat_blind _).bind fun found => ?_
    split
    · exact (word_blind _).bind fun name => ih.bind fun rest => Blind.pure _
    · exact Blind.pure _

theorem hint_blind : Blind f hint := by
  refine (word_blind _).bind fun first => Blind.get_bind (fun _ => rfl) fun r => ?_
  refine (moreNames_blind _).bind fun rest => ?_
  split
  · exact Blind.pure _
  · exact Blind.throw _

theorem encoding_blind : Blind f encoding := by
  refine (word_blind _).bind fun name => ?_
  split
  · refine (eat_blind _).bind fun found => ?_
    split
    · exact cls_blind.bind fun c => (expectSymbol_blind _).bind fun _ => Blind.pure _
    · exact Blind.pure _
  · exact Blind.pure _
  · exact Blind.throw _

theorem declaration_blind : Blind f declaration := by
  refine variableName_blind.bind fun name => (expectSymbol_blind _).bind fun _ => ?_
  refine encoding_blind.bind fun e => (eat_blind _).bind fun found => ?_
  split
  · exact hint_blind.bind fun h => Blind.pure _
  · exact Blind.pure _

/-! ## Expressions -/

/-- Expressions and lists of them, one step after the other. -/
theorem within_blind (steps : Nat) :
    Blind f (exprWithin steps) ∧ Blind f (itemsWithin steps) := by
  induction steps with
  | zero => exact ⟨missing_blind _, missing_blind _⟩
  | succ steps ih =>
    obtain ⟨expr_blind, items_blind⟩ := ih
    constructor
    · refine peek_blind.bind fun token => skip_blind.bind fun _ => ?_
      cases token with
      | none => exact Blind.throw _
      | some token =>
        cases token with
        | int n => exact Blind.pure _
        | double x => exact Blind.pure _
        | text s => exact Blind.pure _
        | «variable» name =>
          refine (varId_blind _).bind fun v => Blind.get_bind (fun _ => rfl) fun r => ?_
          exact Blind.pure _
        | symbol s =>
          cases s with
          | openParen =>
            refine expr_blind.bind fun inner => (eat_blind _).bind fun found => ?_
            split
            · refine (hint_blind.map _).bind fun e => ?_
              exact (expectSymbol_blind _).bind fun _ => Blind.pure _
            · exact (expectSymbol_blind _).bind fun _ => Blind.pure _
          | _ => exact Blind.throw _
        | word name =>
          dsimp only
          -- An object, a negation, an array with or without items, a constant or an operator.
          split
          · exact cls_blind.bind fun c => Blind.pure _
          · exact expr_blind.bind fun e => Blind.pure _
          · refine (expectSymbol_blind _).bind fun _ => (eat_blind _).bind fun found => ?_
            split
            · exact Blind.pure _
            · exact items_blind.bind fun items => Blind.pure _
          · split
            · exact Blind.pure _
            · refine expr_blind.bind fun left => (expectSymbol_blind _).bind fun _ => ?_
              exact expr_blind.bind fun right => Blind.pure _
            · exact Blind.throw _
    · refine expr_blind.bind fun first => (eat_blind _).bind fun found => ?_
      split
      · exact Blind.pure _
      · exact (expectSymbol_blind _).bind fun _ => items_blind.bind fun rest => Blind.pure _

theorem expr_blind : Blind f expr :=
  Blind.get_bind (fun _ => rfl) fun r => (within_blind r.tokens.length).1

/-! ## Lines -/

/-- Handlers are read clause by clause. -/
theorem handlers_blind (steps : Nat) : Blind f (handlers steps) := by
  induction steps with
  | zero => exact Blind.pure _
  | succ steps ih =>
    refine (eat_blind _).bind fun found => ?_
    split
    · refine cls_blind.bind fun c => var?_blind.bind fun v => ?_
      refine (expectSymbol_blind _).bind fun _ => ?_
      exact block_blind.bind fun target => ih.bind fun rest => Blind.pure _
    · exact Blind.pure _

/-- A protected region is read without a look at lines, with a cleanup and without one. -/
theorem protect_blind : Blind f protect := by
  have last (body : BlockId) (hs : List Handler) (cleanup : Option BlockId) : Blind f (do
      expectKeyword "end"
      return Edge.protect body hs cleanup (← block)) :=
    (expectKeyword_blind _).bind fun _ => block_blind.bind fun next => Blind.pure _
  refine block_blind.bind fun body => Blind.get_bind (fun _ => rfl) fun r => ?_
  refine (handlers_blind _).bind fun hs => (eat_blind _).bind fun found => ?_
  split
  · exact (block_blind.map some).bind fun cleanup => last body hs cleanup
  · exact last body hs none

/-- The cases of a switch are read clause by clause. -/
theorem cases_blind (steps : Nat) : Blind f (cases steps) := by
  induction steps with
  | zero => exact Blind.pure _
  | succ steps ih =>
    refine (eat_blind _).bind fun found => ?_
    split
    · refine expr_blind.bind fun e => ?_
      split
      · refine (expectSymbol_blind _).bind fun _ => block_blind.bind fun target => ?_
        exact ih.bind fun rest => Blind.pure _
      · exact Blind.throw _
    · exact Blind.pure _

theorem switch_blind : Blind f switch := by
  refine expr_blind.bind fun value => Blind.get_bind (fun _ => rfl) fun r => ?_
  refine (cases_blind _).bind fun cs => (expectKeyword_blind _).bind fun _ => ?_
  exact (expectSymbol_blind _).bind fun _ => block_blind.bind fun default => Blind.pure _

/-- What follows a first word is read without a look at lines, whatever the word. -/
theorem afterWord_blind (w : String) : Blind f (afterWord w) := by
  unfold afterWord
  split
  · exact expr_blind.bind fun e => Blind.pure _
  · exact expr_blind.bind fun e => Blind.pure _
  · exact expr_blind.bind fun e => Blind.pure _
  · refine peek_blind.bind fun found => ?_
    split
    · exact Blind.pure _
    · exact expr_blind.bind fun e => Blind.pure _
  · exact block_blind.bind fun b => Blind.pure _
  · refine expr_blind.bind fun e => (expectKeyword_blind _).bind fun _ => ?_
    refine block_blind.bind fun ifTrue => (expectKeyword_blind _).bind fun _ => ?_
    exact block_blind.bind fun ifFalse => Blind.pure _
  · exact protect_blind.bind fun e => Blind.pure _
  · refine expr_blind.bind fun e => (expectSymbol_blind _).bind fun _ => ?_
    exact block_blind.bind fun next => Blind.pure _
  · refine block_blind.bind fun source => var_blind.bind fun value => var?_blind.bind fun key => ?_
    refine (expectKeyword_blind _).bind fun _ => block_blind.bind fun body => ?_
    refine (expectKeyword_blind _).bind fun _ => block_blind.bind fun after => ?_
    exact Blind.pure _
  · exact switch_blind.bind fun e => Blind.pure _
  · exact Blind.throw _

theorem line_blind : Blind f line := by
  refine var?_blind.bind fun target => ?_
  split
  · refine (eat_blind _).bind fun found => ?_
    split
    · exact expr_blind.bind fun e => Blind.pure _
    · exact (expectSymbol_blind _).bind fun _ => expr_blind.bind fun e => Blind.pure _
  · exact (word_blind _).bind fun w => afterWord_blind w

theorem contentLine_blind : Blind f contentLine :=
  line_blind.bind fun content => finish_blind.bind fun _ => Blind.pure content

/-! ## Declarations -/

/-- Reading a declaration does not look at lines if adding the variable does not. -/
theorem declare_blind (name : String) {add : Graph → Graph}
    (h : ∀ g : Graph, add (g.renumber f) = (add g).renumber f) : Blind f (declare name add) := by
  refine Blind.get_bind (fun _ => rfl) fun r => ?_
  have adds : Blind f (modify fun r => { r with graph := add r.graph } : Read Unit) :=
    Blind.modify fun r => congrArg (Reader.mk r.tokens) (h r.graph)
  split
  · exact (Blind.throw _).bind fun _ => adds
  · exact adds

/-- Parameters are read one by one. -/
theorem params_blind (steps : Nat) : Blind f (params steps) := by
  induction steps with
  | zero => exact missing_blind _
  | succ steps ih =>
    refine declaration_blind.bind fun (name, e, h) => ?_
    have declared : Blind f (declare name (·.declareParam name e h)) :=
      declare_blind name fun _ => rfl
    refine declared.bind fun _ => (eat_blind _).bind fun found => ?_
    split
    · exact Blind.pure _
    · exact (expectSymbol_blind _).bind fun _ => ih

/-- The line that opens a routine is read without a look at lines. -/
theorem header_blind : Blind f header := by
  have last : Blind f (do expectSymbol .openBrace; finish) :=
    (expectSymbol_blind _).bind fun _ => finish_blind
  refine (expectKeyword_blind _).bind fun _ => (word_blind _).bind fun name => ?_
  have named : Blind f (modify fun r => { r with graph := { r.graph with name } } : Read Unit) :=
    Blind.modify fun _ => rfl
  refine named.bind fun _ => (expectSymbol_blind _).bind fun _ => (eat_blind _).bind fun found => ?_
  split
  · refine Blind.get_bind (fun _ => rfl) fun r => ?_
    exact (params_blind _).bind fun _ => last
  · exact last

theorem variableLine_blind (home : VarHome) : Blind f (variableLine home) := by
  refine declaration_blind.bind fun (name, e, h) => finish_blind.bind fun _ => ?_
  exact declare_blind name fun _ => rfl

end Read

/-! ## Routines -/

variable {α : Type} {f : Nat → Nat}

/-- A result with the lines in it renumbered, where `k` renumbers those of what was read. -/
def renumbered (f : Nat → Nat) (k : α → α) : Except ParseError α → Except ParseError α
  | .ok a => .ok (k a)
  | .error e => .error (e.renumber f)

theorem label?_renumber (l : Line) : (l.renumber f).label? = l.label? := rfl

/-- A line with another number is read alike; an error has the other number. -/
theorem readLine_renumber (l : Line) (g : Graph) {m : Read α} (h : m.Blind f) :
    readLine (l.renumber f) (g.renumber f) m =
      renumbered f (fun p => (p.1, p.2.renumber f)) (readLine l g m) := by
  have run : m.run ⟨(l.renumber f).tokens, g.renumber f⟩ =
      Read.renumbered f (m.run ⟨l.tokens, g⟩) := h ⟨l.tokens, g⟩
  unfold readLine
  rw [run]
  cases m.run ⟨l.tokens, g⟩ <;> rfl

/-- The blocks of a routine are collected alike from lines with other numbers. -/
theorem collectBlocks_renumber (ls : List Line) (g : Graph) :
    collectBlocks (ls.map (Line.renumber f)) (g.renumber f) =
      renumbered f (Graph.renumber f) (collectBlocks ls g) := by
  induction ls generalizing g with
  | nil => rfl
  | cons l ls ih =>
    rw [List.map_cons, collectBlocks, collectBlocks, label?_renumber]
    cases l.label? with
    | none => exact ih g
    | some label =>
      dsimp only
      rw [Graph.findBlock?_renumber]
      split
      · rfl
      · rw [← ih]
        congr 1
        simp [Graph.renumber, Block.renumber]

/-- A statement has the number of the line that it stands on. -/
theorem addContent_renumber (l : Line) (content : Read.Content) (b : Block) :
    addContent (l.renumber f) content (b.renumber f) = (addContent l content b).renumber f := by
  cases content with
  | action a => simp [addContent, Block.renumber, Stmt.renumber, Line.renumber]
  | edge e => rfl

theorem modify_addContent_renumber (l : Line) (content : Read.Content) (blocks : List Block)
    (b : BlockId) :
    (blocks.map (Block.renumber f)).modify b (addContent (l.renumber f) content) =
      (blocks.modify b (addContent l content)).map (Block.renumber f) := by
  refine List.ext_getElem? fun i => ?_
  rw [List.getElem?_modify, List.getElem?_map, List.getElem?_map, List.getElem?_modify]
  cases blocks[i]? with
  | none => rfl
  | some block =>
    by_cases hi : b = i
    · simp [hi, addContent_renumber]
    · simp [hi]

/-- A line of the body is read alike with another number. -/
theorem bodyLine_renumber (l : Line) (current : Option BlockId) (g : Graph) :
    bodyLine (l.renumber f) current (g.renumber f) =
      renumbered f (Graph.renumber f) (bodyLine l current g) := by
  obtain ⟨number, column, tokens⟩ := l
  have declares (rest : List Token) (home : VarHome) :
      Prod.snd <$> readLine ⟨f number, column, rest⟩ (g.renumber f) (Read.variableLine home) =
        renumbered f (Graph.renumber f)
          (Prod.snd <$> readLine ⟨number, column, rest⟩ g (Read.variableLine home)) := by
    have h := readLine_renumber ⟨number, column, rest⟩ g (Read.variableLine_blind (f := f) home)
    rw [Line.renumber] at h
    rw [h]
    cases readLine ⟨number, column, rest⟩ g (Read.variableLine home) <;> rfl
  unfold bodyLine Line.renumber
  dsimp only
  split
  · exact declares _ _
  · exact declares _ _
  · cases current with
    | none => rfl
    | some b =>
      dsimp only
      rw [Graph.edge_renumber]
      split
      · rfl
      · -- The one place where the number of a line gets into the routine.
        have h := readLine_renumber ⟨number, column, tokens⟩ g (Read.contentLine_blind (f := f))
        rw [Line.renumber] at h
        rw [h]
        cases readLine ⟨number, column, tokens⟩ g Read.contentLine with
        | error e => rfl
        | ok p =>
          have h := modify_addContent_renumber (f := f) ⟨number, column, tokens⟩ p.1 p.2.blocks b
          exact congrArg (fun blocks => Except.ok { p.2 with blocks }) h

/-- So are all lines of the body. -/
theorem body_renumber (ls : List Line) (current : Option BlockId) (g : Graph) :
    body (ls.map (Line.renumber f)) current (g.renumber f) =
      renumbered f (Graph.renumber f) (body ls current g) := by
  induction ls generalizing current g with
  | nil => rfl
  | cons l ls ih =>
    rw [List.map_cons, body, body, label?_renumber]
    cases l.label? with
    | some label =>
      dsimp only
      rw [Graph.findBlock?_renumber]
      exact ih _ g
    | none =>
      dsimp only
      rw [bodyLine_renumber]
      cases bodyLine l current g with
      | error e => rfl
      | ok g' => exact ih current g'

/-- So is a whole routine. -/
theorem routine_renumber (headerLine : Line) (ls : List Line) :
    routine (headerLine.renumber f) (ls.map (Line.renumber f)) =
      renumbered f (Graph.renumber f) (routine headerLine ls) := by
  have header := readLine_renumber headerLine { name := "" } (Read.header_blind (f := f))
  unfold routine
  -- A routine without blocks has no lines to renumber.
  change (readLine (headerLine.renumber f) (Graph.renumber f { name := "" }) Read.header >>= _) = _
  rw [header]
  cases readLine headerLine { name := "" } Read.header with
  | error e => rfl
  | ok p =>
    change (collectBlocks _ (p.2.renumber f) >>= _) =
      renumbered f (Graph.renumber f) (collectBlocks ls p.2 >>= _)
    rw [collectBlocks_renumber]
    cases collectBlocks ls p.2 with
    | error e => rfl
    | ok g =>
      change (if (g.renumber f).blocks.isEmpty = true then _ else body _ none (g.renumber f)) =
        renumbered f (Graph.renumber f) (if g.blocks.isEmpty = true then _ else body ls none g)
      rw [Graph.isEmpty_blocks_renumber]
      split
      · rfl
      · exact body_renumber ls none g

/-- Lines with other numbers (module doc). -/
theorem routinesWithin_renumber (steps : Nat) (ls : List Line) :
    routinesWithin steps (ls.map (Line.renumber f)) =
      renumbered f (List.map (Graph.renumber f)) (routinesWithin steps ls) := by
  induction steps generalizing ls with
  | zero => rfl
  | succ steps ih =>
    cases ls with
    | nil => rfl
    | cons l ls =>
      have close : (fun l : Line => !l.isClose) ∘ Line.renumber f = fun l => !l.isClose := rfl
      rw [List.map_cons, routinesWithin, routinesWithin, List.takeWhile_map, List.dropWhile_map,
        close]
      change (if (!l.isHeader) = true then _ else _) = _
      split
      · rfl
      · cases ls.dropWhile fun l => !l.isClose with
        | nil => rfl
        | cons closing after =>
          rw [List.map_cons]
          dsimp only
          rw [routine_renumber, ih]
          cases routine l (ls.takeWhile fun l => !l.isClose) with
          | error e => rfl
          | ok g => cases routinesWithin steps after <;> rfl

end Source
end Linearizer
