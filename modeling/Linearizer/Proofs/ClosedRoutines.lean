import Linearizer.Compile
import Linearizer.Proofs.Closed.Lookup
import Linearizer.Proofs.Closed.Reading
import Linearizer.Proofs.Generator.Routine

/-!
# Closed routines

The routines of a text are closed, and the generation of a closed routine finds every block and
every variable that it looks up: the variables got a place each at the start, and a block comes to
be visited only from an edge or from a scope that it waits in.

* `State.Backed`: every variable has a place, and every block that waits exists;
* `Gen.Resolves`: straight-line code keeps this, and fails for no missing block or variable;
* `Gen.backed` is the invariant that visits, scopes and regions keep in a closed routine
  (`Gen.backed_kept`);
* `Session.compile_resolves` is the result for closed routines, and `Source.parse_closes` puts it
  together with what the reader guarantees.
-/

namespace Linearizer

/-- Whether a block or a variable is missing. -/
def Fault.isDangling : Fault → Bool
  | .danglingBlock _ | .danglingVariable _ => true
  | _ => false

/-- Every variable has a place, and every block that waits exists. -/
structure State.Backed (g : Graph) (s : State) : Prop where
  places : s.places.length = g.vars.length
  pending : ∀ b, Scope.Pending s.scopes b → b < g.size

namespace State.Backed

variable {g : Graph} {s s' : State}

theorem congr (h : s.Backed g) (hp : s'.places = s.places) (hs : s'.scopes = s.scopes) :
    s'.Backed g := ⟨hp ▸ h.places, hs ▸ h.pending⟩

/-- Only blocks that exist may come to wait. -/
theorem of_pending (h : s.Backed g) (hp : s'.places = s.places)
    (hs : ∀ b, Scope.Pending s'.scopes b → b < g.size ∨ Scope.Pending s.scopes b) :
    s'.Backed g :=
  ⟨hp ▸ h.places, fun b hb => (hs b hb).elim id (h.pending b)⟩

/-- To take a block out of the queues lets none wait. -/
theorem unqueue (h : s.Backed g) (b : BlockId) : (s.unqueue b).Backed g :=
  h.of_pending (s.places_unqueue b) fun _ hc => .inr (State.pending_of_unqueue hc)

/-- A new scope has no block that waits. -/
theorem opened (h : s.Backed g) (kind : ScopeKind) (first hi : BlockId) :
    (s.opened kind first hi).Backed g := by
  refine h.of_pending (s.places_opened kind first hi) fun c hc => .inr ?_
  rw [State.scopes_opened, Scope.pending_cons] at hc
  exact State.pending_of_unqueue (hc.resolve_left (by simp))

/-- To close a scope lets no block wait. -/
theorem closed (h : s.Backed g) : ({ s with scopes := s.scopes.tail }).Backed g := by
  refine h.of_pending rfl fun c hc => .inr ?_
  obtain ⟨scope, hm, hp⟩ := hc
  exact ⟨scope, List.mem_of_mem_tail hm, hp⟩

end State.Backed

namespace Gen

variable {α β : Type} {g : Graph}

/-- The contract of generation in a closed routine (module doc). -/
def Resolves (g : Graph) (m : Gen α) : Prop :=
  Meets (State.Backed g) m (fun _ => State.Backed g) fun e _ => e.isDangling = false

theorem Resolves.pure (x : α) : Resolves g (pure x : Gen α) := Meets.pure fun _ h => h

theorem Resolves.throw {e : Fault} (h : e.isDangling = false) : Resolves g (throw e : Gen α) :=
  Meets.throw fun _ _ => h

/-- One thing after the other resolves what both do. -/
theorem Resolves.bind {m : Gen α} {f : α → Gen β} (hm : Resolves g m)
    (hf : ∀ x, Resolves g (f x)) : Resolves g (m >>= f) := Meets.bind hm hf

theorem Resolves.get_bind {f : State → Gen β} (h : ∀ s, Resolves g (f s)) :
    Resolves g (get >>= f) := Meets.get_bind h

/-- A change of neither the places nor the scopes. -/
theorem Resolves.modify {f : State → State} (hp : ∀ s, (f s).places = s.places)
    (hs : ∀ s, (f s).scopes = s.scopes) : Resolves g (modify f : Gen Unit) :=
  Meets.modify fun s h => h.congr (hp s) (hs s)

/-- Code for values leaves the scopes alone. -/
theorem Converts.resolves {m : Gen α} (h : Converts g.vars.length m) (hd : Does Straight m) :
    Resolves g m := fun s hs => by
  cases hr : m s with
  | ok a s' =>
    have hscopes : s'.scopes = s.scopes := ((hd s).of_ok hr).scopes
    exact .to_ok hr ⟨(h s hs.places).of_ok hr, hscopes ▸ hs.pending⟩
  | error e s' =>
    have he : e.isUnconvertible = true := (h s hs.places).of_error hr
    refine .to_error hr ?_
    cases e with
    | noConversion source hint target => rfl
    | _ => cases he

/-- Values, stores and the parts of edges that name variables of the routine. -/
theorem resolves_parts : Parts (· < g.vars.length) fun _ m => Resolves g m :=
  (Converts.parts.and straight_parts).mono (fun h => h.1.resolves h.2) Resolves.pure Resolves.bind

/-! ## Statements and returns -/

theorem put_resolves (i : Insn) : Resolves g (put i) :=
  Resolves.modify (fun _ => rfl) fun _ => rfl

theorem branch_resolves (o : BranchOp) (l : Label) : Resolves g (branch o l) :=
  Resolves.bind (Resolves.modify (fun _ => rfl) fun _ => rfl) fun _ => put_resolves _

theorem freshLabel_resolves : Resolves g freshLabel := fun _ hs => hs.congr rfl rfl

/-- Statements that name variables of the routine. -/
theorem resolves_acts : Acts (· < g.vars.length) fun _ m => Resolves g m where
  toParts := resolves_parts
  span _ := Resolves.modify (fun _ => rfl) fun _ => rfl
  throw := put_resolves _
  returnTop := resolves_parts.returnTop Resolves.get_bind (Resolves.throw rfl) (put_resolves _)
    freshLabel_resolves (fun _ => Resolves.modify (fun _ => rfl) fun _ => rfl)
    fun l => branch_resolves .leave l

/-- Falling off the end looks up no variable. -/
theorem fallOff_resolves : Resolves g (fallOff g) := fun s hs => by
  refine MeetsFrom.read (currentScope_run g s) ?_
  split
  · exact put_resolves _ s hs
  · exact ((resolves_parts.call rfl).bind fun _ => resolves_acts.returnTop) s hs

/-! ## Parts of edges -/

theorem enumerator_resolves (source : BlockId) : Resolves g (enumerator source) := by
  refine Resolves.get_bind fun s => ?_
  split
  · exact Resolves.pure _
  · exact Resolves.throw rfl

theorem jump_resolves (targets : List BlockId) : Resolves g (jump targets) :=
  Resolves.bind (Resolves.modify (fun _ => rfl) fun _ => rfl) fun _ => put_resolves _

/-! ## Generation -/

variable {setting : Setting} {s : State} {calls : List Call}

/-- Only blocks that exist come next, also those that the parts of a region start with. -/
def backed (setting : Setting) : Invariant setting where
  Index := Unit
  may _ b := b < setting.graph.size
  rest _ _ _ s := s.Backed setting.graph
  cond _ _ _ s := s.Backed setting.graph
  inBlock _ _ _ _ s := s.Backed setting.graph
  loop _ _ _ _ s := s.Backed setting.graph
  owed _ _ r parts _ s := s.Backed setting.graph ∧ ∀ r' ∈ r :: parts, r'.lo < setting.graph.size
  done _ _ _ parts _ s := s.Backed setting.graph ∧ ∀ r ∈ parts, r.lo < setting.graph.size
  noted _ _ _ := True
  failed e _ _ := e.isDangling = false

/-- Of the faults of the schedule none is about a block that exists. -/
theorem backed_fails {e : Fault} (he : (backed setting).Raises () e) : e.isDangling = false := by
  cases e with
  | danglingBlock b =>
    have hb : setting.graph.blocks[b]? = none := he.2
    exact absurd he.1 (Nat.not_lt.mpr (List.getElem?_eq_none_iff.mp hb))
  | danglingVariable v => exact he.elim
  | _ => rfl

/-- A scope starts with a block that exists. -/
theorem backed_opens {n : Nat} {kind : ScopeKind} {first hi : BlockId} {fact fact' : Prop}
    (hf : fact → first < setting.graph.size ∧ fact') :
    (backed setting).Opens n kind first hi (fun _ s => s.Backed setting.graph ∧ fact)
      fun _ s => s.Backed setting.graph ∧ fact' := by
  rintro calls s ⟨hs, h⟩
  refine ⟨(), (hf h).1, hs.opened kind first hi, fun calls s outer hs hscopes => ?_⟩
  refine ⟨trivial, fun _ => ⟨?_, (hf h).2⟩, fun _ => rfl⟩
  have closed := hs.closed
  rwa [hscopes] at closed

/-- A block that is visited exists, so its visit is no fault. -/
theorem backed_keepsVisits : (backed setting).KeepsVisits where
  note _ _ hs := ⟨trivial, hs⟩
  fails he _ := backed_fails he
  nesting _ := rfl
  grow hs := hs
  revisit _ _ _ hs := hs.congr rfl rfl
  enter {_ _ _ b _ _} _ _ _ _ _ hs := (hs.unqueue b).congr rfl rfl
  exit _ _ _ _ hs := hs.congr rfl rfl
  claim {_ _ b _ s} _ hmay _ _ _ hs := by
    refine hs.of_pending (s.places_unqueue b) fun c hc => ?_
    exact (State.pending_of_claimed hc).imp_left fun h => lt_of_eq_of_lt h hmay
  defer _ hmay _ _ _ _ ho hs := by
    refine hs.of_pending rfl fun c hc => ?_
    exact ((Scope.pending_take_append ho).mp hc).imp_left fun h => lt_of_eq_of_lt h hmay

/-- The target of a branch exists as well. -/
theorem backed_keepsBranches : (backed setting).KeepsBranches where
  branch _ _ _ := ⟨trivial, fun _ he => backed_fails he⟩
  drop hs := hs.congr rfl rfl
  direct _ _ _ _ hs := hs.congr rfl rfl
  detour _ hmay _ _ hs := ⟨(), hmay, hs.congr rfl rfl, fun _ _ hs' => hs'.congr rfl rfl⟩

/-- The block that is taken from a scope exists. -/
theorem backed_keepsLoops : (backed setting).KeepsLoops := by
  refine .of_take rfl (fun _ => rfl) fun {_ _ b _ s _} hn hs => ?_
  obtain ⟨scope, outer, rest, hscopes, hp, rfl⟩ := nextPending_some hn
  have before (c : BlockId) (h : c ∈ b :: rest ∨ Scope.Pending outer c) : c < setting.graph.size :=
    hs.pending c (by rwa [hscopes, Scope.pending_cons, hp])
  refine ⟨before b (.inl List.mem_cons_self), ⟨hs.places, fun c hc => ?_⟩⟩
  exact before c ((Scope.pending_cons.mp hc).imp_left (List.mem_cons_of_mem b))

section Closed

variable (hg : setting.graph.Closed)
include hg

/-- In a closed routine statements and edges look up what exists. -/
theorem backed_keepsBlocks : (backed setting).KeepsBlocks where
  statements {_ _ _ _ _ s} hb hs :=
    resolves_acts.statements (fun x hx => (hg.action (List.mem_of_getElem? hb) hx).vars) s hs
  leave hs := hs
  fallOff {_ _ _ _ s} hs := fallOff_resolves s hs
  successor hb he _ hc _ := hg.successor hb he hc
  conditional {_ _ _ _ _ _ condition _ s} hb he hs := by
    have hedge := hg.edge (List.mem_of_getElem? hb) he
    exact resolves_parts.expr (Ids.in_append.mp hedge).1.vars .bool s hs
  «foreach» {n i b next block subject calls s} hb he hs := by
    have hedge := hg.edge (List.mem_of_getElem? hb) he
    exact (resolves_parts.acquire (Ids.in_append.mp hedge).1.vars s hs).mono
      (fun _ _ hs₁ => hs₁.congr rfl rfl) fun _ _ he => he
  moveNext {n i b source body after value key block calls s} hb he hs := by
    have hedge := hg.edge (List.mem_of_getElem? hb) he
    have hvars := Ids.in_ofVars.mp (Ids.in_append.mp hedge).1
    obtain ⟨hvalue, hkey⟩ := List.forall_mem_cons.mp hvars
    have hafter : after < setting.graph.size := hg.successor hb he (by simp [Edge.successors])
    refine (enumerator_resolves source s hs).mono (fun slot s₁ hs₁ => ?_) fun _ _ he => he
    refine (resolves_parts.advance slot s₁ hs₁).mono (fun _ s₂ hs₂ => ?_) fun _ _ he => he
    -- The branch out of the loop comes before the item is stored.
    refine ⟨(), hafter, hs₂, fun _ s₃ hs₃ => ?_⟩
    exact resolves_parts.storeItem slot hvalue (by simpa using hkey) s₃ hs₃
  chain {n i b default value cases block calls s} hb he hs := by
    have hedge := hg.edge (List.mem_of_getElem? hb) he
    refine (resolves_parts.select (Ids.in_append.mp hedge).1.vars s hs).mono
      (fun scratch s₁ hs₁ => ?_) fun _ _ he => he
    refine ⟨(), hs₁, fun c hc => ⟨hg.successor hb he ?_, fun _ s₂ hs₂ => ?_⟩, fun _ _ hs₂ => hs₂⟩
    · exact List.mem_append_left _ (List.mem_map_of_mem hc)
    · exact resolves_parts.compare scratch _ c s₂ hs₂
  table {n i b default value cases range block calls s} hb he _ hs := by
    have hedge := hg.edge (List.mem_of_getElem? hb) he
    refine (resolves_parts.tableIndex (Ids.in_append.mp hedge).1.vars range s hs).mono
      (fun index s₁ hs₁ => ?_) fun _ _ he => he
    refine ⟨(), hg.successor hb he (by simp [Edge.successors]), hs₁, fun _ s₂ hs₂ => ?_⟩
    exact (resolves_parts.loadIndex index s₂ hs₂).mono
      (fun _ s₃ hs₃ => jump_resolves _ s₃ hs₃) fun _ _ he => he

/-- So do the parts of a region. -/
theorem backed_keepsRegions : (backed setting).KeepsRegions where
  beginTry {n i b body next handlers cleanup r parts calls s} hguards hr hs := by
    obtain ⟨block, hb, he⟩ := hguards.edge
    refine ⟨hs.congr rfl rfl, fun r' hr' => ?_⟩
    rw [← hr, Graph.regionsOf_eq hb he] at hr'
    exact hg.successor hb he (Edge.lo_mem_successors hr')
  catches {n i b body next hi handlers cleanup h r parts calls s} hguards hh hs := by
    obtain ⟨block, hb, he⟩ := hguards.edge
    have hedge := hg.edge (List.mem_of_getElem? hb) he
    have hhandler := Ids.in_gather.mp (Ids.in_append.mp hedge).2 _ (List.mem_map_of_mem hh)
    have hvar := Ids.in_ofVars.mp (Ids.in_append.mp (Ids.in_append.mp hhandler).1).2
    have hreceive : Resolves setting.graph (receive h) :=
      resolves_parts.receive (by simpa using hvar)
    exact (hreceive (s.written (.beginCatch h.cls)) (hs.1.congr rfl rfl)).mono
      (fun _ _ hs₁ => ⟨hs₁, hs.2⟩) fun _ _ he => he
  cleans hs := ⟨hs.1.congr rfl rfl, hs.2⟩
  endTry hs := hs.1.congr rfl rfl
  next_may hguards _ := by
    obtain ⟨block, hb, he⟩ := hguards.edge
    exact hg.successor hb he (by simp [Edge.successors])
  opens {n i r parts} _ := backed_opens fun h => List.forall_mem_cons.mp h

end Closed

/-- Generation of a closed routine finds what it looks up. -/
theorem backed_kept (hg : setting.graph.Closed) : (backed setting).Kept :=
  { backed_keepsVisits, backed_keepsBranches, backed_keepsLoops, backed_keepsBlocks hg,
    backed_keepsRegions hg with }

/-- Each variable gets one more place. -/
theorem declarePlace_meets (v : Variable) (n : Nat) :
    Meets (·.places.length = n) (declarePlace v) (fun _ s => s.places.length = n + 1)
      fun e _ => e.isDangling = false := by
  have adds (storage : Storage) {s : State} (hs : s.places.length = n) :
      (s.places ++ [(⟨storage, v.encoding, v.hint⟩ : Place)]).length = n + 1 := by simp [hs]
  unfold declarePlace
  split
  · exact fun s hs => adds (.slot (s.tape.declare v.encoding).1) hs
  · exact fun s hs => adds _ hs
  · exact fun s hs => adds _ hs

/-- Every variable gets a place. -/
theorem declarePlaces_meets (vars : List Variable) (n : Nat) :
    Meets (·.places.length = n) (vars.forM declarePlace)
      (fun _ s => s.places.length = n + vars.length) fun e _ => e.isDangling = false := by
  induction vars generalizing n with
  | nil => exact Meets.pure fun _ h => h
  | cons v vars ih =>
    refine (declarePlace_meets v n).bind fun _ => ?_
    have rest := ih (n + 1)
    rwa [Nat.add_assoc, Nat.add_comm 1, ← List.length_cons] at rest

theorem sharedReturn_resolves : Resolves g sharedReturn := by
  refine Resolves.get_bind fun s => ?_
  split
  · exact (put_resolves _).bind fun _ => (put_resolves _).bind fun _ => put_resolves _
  · exact Resolves.pure ()

/-- The routine of a closed graph starts with a place for each variable and nothing that waits. -/
theorem routine_resolves (hg : setting.graph.Closed) (hne : 0 < setting.graph.size)
    (registry : Registry) :
    (backed setting).MeetsFrom (Journaled.routine setting)
      (fun _ _ s => s.Backed setting.graph) [] { registry } := by
  have places := declarePlaces_meets setting.graph.vars 0 { registry } rfl
  have straight : Does Straight (setting.graph.vars.forM declarePlace) :=
    Does.forM _ fun v _ => declarePlace_straight v
  have declared : (backed setting).Leads (setting.graph.vars.forM declarePlace)
      (fun _ _ s => s.Backed setting.graph ∧ True) [] { registry } := by
    cases hr : setting.graph.vars.forM declarePlace { registry } with
    | error e s => exact MeetsFrom.to_error hr (places.of_error hr)
    | ok _ s =>
      have hscopes : s.scopes = [] := (straight.of_ok hr).scopes
      refine MeetsFrom.to_ok hr ⟨⟨?_, ?_⟩, trivial⟩
      · simpa using places.of_ok hr
      · rw [hscopes]
        exact fun b hb => absurd hb Scope.not_pending_nil
  refine (backed_kept hg).routine_meets (fun he => ?_) declared
    (fun _ => backed_opens fun _ => ⟨hne, trivial⟩) fun calls s hs => sharedReturn_resolves s hs.1
  exact absurd he (by simpa [Graph.size, List.length_pos_iff] using hne)

end Gen

/-- Compiling finds everything that a closed routine names. -/
theorem Session.compile_resolves {g : Graph} (hg : g.Closed) (hne : 0 < g.size) {session : Session}
    {options : Options} {registry : Registry} {d : Diagnostic}
    (hd : (session.compile options registry g).1 = .error d) : d.fault.isDangling = false := by
  have run : (Gen.backed ⟨g, options⟩).MeetsFrom (Journaled.routine ⟨g, options⟩)
    (fun _ _ s => s.Backed g) [] { registry } := Gen.routine_resolves hg hne registry
  have accords := Graph.generate_accords run
  unfold compile finish at hd
  cases ho : (g.generate options registry).outcome with
  | ok counters =>
    simp only [ho] at hd
    cases hd
  | error d' =>
    simp only [ho] at hd accords
    cases hd
    obtain ⟨_, hf⟩ := accords
    exact hf

namespace Source

/-- Every routine of a text that is read has a block, finds each of its blocks by name and is
closed, so that compiling it fails for no missing block or variable. -/
theorem parse_closes {text : String} {graphs : List Graph} (h : parse text = .ok graphs) :
    ∀ g ∈ graphs, 0 < g.size ∧ (∀ i b, g.block? i = some b → g.findBlock? b.name = some i) ∧
      g.Closed ∧
      ∀ (session : Session) (options : Options) (registry : Registry) (d : Diagnostic),
        (session.compile options registry g).1 = .error d →
          (∀ b, d.fault ≠ .danglingBlock b) ∧ ∀ v, d.fault ≠ .danglingVariable v := by
  intro g hm
  obtain ⟨hne, hg⟩ := parse_closed h g hm
  refine ⟨hne, fun i b hb => hg.findBlock? hb, hg, fun session options registry d hd => ?_⟩
  have hf := Session.compile_resolves hg hne hd
  refine ⟨fun b hb => ?_, fun v hv => ?_⟩
  · rw [hb] at hf
    cases hf
  · rw [hv] at hf
    cases hf

/-- A text that names a class in an encoding, a handler and an expression, and leads to blocks whose
labels stand further down. -/
def harvest : String :=
  "routine harvest(%last: object<Loss>) \x7b\n" ++
  "field:\n" ++
  "  try reap catch Hail %last -> save end barn\n" ++
  "reap:\n" ++
  "  eval new Sheaf\n" ++
  "  goto barn\n" ++
  "save:\n" ++
  "  goto barn\n" ++
  "barn:\n" ++
  "  return\n" ++
  "\x7d\n"

/-- What is read: every name has become the number of what it names. -/
def harvested : Graph where
  name := "harvest"
  vars := [⟨"last", .param 0, .object (some 0), .only .object⟩]
  classes := ["Loss", "Hail", "Sheaf"]
  blocks := [
    ⟨"field", false, [], some (.protect 1 [⟨1, some 0, 2⟩] none 3)⟩,
    ⟨"reap", false, [⟨.eval (.ofClass 2), some ⟨5, 3⟩⟩], some (.goto 3)⟩,
    ⟨"save", false, [], some (.goto 3)⟩,
    ⟨"barn", false, [⟨.ret none, some ⟨10, 3⟩⟩], none⟩]

theorem parse_harvest : parse harvest = .ok [harvested] := by decide +kernel

/-- The text is closed although labels and classes are named before they are known. -/
theorem harvest_closes : parse harvest = .ok [harvested] ∧
    0 < harvested.size ∧
      (∀ i b, harvested.block? i = some b → harvested.findBlock? b.name = some i) ∧
      harvested.Closed ∧
      ∀ (session : Session) (options : Options) (registry : Registry) (d : Diagnostic),
        (session.compile options registry harvested).1 = .error d →
          (∀ b, d.fault ≠ .danglingBlock b) ∧ ∀ v, d.fault ≠ .danglingVariable v := by
  exact ⟨parse_harvest, parse_closes parse_harvest harvested List.mem_cons_self⟩

end Source
end Linearizer
