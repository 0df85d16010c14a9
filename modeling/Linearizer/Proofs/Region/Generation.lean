import Linearizer.Proofs.Generator.Routine
import Linearizer.Proofs.Region.State

/-!
# Regions in generated code

Generation writes lawful code, whether it succeeds or fails.

- **Points** (`Gen.regional`): between blocks the open scopes are those of the regions that the code
  is in. Going on with a block takes a block that these enclose, and the parts of a region are
  opened and closed in order.
- **Listings**: the listing of any routine is lawful (`Graph.generate_lawful`), and no region is
  left open when generation succeeds (`Graph.nest_eq_nil_of_ok`).
-/

namespace Linearizer

open Outline

/-- Branches out of scopes are neither labels nor markers. -/
theorem isSilent_exitInsn (scopes : List Scope) (b : BlockId) :
    (exitInsn scopes b).isSilent = true := by
  unfold exitInsn
  split <;> rfl

/-- In a structured routine the regions of `nest` enclose the block. -/
def Graph.Enclosed (g : Graph) (nest : List Enclosure) (b : BlockId) : Prop :=
  g.Structured → g.Encloses (Enclosure.regions nest) b

/-- The regions that an edge starts: at least two, each of them of its own. -/
theorem Graph.Guards.regions {g : Graph} {b body next : BlockId} {handlers : List Handler}
    {cleanup : Option BlockId} (h : g.Guards b body handlers cleanup next) {r : Region}
    {parts : List Region} (hr : g.regionsOf b = r :: parts) :
    parts ≠ [] ∧ (r :: parts).Nodup := by
  obtain ⟨block, hb, he⟩ := h.edge
  have distinct := (Graph.nodup_map_lo_regionsOf hb he h.ascending).of_map
  rw [hr] at distinct
  refine ⟨?_, distinct⟩
  rw [Graph.regionsOf_eq hb he] at hr
  obtain ⟨-, rfl⟩ := List.cons.inj hr
  have guarded := h.guarded
  cases handlers with
  | cons => exact List.cons_ne_nil _ _
  | nil =>
    cases cleanup with
    | some => exact List.cons_ne_nil _ _
    | none => cases guarded

namespace Gen

variable {setting : Setting} {nest : List Enclosure} {s : State} {calls : List Call}

/-! ## Points of a generation -/

/-- The open scopes are those of the regions that the code is in; a region whose parts are to come
has none, and may be entered (module doc). -/
def regional (setting : Setting) : Invariant setting where
  Index := List Enclosure
  may nest b := setting.graph.Enclosed nest b
  rest _ nest _ s := s.Inside setting.graph nest
  cond _ nest _ s := s.Inside setting.graph nest
  inBlock _ nest b _ s := s.At setting.graph nest b ∧
    (setting.graph.Structured → setting.graph.Home (Enclosure.regions nest) b)
  loop _ nest _ _ s := s.Inside setting.graph nest
  owed _ nest r parts _ s := s.Between setting.graph ⟨r, parts⟩ nest ∧
    ∀ r' ∈ r :: parts, setting.graph.Enters (Enclosure.regions nest) r'
  done _ nest r parts _ s := s.Between setting.graph ⟨r, parts⟩ nest ∧
    ∀ r' ∈ parts, setting.graph.Enters (Enclosure.regions nest) r'
  noted _ _ s := ∃ nest, s.Inside setting.graph nest
  failed _ _ s := s.Rests setting.graph

/-- A branch to a block of the routine leaves the regions as they are. -/
theorem regional_exited {n : Nat} {b : BlockId} (hb : b < setting.graph.size)
    (hs : (regional setting).rest n nest calls s) {s' : State} (hscopes : s'.scopes = s.scopes)
    (hc : s'.code = s.code ++ [exitInsn s.scopes b]) (hr : s'.returnSlot = s.returnSlot) :
    (regional setting).rest n nest calls s' :=
  State.Stands.exit hs (isSilent_exitInsn _ _) (hs.scopes.exits hb) hscopes hc hr

/-- Labels and exits stand in the regions that the scopes are those of. -/
theorem regional_keepsVisits : (regional setting).KeepsVisits where
  note _ _ hs := ⟨⟨_, hs⟩, hs⟩
  fails _ hs := .inside hs
  nesting hs := .inside hs
  grow hs := hs
  revisit {_ _ b _ s} _ hb _ hs := regional_exited hb hs rfl (s.code_revisited b) rfl
  enter {_ _ viaEdge _ _ _} _ hmay _ _ within hs := by
    have home (hg : setting.graph.Structured) :=
      hs.scopes.home hg (hmay hg) (hs.inner_iff.mp within)
    exact ⟨hs.enter viaEdge home, home⟩
  exit {_ _ b _ s} _ live _ _ hs :=
    regional_exited (Graph.lt_size_of_isLive live) hs rfl (s.code_exited b) rfl
  claim {_ _ b _ s} _ hmay _ _ within hs := by
    have home (hg : setting.graph.Structured) :=
      hs.scopes.home hg (hmay hg) (hs.inner_iff.mp within)
    refine hs.rescope ((hs.scopes.unqueue b).enqueue home) ?_ (s.returnSlot_unqueue b)
    exact congrArg (·.listing.insns.toList) (s.tape_unqueue b)
  defer _ hmay _ _ out _ ho hs := by
    refine hs.rescope (hs.scopes.deferred hmay (fun hi => ?_) ho) rfl rfl
    rw [hs.inner_iff.mpr hi] at out
    cases out

/-- So do conditional branches and what they jump over. -/
theorem regional_keepsBranches : (regional setting).KeepsBranches where
  branch _ _ hs := ⟨⟨_, hs⟩, fun _ _ => .inside hs⟩
  drop hs := hs.straight ((op_straight rfl).of_ok rfl)
  direct {_ nest o target _ s} ho _ _ within hs := by
    have allowed : Exits setting.graph (Enclosure.regions nest) (.branch o (.block target)) := by
      cases o with
      | brtrue | brfalse => exact hs.inner_iff.mp within
      | br | leave => cases ho
    exact hs.exit rfl allowed rfl (s.code_branched o _) rfl
  detour {_ nest o _ _ s} ho hmay _ _ hs := by
    have allowed : Exits setting.graph (Enclosure.regions nest)
        (.branch o.negate (.fresh s.nextLabel)) := by
      cases o with
      | brtrue | brfalse => exact trivial
      | br | leave => cases ho
    refine ⟨nest, hmay, hs.exit rfl allowed rfl (s.code_skipped _) rfl, fun _ s' hs' => ?_⟩
    exact hs'.exit (i := .label _) rfl trivial rfl (s'.code_written _) rfl

/-- A block waits in the scope of the innermost region that encloses it. -/
theorem regional_keepsLoops : (regional setting).KeepsLoops := by
  refine .of_take rfl (fun hs => .inside hs) fun hn hs => ?_
  obtain ⟨scope, outer, rest, hscopes, hp, rfl⟩ := nextPending_some hn
  have opens := hs.scopes
  rw [hscopes] at opens
  obtain ⟨htake, home⟩ := opens.take hp
  exact ⟨fun hg => (home hg).encloses, hs.rescope htake rfl rfl⟩

/-- So does straight-line code. -/
theorem regional_keepsStraight : (regional setting).KeepsStraight fun nest b =>
    setting.graph.Inner (Enclosure.regions nest) b where
  straight h hs := hs.straight h
  quiets h hs := by
    refine ⟨⟨hs.1.inside.quiets h, ?_⟩, hs.2⟩
    rw [h.calm.outline_eq]
    exact hs.1.block
  cond hs := hs
  leave hs := hs.1.inside
  fails _ hs := .inside hs
  successor hb he hr hc hs := fun hg =>
    hg.encloses_successor (hs.2 hg) (Graph.follows_of_regions_eq_nil hb he hr hc)
  remember hs := hs.rescope hs.scopes rfl rfl
  chosen hc hs := hs.1.inside.inner_iff.mp hc
  tabled {_ _ targets _ s} ht hs := by
    refine hs.exit (i := .switch _) rfl ?_ rfl (s.code_tabled targets) rfl
    intro l hl
    obtain ⟨b, hb, rfl⟩ := List.mem_map.mp hl
    exact ⟨b, rfl, ht b hb⟩

/-! ## Protected regions -/

/-- A scope opens the region that has been marked, and its end leaves the region marked. -/
theorem regional_opens {n : Nat} {r : Region} {parts : List Region} :
    (regional setting).Opens n r.part.kind r.lo r.hi ((regional setting).owed n nest r parts)
      ((regional setting).done n nest r parts) := by
  rintro calls s ⟨hs, enters⟩
  obtain ⟨hr, hparts⟩ := List.forall_mem_cons.mp enters
  have opened : (s.opened r.part.kind r.lo r.hi).Inside setting.graph (⟨r, parts⟩ :: nest) := by
    refine hs.rescope ?_ (s.code_opened _ _ _) (s.returnSlot_opened _ _ _)
    rw [State.scopes_opened]
    exact .region (fun hg => (hr hg).1) (fun hg => (hr hg).2.1) (by simp) (hs.scopes.unqueue r.lo)
  refine ⟨⟨r, parts⟩ :: nest, fun hg => (hr hg).2.2, opened, fun calls s outer hs hscopes => ?_⟩
  have closed : { s with scopes := outer }.Between setting.graph ⟨r, parts⟩ nest := by
    have htail := hs.scopes.tail
    rw [hscopes] at htail
    exact hs.rescope htail rfl rfl
  exact ⟨⟨_, hs⟩, fun _ => ⟨closed, hparts⟩, fun _ => .between closed⟩

/-- The next part of a region is marked. -/
theorem regional_marker {n : Nat} {r : Region} (next : Region) {parts : List Region}
    (hp : next.part ≠ .body) (hs : (regional setting).done n nest r (next :: parts) calls s) :
    (s.written next.part.marker).Between setting.graph ⟨next, parts⟩ nest :=
  hs.1.beginNext hp rfl (s.code_written next.part.marker) rfl

/-- Markers lead from one part of a region to the next, each with its scope. -/
theorem regional_keepsRegions : (regional setting).KeepsRegions where
  beginTry {_ _ _ _ _ _ _ _ _ _ s} hguards hr hs := by
    obtain ⟨block, hb, he⟩ := hguards.edge
    obtain ⟨hne, hd⟩ := hguards.regions hr
    refine ⟨State.Stands.beginTry hs.1 hr hne hd rfl (s.code_written .beginTry) rfl, ?_⟩
    intro r' hr'
    exact Graph.enters_of_mem_regionsOf hb he hguards.ascending hs.2 (hr ▸ hr')
  catches {_ _ b _ _ hi _ _ h _ _ _ _} _ _ hs := by
    have marked := regional_marker ⟨b, .handler h.cls, h.target, hi⟩ nofun hs
    exact .of_straight (receive_straight h) (Finishes.parts.receive fun _ _ => trivial)
      (fun s' hr => ⟨marked.straight hr, hs.2⟩) fun e s' hs _ => .between hs.1
  cleans {_ _ b first next _ _ _ _} hs :=
    ⟨regional_marker ⟨b, .cleanup, first, next⟩ nofun hs, hs.2⟩
  endTry {_ _ _ _ s} hs := hs.1.endTry rfl (s.code_written .endTry) rfl
  next_may hguards hs := by
    obtain ⟨block, hb, he⟩ := hguards.edge
    exact Graph.encloses_next hb he hguards.ascending hs.2
  opens _ := regional_opens

/-- Generation keeps scopes and regions in step. -/
theorem regional_kept : (regional setting).Kept :=
  { regional_keepsVisits, regional_keepsBranches, regional_keepsLoops,
    regional_keepsStraight.blocks, regional_keepsRegions with }

/-! ## Routines -/

theorem put_bare {g : Graph} {i : Insn} (hi : i.isSilent = true) (he : Exits g [] i) :
    Meets (State.Bare g) (put i) (fun _ => State.Bare g) fun _ => State.Rests g := fun s hs =>
  ⟨hs.exit hi he (s.code_written i) rfl, hs.closed⟩

/-- The exit that returns share stands in no region. -/
theorem sharedReturn_bare {g : Graph} :
    Meets (State.Bare g) sharedReturn (fun _ => State.Bare g) fun _ => State.Rests g := by
  intro s hs
  refine MeetsFrom.read (get_run s) ?_
  cases hr : s.returnSlot with
  | none => exact hs
  | some exit =>
    obtain ⟨slot, label⟩ := exit
    obtain ⟨n, rfl⟩ : ∃ n, label = .fresh n := hs.shared (slot, label) hr
    refine Meets.bind (put_bare (i := .label (.fresh n)) rfl trivial) (fun _ => ?_) s hs
    refine Meets.bind (put_bare (i := .ldloc slot) rfl trivial) fun _ => ?_
    exact put_bare (i := .op .ret) rfl rfl

/-- The scope of a routine is opened where no other is. -/
theorem regional_opens_routine {n : Nat} :
    (regional setting).Opens n .routine Graph.entry setting.graph.size
      (fun _ => State.Bare setting.graph) fun _ => State.Bare setting.graph := by
  intro calls s hs
  have entry : setting.graph.Enclosed [] Graph.entry := fun hg r hr hc => by
    rw [hg.entry r hr] at hc
    cases hc
  have opened : (s.opened .routine Graph.entry setting.graph.size).Inside setting.graph [] := by
    refine ⟨hs.congr (s.code_opened _ _ _) (s.returnSlot_opened _ _ _), ?_⟩
    have hf := s.frames_unqueue Graph.entry
    rw [State.frames, State.frames, hs.closed, List.map_nil, List.map_eq_nil_iff] at hf
    rw [State.scopes_opened, hf]
    exact .routine (by simp)
  refine ⟨[], entry, opened, fun calls s outer hs hscopes => ?_⟩
  have closed : { s with scopes := outer }.Bare setting.graph := by
    have htail := hs.scopes.tail_eq_nil
    rw [hscopes] at htail
    exact ⟨hs.toReads.congr rfl rfl, htail⟩
  exact ⟨⟨_, hs⟩, fun _ => closed, fun _ => .bare closed⟩

/-- A run of a whole routine starts and ends outside all regions. -/
theorem routine_bare (hs : s.Bare setting.graph) :
    (regional setting).MeetsFrom (Journaled.routine setting)
      (fun _ _ => State.Bare setting.graph) [] s := by
  have declares : Does Straight (setting.graph.vars.forM declarePlace) :=
    Does.forM _ fun v _ => declarePlace_straight v
  refine regional_kept.routine_meets (fun _ => .bare hs) ?_ (fun _ => regional_opens_routine)
    fun _ s hs => sharedReturn_bare s hs
  exact .of_straight declares (.forM _ declarePlace_finishes)
    (fun s' h => ⟨hs.straight h, h.scopes.trans hs.closed⟩) fun _ _ hs _ => .bare hs

end Gen

/-! ## Listings -/

namespace Graph

variable (g : Graph) (options : Options) (registry : Registry)

theorem routine_regional : (Gen.regional ⟨g, options⟩).MeetsFrom (Journaled.routine ⟨g, options⟩)
    (fun _ _ => State.Bare g) [] { registry } :=
  Gen.routine_bare ⟨⟨trivial, rfl, by simp⟩, rfl⟩

/-- The same for the state in which generation of a routine ends. -/
theorem generate_bare :
    match (g.generate options registry).outcome with
    | .ok _ => (g.lastState options registry).Bare g
    | .error _ => (g.lastState options registry).Rests g := by
  have accords := generate_accords (g.routine_regional options registry)
  cases ho : (g.generate options registry).outcome with
  | ok c =>
    rw [ho] at accords
    obtain ⟨-, hs⟩ := accords
    exact hs
  | error d =>
    rw [ho] at accords
    obtain ⟨_, hs⟩ := accords
    exact hs

/-- In that state the code is in the regions of the open scopes, in any case. -/
theorem lastState_rests : (g.lastState options registry).Rests g := by
  have h := g.generate_bare options registry
  cases ho : (g.generate options registry).outcome with
  | ok c =>
    rw [ho] at h
    exact .bare h
  | error d =>
    rw [ho] at h
    exact h

/-- The elements of a listing follow the rules for regions. -/
theorem generate_lawful : Lawful g {} (g.generate options registry).listing.insns.toList := by
  rw [generate_code]
  exact (g.lastState_rests options registry).lawful

variable {g options registry} in
/-- No region is left open when generation succeeds. -/
theorem nest_eq_nil_of_ok {c : Counters} (h : (g.generate options registry).outcome = .ok c) :
    (g.outline (g.generate options registry).listing.insns.toList).nest = [] := by
  have hb := g.generate_bare options registry
  rw [h] at hb
  rw [generate_code]
  exact hb.nest

end Graph
end Linearizer
