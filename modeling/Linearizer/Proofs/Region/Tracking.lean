import Linearizer.Proofs.Generator.Labels
import Linearizer.Proofs.Region.Generation

/-!
# Regions in the course of a generation

In the course of a successful generation, of whatever routine, the open scopes are those of the
regions that the code is in. `State.Stands` knows this together with the rules of lawful code;
here it is a fact about courses, with all that it says about each part of one.

- **Waiting blocks** (`Scope.Housed`): a block waits in a scope that it lies in.
- **Parts of an edge** (`Edge.regions_protect`): the regions of an edge, in the form in which
  generation goes through them.
- **States** (`State.Tracks`): the code is in the regions of `nest`, and the open scopes are those
  of `regions`. `State.Sits` is such a state where they agree, `State.Heads` one behind the label of
  a block, and `State.Turns` one between two parts of a region.
- **Courses** (`Emits.tracks`): a task ends in the regions that it starts in.
-/

namespace Linearizer

open Outline

/-! ## Waiting blocks -/

/-- Every block that waits lies in the scope that it waits in. -/
def Scope.Housed (scopes : List Scope) : Prop :=
  ∀ scope ∈ scopes, ∀ b ∈ scope.pending, scope.contains b = true

namespace Scope.Housed

variable {scope : Scope} {scopes outer : List Scope} {b : BlockId} {s s' : State}

theorem tail (h : Housed scopes) : Housed scopes.tail := fun scope hm =>
  h scope (List.mem_of_mem_tail hm)

/-- A block less waits. -/
theorem unqueue (h : Housed s.scopes) (b : BlockId) : Housed (s.unqueue b).scopes := by
  unfold State.unqueue
  split
  · intro scope hm c hc
    obtain ⟨scope', hm', rfl⟩ := List.mem_map.mp hm
    exact h scope' hm' c (List.mem_of_mem_filter hc)
  · exact h

theorem enqueue (h : Housed (scope :: scopes)) (hb : scope.contains b = true) :
    Housed (scope.enqueue b :: scopes) := by
  obtain ⟨hs, ho⟩ := List.forall_mem_cons.mp h
  refine List.forall_mem_cons.mpr ⟨fun c hc => ?_, ho⟩
  rcases Scope.mem_insert.mp hc with rfl | hc
  · exact hb
  · exact hs c hc

/-- A block waits in a scope around that it lies in. -/
theorem enqueueIn (h : Housed scopes) (ho : Gen.enqueueIn b scopes = some outer) :
    Housed outer := by
  induction scopes generalizing outer with
  | nil => cases ho
  | cons scope rest ih =>
    unfold Gen.enqueueIn at ho
    split at ho
    · cases ho
      exact h.enqueue ‹_›
    · obtain ⟨rest', hr, rfl⟩ := Option.map_eq_some_iff.mp ho
      obtain ⟨hs, ho⟩ := List.forall_mem_cons.mp h
      exact List.forall_mem_cons.mpr ⟨hs, ih ho hr⟩

theorem defer (h : Housed s.scopes) (hq : Gen.defer b s = .ok () s') :
    Housed s'.scopes := by
  obtain ⟨-, rfl⟩ | ⟨-, outer, ho, rfl⟩ := Gen.defer_ok hq
  · exact h
  · refine List.forall_mem_append.mpr ⟨fun scope hm => h scope (List.mem_of_mem_take hm), ?_⟩
    exact h.tail.enqueueIn ho

/-- A block of the innermost scope waits there. -/
theorem claimed {g : Graph} (h : Housed s.scopes) (hb : (s.innermost g).contains b = true) :
    Housed (s.claimed b).scopes := by
  have hu := h.unqueue b
  rw [← State.contains_innermost_congr (s.frames_unqueue b)] at hb
  change Housed ((s.unqueue b).scopes.modifyHead (·.enqueue b))
  unfold State.innermost at hb
  cases hs : (s.unqueue b).scopes with
  | nil => exact nofun
  | cons scope outer =>
    rw [hs] at hu hb
    exact hu.enqueue hb

theorem schedule {g : Graph} (h : Housed s.scopes)
    (hs : (Gen.schedule g b : Gen Unit) s = .ok () s') :
    Housed s'.scopes := by
  obtain ⟨block, -, ⟨-, rfl⟩ | ⟨-, -, ⟨hc, rfl⟩ | ⟨-, ho⟩⟩⟩ := Gen.schedule_ok hs
  · exact h
  · exact h.claimed hc
  · exact h.defer ho

/-- The block that is taken next lies in the innermost scope. -/
theorem nextPending {g : Graph} (h : Housed s.scopes) (hn : Gen.nextPending s = .ok (some b) s') :
    Housed s'.scopes ∧ (s'.innermost g).contains b = true := by
  obtain ⟨scope, outer, rest, hs, hp, rfl⟩ := Gen.nextPending_some hn
  rw [hs] at h
  obtain ⟨hscope, houter⟩ := List.forall_mem_cons.mp h
  rw [hp] at hscope
  obtain ⟨hb, hrest⟩ := List.forall_mem_cons.mp hscope
  exact ⟨List.forall_mem_cons.mpr ⟨hrest, houter⟩, hb⟩

end Scope.Housed

/-! ## The parts of an edge -/

namespace Region

/-- The region of a handler, with the first block after it. -/
def ofHandler (owner : BlockId) (p : Handler × BlockId) : Region :=
  ⟨owner, .handler p.1.cls, p.1.target, p.2⟩

/-- The region of the code that runs in any case. -/
def ofCleanup (owner next first : BlockId) : Region := ⟨owner, .cleanup, first, next⟩

end Region

/-- The regions beside the protected code, with the ends of the handlers as generation finds
them. -/
theorem split_guardParts (owner : BlockId) {next hi : BlockId} {handlers : List Handler}
    {cleanup : Option BlockId} {ends : List BlockId}
    (hends : handlers.map Handler.target ++ (cleanup.toList ++ [next]) = hi :: ends) :
    ((guardParts handlers cleanup).map Prod.snd).headD next = hi ∧
      Region.split owner next (guardParts handlers cleanup) =
        (handlers.zip ends).map (Region.ofHandler owner) ++
          cleanup.toList.map (Region.ofCleanup owner next) := by
  induction handlers generalizing hi ends with
  | nil => cases cleanup <;> cases hends <;> exact ⟨rfl, rfl⟩
  | cons h rest ih =>
    rw [List.map_cons, List.cons_append, List.cons.injEq] at hends
    obtain ⟨rfl, rfl⟩ := hends
    cases hrest : rest.map Handler.target ++ (cleanup.toList ++ [next]) with
    | nil => simp at hrest
    | cons hi' ends' =>
      obtain ⟨hhead, hsplit⟩ := ih hrest
      refine ⟨rfl, ?_⟩
      rw [List.zip_cons_cons, List.map_cons, List.cons_append, ← hsplit, Region.ofHandler, ← hhead]
      rfl

/-- The regions of an edge that protects code. -/
theorem Edge.regions_protect {owner body next hi : BlockId} {handlers : List Handler}
    {cleanup : Option BlockId} {ends : List BlockId}
    (hends : handlers.map Handler.target ++ (cleanup.toList ++ [next]) = hi :: ends) :
    (Edge.protect body handlers cleanup next).regions owner = ⟨owner, .body, body, hi⟩ ::
      ((handlers.zip ends).map (Region.ofHandler owner) ++
        cleanup.toList.map (Region.ofCleanup owner next)) := by
  obtain ⟨hhead, hsplit⟩ := split_guardParts owner hends
  rw [Edge.regions, Region.split, hhead, hsplit]

/-! ## States -/

namespace State

/-- The code is in the regions of `nest`, and the open scopes are those of `regions` (module
doc). -/
structure Tracks (g : Graph) (nest : List Enclosure) (regions : List Region) (s : State) :
    Prop where
  nest : (g.outline s.code).nest = nest
  frames : s.frames = regions.map Region.frame ++ [(.routine, 0, g.size)]
  housed : Scope.Housed s.scopes
  fresh : s.ExitIsFresh

/-- The open scopes are those of the regions that the code is in. -/
abbrev Sits (g : Graph) (nest : List Enclosure) (s : State) : Prop :=
  s.Tracks g nest (Enclosure.regions nest)

/-- Beside that, the label of a block was written last. -/
structure Heads (g : Graph) (nest : List Enclosure) (b : BlockId) (s : State) : Prop where
  sits : s.Sits g nest
  block : (g.outline s.code).block = some b

/-- The innermost region that the code is in has no open scope yet, or no longer. -/
abbrev Turns (g : Graph) (top : Enclosure) (nest : List Enclosure) (s : State) : Prop :=
  s.Tracks g (top :: nest) (Enclosure.regions nest)

namespace Tracks

variable {g : Graph} {s s' : State} {nest : List Enclosure} {regions : List Region} {i : Insn}
  {b : BlockId}

/-- The open regions are those of the nest. -/
theorem openRegions_eq (h : s.Tracks g nest regions) :
    g.openRegions s.code = Enclosure.regions nest := by
  rw [Graph.openRegions, h.nest]

/-- Blocks may come to wait while nothing is written. -/
theorem congr (h : s.Tracks g nest regions) (hc : s'.code = s.code) (hf : s'.frames = s.frames)
    (hh : Scope.Housed s'.scopes) (hn : Numbers s s') : s'.Tracks g nest regions :=
  ⟨hc ▸ h.nest, hf.trans h.frames, hh, hn.exitIsFresh h.fresh⟩

theorem calm (h : s.Tracks g nest regions) (hc : Calm s s') : s'.Tracks g nest regions :=
  ⟨hc.outline_eq ▸ h.nest, hc.frames.trans h.frames, hc.scopes ▸ h.housed,
    hc.numbers.exitIsFresh h.fresh⟩

theorem straight (h : s.Tracks g nest regions) (hs : Straight s s') : s'.Tracks g nest regions :=
  h.calm hs.calm

/-- An element is written. -/
theorem put (h : s.Tracks g nest regions) (hc : s'.code = s.code ++ [i])
    (hs : s'.scopes = s.scopes) (hn : Numbers s s') :
    s'.Tracks g ((g.outline s.code).read g i).nest regions := by
  refine ⟨?_, ?_, hs ▸ h.housed, hn.exitIsFresh h.fresh⟩
  · rw [hc, outline_append]
    rfl
  · rw [State.frames, hs]
    exact h.frames

/-- An element that is no marker and no label leaves the regions as they are. -/
theorem silent (h : s.Tracks g nest regions) (hi : i.isSilent = true)
    (hc : s'.code = s.code ++ [i]) (hs : s'.scopes = s.scopes) (hn : Numbers s s') :
    s'.Tracks g nest regions := by
  have hp := h.put hc hs hn
  rwa [read_of_isSilent hi, h.nest] at hp

/-- A branch over an exit is written. -/
theorem skipped (h : s.Tracks g nest regions) (o : BranchOp) :
    (s.skipped o).Tracks g nest regions :=
  h.silent (i := .branch o (.fresh s.nextLabel)) rfl (s.code_skipped o) rfl (.of_skipped s o)

/-- A loop over a subject is entered. -/
theorem enumerating (h : s.Tracks g nest regions) (b : BlockId) (slot : LocalId) :
    { s with enumerators := (b, slot) :: s.enumerators }.Tracks g nest regions :=
  h.congr rfl rfl h.housed (.of_eq rfl rfl)

theorem tabled (h : s.Tracks g nest regions) (targets : List BlockId) :
    (s.tabled targets).Tracks g nest regions :=
  h.silent (i := .switch _) rfl (s.code_tabled targets) rfl (.of_eq rfl rfl)

theorem defer (h : s.Tracks g nest regions) (hq : Gen.defer b s = .ok () s')
    (live : g.isLive b = true) : s'.Tracks g nest regions := by
  have ha := Gen.defer_adds hq live
  exact h.congr ha.code_eq (Gen.defer_frames hq) (h.housed.defer hq)
    (.of_eq ha.nextLabel ha.returnSlot)

/-- To schedule a block does not change the regions. -/
theorem schedule (h : s.Tracks g nest regions) (hs : (Gen.schedule g b : Gen Unit) s = .ok () s') :
    s'.Tracks g nest regions := by
  have ha := Gen.schedule_adds hs
  exact h.congr ha.code_eq (Gen.schedule_frames hs) (h.housed.schedule hs)
    (.of_eq ha.nextLabel ha.returnSlot)

/-- Nor does scheduling several. -/
theorem schedules {targets : List BlockId} (h : s.Tracks g nest regions)
    (hs : (targets.forM (Gen.schedule g) : Gen Unit) s = .ok () s') : s'.Tracks g nest regions := by
  induction targets generalizing s with
  | nil =>
    cases hs
    exact h
  | cons b rest ih =>
    obtain ⟨_, s₁, h₁, h₂⟩ := Gen.bind_ok hs
    exact ih (h.schedule h₁) h₂

/-- Nor does taking a block that waits. -/
theorem nextPending (h : s.Tracks g nest regions) (hn : Gen.nextPending s = .ok (some b) s') :
    s'.Tracks g nest regions := by
  have hh := (h.housed.nextPending (g := g) hn).1
  have hf := Gen.nextPending_frames hn
  obtain ⟨_, _, _, -, -, rfl⟩ := Gen.nextPending_some hn
  exact h.congr rfl hf hh (.of_eq rfl rfl)

/-- A block lies in the innermost scope just if it lies in the innermost open region. -/
theorem inner_iff (h : s.Tracks g nest regions) :
    (s.innermost g).contains b = true ↔ g.Inner regions b := by
  have hf := h.frames
  unfold State.frames at hf
  unfold State.innermost
  cases hs : s.scopes with
  | nil =>
    rw [hs] at hf
    cases regions <;> cases hf
  | cons scope outer =>
    rw [hs, List.map_cons] at hf
    cases regions with
    | nil =>
      have hrange : (scope.lo, scope.hi) = (0, g.size) := congrArg Prod.snd (List.cons.inj hf).1
      obtain ⟨hlo, hhi⟩ := Prod.mk.inj hrange
      simp [Scope.contains, Graph.Inner, hlo, hhi]
    | cons r rest =>
      have hrange : (scope.lo, scope.hi) = (r.lo, r.hi) := congrArg Prod.snd (List.cons.inj hf).1
      obtain ⟨hlo, hhi⟩ := Prod.mk.inj hrange
      simp [Scope.contains, Graph.Inner, Region.contains, hlo, hhi]

/-! ## Labels and markers -/

/-- Behind the label of a block. -/
theorem enter (h : s.Sits g nest) (viaEdge : Bool) (b : BlockId) :
    (s.entered viaEdge b).Heads g nest b := by
  have hc := s.code_entered viaEdge b
  have hn : Numbers s (s.entered viaEdge b) :=
    .of_eq (s.nextLabel_unqueue b) (s.returnSlot_unqueue b)
  refine ⟨⟨?_, (s.frames_unqueue b).trans h.frames, h.housed.unqueue b, hn.exitIsFresh h.fresh⟩, ?_⟩
  · rw [hc, outline_append, ← h.nest]
    rfl
  · rw [hc, outline_append]
    rfl

/-- The first marker of a region opens its protected code. -/
theorem beginTry (h : s.Heads g nest b) {first : Region} {rest : List Region}
    (hr : g.regionsOf b = first :: rest) : (s.written .beginTry).Turns g ⟨first, rest⟩ nest := by
  have hp := h.sits.put (s.code_written .beginTry) rfl (.of_eq rfl rfl)
  rwa [Outline.read, Outline.own, h.block, Option.elim_some, hr, h.sits.nest] at hp

/-- A marker leads on to the next part of the region. -/
theorem marker (next : Region) {r : Region} {rest : List Region}
    (h : s.Turns g ⟨r, next :: rest⟩ nest) (hp : next.part ≠ .body) :
    (s.written next.part.marker).Turns g ⟨next, rest⟩ nest := by
  have hm := h.put (s.code_written next.part.marker) rfl (.of_eq rfl rfl)
  rwa [read_marker hp, h.nest] at hm

/-- The last marker closes the region. -/
theorem endTry {top : Enclosure} (h : s.Turns g top nest) : (s.written .endTry).Sits g nest := by
  have hp := h.put (s.code_written .endTry) rfl (.of_eq rfl rfl)
  rwa [Outline.read, h.nest] at hp

/-- The scope of the part is opened behind its marker. -/
theorem opened {r : Region} {rest : List Region} {kind : ScopeKind} {first hi : BlockId}
    (h : s.Turns g ⟨r, rest⟩ nest) (hr : r.frame = (kind, first, hi)) :
    (s.opened kind first hi).Sits g (⟨r, rest⟩ :: nest) := by
  have hn : Numbers s (s.opened kind first hi) := .of_eq (by simp) (by simp)
  refine ⟨s.code_opened kind first hi ▸ h.nest, ?_, ?_, hn.exitIsFresh h.fresh⟩
  · rw [State.frames, State.scopes_opened, List.map_cons]
    change (kind, first, hi) :: (s.unqueue first).frames = r.frame :: _
    rw [State.frames_unqueue, h.frames, hr]
    rfl
  · rw [State.scopes_opened]
    exact List.forall_mem_cons.mpr ⟨List.forall_mem_nil _, h.housed.unqueue first⟩

/-- It is closed before the next one. -/
theorem closed {top : Enclosure} (h : s.Sits g (top :: nest)) :
    { s with scopes := s.scopes.tail }.Turns g top nest := by
  refine ⟨h.nest, ?_, h.housed.tail, h.fresh⟩
  have hf := congrArg List.tail h.frames
  rwa [State.frames, ← List.map_tail] at hf

end Tracks

theorem Heads.calm {g : Graph} {s s' : State} {nest : List Enclosure} {b : BlockId}
    (h : s.Heads g nest b) (hc : Calm s s') : s'.Heads g nest b := by
  refine ⟨h.sits.calm hc, ?_⟩
  rw [hc.outline_eq]
  exact h.block

end State

/-! ## Courses -/

theorem State.Tracks.grows {setting : Setting} {task : Task} {s s' : State}
    {nest : List Enclosure} {regions : List Region} (hs : s.Tracks setting.graph nest regions)
    (h : Emits setting task s s') : s.code <+: s'.code :=
  have ⟨code, hl⟩ := h.linked hs.fresh
  ⟨code, hl.code_eq.symm⟩

/-- What a task does to the regions that the code is in. -/
def Task.Tracks (g : Graph) (s s' : State) : Task → Prop
  | .body b block => ∀ nest, g.block? b = some block → s.Heads g nest b → s'.Sits g nest
  | .edge b e => ∀ nest, g.regionsOf b = e.regions b → s.Heads g nest b → s'.Sits g nest
  | .scope kind first hi => ∀ r rest nest, r.frame = (kind, first, hi) →
    s.Turns g ⟨r, rest⟩ nest → s'.Turns g ⟨r, rest⟩ nest
  | .handlers l => ∀ owner r rest nest, s.Turns g ⟨r, l.map (Region.ofHandler owner) ++ rest⟩ nest →
    ∃ r', s'.Turns g ⟨r', rest⟩ nest
  | .cleanup first next => ∀ owner r nest,
    s.Turns g ⟨r, first.toList.map (Region.ofCleanup owner next)⟩ nest →
    ∃ r', s'.Turns g ⟨r', []⟩ nest
  | _ => ∀ nest, s.Sits g nest → s'.Sits g nest

open Gen in
/-- Every task that returns ends in the regions that it starts in; handlers and the code that runs
in any case go on to the next part. -/
theorem Emits.tracks {setting : Setting} {task : Task} {s s' : State}
    (h : Emits setting task s s') : task.Tracks setting.graph s s' := by
  induction h with
  | @revisit _ b _ s =>
    exact fun nest hs =>
      hs.silent (isSilent_exitInsn _ _) (s.code_revisited b) rfl (.of_eq rfl rfl)
  | pass | drained | noCase => exact fun nest hs => hs
  | enter hb _ _ _ _ ih => exact fun nest hs => ih nest hb (hs.enter _ _)
  | @leave _ b _ s s' hb _ hd _ hq =>
    intro nest hs
    have hexit : (s.exited b).Sits setting.graph nest :=
      hs.silent (isSilent_exitInsn _ _) (s.code_exited b) rfl (.of_eq rfl rfl)
    exact hexit.defer hq (isLive_eq_true hb hd)
  | stop hst => exact fun nest _ hs => hs.sits.calm (statements_calm setting.graph hst)
  | goOn hst _ he _ ih =>
    exact fun nest hb hs =>
      ih nest (Graph.regionsOf_eq hb he) (hs.calm (statements_calm setting.graph hst))
  | fallOff hst _ _ hf =>
    exact fun nest _ hs =>
      (hs.sits.calm (statements_calm setting.graph hst)).calm (fallOff_calm hf)
  | drop _ _ hp => exact fun nest hs => hs.straight ((op_straight rfl).of_ok hp)
  | @direct o target _ s s' _ _ _ _ hsch =>
    intro nest hs
    have hbranch : (s.branched o (.block target)).Sits setting.graph nest :=
      hs.silent (i := .branch o (.block target)) rfl (s.code_branched _ _) rfl (.of_eq rfl rfl)
    exact hbranch.schedule hsch
  | @detour o _ _ s s' _ _ _ _ _ _ ih =>
    intro nest hs
    exact (ih nest (hs.skipped o.negate)).silent (i := .label (.fresh s.nextLabel)) rfl
      (s'.code_written _) rfl (.of_eq rfl rfl)
  | scope _ _ _ _ _ ihv ihd =>
    exact fun r rest nest hr hs => (ihd _ (ihv _ (hs.opened hr))).closed
  | skip hn _ _ ih => exact fun nest hs => ih nest (hs.nextPending hn)
  | next hn _ _ _ ihv ihr => exact fun nest hs => ihr nest (ihv nest (hs.nextPending hn))
  | goto _ ih => exact fun nest _ hs => ih nest hs.sits
  | conditional hc _ _ ihb ihv =>
    exact fun nest _ hs =>
      ihv nest (ihb nest (hs.sits.straight ((expr_straight _ _).of_ok hc)))
  | «foreach» ha _ ih =>
    exact fun nest _ hs =>
      ih nest ((hs.sits.straight ((acquire_straight _).of_ok ha)).enumerating _ _)
  | moveNext _ ha _ hst _ ihb ihv =>
    intro nest _ hs
    have hb := ihb nest (hs.sits.straight ((advance_straight _).of_ok ha))
    exact ihv nest (hb.straight ((storeItem_straight _ _ _).of_ok hst))
  | chain _ hv _ _ ihc ihv =>
    exact fun nest _ hs =>
      ihv nest (ihc nest (hs.sits.straight ((select_straight _).of_ok hv)))
  | table _ hi _ hj hsch _ ihb ihv =>
    intro nest _ hs
    have hb := ihb nest (hs.sits.straight ((tableIndex_straight _ _).of_ok hi))
    have hload := hb.straight ((loadIndex_straight _).of_ok hj)
    exact ihv nest ((hload.tabled _).schedules hsch)
  | case hc _ _ ihb ihr =>
    exact fun nest hs => ihr nest (ihb nest (hs.straight ((compare_straight _ _ _).of_ok hc)))
  | @protect b _ _ _ _ _ _ _ _ _ _ _ _ hends _ _ _ _ _ ihb ihh ihc ihv =>
    intro nest hr hs
    -- The parts are the body and what guards it.
    rw [Edge.regions_protect hends] at hr
    have hbody := ihb _ _ nest rfl (.beginTry hs hr)
    obtain ⟨_, hhandlers⟩ := ihh b _ _ nest hbody
    obtain ⟨_, hcleanup⟩ := ihc b _ nest hhandlers
    exact ihv nest hcleanup.endTry
  | noHandler => exact fun owner r rest nest hs => ⟨r, hs⟩
  | @handler h hi rest s s₁ s₂ s' hc _ _ ihs ihr =>
    intro owner r parts nest hs
    have hmark := State.Tracks.marker (.ofHandler owner (h, hi)) hs nofun
    have hrec := hmark.straight ((receive_straight _).of_ok hc)
    exact ihr owner _ parts nest (ihs _ _ nest rfl hrec)
  | noCleanup => exact fun owner r nest hs => ⟨r, hs⟩
  | @cleanup first next s s' _ ih =>
    intro owner r nest hs
    have hmark := State.Tracks.marker (.ofCleanup owner next first) hs nofun
    exact ⟨_, ih _ _ nest rfl hmark⟩

end Linearizer
