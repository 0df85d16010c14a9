import Linearizer.Proofs.BranchTargets
import Linearizer.Proofs.RegionNesting

/-!
# Exits from the code that runs in any case

Generation ends the code that runs in any case with an instruction of its own, which does not say
where control goes on. It writes this one for every edge out of that code, whatever block the edge
leads to, and does not look further than the innermost region: in a region that is nested in such
code an edge out of both is written as a branch.

- **Edges** (`Ended`): from a state where the innermost region is such code, the course of an edge
  to a block outside of it has ended the code (`Emits.edge_ended`).
- **Branches** (`Graph.CleanupTarget`): where a branch leads that stands in such code.
- **Kept cleanups** (`Graph.KeepsCleanups`): what a routine has to keep to, so that such code is
  left at its end only and for the block after the protected region.
- **Listings** (`Graph.generate_cleanup_exits`): what follows for the listing of any routine, and
  `Graph.nestedCleanup_escapes` for one with both kinds of exits.
-/

namespace Linearizer

open Outline

/-! ## Edges -/

/-- The instruction that ends the code that runs in any case is written between two states, in the
regions that the code of the first one is in. -/
def Ended (g : Graph) (s s' : State) : Prop :=
  ∃ m, s.code.length ≤ m ∧ s'.code[m]? = some (.op .endfinally) ∧
    g.openRegions (s'.code.take m) = g.openRegions s.code

namespace Ended

variable {g : Graph} {s s₁ s' : State} {nest : List Enclosure}

theorem after (h : Ended g s₁ s') (hs : s.Sits g nest) (hs₁ : s₁.Sits g nest)
    (hp : s.code <+: s₁.code) : Ended g s s' := by
  obtain ⟨m, hm, hend, ho⟩ := h
  refine ⟨m, Nat.le_trans hp.length_le hm, hend, ?_⟩
  rw [ho, hs₁.openRegions_eq, hs.openRegions_eq]

theorem before (h : Ended g s s₁) (hp : s₁.code <+: s'.code) : Ended g s s' := by
  obtain ⟨m, hm, hend, ho⟩ := h
  have hlt := (List.getElem?_eq_some_iff.mp hend).1
  refine ⟨m, hm, (Graph.getElem?_eq_of_grows hp hlt).trans hend, ?_⟩
  rw [Graph.take_eq_of_grows hp (Nat.le_of_lt hlt)]
  exact ho

end Ended

section Courses

variable {setting : Setting} {s s' : State} {r : Region} {rest : List Region}
  {outer : List Enclosure} {c : BlockId}

/-- Control is transferred out of the code that runs in any case by its end. -/
theorem State.Tracks.exitInsn_eq {g : Graph} (hs : s.Sits g (⟨r, rest⟩ :: outer))
    (hr : r.part = .cleanup) (out : r.contains c = false) :
    exitInsn s.scopes c = .op .endfinally := by
  have hf := hs.frames
  unfold State.frames at hf
  cases hscopes : s.scopes with
  | nil =>
    rw [hscopes] at hf
    cases hf
  | cons scope scopes =>
    rw [hscopes, List.map_cons] at hf
    have hframe : (scope.kind, scope.lo, scope.hi) = r.frame := (List.cons.inj hf).1
    obtain ⟨hkind, hlo, hhi⟩ : scope.kind = r.part.kind ∧ scope.lo = r.lo ∧ scope.hi = r.hi := by
      simpa [Region.frame] using hframe
    refine exitInsn_of_cleanup ?_ (hkind.trans (congrArg Part.kind hr))
    rw [Scope.contains, hlo, hhi]
    exact out

variable (hr : r.part = .cleanup) (live : setting.graph.isLive c = true)
  (out : r.contains c = false)
include hr live out

theorem Emits.visit_ended {viaEdge : Bool} (h : Emits setting (.visit viaEdge c) s s')
    (hs : s.Sits setting.graph (⟨r, rest⟩ :: outer)) : Ended setting.graph s s' := by
  have hout : (s.innermost setting.graph).contains c = false := by
    rw [Bool.eq_false_iff, Ne, hs.inner_iff]
    change ¬ r.contains c = true
    rw [out]
    exact Bool.false_ne_true
  have hcode := h.code_of_visit live hout
  rw [hs.exitInsn_eq hr out] at hcode
  refine ⟨s.code.length, Nat.le_refl _, ?_, ?_⟩
  · rw [hcode, List.getElem?_concat_length]
  · rw [hcode, List.take_left]

theorem Emits.branch_ended {o : BranchOp} (h : Emits setting (.branch o c) s s')
    (hs : s.Sits setting.graph (⟨r, rest⟩ :: outer)) : Ended setting.graph s s' := by
  cases h with
  | drop hb hd => simp [Graph.isLive, hb, hd] at live
  | direct _ _ _ within =>
    have hin : r.contains c = true := hs.inner_iff.mp within
    rw [out] at hin
    cases hin
  | @detour _ _ _ _ s' _ _ _ _ _ hvisit =>
    have hskip := hs.skipped o.negate
    have hend := hvisit.visit_ended hr live out hskip
    exact (hend.after hs hskip ⟨_, (s.code_skipped _).symm⟩).before ⟨_, (s'.code_written _).symm⟩

open Gen in
theorem Emits.cases_ended {scratch : LocalId} {isInt : Bool} {cases : List Case}
    (h : Emits setting (.cases scratch isInt cases) s s') (hc : c ∈ cases.map Case.target)
    (hs : s.Sits setting.graph (⟨r, rest⟩ :: outer)) : Ended setting.graph s s' := by
  induction cases generalizing s with
  | nil => cases hc
  | cons first list ih =>
    cases h with
    | case hcmp hbranch hrest =>
      have hstraight := (compare_straight _ _ _).of_ok hcmp
      have hs₁ := hs.straight hstraight
      have hs₂ := hbranch.tracks _ hs₁
      rcases List.mem_cons.mp hc with rfl | hc
      · have hend := hbranch.branch_ended hr live out hs₁
        exact (hend.after hs hs₁ hstraight.grows).before (hs₂.grows hrest)
      · exact (ih hrest hc hs₂).after hs hs₂ (hstraight.grows.trans (hs₁.grows hbranch))

open Gen in
/-- An edge that leads on to a block outside of the code that runs in any case ends that code. -/
theorem Emits.edge_ended {b : BlockId} {block : Block} {e : Edge}
    (h : Emits setting (.edge b e) s s') (hb : setting.graph.block? b = some block)
    (he : block.edge = some e) (hc : setting.graph.Follows b c)
    (heads : s.Heads setting.graph (⟨r, rest⟩ :: outer) b) : Ended setting.graph s s' := by
  have hs := heads.sits
  have hm : c ∈ e.successors := by
    rw [← Graph.successors_eq hb he]
    exact hc.1
  cases h with
  | goto hvisit =>
    cases List.mem_singleton.mp hm
    exact hvisit.visit_ended hr live out hs
  | conditional hcond hbranch hvisit =>
    have hstraight := (expr_straight _ _).of_ok hcond
    have hs₁ := hs.straight hstraight
    have hs₂ := hbranch.tracks _ hs₁
    rcases List.mem_cons.mp hm with rfl | hm
    · have hend := hvisit.visit_ended hr live out hs₂
      exact hend.after hs hs₂ (hstraight.grows.trans (hs₁.grows hbranch))
    · cases List.mem_singleton.mp hm
      have hend := hbranch.branch_ended hr live out hs₁
      exact (hend.after hs hs₁ hstraight.grows).before (hs₂.grows hvisit)
  | @«foreach» _ _ _ slot _ s₁ _ ha hvisit =>
    cases List.mem_singleton.mp hm
    have hstraight := (acquire_straight _).of_ok ha
    have hs₁ := hs.straight hstraight
    have henum := hs₁.enumerating b slot
    exact (hvisit.visit_ended hr live out henum).after hs henum hstraight.grows
  | moveNext _ ha hbranch hst hvisit =>
    have hstraight := (advance_straight _).of_ok ha
    have hs₁ := hs.straight hstraight
    have hs₂ := hbranch.tracks _ hs₁
    have hstore := (storeItem_straight _ _ _).of_ok hst
    have hs₃ := hs₂.straight hstore
    have hgrows := hstraight.grows.trans ((hs₁.grows hbranch).trans hstore.grows)
    rcases List.mem_cons.mp hm with rfl | hm
    · exact (hvisit.visit_ended hr live out hs₃).after hs hs₃ hgrows
    · cases List.mem_singleton.mp hm
      have hend := hbranch.branch_ended hr live out hs₁
      exact (hend.after hs hs₁ hstraight.grows).before (hstore.grows.trans (hs₃.grows hvisit))
  | chain _ hv hcases hvisit =>
    have hstraight := (select_straight _).of_ok hv
    have hs₁ := hs.straight hstraight
    have hs₂ := hcases.tracks _ hs₁
    rcases List.mem_append.mp hm with hm | hm
    · have hend := hcases.cases_ended hr live out hm hs₁
      exact (hend.after hs hs₁ hstraight.grows).before (hs₂.grows hvisit)
    · cases List.mem_singleton.mp hm
      have hend := hvisit.visit_ended hr live out hs₂
      exact hend.after hs hs₂ (hstraight.grows.trans (hs₁.grows hcases))
  | table hrange =>
    -- A table is written only where all targets lie in the innermost scope.
    obtain ⟨-, -, hcases, hdefault⟩ := TableRange.ofCases?_eq_some hrange
    have within : (s.innermost setting.graph).contains c = true := by
      rcases List.mem_append.mp hm with hm | hm
      · obtain ⟨d, hd, rfl⟩ := List.mem_map.mp hm
        exact hcases d hd
      · cases List.mem_singleton.mp hm
        exact hdefault
    have hin : r.contains c = true := hs.inner_iff.mp within
    rw [out] at hin
    cases hin
  | @protect _ body next hi handlers cleanup ends _ s₁ s₂ s₃ _ _ hends _ hbody hhandlers hcleanup
      hvisit =>
    have hregions := (Graph.regionsOf_eq hb he).trans (Edge.regions_protect hends)
    obtain rfl := Graph.eq_next_of_follows hb he hc
    have hs₀ := State.Tracks.beginTry heads hregions
    have hs₁ := hbody.tracks _ _ _ rfl hs₀
    obtain ⟨_, hs₂⟩ := hhandlers.tracks b _ _ _ hs₁
    obtain ⟨_, hs₃⟩ := hcleanup.tracks b _ _ hs₂
    have hgrows : s.code <+: (s₃.written .endTry).code := by
      have hbegin : s.code <+: (s.written .beginTry).code := ⟨_, (s.code_written _).symm⟩
      have hend : s₃.code <+: (s₃.written .endTry).code := ⟨_, (s₃.code_written _).symm⟩
      exact hbegin.trans ((hs₀.grows hbody).trans
        ((hs₁.grows hhandlers).trans ((hs₂.grows hcleanup).trans hend)))
    exact (hvisit.visit_ended hr live out hs₃.endTry).after hs hs₃.endTry hgrows

open Gen in
theorem Emits.body_ended {b : BlockId} {block : Block} (h : Emits setting (.body b block) s s')
    (hb : setting.graph.block? b = some block) (hterm : block.endsInTerminal = false)
    (hc : setting.graph.Follows b c)
    (heads : s.Heads setting.graph (⟨r, rest⟩ :: outer) b) : Ended setting.graph s s' := by
  cases h with
  | stop _ ht =>
    rw [hterm] at ht
    cases ht
  | goOn hst _ he hedge =>
    have hcalm := statements_calm setting.graph hst
    have hend := hedge.edge_ended hr live out hb he hc (heads.calm hcalm)
    exact hend.after heads.sits (heads.calm hcalm).sits hcalm.grows
  | fallOff _ _ he =>
    have hm := hc.1
    simp [Graph.successors, hb, he] at hm

end Courses

/-- Behind the label of a block in such code, an edge that leads on to a live block outside of it is
written as the end of the code. -/
theorem Accounts.ended {setting : Setting} {code : List Insn} {j : Nat} {b c : BlockId}
    {block : Block} {r : Region} (h : Accounts setting code j (.label (.block b)))
    (hj : code[j]? = some (.label (.block b))) (hb : setting.graph.block? b = some block)
    (hterm : block.endsInTerminal = false)
    (hin : r ∈ (setting.graph.openRegions (code.take j)).head?) (hr : r.part = .cleanup)
    (hc : setting.graph.Follows b c) (live : setting.graph.isLive c = true)
    (out : r.contains c = false) :
    ∃ m, j < m ∧ code[m]? = some (.op .endfinally) ∧
      setting.graph.openRegions (code.take m) = setting.graph.openRegions (code.take j) := by
  obtain ⟨nest, block', s, s', hb', heads, hbody, hcode, hgrows⟩ := h.body b rfl
  cases hb.symm.trans hb'
  have hopen : setting.graph.openRegions s.code = setting.graph.openRegions (code.take j) := by
    rw [hcode, Graph.openRegions_take_succ hj rfl]
  rw [← hopen, heads.sits.openRegions_eq] at hin
  cases nest with
  | nil => cases hin
  | cons top outer =>
    obtain ⟨r', rest⟩ := top
    cases hin
    -- The code of the block is in `code` with what follows it.
    obtain ⟨m, hm, hend, ho⟩ := hbody.body_ended hr live out hb hterm hc heads
    have hlt := (List.getElem?_eq_some_iff.mp hj).1
    have hlt' := (List.getElem?_eq_some_iff.mp hend).1
    refine ⟨m, ?_, (Graph.getElem?_eq_of_grows hgrows hlt').trans hend, ?_⟩
    · rw [hcode, List.length_take] at hm
      omega
    · rw [Graph.take_eq_of_grows hgrows (Nat.le_of_lt hlt'), ho, hopen]

/-! ## Branches -/

/-- Where the element `k` of some code may branch to inside the region `r`. -/
inductive Graph.CleanupTarget (g : Graph) (code : List Insn) (k : Nat) (r : Region) : Label → Prop
  /-- A label of the generated code that stands in the region. -/
  | lands {n m : Nat} (hm : code[m]? = some (.label (.fresh n)))
      (hr : r ∈ g.openRegions (code.take m)) : g.CleanupTarget code k r (.fresh n)
  /-- A block of the region. -/
  | inside {c : BlockId} (h : r.contains c = true) : g.CleanupTarget code k r (.block c)
  /-- A block that an edge leads to from a region that is nested in it, which the branch leaves. -/
  | leave {inner : Region} {b c : BlockId} {j : Nat}
      (hk : code[k]? = some (.branch .leave (.block c)))
      (hinner : inner ∈ (g.openRegions (code.take k)).head?) (hne : inner ≠ r) (hj : j < k)
      (hb : code[j]? = some (.label (.block b)))
      (hopen : g.openRegions (code.take j) = g.openRegions (code.take k))
      (hc : c ∈ g.successors b) : g.CleanupTarget code k r (.block c)
  /-- A block of the innermost region, which is not part of it. -/
  | overhang {inner : Region} {c : BlockId}
      (hinner : inner ∈ (g.openRegions (code.take k)).head?) (hw : ¬ inner.Within r)
      (hc : inner.contains c = true) : g.CleanupTarget code k r (.block c)

/-- A branch to a block stays in the innermost region, or leaves a protected one. -/
theorem Outline.Exits.contains_or_leave {g : Graph} {inner : Region} {rest : List Region} {i : Insn}
    {c : BlockId} (h : Exits g (inner :: rest) i) (hc : .block c ∈ i.targets) :
    inner.contains c = true ∨ i = .branch .leave (.block c) ∧
      inner.part.kind.isProtected = true ∧ inner.contains c = false := by
  cases i with
  | branch o l =>
    cases List.mem_singleton.mp hc
    cases o with
    | leave =>
      obtain ⟨r, ⟨⟩, hp⟩ := h
      exact .inr ⟨rfl, hp⟩
    | _ => exact .inl h
  | switch ls =>
    obtain ⟨b, hb, hin⟩ := h _ hc
    cases hb
    exact .inl hin
  | _ => cases hc

section Branches

variable {setting : Setting} {code : List Insn} {k : Nat} {i : Insn} {r : Region}
  (h : Accounts setting code k i) (hi : code[k]? = some i)
  (hx : Exits setting.graph (setting.graph.openRegions (code.take k)) i)
  (hin : r ∈ setting.graph.openRegions (code.take k)) (hr : r.part = .cleanup)
include h hi hx hin hr

theorem Accounts.cleanupTarget_block {c : BlockId} (hc : .block c ∈ i.targets) :
    setting.graph.CleanupTarget code k r (.block c) := by
  by_cases hrc : r.contains c = true
  · exact .inside hrc
  -- The target is outside of the cleanup: the innermost region contains it, or is left.
  obtain ⟨inner, rest, hopen⟩ := List.exists_cons_of_ne_nil (List.ne_nil_of_mem hin)
  have hinner : inner ∈ (setting.graph.openRegions (code.take k)).head? := by
    rw [hopen]
    rfl
  rw [hopen] at hx
  obtain hcontains | ⟨rfl, hp, out⟩ := hx.contains_or_leave hc
  · exact .overhang hinner (fun hw => hrc (hw c hcontains)) hcontains
  · have hne : inner ≠ r := by
      rintro rfl
      exact Part.isProtected_iff.mp hp hr
    cases h.grounds.targets c hc with
    | edge site follows =>
      obtain ⟨j, hj, hb, ho⟩ := site.before
      exact .leave hi hinner hne hj hb ho follows.1
    | start ho _ _ _ inside =>
      cases hopen.symm.trans ho
      rw [out] at inside
      cases inside

theorem Accounts.cleanupTarget_fresh {n : Nat} (hn : .fresh n ∈ i.targets) :
    setting.graph.CleanupTarget code k r (.fresh n) := by
  cases i with
  | switch ls =>
    obtain ⟨b, hb, -⟩ := hx _ hn
    cases hb
  | branch o l =>
    cases List.mem_singleton.mp hn
    have land (ho : o.isConditional = true) :
        setting.graph.CleanupTarget code k r (.fresh n) := by
      obtain ⟨exit, hexit, hmark, hland⟩ := h.lands o n rfl ho
      refine .lands hland ?_
      rw [Graph.openRegions_take_succ hexit hmark, Graph.openRegions_take_succ hi rfl]
      exact hin
    cases o with
    | brtrue | brfalse => exact land rfl
    | br => exact hx.elim
    | leave => exact absurd hr (hx.2 r hin)
  | _ => cases hn

theorem Accounts.cleanupTarget {l : Label} (hl : l ∈ i.targets) :
    setting.graph.CleanupTarget code k r l := by
  cases l with
  | block c => exact h.cleanupTarget_block hi hx hin hr hl
  | fresh n => exact h.cleanupTarget_fresh hi hx hin hr hl

end Branches

/-! ## Kept cleanups -/

namespace Graph

variable {g : Graph} {code : List Insn} {k : Nat} {b c : BlockId} {r : Region}

/-- An edge may lead out of the region from `b` to `c`: the block `b` lies in no region nested
there, and `c` is the block after it. -/
def MayLeave (g : Graph) (r : Region) (b c : BlockId) : Prop :=
  c = r.hi ∧ ∀ r' ∈ g.regions, r'.contains b = true → r'.Within r → r' = r

instance (g : Graph) (r : Region) (b c : BlockId) : Decidable (g.MayLeave r b c) :=
  inferInstanceAs (Decidable (c = r.hi ∧
    ∀ r' ∈ g.regions, r'.contains b = true → r'.Within r → r' = r))

/-- Every edge out of the code that runs in any case may lead out of it. -/
def KeepsCleanups (g : Graph) : Prop :=
  ∀ r ∈ g.regions, r.part = .cleanup → ∀ b < g.size, r.contains b = true →
    ∀ c ∈ g.successors b, g.isLive c = true → r.contains c = false → g.MayLeave r b c

instance (g : Graph) : Decidable g.KeepsCleanups :=
  inferInstanceAs (Decidable (∀ r ∈ g.regions, r.part = .cleanup → ∀ b < g.size,
    r.contains b = true → ∀ c ∈ g.successors b, g.isLive c = true → r.contains c = false →
      g.MayLeave r b c))

/-- The code that runs in any case is the last part of its region. -/
theorem hi_of_cleanup (h : r ∈ g.regions) (hr : r.part = .cleanup) :
    ∃ block body handlers cleanup, g.block? r.owner = some block ∧
      block.edge = some (.protect body handlers cleanup r.hi) := by
  rw [mem_regions] at h
  obtain ⟨block, body, handlers, cleanup, next, hb, he⟩ := exists_protect (List.ne_nil_of_mem h)
  obtain ⟨hi, ends, hends⟩ := List.exists_cons_of_ne_nil
    (show handlers.map Handler.target ++ (cleanup.toList ++ [next]) ≠ [] by simp)
  rw [regionsOf_eq hb he, Edge.regions_protect hends, List.mem_cons, List.mem_append, List.mem_map,
    List.mem_map] at h
  obtain h | ⟨p, -, h⟩ | ⟨first, -, h⟩ := h
  · rw [h] at hr
    cases hr
  · rw [← h] at hr
    cases hr
  · have hnext : r.hi = next := by rw [← h, Region.ofCleanup]
    exact ⟨block, body, handlers, cleanup, hb, hnext.symm ▸ he⟩

/-- A block of the innermost region lies in all regions around it. -/
theorem Inner.contains {regions : List Region} (h : g.Inner regions b)
    (hw : regions.Pairwise Region.Within) (hr : r ∈ regions) : r.contains b = true := by
  cases regions with
  | nil => cases hr
  | cons inner rest =>
    rcases List.mem_cons.mp hr with rfl | hr
    · exact h
    · exact (List.pairwise_cons.mp hw).1 r hr b h

/-- With that, no branch to a live block leads out of the code that runs in any case. -/
theorem CleanupTarget.contains (h : g.CleanupTarget code k r (.block c)) (hk : g.KeepsCleanups)
    (orderly : g.Orderly code) (hw : ∀ k, (g.openRegions (code.take k)).Pairwise Region.Within)
    (hgrounds : ∀ k i, code[k]? = some i → g.Grounds (code.take k) i)
    (hin : r ∈ g.openRegions (code.take k)) (hr : r.part = .cleanup)
    (live : code[k]? = some (.branch .leave (.block c)) → g.isLive c = true) :
    r.contains c = true := by
  -- Regions that are open together lie in each other.
  have within (inner : Region) (hinner : inner ∈ (g.openRegions (code.take k)).head?)
      (hne : inner ≠ r) : inner.Within r := by
    obtain ⟨rest, hopen⟩ := List.head?_eq_some_iff.mp hinner
    have hpair := hw k
    rw [hopen] at hin hpair
    exact (List.pairwise_cons.mp hpair).1 r ((List.mem_cons.mp hin).resolve_left hne.symm)
  cases h with
  | inside h => exact h
  | @leave inner b _ j hleave hinner hne _ hb hopen hc =>
    -- The exit would start in the region and in the inner one, which the edges of the routine rule
    -- out.
    by_contra out
    have hlabel := (hgrounds j _ hb).label b rfl
    have hrb := hlabel.contains (hw j) (hopen ▸ hin)
    have hib := hlabel.contains (hw j) (hopen ▸ List.mem_of_mem_head? hinner)
    have hkeep := hk r (orderly.mem_regions hin) hr b (lt_size_of_mem_successors hc) hrb c hc
      (live hleave) (by simpa using out)
    have hmem := orderly.mem_regions (List.mem_of_mem_head? hinner)
    exact hne (hkeep.2 inner hmem hib (within inner hinner hne))
  | @overhang inner _ hinner hnot hc =>
    refine absurd (within inner hinner ?_) hnot
    rintro rfl
    exact hnot fun _ hb => hb

/-! ## Listings -/

variable {options : Options} {registry : Registry}

/-- How control leaves the code that runs in any case in some code. -/
structure CleanupExits (g : Graph) (code : List Insn) : Prop where
  /-- Where a block stands directly in it, every edge that leads on to a live block outside is
  written as its end, whatever block that is. -/
  ended : ∀ j b block, code[j]? = some (.label (.block b)) → g.block? b = some block →
    block.endsInTerminal = false → ∀ r ∈ (g.openRegions (code.take j)).head?, r.part = .cleanup →
    ∀ c, g.Follows b c → g.isLive c = true → r.contains c = false →
    ∃ m, j < m ∧ code[m]? = some (.op .endfinally) ∧
      g.openRegions (code.take m) = g.openRegions (code.take j)
  /-- A branch in it leads to a place inside, unless it stands in a region that is nested there. -/
  targets : ∀ k i, code[k]? = some i → ∀ r ∈ g.openRegions (code.take k), r.part = .cleanup →
    ∀ l ∈ i.targets, g.CleanupTarget code k r l
  /-- If regions are nested, a block that stands in it, however deep, is one of its own. -/
  contained : g.Nested → ∀ j b, code[j]? = some (.label (.block b)) →
    ∀ r ∈ g.openRegions (code.take j), r.part = .cleanup → r ∈ g.regions ∧ r.contains b = true
  /-- If the routine keeps its cleanups, no branch leads out of one. -/
  kept : g.Nested → g.KeepsCleanups → ∀ k i, code[k]? = some i →
    ∀ r ∈ g.openRegions (code.take k), r.part = .cleanup → ∀ c, .block c ∈ i.targets →
    r.contains c = true

/-- If the routine keeps its cleanups, an edge out of one leads to the block after the protected
region. -/
theorem CleanupExits.next {code : List Insn} (h : g.CleanupExits code) (hn : g.Nested)
    (hk : g.KeepsCleanups) {j : Nat} {b : BlockId} (hj : code[j]? = some (.label (.block b)))
    {r : Region} (hin : r ∈ g.openRegions (code.take j)) (hr : r.part = .cleanup) {c : BlockId}
    (hc : c ∈ g.successors b) (live : g.isLive c = true) (out : r.contains c = false) :
    ∃ block body handlers cleanup, g.block? r.owner = some block ∧
      block.edge = some (.protect body handlers cleanup c) := by
  obtain ⟨hmem, hrb⟩ := h.contained hn j b hj r hin hr
  obtain ⟨rfl, -⟩ := hk r hmem hr b (lt_size_of_mem_successors hc) hrb c hc live out
  exact hi_of_cleanup hmem hr

/-- In the listing of a successful generation control leaves the code that runs in any case by its
end, or from a region that is nested there by a branch. -/
theorem generate_cleanup_exits {l : Listing} (h : (g.generate options registry).result = .ok l) :
    g.CleanupExits l.insns.toList := by
  obtain ⟨s₁, s₂, hfin, rfl⟩ := generate_result h
  have orderly := g.generate_orderly options registry
  have accounts := fun k i => hfin.traced.accounts k i (Nat.zero_le k)
  have hgrounds := fun k i hi => (accounts k i hi).grounds
  have targets := fun k i hi r hin hr l hl =>
    (accounts k i hi).cleanupTarget (r := r) (l := l) hi
      (orderly.lawful.admits_of_getElem? hi).exits hin hr hl
  refine ⟨fun j b block hj hb hterm r hin hr c hc live out => ?_, targets,
    fun hn j b hj r hin _ => ?_, fun hn hk k i hi r hin hr c hc => ?_⟩
  · exact (accounts j _ hj).ended hj hb hterm hin hr hc live out
  · exact ⟨orderly.mem_regions hin,
      ((hgrounds j _ hj).label b rfl).contains (hn.pairwise orderly hgrounds j) hin⟩
  · refine (targets k i hi r hin hr _ hc).contains hk orderly (hn.pairwise orderly hgrounds)
      hgrounds hin hr fun hleave => ?_
    exact hfin.marked.live c (hfin.emitted_of_branch (List.mem_of_getElem? hleave))

/-- A routine where the code that runs in any case has a region of its own. The protected code of
that region leads to the block `inner`, and the block after the region to the block `after`. -/
def nestedCleanup (inner after : BlockId) : Graph where
  name := "nested"
  classes := ["Failure"]
  blocks := [
    ⟨"entry", false, [], some (.protect 1 [] (some 2) 6)⟩,
    ⟨"body", false, [], some (.goto 6)⟩,
    ⟨"cleanup", false, [], some (.protect 3 [⟨0, none, 4⟩] none 5)⟩,
    ⟨"inner", false, [], some (.goto inner)⟩,
    ⟨"handler", false, [], some (.goto 5)⟩,
    ⟨"after", false, [], some (.goto after)⟩,
    ⟨"next", false, [⟨.ret none, none⟩], none⟩,
    ⟨"other", false, [⟨.ret none, none⟩], none⟩]

/-- Where both lead out of the code that runs in any case, the edge of the block `after` is written
as the end of it, and that of the block `inner` as a branch. Where the routine keeps its cleanups,
the one leads to the block after the protected region, and the other to a block inside. -/
theorem nestedCleanup_exits :
    (∃ l, ((nestedCleanup 6 7).generate {} {}).result = .ok l ∧
      (nestedCleanup 6 7).openRegions (l.insns.toList.take 14) = [⟨0, .cleanup, 2, 6⟩] ∧
      (∃ m, 14 < m ∧ l.insns.toList[m]? = some (.op .endfinally) ∧
        (nestedCleanup 6 7).openRegions (l.insns.toList.take m) =
          (nestedCleanup 6 7).openRegions (l.insns.toList.take 14)) ∧
      (nestedCleanup 6 7).CleanupTarget l.insns.toList 8 ⟨0, .cleanup, 2, 6⟩ (.block 6)) ∧
    ∃ l, ((nestedCleanup 5 6).generate {} {}).result = .ok l ∧ (nestedCleanup 5 6).Nested ∧
      (nestedCleanup 5 6).KeepsCleanups ∧
      (∃ block body handlers cleanup, (nestedCleanup 5 6).block? 0 = some block ∧
        block.edge = some (.protect body handlers cleanup 6)) ∧
      l.insns.toList[8]? = some (.branch .leave (.block 5)) ∧
      Region.contains ⟨0, .cleanup, 2, 6⟩ 5 = true := by
  have hstray : ((nestedCleanup 6 7).generate {} {}).result =
      .ok ((nestedCleanup 6 7).generate {} {}).listing :=
    Generation.result_of_isOk (by decide +kernel)
  have hkept : ((nestedCleanup 5 6).generate {} {}).result =
      .ok ((nestedCleanup 5 6).generate {} {}).listing :=
    Generation.result_of_isOk (by decide +kernel)
  have hn : (nestedCleanup 5 6).Nested := by decide +kernel
  have hk : (nestedCleanup 5 6).KeepsCleanups := by decide +kernel
  have hleave : ((nestedCleanup 5 6).generate {} {}).listing.insns.toList[8]? =
      some (.branch .leave (.block 5)) := by decide +kernel
  refine ⟨⟨_, hstray, by decide +kernel, ?_, ?_⟩, _, hkept, hn, hk, ?_, hleave, ?_⟩
  · exact (generate_cleanup_exits hstray).ended 14 5 _ (by decide +kernel) rfl rfl
      ⟨0, .cleanup, 2, 6⟩ (by decide +kernel) rfl 7 ⟨by decide +kernel, by decide +kernel⟩
      (by decide +kernel) (by decide +kernel)
  · exact (generate_cleanup_exits hstray).targets 8 (.branch .leave (.block 6)) (by decide +kernel)
      ⟨0, .cleanup, 2, 6⟩ (by decide +kernel) rfl (.block 6) (List.mem_singleton_self _)
  · exact (generate_cleanup_exits hkept).next hn hk (j := 14) (b := 5) (by decide +kernel)
      (r := ⟨0, .cleanup, 2, 6⟩) (by decide +kernel) rfl (by decide +kernel) (by decide +kernel)
      (by decide +kernel)
  · exact (generate_cleanup_exits hkept).kept hn hk 8 _ hleave ⟨0, .cleanup, 2, 6⟩
      (by decide +kernel) rfl 5 (List.mem_singleton_self _)

/-- Generation accepts a routine where an edge leads out of the code that runs in any case, but not
to the block after the protected region, and its listing has a branch out of that code. -/
theorem nestedCleanup_escapes : ∃ l, ((nestedCleanup 6 7).generate {} {}).result = .ok l ∧
    ∃ r block body handlers cleanup next, r.part = .cleanup ∧
      (nestedCleanup 6 7).block? r.owner = some block ∧
      block.edge = some (.protect body handlers cleanup next) ∧
      (∃ j b c, l.insns.toList[j]? = some (.label (.block b)) ∧
        r ∈ (nestedCleanup 6 7).openRegions (l.insns.toList.take j) ∧
        c ∈ (nestedCleanup 6 7).successors b ∧ (nestedCleanup 6 7).isLive c = true ∧
        r.contains c = false ∧ c ≠ next) ∧
      ∃ k o c, l.insns.toList[k]? = some (.branch o (.block c)) ∧
        r ∈ (nestedCleanup 6 7).openRegions (l.insns.toList.take k) ∧ r.contains c = false :=
  ⟨_, Generation.result_of_isOk (by decide +kernel), ⟨0, .cleanup, 2, 6⟩, _, _, _, _, _, rfl, rfl,
    rfl, ⟨14, 5, 7, by decide +kernel⟩, 8, .leave, 6, by decide +kernel⟩

end Graph
end Linearizer
