import Linearizer.Proofs.Region.Tracking

/-!
# Where branches come from

In the listing of a successful generation every branch to a block has been written for an edge of
the routine, and in the regions that the block of that edge stands in, or at the start of a region
of the edge.

- **Reasons** (`Graph.Leads`): why control may go on with a block behind some code.
- **Grounds** (`Graph.Grounds`): what is known of an element when it is written.
- **Traced code** (`Traced`): every element that is written on the way from one code to another has
  its ground; a branch over an exit is followed by its label, and the label of a block by the course
  of what the block does.
- **Courses** (`Emits.traced`): a task writes traced code, so that the listing of a successful
  generation is traced (`Finished.traced`).
-/

namespace Linearizer

open Outline

namespace Graph

variable {g : Graph} {code code' : List Insn} {k : Nat} {b c : BlockId} {regions : List Region}

/-! ## Reasons -/

/-- The label of the block stands in some code, where `regions` are open. -/
def Sited (g : Graph) (code : List Insn) (b : BlockId) (regions : List Region) : Prop :=
  ∃ j, code[j]? = some (.label (.block b)) ∧ g.openRegions (code.take j) = regions

/-- Control may go on with a block behind some code: an edge leads on to it from where the code is,
or it is the first block of the innermost region. -/
inductive Leads (g : Graph) (code : List Insn) (c : BlockId) : Prop
  | edge {b : BlockId} (site : g.Sited code b (g.openRegions code)) (follows : g.Follows b c)
  | start {r : Region} {rest : List Region} (hr : g.openRegions code = r :: rest)
      (site : g.Sited code r.owner rest) (starts : g.Starts r) (first : r.lo = c)
      (inside : r.contains c = true)

theorem take_eq_of_grows (h : code <+: code') (hk : k ≤ code.length) :
    code'.take k = code.take k := by
  obtain ⟨rest, rfl⟩ := h
  exact List.take_append_of_le_length hk

theorem getElem?_eq_of_grows (h : code <+: code') (hk : k < code.length) :
    code'[k]? = code[k]? := by
  obtain ⟨rest, rfl⟩ := h
  exact List.getElem?_append_left hk

/-- More code leaves a site where it is. -/
theorem Sited.mono (h : g.Sited code b regions) (hp : code <+: code') :
    g.Sited code' b regions := by
  obtain ⟨j, hj, hr⟩ := h
  have hlt := (List.getElem?_eq_some_iff.mp hj).1
  exact ⟨j, (getElem?_eq_of_grows hp hlt).trans hj,
    (take_eq_of_grows hp (Nat.le_of_lt hlt)).symm ▸ hr⟩

/-- A label in front of a place stands in the code before it. -/
theorem Sited.before (h : g.Sited (code.take k) b regions) :
    ∃ j, j < k ∧ code[j]? = some (.label (.block b)) ∧ g.openRegions (code.take j) = regions := by
  obtain ⟨j, hj, hr⟩ := h
  have hlt : j < k := by
    have := (List.getElem?_eq_some_iff.mp hj).1
    rw [List.length_take] at this
    omega
  rw [List.getElem?_take_of_lt hlt] at hj
  rw [List.take_take, Nat.min_eq_left (Nat.le_of_lt hlt)] at hr
  exact ⟨j, hlt, hj, hr⟩

/-- A reason stays one while the code is in the same regions. -/
theorem Leads.mono (h : g.Leads code c) (hp : code <+: code')
    (ho : g.openRegions code' = g.openRegions code) : g.Leads code' c := by
  cases h with
  | edge site follows =>
    refine .edge ?_ follows
    rw [ho]
    exact site.mono hp
  | start hr site starts first inside =>
    exact .start (ho.trans hr) (site.mono hp) starts first inside

end Graph

/-! ## Grounds -/

theorem isMarker_exitInsn (scopes : List Scope) (b : BlockId) :
    (exitInsn scopes b).isMarker = false := by
  unfold exitInsn
  split <;> rfl

/-- The labels that control may go to after an element, beside the next one. -/
def Insn.targets : Insn → List Label
  | .branch _ l => [l]
  | .switch ls => ls
  | _ => []

/-- What is known of an element that is written behind some code. -/
structure Graph.Grounds (g : Graph) (code : List Insn) (i : Insn) : Prop where
  targets : ∀ c, .block c ∈ i.targets → g.Leads code c
  label : ∀ b, i = .label (.block b) → g.Inner (g.openRegions code) b
  start : i = .beginTry → ∃ b, (g.outline code).block = some b ∧
    g.Sited code b (g.openRegions code) ∧ ∀ r ∈ g.regionsOf b, r.hi ≤ g.size

/-- Whether the element needs no ground: it is no branch to a block, no branch over an exit, no
label of a block and no start of a region. -/
def Insn.isIdle : Insn → Bool
  | .branch o (.fresh _) => !o.isConditional
  | .branch _ (.block _) | .switch _ | .label (.block _) | .beginTry => false
  | _ => true

theorem Insn.isIdle_of_isPlain {i : Insn} (h : i.isPlain = true) : i.isIdle = true := by
  cases i with
  | label | branch | switch | beginTry => cases h
  | _ => rfl

theorem Insn.isIdle_of_isEnd {i : Insn} (h : i.isEnd = true) : i.isIdle = true := by
  cases i with
  | op => rfl
  | _ => cases h

/-! ## Traced code -/

/-- What is known of the element at a place of some code (module doc). -/
structure Accounts (setting : Setting) (code : List Insn) (k : Nat) (i : Insn) : Prop where
  grounds : setting.graph.Grounds (code.take k) i
  lands : ∀ o n, i = .branch o (.fresh n) → o.isConditional = true →
    ∃ exit, code[k + 1]? = some exit ∧ exit.isMarker = false ∧
      code[k + 2]? = some (.label (.fresh n))
  body : ∀ b, i = .label (.block b) → ∃ nest block s s', setting.graph.block? b = some block ∧
    s.Heads setting.graph nest b ∧ Emits setting (.body b block) s s' ∧
    s.code = code.take (k + 1) ∧ s'.code <+: code

/-- Every element that is written on the way from one code to another is accounted for. -/
structure Traced (setting : Setting) (code code' : List Insn) : Prop where
  grows : code <+: code'
  accounts : ∀ k i, code.length ≤ k → code'[k]? = some i → Accounts setting code' k i

/-- More code leaves an account as it is. -/
theorem Accounts.mono {setting : Setting} {code code' : List Insn} {k : Nat} {i : Insn}
    (h : Accounts setting code k i) (hp : code <+: code') (hk : k < code.length) :
    Accounts setting code' k i := by
  refine ⟨?_, fun o n hi ho => ?_, fun b hi => ?_⟩
  · rw [Graph.take_eq_of_grows hp (Nat.le_of_lt hk)]
    exact h.grounds
  · obtain ⟨exit, hexit, hmark, hland⟩ := h.lands o n hi ho
    have hlt := (List.getElem?_eq_some_iff.mp hland).1
    exact ⟨exit, (Graph.getElem?_eq_of_grows hp (by omega)).trans hexit, hmark,
      (Graph.getElem?_eq_of_grows hp hlt).trans hland⟩
  · obtain ⟨nest, block, s, s', hb, hs, hbody, hcode, hgrows⟩ := h.body b hi
    refine ⟨nest, block, s, s', hb, hs, hbody, ?_, hgrows.trans hp⟩
    rw [Graph.take_eq_of_grows hp hk]
    exact hcode

/-- An element that leads nowhere needs no account. -/
theorem Accounts.of_isIdle {setting : Setting} {code : List Insn} {k : Nat} {i : Insn}
    (h : i.isIdle = true) : Accounts setting code k i := by
  refine ⟨⟨fun c hc => ?_, ?_, ?_⟩, ?_, ?_⟩
  · cases i with
    | branch o l =>
      cases List.mem_singleton.mp hc
      cases h
    | switch => cases h
    | _ => cases hc
  · rintro b rfl
    cases h
  · rintro rfl
    cases h
  · rintro o n rfl ho
    rw [Insn.isIdle, ho] at h
    cases h
  · rintro b rfl
    cases h

namespace Traced

variable {setting : Setting} {code code₁ code' : List Insn} {s s' : State} {i : Insn} {b : BlockId}

theorem refl (code : List Insn) : Traced setting code code := by
  refine ⟨List.prefix_refl code, fun k i hk hi => ?_⟩
  rw [List.getElem?_eq_none hk] at hi
  cases hi

theorem of_eq (h : code' = code) : Traced setting code code' := by
  rw [h]
  exact refl code

/-- Code that is accounted for, after such code. -/
theorem trans (h : Traced setting code code₁) (h' : Traced setting code₁ code') :
    Traced setting code code' := by
  refine ⟨h.grows.trans h'.grows, fun k i hk hi => ?_⟩
  rcases Nat.lt_or_ge k code₁.length with hlt | hge
  · rw [Graph.getElem?_eq_of_grows h'.grows hlt] at hi
    exact (h.accounts k i hk hi).mono h'.grows hlt
  · exact h'.accounts k i hge hi

/-- One element is written. -/
theorem of_put (hc : code' = code ++ [i]) (h : Accounts setting code' code.length i) :
    Traced setting code code' := by
  subst hc
  refine ⟨List.prefix_append _ _, fun k i' hk hi => ?_⟩
  obtain ⟨hlt, -⟩ := List.getElem?_eq_some_iff.mp hi
  rw [List.length_append, List.length_singleton] at hlt
  obtain rfl : k = code.length := by omega
  rw [List.getElem?_concat_length] at hi
  cases hi
  exact h

/-- A branch to blocks that control may go on with is written. -/
theorem of_branch (hc : code' = code ++ [i]) (hi : i.isBranch = true)
    (ht : ∀ l ∈ i.targets, ∃ c, l = .block c ∧ setting.graph.Leads code c) :
    Traced setting code code' := by
  refine of_put hc ⟨⟨fun c hm => ?_, ?_, ?_⟩, ?_, ?_⟩
  · obtain ⟨c', hl, hleads⟩ := ht _ hm
    cases hl
    rw [hc, List.take_left]
    exact hleads
  · rintro b rfl
    cases hi
  · rintro rfl
    cases hi
  · rintro o n rfl -
    obtain ⟨c, hl, -⟩ := ht _ (List.mem_singleton_self _)
    cases hl
  · rintro b rfl
    cases hi

theorem of_isIdle {new : List Insn} (hc : code' = code ++ new)
    (h : ∀ i ∈ new, i.isIdle = true) : Traced setting code code' := by
  subst hc
  refine ⟨List.prefix_append _ _, fun k i hk hi => .of_isIdle ?_⟩
  rw [List.getElem?_append_right hk] at hi
  exact h i (List.mem_of_getElem? hi)

/-- Where nothing is scheduled, no element leads anywhere but to the exit that returns share. -/
theorem of_calm (h : Calm s s') (hs : s.ExitIsFresh) : Traced setting s.code s'.code := by
  obtain ⟨new, hc, hi⟩ := h.code
  refine of_isIdle hc fun i hm => ?_
  obtain hp | he | ⟨slot, label, hr, rfl⟩ := hi i hm
  · exact Insn.isIdle_of_isPlain hp
  · exact Insn.isIdle_of_isEnd he
  · obtain ⟨n, -, rfl⟩ := h.numbers.exitIsFresh hs slot label hr
    rfl

theorem of_straight (h : Straight s s') : Traced setting s.code s'.code := by
  obtain ⟨new, hc, hp⟩ := h.code
  exact of_isIdle hc fun i hm => Insn.isIdle_of_isPlain (List.all_eq_true.mp hp i hm)

/-- The element that transfers control to a block is written. -/
theorem of_exit (hc : s'.code = s.code ++ [exitInsn s.scopes b])
    (h : setting.graph.Leads s.code b) : Traced setting s.code s'.code := by
  unfold exitInsn at hc
  split at hc
  · exact of_branch hc rfl fun l hl => ⟨b, List.mem_singleton.mp hl, h⟩
  · exact of_isIdle hc (by simp [Insn.isIdle])

/-- The label of a block is written, and then what the block does. -/
theorem of_entered {nest : List Enclosure} {viaEdge : Bool} {block : Block}
    (hs : s.Sits setting.graph nest) (hb : setting.graph.block? b = some block)
    (within : (s.innermost setting.graph).contains b = true)
    (hbody : Emits setting (.body b block) (s.entered viaEdge b) s')
    (h : Traced setting (s.entered viaEdge b).code s'.code) :
    Traced setting s.code s'.code := by
  have hc := s.code_entered viaEdge b
  have hgrows := h.grows
  rw [hc] at hgrows
  refine ⟨(List.prefix_append _ _).trans hgrows, fun k i hk hi => ?_⟩
  rcases Nat.lt_or_ge k (s.entered viaEdge b).code.length with hlt | hge
  · -- The label itself.
    have htake := Graph.take_eq_of_grows hgrows (k := s.code.length) (by simp)
    have htake' := Graph.take_eq_of_grows hgrows (k := s.code.length + 1) (by simp)
    rw [List.take_left] at htake
    rw [hc, List.length_append, List.length_singleton] at hlt
    obtain rfl : k = s.code.length := by omega
    rw [Graph.getElem?_eq_of_grows hgrows (by simp), List.getElem?_concat_length] at hi
    cases hi
    refine ⟨⟨nofun, ?_, nofun⟩, nofun, ?_⟩
    · rintro b' ⟨⟩
      rw [htake, hs.openRegions_eq]
      exact hs.inner_iff.mp within
    · rintro b' ⟨⟩
      refine ⟨nest, block, _, s', hb, hs.enter viaEdge b, hbody, ?_, List.prefix_refl _⟩
      rw [htake', hc, List.take_of_length_le (by simp)]
  · exact h.accounts k i hge hi

/-- A region is started behind the label of its block. -/
theorem of_beginTry {nest : List Enclosure} (hs : s.Heads setting.graph nest b)
    (site : setting.graph.Sited s.code b (Enclosure.regions nest))
    (hsize : ∀ r ∈ setting.graph.regionsOf b, r.hi ≤ setting.graph.size) :
    Traced setting s.code (s.written .beginTry).code := by
  have hc := s.code_written .beginTry
  refine of_put hc ⟨⟨nofun, nofun, fun _ => ?_⟩, nofun, nofun⟩
  rw [hc, List.take_left, hs.sits.openRegions_eq]
  exact ⟨b, hs.block, site, hsize⟩

/-- A branch over an exit is written, the exit and the label after it. -/
theorem of_detour {o : BranchOp} {n : Nat} {exit : Insn} (hexit : exit.isMarker = false)
    (h : Traced setting (code ++ [.branch o (.fresh n)])
      (code ++ [.branch o (.fresh n)] ++ [exit])) :
    Traced setting code (code ++ [.branch o (.fresh n)] ++ [exit] ++ [.label (.fresh n)]) := by
  have hlabel : Traced setting (code ++ [.branch o (.fresh n)] ++ [exit])
      (code ++ [.branch o (.fresh n)] ++ [exit] ++ [.label (.fresh n)]) :=
    of_isIdle rfl (by simp [Insn.isIdle])
  have hrest := h.trans hlabel
  refine ⟨(List.prefix_append _ _).trans hrest.grows, fun k i hk hi => ?_⟩
  rcases Nat.lt_or_ge code.length k with hlt | hge
  · refine hrest.accounts k i ?_ hi
    rw [List.length_append]
    exact hlt
  · obtain rfl : k = code.length := by omega
    obtain rfl : i = .branch o (.fresh n) := by simpa using hi.symm
    refine ⟨⟨by simp [Insn.targets], nofun, nofun⟩, ?_, nofun⟩
    rintro o' n' ⟨⟩ -
    exact ⟨exit, by simp, hexit, by simp⟩

end Traced

/-! ## Courses -/

theorem Emits.block?_of_visit {setting : Setting} {viaEdge : Bool} {b : BlockId} {s s' : State}
    (h : Emits setting (.visit viaEdge b) s s') : ∃ block, setting.graph.block? b = some block := by
  cases h <;> exact ⟨_, ‹_›⟩

/-- A visit of a live block outside of the innermost scope writes one element. -/
theorem Emits.code_of_visit {setting : Setting} {viaEdge : Bool} {b : BlockId} {s s' : State}
    (h : Emits setting (.visit viaEdge b) s s') (live : setting.graph.isLive b = true)
    (out : (s.innermost setting.graph).contains b = false) :
    s'.code = s.code ++ [exitInsn s.scopes b] := by
  cases h with
  | revisit => exact s.code_revisited b
  | pass hb _ hd => simp [Graph.isLive, hb, hd] at live
  | enter _ _ _ within =>
    rw [out] at within
    cases within
  | leave _ _ _ _ hq => exact (Gen.defer_adds hq live).code_eq.trans (s.code_exited b)

/-- The regions of an edge end at the block after them at the latest. -/
theorem hi_le_next {b body next hi : BlockId} {handlers : List Handler} {cleanup : Option BlockId}
    {ends : List BlockId} {r : Region}
    (hends : handlers.map Handler.target ++ (cleanup.toList ++ [next]) = hi :: ends)
    (asc : Gen.isAscending (hi :: ends) = true)
    (hr : r ∈ (Edge.protect body handlers cleanup next).regions b) : r.hi ≤ next := by
  have hlast : ∀ x ∈ hi :: ends, x ≤ next := by
    have hpair := Graph.pairwise_of_isAscending asc
    rw [← hends, ← List.append_assoc, List.pairwise_append] at hpair
    rw [← hends, ← List.append_assoc]
    intro x hx
    rcases List.mem_append.mp hx with hx | hx
    · exact Nat.le_of_lt (hpair.2.2 x hx next (List.mem_singleton_self next))
    · exact Nat.le_of_eq (List.mem_singleton.mp hx)
  rw [Edge.regions_protect hends, List.mem_cons, List.mem_append, List.mem_map, List.mem_map] at hr
  obtain rfl | ⟨p, hp, rfl⟩ | ⟨c, -, rfl⟩ := hr
  · exact hlast hi List.mem_cons_self
  · exact hlast _ (List.mem_cons_of_mem hi (List.of_mem_zip hp).2)
  · exact Nat.le_refl next

/-- A task writes traced code, from a state where the blocks that it goes on with are known. -/
def Task.Writes (setting : Setting) (s s' : State) : Task → Prop
  | .visit _ b => ∀ nest, s.Sits setting.graph nest →
    (b ∉ s.emitted ∧ (s.innermost setting.graph).contains b = true ∨
      setting.graph.Leads s.code b) → Traced setting s.code s'.code
  | .body b block => ∀ nest, setting.graph.block? b = some block → s.Heads setting.graph nest b →
    setting.graph.Sited s.code b (Enclosure.regions nest) → Traced setting s.code s'.code
  | .edge b e => ∀ nest block, setting.graph.block? b = some block → block.edge = some e →
    s.Heads setting.graph nest b → setting.graph.Sited s.code b (Enclosure.regions nest) →
    Traced setting s.code s'.code
  | .branch _ c => ∀ nest, s.Sits setting.graph nest → setting.graph.Leads s.code c →
    Traced setting s.code s'.code
  | .cases _ _ list => ∀ nest, s.Sits setting.graph nest →
    (∀ c ∈ list, setting.graph.Leads s.code c.target) → Traced setting s.code s'.code
  | .drain => ∀ nest, s.Sits setting.graph nest → Traced setting s.code s'.code
  | .scope kind first hi => ∀ r rest nest, r.frame = (kind, first, hi) → setting.graph.Starts r →
    setting.graph.Sited s.code r.owner (Enclosure.regions nest) →
    s.Turns setting.graph ⟨r, rest⟩ nest → Traced setting s.code s'.code
  | .handlers l => ∀ owner r rest nest, (∀ p ∈ l, setting.graph.Starts (.ofHandler owner p)) →
    setting.graph.Sited s.code owner (Enclosure.regions nest) →
    s.Turns setting.graph ⟨r, l.map (Region.ofHandler owner) ++ rest⟩ nest →
    Traced setting s.code s'.code
  | .cleanup first next => ∀ owner r nest,
    (∀ c ∈ first, setting.graph.Starts (.ofCleanup owner next c)) →
    setting.graph.Sited s.code owner (Enclosure.regions nest) →
    s.Turns setting.graph ⟨r, first.toList.map (Region.ofCleanup owner next)⟩ nest →
    Traced setting s.code s'.code

/-- An edge leads on where the code is in the same regions as the label of its block. -/
theorem State.Tracks.leads {g : Graph} {s : State} {nest : List Enclosure} {code : List Insn}
    {b c : BlockId} (h : s.Sits g nest) (site : g.Sited code b (Enclosure.regions nest))
    (hp : code <+: s.code) (hc : g.Follows b c) : g.Leads s.code c := by
  refine .edge ?_ hc
  rw [h.openRegions_eq]
  exact site.mono hp

open Gen in
/-- Every task that returns has written traced code. -/
theorem Emits.traced {setting : Setting} {task : Task} {s s' : State}
    (h : Emits setting task s s') : task.Writes setting s s' := by
  induction h with
  | @revisit _ b _ s _ he =>
    intro nest hs hready
    exact .of_exit (s.code_revisited b) (hready.resolve_left fun hn => hn.1 he)
  | pass => exact fun nest _ _ => .refl _
  | @enter viaEdge b block s s' hb _ _ within hbody ih =>
    intro nest hs _
    refine .of_entered hs hb within hbody (ih nest hb (hs.enter viaEdge b) ?_)
    refine ⟨s.code.length, ?_, ?_⟩
    · rw [State.code_entered, List.getElem?_concat_length]
    · rw [State.code_entered, List.take_left]
      exact hs.openRegions_eq
  | @leave _ b _ s s' hb _ hd out hq =>
    intro nest hs hready
    have hc := (defer_adds hq (isLive_eq_true hb hd)).code_eq.trans (s.code_exited b)
    refine .of_exit hc (hready.resolve_left fun hn => ?_)
    have hin := hn.2
    simp only [Scope.contains, Bool.and_eq_true, decide_eq_true_eq] at hin
    exact absurd hin.2 (Nat.not_lt.mpr out)
  | stop hst =>
    exact fun nest _ hs _ => .of_calm (statements_calm setting.graph hst) hs.sits.fresh
  | goOn hst _ he _ ih =>
    intro nest hb hs site
    have hc := statements_calm setting.graph hst
    exact .trans (.of_calm hc hs.sits.fresh) (ih nest _ hb he (hs.calm hc) (site.mono hc.grows))
  | fallOff hst _ _ hf =>
    intro nest _ hs _
    exact .of_calm ((statements_calm setting.graph hst).trans (fallOff_calm hf)) hs.sits.fresh
  | drop _ _ hp => exact fun nest _ _ => .of_straight ((op_straight rfl).of_ok hp)
  | @direct o target _ s s' _ _ _ _ hsch =>
    intro nest hs hleads
    have hc := (schedule_adds hsch).code_eq.trans (s.code_branched o (.block target))
    exact .of_branch hc rfl fun l hl => ⟨target, List.mem_singleton.mp hl, hleads⟩
  | @detour o target _ s s' ho hb hd out _ hvisit ih =>
    intro nest hs hleads
    have hskip := hs.skipped o.negate
    have hgrows : s.code <+: (s.skipped o.negate).code := ⟨_, (s.code_skipped _).symm⟩
    have hexit := hvisit.code_of_visit (isLive_eq_true hb hd) out
    have htrace := ih nest hskip (.inr (hleads.mono hgrows (by
      rw [hskip.openRegions_eq, hs.openRegions_eq])))
    rw [hexit, State.code_skipped] at htrace
    rw [State.code_written, hexit, State.code_skipped]
    exact .of_detour (isMarker_exitInsn _ _) htrace
  | @scope kind first hi s s₁ s' lt hvisit hdrain _ _ ihv ihd =>
    intro r rest nest hr starts site hs
    have hopen := hs.opened hr
    have hcode := s.code_opened kind first hi
    have hlo : r.lo = first := congrArg (·.2.1) hr
    have hhi : r.hi = hi := congrArg (·.2.2) hr
    have inside : r.contains first = true := by simp [Region.contains, hlo, hhi, lt]
    have hready : first ∉ (s.opened kind first hi).emitted ∧
        ((s.opened kind first hi).innermost setting.graph).contains first = true ∨
          setting.graph.Leads (s.opened kind first hi).code first := by
      by_cases he : first ∈ (s.opened kind first hi).emitted
      · exact .inr (.start hopen.openRegions_eq (hcode.symm ▸ site) starts hlo inside)
      · exact .inl ⟨he, by simp [State.innermost, Scope.contains, lt]⟩
    have hfirst := ihv _ hopen hready
    rw [hcode] at hfirst
    exact hfirst.trans (ihd _ (hvisit.tracks _ hopen))
  | drained => exact fun nest _ => .refl _
  | skip hn _ _ ih =>
    intro nest hs
    have hrest := ih nest (hs.nextPending hn)
    obtain ⟨_, _, _, -, -, rfl⟩ := nextPending_some hn
    exact hrest
  | @next b s s₁ s₂ s' hn new hvisit _ ihv ihr =>
    intro nest hs
    have hnext := hs.nextPending hn
    have hfirst := ihv nest hnext (.inl ⟨new, (hs.housed.nextPending hn).2⟩)
    have hrest := hfirst.trans (ihr nest (hvisit.tracks nest hnext))
    obtain ⟨_, _, _, -, -, rfl⟩ := nextPending_some hn
    exact hrest
  | goto _ ih =>
    intro nest block hb he hs site
    refine ih nest hs.sits (.inr (hs.sits.leads site (List.prefix_refl _) ?_))
    exact Graph.follows_of_regions_eq_nil hb he rfl (by simp [Edge.successors])
  | @conditional b ifTrue ifFalse _ s s₁ s₂ s' hc hbranch _ ihb ihv =>
    intro nest block hb he hs site
    have follows {c : BlockId} (hm : c ∈ [ifTrue, ifFalse]) : setting.graph.Follows b c :=
      Graph.follows_of_regions_eq_nil hb he rfl hm
    have hcond := (expr_straight _ _).of_ok hc
    have hs₁ := hs.sits.straight hcond
    have hbr := ihb nest hs₁ (hs₁.leads site hcond.grows (follows (by simp)))
    have hs₂ := hbranch.tracks nest hs₁
    have hgrows := hcond.grows.trans hbr.grows
    exact ((Traced.of_straight hcond).trans hbr).trans
      (ihv nest hs₂ (.inr (hs₂.leads site hgrows (follows (by simp)))))
  | @«foreach» b next subject slot s s₁ s' ha _ ih =>
    intro nest block hb he hs site
    have hacquire := (acquire_straight _).of_ok ha
    have hs₁ := hs.sits.straight hacquire
    have henum := hs₁.enumerating b slot
    have follows : setting.graph.Follows b next :=
      Graph.follows_of_regions_eq_nil hb he rfl (List.mem_singleton_self next)
    exact (Traced.of_straight hacquire).trans
      (ih nest henum (.inr (henum.leads site hacquire.grows follows)))
  | @moveNext b _ body after _ _ _ s s₁ s₂ s₃ s' _ ha hbranch hst _ ihb ihv =>
    intro nest block hb he hs site
    have follows {c : BlockId} (hm : c ∈ [body, after]) : setting.graph.Follows b c :=
      Graph.follows_of_regions_eq_nil hb he rfl hm
    have hadv := (advance_straight _).of_ok ha
    have hs₁ := hs.sits.straight hadv
    have hbr := ihb nest hs₁ (hs₁.leads site hadv.grows (follows (by simp)))
    have hstore := (storeItem_straight _ _ _).of_ok hst
    have hs₃ := (hbranch.tracks nest hs₁).straight hstore
    have hgrows := (hadv.grows.trans hbr.grows).trans hstore.grows
    exact (((Traced.of_straight hadv).trans hbr).trans (.of_straight hstore)).trans
      (ihv nest hs₃ (.inr (hs₃.leads site hgrows (follows (by simp)))))
  | @chain b default _ cases _ s s₁ s₂ s' _ hv hcases _ ihc ihv =>
    intro nest block hb he hs site
    have follows {c : BlockId} (hm : c ∈ cases.map Case.target ++ [default]) :
        setting.graph.Follows b c :=
      Graph.follows_of_regions_eq_nil hb he rfl hm
    have hsel := (select_straight _).of_ok hv
    have hs₁ := hs.sits.straight hsel
    have hcs := ihc nest hs₁ fun c hm => hs₁.leads site hsel.grows
      (follows (List.mem_append_left _ (List.mem_map_of_mem hm)))
    have hs₂ := hcases.tracks nest hs₁
    have hgrows := hsel.grows.trans hcs.grows
    exact ((Traced.of_straight hsel).trans hcs).trans
      (ihv nest hs₂ (.inr (hs₂.leads site hgrows (follows (by simp)))))
  | @table b default _ cases range index s s₁ s₂ s₃ s₄ s' _ hi hbranch hj hsch _ ihb ihv =>
    intro nest block hb he hs site
    have follows {c : BlockId} (hm : c ∈ cases.map Case.target ++ [default]) :
        setting.graph.Follows b c :=
      Graph.follows_of_regions_eq_nil hb he rfl hm
    have hindex := (tableIndex_straight _ _).of_ok hi
    have hs₁ := hs.sits.straight hindex
    have hbr := ihb nest hs₁ (hs₁.leads site hindex.grows (follows (by simp)))
    have hload := (loadIndex_straight _).of_ok hj
    have hs₃ := (hbranch.tracks nest hs₁).straight hload
    have hgrows := (hindex.grows.trans hbr.grows).trans hload.grows
    have htable : Traced setting s₃.code
        (s₃.tabled (range.targets setting.graph cases default)).code := by
      refine .of_branch (s₃.code_tabled _) rfl fun l hl => ?_
      obtain ⟨c, hm, rfl⟩ := List.mem_map.mp hl
      refine ⟨c, rfl, hs₃.leads site hgrows (follows ?_)⟩
      obtain ⟨d, hd, rfl⟩ | rfl := TableRange.mem_of_mem_targets hm
      · exact List.mem_append_left _ (List.mem_map_of_mem hd)
      · simp
    have hs₄ := (hs₃.tabled _).schedules hsch
    have hwait : Traced setting (s₃.tabled _).code s₄.code := .of_eq (schedules_writes hsch).1
    have hfront := (((Traced.of_straight hindex).trans hbr).trans (.of_straight hload)).trans
      (htable.trans hwait)
    exact hfront.trans (ihv nest hs₄ (.inr (hs₄.leads site hfront.grows (follows (by simp)))))
  | noCase => exact fun nest _ _ => .refl _
  | @case _ _ c rest s s₁ s₂ s' hc hbranch _ ihb ihr =>
    intro nest hs hleads
    obtain ⟨hfirst, hrest⟩ := List.forall_mem_cons.mp hleads
    have hcmp := (compare_straight _ _ _).of_ok hc
    have hs₁ := hs.straight hcmp
    have hopen₁ : setting.graph.openRegions s₁.code = setting.graph.openRegions s.code := by
      rw [hs₁.openRegions_eq, hs.openRegions_eq]
    have hbr := ihb nest hs₁ (hfirst.mono hcmp.grows hopen₁)
    have hs₂ := hbranch.tracks nest hs₁
    have hopen₂ : setting.graph.openRegions s₂.code = setting.graph.openRegions s.code := by
      rw [hs₂.openRegions_eq, hs.openRegions_eq]
    have hfront := (Traced.of_straight hcmp).trans hbr
    exact hfront.trans (ihr nest hs₂ fun d hd => (hrest d hd).mono hfront.grows hopen₂)
  | @protect b body next hi handlers cleanup ends s s₁ s₂ s₃ s' _ hends asc hbody hhandlers hcleanup
      hvisit ihb ihh ihc ihv =>
    intro nest block hb he hs site
    have hr : setting.graph.regionsOf b = _ := Graph.regionsOf_eq hb he
    have hasc : isAscending (body :: (handlers.map Handler.target ++ cleanup.toList ++ [next]))
        = true := by
      rw [List.append_assoc, hends]
      exact asc
    have starts (r : Region) (hm : r ∈ setting.graph.regionsOf b) : setting.graph.Starts r :=
      Graph.starts_of_mem_regionsOf hb he hasc hm
    obtain ⟨_, hnext⟩ := hvisit.block?_of_visit
    have hbegin : Traced setting s.code (s.written .beginTry).code := by
      refine .of_beginTry hs site fun r hm => ?_
      rw [hr] at hm
      exact Nat.le_trans (hi_le_next hends (isAscending_cons asc).2 hm)
        (Nat.le_of_lt (Graph.lt_size_of_block? hnext))
    rw [Edge.regions_protect hends] at hr
    rw [hr, List.forall_mem_cons, List.forall_mem_append] at starts
    obtain ⟨hstart, hhandler, hfinally⟩ := starts
    -- The parts in order, each with the states before and after it.
    have hs₀ := State.Tracks.beginTry hs hr
    have t₁ := hbegin.trans (ihb _ _ nest rfl hstart (site.mono hbegin.grows) hs₀)
    have hs₁ := hbody.tracks _ _ nest rfl hs₀
    have t₂ := t₁.trans (ihh b _ _ nest (fun p hp => hhandler _ (List.mem_map_of_mem hp))
      (site.mono t₁.grows) hs₁)
    obtain ⟨_, hs₂⟩ := hhandlers.tracks b _ _ nest hs₁
    have t₃ := t₂.trans (ihc b _ nest
      (fun c hc => hfinally _ (List.mem_map_of_mem (Option.mem_toList.mpr hc)))
      (site.mono t₂.grows) hs₂)
    obtain ⟨_, hs₃⟩ := hcleanup.tracks b _ nest hs₂
    have hend : Traced setting s₃.code (s₃.written .endTry).code :=
      .of_isIdle (s₃.code_written _) (by simp [Insn.isIdle])
    have t₄ := t₃.trans hend
    exact t₄.trans (ihv nest hs₃.endTry
      (.inr (hs₃.endTry.leads site t₄.grows (Graph.follows_next hb he hasc))))
  | noHandler => exact fun owner r rest nest _ _ _ => .refl _
  | @handler h hi rest s s₁ s₂ s' hc hscope _ ihs ihr =>
    intro owner r parts nest starts site hs
    obtain ⟨hfirst, hrest⟩ := List.forall_mem_cons.mp starts
    have hreceive := (receive_straight _).of_ok hc
    have hs₁ := (State.Tracks.marker (.ofHandler owner (h, hi)) hs (fun hp => by cases hp)).straight
      hreceive
    have hmark : Traced setting s.code (s.written (.beginCatch h.cls)).code :=
      .of_isIdle (s.code_written _) (by simp [Insn.isIdle])
    have t₁ := hmark.trans (.of_straight hreceive)
    have t₂ := t₁.trans (ihs _ _ nest rfl hfirst (site.mono t₁.grows) hs₁)
    have hs₂ := hscope.tracks _ _ nest rfl hs₁
    exact t₂.trans (ihr owner _ parts nest hrest (site.mono t₂.grows) hs₂)
  | noCleanup => exact fun owner r nest _ _ _ => .refl _
  | @cleanup first next s s' _ ih =>
    intro owner r nest starts site hs
    have hmark := State.Tracks.marker (.ofCleanup owner next first) hs (fun hp => by cases hp)
    have hgrows : s.code <+: (s.written .beginFinally).code := ⟨_, (s.code_written _).symm⟩
    have hput : Traced setting s.code (s.written .beginFinally).code :=
      .of_isIdle (s.code_written _) (by simp [Insn.isIdle])
    exact hput.trans (ih _ _ nest rfl (starts first rfl) (site.mono hgrows) hmark)

/-! ## Listings -/

/-- The scope of a routine is opened behind straight-line code, where no other is. -/
theorem Straight.sits {g : Graph} {registry : Registry} {s : State}
    (h : Straight { registry } s) : (s.opened .routine Graph.entry g.size).Sits g [] := by
  have hn : Numbers { registry } (s.opened .routine Graph.entry g.size) :=
    h.calm.numbers.trans (.of_eq (by simp) (by simp))
  refine ⟨?_, ?_, ?_, hn.exitIsFresh fun _ _ hr => by cases hr⟩
  · rw [State.code_opened, h.calm.outline_eq]
    rfl
  · rw [State.frames, State.scopes_opened, List.map_cons]
    change (.routine, 0, g.size) :: (s.unqueue Graph.entry).frames = _
    rw [State.frames_unqueue, h.frames]
    rfl
  · rw [State.scopes_opened]
    refine List.forall_mem_cons.mpr ⟨List.forall_mem_nil _, Scope.Housed.unqueue ?_ Graph.entry⟩
    rw [h.scopes]
    exact List.forall_mem_nil _

/-- The listing of a successful generation is traced. -/
theorem Finished.traced {g : Graph} {options : Options} {registry : Registry} {s₁ s₂ : State}
    (h : Finished g options registry s₁ s₂) :
    Traced ⟨g, options⟩ [] (g.generate options registry).listing.insns.toList := by
  have hstart : Traced ⟨g, options⟩ [] s₁.code := .of_straight h.start
  have hblocks : Traced ⟨g, options⟩ s₁.code s₂.code := by
    cases h.emits with
    | scope lt hvisit hdrain =>
      have hopen := h.start.sits (g := g)
      have hready : Graph.entry ∉ (s₁.opened .routine Graph.entry g.size).emitted := by
        rw [State.emitted_opened, h.start.emitted]
        exact List.not_mem_nil
      have hfirst := hvisit.traced [] hopen
        (.inl ⟨hready, by simp [State.innermost, Scope.contains, lt]⟩)
      rw [State.code_opened] at hfirst
      exact hfirst.trans (hdrain.traced [] (hvisit.tracks [] hopen))
  have hexit : ∀ i ∈ s₂.sharedExit, i.isIdle = true := by
    unfold State.sharedExit
    split
    · exact List.forall_mem_nil _
    · rename_i slot label hr
      obtain ⟨n, -, rfl⟩ := h.exitIsFresh slot label hr
      simp [Insn.isIdle]
  rw [h.code]
  exact (hstart.trans hblocks).trans (.of_isIdle rfl hexit)

end Linearizer
