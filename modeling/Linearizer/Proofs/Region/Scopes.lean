import Linearizer.Proofs.Generator.Schedule
import Linearizer.Proofs.Region.Outline

/-!
# Open scopes and open regions

While generation writes the code of a region the region is one of the open scopes. A block that
waits in a scope is one that belongs there: in a structured routine the regions that it lies in are
those of the scope and of the scopes around it.

- **Scopes** (`Opens`): the open scopes are those of some regions, inside the scope of the routine,
  and hold blocks that belong there.
- **Changes**: the lemmas in `Opens` follow the functions on scopes. `Opens.home` is the reason why
  a block may be written or wait: it lies in the innermost region, and no region around it has been
  left out.
- **Exits** (`Opens.exits`): the element that leads to a block suits the open regions.
-/

namespace Linearizer

open Outline

/-- The open scopes are those of some regions, the innermost one first (module doc). -/
inductive Opens (g : Graph) : List Region → List Scope → Prop
  | routine {pending : List BlockId} (homes : g.Structured → ∀ c ∈ pending, g.Home [] c) :
      Opens g [] [⟨.routine, 0, g.size, pending⟩]
  | region {r : Region} {regions : List Region} {pending : List BlockId} {scopes : List Scope}
      (known : g.Structured → r ∈ g.regions) (chain : g.Structured → ∀ r' ∈ regions, r.Within r')
      (homes : g.Structured → ∀ c ∈ pending, g.Home (r :: regions) c)
      (outer : Opens g regions scopes) :
      Opens g (r :: regions) (⟨r.part.kind, r.lo, r.hi, pending⟩ :: scopes)

section Exit

variable {scope : Scope} {outer : List Scope} {b : BlockId}

theorem exitInsn_of_cleanup (h : scope.contains b = false) (hk : scope.kind = .cleanup) :
    exitInsn (scope :: outer) b = .op .endfinally := by
  simp [exitInsn, Gen.exitTo, h, hk]

theorem exitInsn_of_isProtected (h : scope.contains b = false)
    (hk : scope.kind.isProtected = true) :
    exitInsn (scope :: outer) b = .branch .leave (.block b) := by
  have hne : scope.kind ≠ .cleanup := by
    rintro he
    rw [he] at hk
    cases hk
  simp [exitInsn, Gen.exitTo, h, hk, hne]

end Exit

namespace Opens

variable {g : Graph} {r : Region} {regions : List Region} {scopes outer : List Scope}
  {b : BlockId}

theorem mem_regions (h : Opens g regions scopes) (hg : g.Structured) :
    ∀ r ∈ regions, r ∈ g.regions := by
  induction h with
  | routine => simp
  | region known _ _ _ ih => exact List.forall_mem_cons.mpr ⟨known hg, ih⟩

/-- A block of the innermost region belongs there, when no region around it has been left out. -/
theorem home (h : Opens g regions scopes) (hg : g.Structured) (he : g.Encloses regions b)
    (hb : g.Inner regions b) : g.Home regions b := by
  intro r
  refine ⟨fun hr => ⟨h.mem_regions hg r hr, ?_⟩, fun ⟨hr, hc⟩ => he r hr hc⟩
  cases h with
  | routine => cases hr
  | region _ chain =>
    rcases List.mem_cons.mp hr with rfl | hr
    · exact hb
    · exact chain hg r hr b hb

/-! ## The innermost scope -/

theorem contains_iff {scope : Scope} (h : Opens g regions (scope :: outer)) :
    scope.contains b = true ↔ g.Inner regions b := by
  cases h with
  | routine => simp [Scope.contains, Graph.Inner]
  | region => rfl

theorem map_frame (h : Opens g regions scopes) :
    scopes.map (fun scope => (scope.kind, scope.lo, scope.hi)) =
      regions.map Region.frame ++ [(.routine, 0, g.size)] := by
  induction h with
  | routine => rfl
  | region _ _ _ _ ih => simp [ih, Region.frame]

theorem map_kind (h : Opens g regions scopes) :
    scopes.map Scope.kind = regions.map (·.part.kind) ++ [.routine] := by
  have hf := congrArg (List.map Prod.fst) h.map_frame
  simpa [Function.comp_def, Region.frame] using hf

/-- The element that leads to a block of the routine suits the open regions. -/
theorem exits (h : Opens g regions scopes) (hb : b < g.size) :
    Exits g regions (exitInsn scopes b) := by
  cases hs : scopes with
  | nil =>
    rw [hs] at h
    cases h
  | cons scope outer =>
    rw [hs] at h
    by_cases hc : scope.contains b = true
    · rw [exitInsn_of_contains hc]
      exact h.contains_iff.mp hc
    have out : scope.contains b = false := by simpa using hc
    rw [h.contains_iff] at hc
    cases h with
    | routine => exact absurd hb hc
    | @region r =>
      by_cases hp : r.part = .cleanup
      · rw [exitInsn_of_cleanup out (congrArg Part.kind hp)]
        exact ⟨r, rfl, hp⟩
      · have hk := Part.isProtected_iff.mpr hp
        rw [exitInsn_of_isProtected out hk]
        exact ⟨r, rfl, hk, out⟩

/-! ## Blocks that wait -/

theorem dequeue (h : Opens g regions scopes) (b : BlockId) :
    Opens g regions (scopes.map (·.dequeue b)) := by
  induction h with
  | routine homes => exact .routine fun hg c hc => homes hg c (List.mem_of_mem_filter hc)
  | region known chain homes _ ih =>
    exact .region known chain (fun hg c hc => homes hg c (List.mem_of_mem_filter hc)) ih

theorem unqueue {s : State} (h : Opens g regions s.scopes) (b : BlockId) :
    Opens g regions (s.unqueue b).scopes := by
  unfold State.unqueue
  split
  · exact h.dequeue b
  · exact h

/-- A block that belongs to the innermost scope comes to wait there. -/
theorem enqueue (h : Opens g regions scopes) (hb : g.Structured → g.Home regions b) :
    Opens g regions (scopes.modifyHead (·.enqueue b)) := by
  have add {pending : List BlockId} (homes : g.Structured → ∀ c ∈ pending, g.Home regions c) :
      g.Structured → ∀ c ∈ Scope.insert b pending, g.Home regions c := by
    intro hg c hc
    rcases Scope.mem_insert.mp hc with rfl | hc
    · exact hb hg
    · exact homes hg c hc
  cases h with
  | routine homes => exact .routine (add homes)
  | region known chain homes outer => exact .region known chain (add homes) outer

/-- A block comes to wait in the first scope that it lies in. -/
theorem enqueueIn (h : Opens g regions scopes) (he : g.Structured → g.Encloses regions b)
    (ho : Gen.enqueueIn b scopes = some outer) : Opens g regions outer := by
  induction h generalizing outer with
  | @routine pending homes =>
    unfold Gen.enqueueIn at ho
    split at ho
    · rename_i hc
      cases ho
      have h : Opens g [] [⟨.routine, 0, g.size, pending⟩] := .routine homes
      exact h.enqueue fun hg => h.home hg (he hg) (h.contains_iff.mp hc)
    · cases ho
  | @region r regions pending scopes known chain homes inner ih =>
    unfold Gen.enqueueIn at ho
    split at ho
    · rename_i hc
      cases ho
      have h := region known chain homes inner
      exact h.enqueue fun hg => h.home hg (he hg) (h.contains_iff.mp hc)
    · rename_i hc
      obtain ⟨rest, hr, rfl⟩ := Option.map_eq_some_iff.mp ho
      refine .region known chain homes (ih (fun hg r' hr' hb => ?_) hr)
      -- The innermost region does not have the block, so the others enclose it.
      refine (List.mem_cons.mp (he hg r' hr' hb)).resolve_left ?_
      rintro rfl
      exact hc hb

theorem deferred (h : Opens g regions scopes) (he : g.Structured → g.Encloses regions b)
    (out : ¬ g.Inner regions b) (ho : Gen.enqueueIn b scopes.tail = some outer) :
    Opens g regions (scopes.take 1 ++ outer) := by
  cases h with
  | routine => cases ho
  | region known chain homes inner =>
    refine .region known chain homes (inner.enqueueIn (fun hg r' hr' hb => ?_) ho)
    refine (List.mem_cons.mp (he hg r' hr' hb)).resolve_left ?_
    rintro rfl
    exact out hb

/-- The first block that waits in the innermost scope is taken; it belongs there. -/
theorem take {scope : Scope} {rest : List BlockId} (h : Opens g regions (scope :: outer))
    (hp : scope.pending = b :: rest) :
    Opens g regions ({ scope with pending := rest } :: outer) ∧
      (g.Structured → g.Home regions b) := by
  cases h with
  | routine homes =>
    cases hp
    exact ⟨.routine fun hg c hc => homes hg c (List.mem_cons_of_mem b hc),
      fun hg => homes hg b List.mem_cons_self⟩
  | region known chain homes inner =>
    cases hp
    exact ⟨.region known chain (fun hg c hc => homes hg c (List.mem_cons_of_mem b hc)) inner,
      fun hg => homes hg b List.mem_cons_self⟩

theorem tail (h : Opens g (r :: regions) scopes) : Opens g regions scopes.tail := by
  cases h with
  | region _ _ _ outer => exact outer

theorem tail_eq_nil (h : Opens g [] scopes) : scopes.tail = [] := by
  cases h
  rfl

end Opens
end Linearizer
