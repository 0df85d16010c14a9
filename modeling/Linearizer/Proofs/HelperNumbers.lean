import Mathlib.Data.List.Dedup
import Mathlib.Data.List.Perm.Subperm
import Linearizer.Proofs.Generator.Move
import Linearizer.Proofs.IndependentRoutines

/-!
# Numbers of helpers

Routines that are compiled at the same time number their helpers in one registry, a list of helpers
with a table of their numbers beside it. A call that finds no number changes both.

- **Agreement** (`Registry.Numbered`): list and table are inverse to each other. One call keeps this
  (`Numbered.resolve`), and so do all calls (`Numbered.after`).
- **Stability** (`Registry.helpers_after`): helpers are only added, at the end, so that a number
  that a routine has written keeps its meaning.
- **Answers** (`SharedCall.get?_of_mem_answers`): what a routine was answered, the registry still
  holds when all routines have made their calls.

`Registry.numbers_agree` is the result for every order in which the calls of routines can reach the
registry. The numbers have no bound of their own, and need none: the helpers that routines call have
no class (`Graph.calls_erased`), and there are few of these (`Interleaves.size_le`).
-/

namespace Linearizer
namespace Registry

variable {r : Registry}

/-- A call gives the number in the table, or the next one to a helper that has none. -/
theorem resolve_cases (r : Registry) (h : Helper) :
    (∃ id, r.number? h = some id ∧ r.resolve h = (⟨id, h⟩, r)) ∨
      (r.number? h = none ∧
        r.resolve h = (⟨r.size, h⟩, ⟨r.helpers ++ [h], (h, r.size) :: r.numbers⟩)) := by
  unfold resolve
  cases hn : r.number? h with
  | some id => exact .inl ⟨id, rfl, rfl⟩
  | none => exact .inr ⟨rfl, rfl⟩

@[simp] theorem after_nil (r : Registry) : r.after [] = r := rfl

@[simp] theorem after_cons (r : Registry) (h : Helper) (calls : List Helper) :
    r.after (h :: calls) = (r.resolve h).2.after calls := rfl

/-! ## List and table -/

/-- The table gives each helper of the list its place, and nothing else; no helper has two entries
in it. -/
structure Numbered (r : Registry) : Prop where
  inverse : ∀ h id, r.number? h = some id ↔ r.get? id = some h
  entries : (r.numbers.map Prod.fst).Nodup

theorem numbered_empty : Numbered {} where
  inverse h id := by simp [number?, get?]
  entries := .nil

theorem get?_push {helpers : List Helper} {numbers : List (Helper × Nat)} {h x : Helper}
    {id : Nat} :
    get? ⟨helpers ++ [h], numbers⟩ id = some x ↔
      helpers[id]? = some x ∨ id = helpers.length ∧ h = x := by
  simp only [get?, List.getElem?_append, List.getElem?_singleton]
  grind

theorem not_mem_of_number?_eq_none {h : Helper} (hn : r.number? h = none) :
    h ∉ r.numbers.map Prod.fst := by
  intro hm
  obtain ⟨entry, hentry, rfl⟩ := List.mem_map.mp hm
  have := List.lookup_eq_none_iff.mp hn entry hentry
  simp at this

/-- A call keeps list and table inverse to each other. -/
theorem Numbered.resolve (hr : r.Numbered) (h : Helper) : (r.resolve h).2.Numbered := by
  rcases r.resolve_cases h with ⟨id, -, heq⟩ | ⟨hn, heq⟩
  · rwa [heq]
  rw [heq]
  refine ⟨fun x id => ?_, ?_⟩
  · rw [get?_push]
    change List.lookup x ((h, r.size) :: r.numbers) = some id ↔ r.get? id = some x ∨ _
    rw [← hr.inverse, List.lookup_cons]
    by_cases hx : x = h
    · -- The new helper has no older entry.
      subst hx
      simp [hn, size, eq_comm]
    · have hbeq : (x == h) = false := by simpa using hx
      simp [hbeq, number?, Ne.symm hx]
  · exact List.nodup_cons.mpr ⟨not_mem_of_number?_eq_none hn, hr.entries⟩

theorem Numbered.after (hr : r.Numbered) (calls : List Helper) : (r.after calls).Numbered := by
  induction calls generalizing r with
  | nil => exact hr
  | cons h rest ih => exact ih (hr.resolve h)

theorem Numbered.nodup (hr : r.Numbered) : r.helpers.Nodup := by
  refine List.nodup_iff_getElem?_ne_getElem?.mpr fun i j hij hj heq => ?_
  have hget : r.get? j = some r.helpers[j] := List.getElem?_eq_getElem hj
  have hi := (hr.inverse _ i).mpr (heq.trans hget)
  rw [(hr.inverse _ j).mpr hget] at hi
  exact absurd (Option.some.inj hi) (Nat.ne_of_gt hij)

/-- A helper that has a number is given it again, and nothing changes. -/
theorem Numbered.resolve_of_get? (hr : r.Numbered) {h : Helper} {id : Nat}
    (hget : r.get? id = some h) : r.resolve h = (⟨id, h⟩, r) := by
  have hn := (hr.inverse h id).mpr hget
  rcases r.resolve_cases h with ⟨id', hn', heq⟩ | ⟨hn', -⟩
  · rw [hn] at hn'
    cases hn'
    exact heq
  · rw [hn] at hn'
    cases hn'

/-! ## What is added -/

theorem helpers_resolve (r : Registry) (h : Helper) : r.helpers <+: (r.resolve h).2.helpers := by
  rcases r.resolve_cases h with ⟨id, -, heq⟩ | ⟨-, heq⟩
  · simp [heq]
  · simp [heq]

/-- Calls add helpers at the end of the list. -/
theorem helpers_after (r : Registry) (calls : List Helper) :
    r.helpers <+: (r.after calls).helpers := by
  induction calls generalizing r with
  | nil => exact List.prefix_rfl
  | cons h rest ih => exact (r.helpers_resolve h).trans (ih _)

/-- A number keeps its meaning. -/
theorem get?_after {id : Nat} {h : Helper} (hget : r.get? id = some h) (calls : List Helper) :
    (r.after calls).get? id = some h := by
  obtain ⟨more, hmore⟩ := r.helpers_after calls
  unfold get? at hget ⊢
  rw [← hmore, List.getElem?_append_left (List.getElem?_eq_some_iff.mp hget).1]
  exact hget

/-- What a call answers, the registry holds after it. -/
theorem Numbered.get?_resolve (hr : r.Numbered) (h : Helper) :
    (r.resolve h).2.get? (r.resolve h).1.id = some h := by
  rcases r.resolve_cases h with ⟨id, hn, heq⟩ | ⟨-, heq⟩
  · rw [heq]
    exact (hr.inverse h id).mp hn
  · rw [heq]
    exact get?_push.mpr (.inr ⟨rfl, rfl⟩)

theorem Numbered.mem_helpers_resolve (hr : r.Numbered) {h x : Helper} :
    x ∈ (r.resolve h).2.helpers ↔ x = h ∨ x ∈ r.helpers := by
  rcases r.resolve_cases h with ⟨id, hn, heq⟩ | ⟨-, heq⟩
  · have hmem : h ∈ r.helpers := List.mem_of_getElem? ((hr.inverse h id).mp hn)
    rw [heq]
    refine ⟨.inr, ?_⟩
    rintro (rfl | hx)
    · exact hmem
    · exact hx
  · rw [heq, List.mem_append, List.mem_singleton, or_comm]

/-- The helpers are those that have been called. -/
theorem Numbered.mem_helpers_after (hr : r.Numbered) {x : Helper} (calls : List Helper) :
    x ∈ (r.after calls).helpers ↔ x ∈ calls ∨ x ∈ r.helpers := by
  induction calls generalizing r with
  | nil => simp
  | cons h rest ih =>
    rw [after_cons, ih (hr.resolve h), hr.mem_helpers_resolve, List.mem_cons]
    tauto

end Registry

/-! ## Answers -/

/-- What a routine was answered, the registry holds after the calls of all routines. -/
theorem SharedCall.get?_of_mem_answers {k : Nat} {r : Registry} (hr : r.Numbered)
    {calls : List SharedCall} {ref : HelperRef} (href : ref ∈ answers k r calls) :
    (r.after (calls.map SharedCall.helper)).get? ref.id = some ref.helper := by
  induction calls generalizing r with
  | nil => cases href
  | cons call rest ih =>
    have hrest := ih (hr.resolve call.helper)
    by_cases hk : call.routine = k
    · rw [answers_own rest hk] at href
      rcases List.mem_cons.mp href with rfl | href
      · rw [Registry.helper_resolve]
        exact Registry.get?_after (hr.get?_resolve call.helper) _
      · exact hrest href
    · rw [answers_other rest hk] at href
      exact hrest href

/-- Numbers of helpers agree in every order in which the calls of routines can reach a registry.
List and table are inverse to each other and without duplicates. A routine is answered with a number
for each helper that it calls, which denotes the helper and is given again for it, whatever is
called later; different helpers have different numbers. The helpers are those that were called, each
once, so that another order of the calls gives the same ones. -/
theorem Registry.numbers_agree (calls : List SharedCall) :
    let r := Registry.after {} (calls.map SharedCall.helper)
    ((∀ h id, r.number? h = some id ↔ r.get? id = some h) ∧
        (r.numbers.map Prod.fst).Nodup ∧ r.helpers.Nodup) ∧
      (∀ k, (SharedCall.answers k {} calls).map HelperRef.helper = SharedCall.callsOf k calls) ∧
      (∀ k, ∀ ref ∈ SharedCall.answers k {} calls, ∀ later,
        (r.after later).get? ref.id = some ref.helper ∧
          ((r.after later).resolve ref.helper).1 = ref) ∧
      (∀ k k', ∀ ref ∈ SharedCall.answers k {} calls, ∀ ref' ∈ SharedCall.answers k' {} calls,
        ref.id = ref'.id ↔ ref.helper = ref'.helper) ∧
      (∀ h, h ∈ r.helpers ↔ h ∈ calls.map SharedCall.helper) ∧
      r.size = (calls.map SharedCall.helper).dedup.length ∧
      ∀ calls' : List SharedCall,
        (∀ h, h ∈ calls.map SharedCall.helper ↔ h ∈ calls'.map SharedCall.helper) →
          r.helpers.Perm (Registry.after {} (calls'.map SharedCall.helper)).helpers := by
  intro r
  have hr (calls : List Helper) : (Registry.after {} calls).Numbered := numbered_empty.after calls
  have hmem (calls : List Helper) (h : Helper) :
      h ∈ (Registry.after {} calls).helpers ↔ h ∈ calls := by
    simpa using numbered_empty.mem_helpers_after (x := h) calls
  have hget {k : Nat} {ref : HelperRef} (href : ref ∈ SharedCall.answers k {} calls) :
      r.get? ref.id = some ref.helper := SharedCall.get?_of_mem_answers numbered_empty href
  refine ⟨⟨(hr _).inverse, (hr _).entries, (hr _).nodup⟩,
    fun k => SharedCall.helper_answers k {} calls, ?_, ?_, hmem _, ?_, ?_⟩
  · intro k ref href later
    have hlater := get?_after (hget href) later
    exact ⟨hlater, congrArg Prod.fst (((hr _).after later).resolve_of_get? hlater)⟩
  · intro k k' ref href ref' href'
    constructor
    · intro hid
      have := hget href'
      rw [← hid, hget href] at this
      exact Option.some.inj this
    · intro hhelper
      have hid := ((hr _).inverse _ _).mpr (hget href)
      rw [hhelper, ((hr _).inverse _ _).mpr (hget href')] at hid
      exact (Option.some.inj hid).symm
  · -- Lists without repetitions that have the same elements have the same length.
    refine List.Perm.length_eq ?_
    refine (List.perm_ext_iff_of_nodup (hr _).nodup (List.nodup_dedup _)).mpr fun h => ?_
    rw [hmem, List.mem_dedup]
  · intro calls' hsame
    refine (List.perm_ext_iff_of_nodup (hr _).nodup (hr _).nodup).mpr fun h => ?_
    rw [hmem, hmem]
    exact hsame h

/-- Two routines that call the same helpers in opposite orders. -/
def rivals : List SharedCall :=
  [⟨0, .concat⟩, ⟨1, .newArray⟩, ⟨1, .concat⟩, ⟨0, .newArray⟩, ⟨0, .echo⟩]

theorem Registry.rivals_agree :
    SharedCall.answers 0 {} rivals = [⟨0, .concat⟩, ⟨1, .newArray⟩, ⟨2, .echo⟩] ∧
      SharedCall.answers 1 {} rivals = [⟨1, .newArray⟩, ⟨0, .concat⟩] ∧
      (∀ h, h ∈ rivals.map SharedCall.helper ↔ h ∈ rivals.reverse.map SharedCall.helper) ∧
      (Registry.after {} (rivals.map SharedCall.helper)).helpers.Perm
        (Registry.after {} (rivals.reverse.map SharedCall.helper)).helpers := by
  have hsame : ∀ h,
      h ∈ rivals.map SharedCall.helper ↔ h ∈ rivals.reverse.map SharedCall.helper := by
    simp
  obtain ⟨-, -, -, -, -, -, hperm⟩ := numbers_agree rivals
  exact ⟨by decide, by decide, hsame, hperm _ hsame⟩

/-! ## How many helpers there are -/

/-- The helpers without a class. -/
def Helper.erasedOnes : List Helper :=
  let coercions : List Coercion :=
    [.toBoolean, .toLong, .toDouble, .toString, .toNumber, .toClass, .asArray]
  coercions.flatMap (fun k => Encoding.simple.flatMap fun e =>
      [.convert k e false, .convert k e true]) ++
    Encoding.simple.flatMap (fun e =>
      .box e :: .widen e :: Encoding.simple.map (.payload e)) ++
    [.boxObject, .nullValue, .newBuffer, .bufferAppend, .newAlias, .aliasValue, .newArray, .arrayAdd,
      .arithmetic .add, .arithmetic .sub, .arithmetic .mul, .concat, .looseEquals, .looseLess, .echo,
      .getEnumerator, .moveNext, .currentValue, .currentKey]

theorem Helper.mem_erasedOnes {h : Helper} (he : h.isErased = true) : h ∈ erasedOnes := by
  unfold erasedOnes
  cases h with
  | convert k source byAddress =>
    have hs : source ∈ Encoding.simple := by simpa [isErased] using he
    cases k <;> cases byAddress <;> simp [hs]
  | box source | widen source =>
    have hs : source ∈ Encoding.simple := by simpa [isErased] using he
    simp [hs]
  | payload source target =>
    have hs : source ∈ Encoding.simple ∧ target ∈ Encoding.simple := by simpa [isErased] using he
    simp [hs]
  | arithmetic op => cases op <;> simp
  | _ => simp

theorem Helper.length_erasedOnes : erasedOnes.length = 316 := by decide +kernel

/-- All helpers that have been called have no class. -/
def State.CallsErased (s : State) : Prop :=
  ∀ i ∈ s.code, ∀ callee ∈ i.callee?, callee.helper.isErased = true

namespace State.CallsErased

variable {g : Graph} {s s' : State}

theorem append (h : s.CallsErased) {code : List Insn} (hc : s'.code = s.code ++ code)
    (hnew : ∀ i ∈ code, ∀ callee ∈ i.callee?, callee.helper.isErased = true) :
    s'.CallsErased := by
  intro i hi
  rw [hc, List.mem_append] at hi
  exact hi.elim (h i) (hnew i)

/-- An element that calls nothing is written. -/
theorem write (h : s.CallsErased) {i : Insn} (hc : s'.code = s.code ++ [i])
    (hi : i.callee? = none) : s'.CallsErased :=
  h.append hc (by simp [hi])

theorem same (h : s.CallsErased) (hc : s'.code = s.code) : s'.CallsErased := by
  unfold CallsErased
  rwa [hc]

theorem quiet (h : s.CallsErased) (hq : Quiet g s s') : s'.CallsErased := by
  cases hq with
  | straight hs =>
    obtain ⟨code, hc, hi⟩ := hs.written
    rw [List.all_eq_true] at hi
    exact h.append hc fun i hm _ hcallee => Insn.isErased_of_isStraight (hi i hm) hcallee
  | throw | ret | finish => exact h.write (s.code_written _) rfl
  | share => exact h.same rfl
  | leave => exact h.write (s.code_branched _ _) rfl

/-- Only straight-line code calls helpers. -/
theorem move (h : s.CallsErased) (hm : Move g s s') : s'.CallsErased := by
  cases hm with
  | quiet hq => exact h.quiet hq
  | write hw =>
    refine h.write (Tape.toList_put s.tape _) ?_
    cases hw with
    | exit =>
      unfold exitInsn
      split <;> rfl
    | marker hm =>
      rename_i i
      cases i with
      | call => cases hm
      | _ => rfl
    | conditional | skip | land | table => rfl
  | enter => exact h.write (s.code_entered _ _) rfl
  | claim => exact h.same (congrArg (·.listing.insns.toList) (s.tape_unqueue _))
  | opened => exact h.same (s.code_opened _ _ _)
  | fresh | enumerate | defer | take | closed => exact h.same rfl

theorem steps (h : s.CallsErased) (hs : Steps g s s') : s'.CallsErased := by
  induction hs with
  | refl => exact h
  | tail _ hm ih => exact ih.move hm

end State.CallsErased

/-- The helpers that a routine calls have no class, whatever other routines call. -/
theorem Graph.calls_erased (g : Graph) (options : Options) (registry : Registry)
    (peers : List (List Helper)) :
    ∀ ref ∈ (g.generateAmong options registry peers).listing.calls,
      ref.helper.isErased = true := by
  have start : State.CallsErased { registry, peers } := fun i hi => by cases hi
  have called {s : State} (hs : s.CallsErased) :
      ∀ ref ∈ s.tape.listing.calls, ref.helper.isErased = true := by
    intro ref href
    obtain ⟨i, hi, hcallee⟩ := List.mem_filterMap.mp href
    exact hs i hi ref hcallee
  have steps := Gen.routine_steps ⟨g, options⟩ (s := { registry, peers }) rfl rfl
  unfold generateAmong EStateM.run
  cases hr : Gen.routine ⟨g, options⟩ { registry, peers } with
  | ok _ s => exact called (start.steps (steps.of_ok hr))
  | error e s => exact called (start.steps (steps.of_error hr))

/-- Routines call few helpers: in whatever order their calls reach the registry, it holds 316 of
them at most, so that the numbers that it gives are less. -/
theorem Interleaves.size_le {options : Options} {graphs : List Graph} {calls : List SharedCall}
    (h : Interleaves options {} graphs calls)
    (own : ∀ call ∈ calls, call.routine < graphs.length) :
    (Registry.after {} (calls.map SharedCall.helper)).size ≤ 316 ∧
      ∀ k, ∀ ref ∈ SharedCall.answers k {} calls, ref.id < 316 := by
  have numbered := Registry.numbered_empty.after (calls.map SharedCall.helper)
  have erased : ∀ x ∈ (Registry.after {} (calls.map SharedCall.helper)).helpers,
      x ∈ Helper.erasedOnes := by
    intro x hx
    have hx := (Registry.numbered_empty.mem_helpers_after _).mp hx
    obtain ⟨call, hcall, rfl⟩ := List.mem_map.mp (hx.resolve_right List.not_mem_nil)
    -- The routine that makes the call has written it.
    obtain ⟨g, hg⟩ : ∃ g, graphs[call.routine]? = some g :=
      ⟨_, List.getElem?_eq_getElem (own call hcall)⟩
    have hown : call.helper ∈ SharedCall.callsOf call.routine calls :=
      List.mem_map_of_mem (List.mem_filter.mpr ⟨hcall, by simp⟩)
    rw [← SharedCall.helper_answers _ {}, ← h _ g hg] at hown
    obtain ⟨ref, href, heq⟩ := List.mem_map.mp hown
    exact heq ▸ Helper.mem_erasedOnes (g.calls_erased _ _ _ ref href)
  have size : (Registry.after {} (calls.map SharedCall.helper)).size ≤ 316 :=
    Helper.length_erasedOnes ▸ (List.subperm_of_subset numbered.nodup erased).length_le
  refine ⟨size, fun k ref href => ?_⟩
  have hget := SharedCall.get?_of_mem_answers Registry.numbered_empty href
  exact Nat.lt_of_lt_of_le (List.getElem?_eq_some_iff.mp hget).1 size

end Linearizer
