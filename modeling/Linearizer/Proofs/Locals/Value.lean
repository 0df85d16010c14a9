import Linearizer.Proofs.Generator.Pieces
import Linearizer.Proofs.Generator.Schedule
import Linearizer.Proofs.Locals.Allotment

/-!
# The local variables in the code of values

- **Code** (`Appends also`): code without labels of blocks is written. Its elements use no local
  variables but those of the variables of the routine and give no enumerator to a helper, apart
  from those that `also` allows. `Valued` allows no others: it is what the code of values does.
- **Held values** (`Spilt t`): a value is stored into the local variable `t`, which holds a value
  for a moment, and is only loaded from there in what follows. This is what a store to a place
  with a receiver and the two forms of a switch do (`Gen.storeTop_spilt`, `Gen.select_spilt`,
  `Gen.tableIndex_spilt`).
-/

namespace Linearizer

/-- The element uses no local variable but some that are given, and gives no enumerator to a
helper. -/
structure Insn.Ordinary (homes : List LocalId) (i : Insn) : Prop where
  slot : ∀ slot ∈ i.slot?, slot ∈ homes
  callee : ∀ callee ∈ i.callee?, callee.helper.takesEnumerator = false

theorem Insn.Ordinary.of_none {homes : List LocalId} {i : Insn} (hs : i.slot? = none)
    (hc : i.callee? = none) : i.Ordinary homes := by
  constructor
  · simp [hs]
  · simp [hc]

theorem ordinary_exitInsn (homes : List LocalId) (scopes : List Scope) (b : BlockId) :
    (exitInsn scopes b).Ordinary homes := by
  unfold exitInsn
  split <;> exact .of_none rfl rfl

namespace Place

/-- The load of a place uses no other local variable than that of the place. -/
theorem slot?_load (p : Place) : ∀ i ∈ p.load, ∀ slot ∈ i.slot?, p.slot? = some slot := by
  unfold load Place.slot?
  cases p.storage <;> simp [Insn.slot?]

theorem slot?_loadAddress (p : Place) :
    ∀ i ∈ p.loadAddress, ∀ slot ∈ i.slot?, p.slot? = some slot := by
  unfold loadAddress Place.slot?
  cases p.storage <;> simp [Insn.slot?]

/-- Nor does the store. -/
theorem slot?_store (p : Place) : ∀ i ∈ p.store, ∀ slot ∈ i.slot?, p.slot? = some slot := by
  unfold store Place.slot?
  split
  · simp [Insn.slot?]
  · cases p.storage <;> simp [Insn.slot?]

end Place

/-! ## The relation -/

/-- Code without labels of blocks is written (module doc). -/
structure Appends (also : Insn → Prop) (s s' : State) : Prop where
  code : ∃ code, s'.code = s.code ++ code ∧
    ∀ i ∈ code, i.marks? = none ∧ (i.Ordinary s.allotment.homes ∨ also i)
  allotment : s'.allotment = s.allotment
  emitted : s'.emitted = s.emitted

/-- Code is written that uses the variables of the routine only. -/
abbrev Valued : State → State → Prop := Appends fun _ => False

namespace Appends

variable {also : Insn → Prop} {s s₁ s' : State}

theorem refl (s : State) : Appends also s s := ⟨⟨[], by simp, by simp⟩, rfl, rfl⟩

/-- Code after code. -/
theorem trans (h : Appends also s s₁) (h' : Appends also s₁ s') : Appends also s s' := by
  obtain ⟨c, hc, hi⟩ := h.code
  obtain ⟨c', hc', hi'⟩ := h'.code
  rw [h.allotment] at hi'
  refine ⟨⟨c ++ c', by rw [hc', hc, List.append_assoc], fun i mem => ?_⟩,
    h'.allotment.trans h.allotment, h'.emitted.trans h.emitted⟩
  exact (List.mem_append.mp mem).elim (hi i) (hi' i)

instance : IsPreorder State (Appends also) where
  refl := refl
  trans _ _ _ := trans

theorem mono {also' : Insn → Prop} (h : Appends also s s') (himp : ∀ i, also i → also' i) :
    Appends also' s s' := by
  obtain ⟨c, hc, hi⟩ := h.code
  exact ⟨⟨c, hc, fun i mem => ⟨(hi i mem).1, (hi i mem).2.imp_right (himp i)⟩⟩, h.allotment,
    h.emitted⟩

theorem places (h : Appends also s s') : s'.places = s.places :=
  congrArg Allotment.places h.allotment

theorem enumerators (h : Appends also s s') : s'.enumerators = s.enumerators :=
  congrArg Allotment.enumerators h.allotment

/-- What is changed is neither code nor what the local variables are for. -/
theorem of_code_eq (hc : s'.code = s.code) (ha : s'.allotment = s.allotment)
    (he : s'.emitted = s.emitted) : Appends also s s' := ⟨⟨[], by simp [hc], by simp⟩, ha, he⟩

/-- A single element is written. -/
theorem of_code_concat {i : Insn} (hc : s'.code = s.code ++ [i])
    (ha : s'.allotment = s.allotment) (he : s'.emitted = s.emitted) (hm : i.marks? = none)
    (hi : i.Ordinary s.allotment.homes ∨ also i) : Appends also s s' :=
  ⟨⟨[i], hc, by simpa using ⟨hm, hi⟩⟩, ha, he⟩

/-- No label of a block is written. -/
theorem marks (h : Appends also s s') :
    s'.code.filterMap Insn.marks? = s.code.filterMap Insn.marks? := by
  obtain ⟨c, hc, hi⟩ := h.code
  have hn : c.filterMap Insn.marks? = [] :=
    List.filterMap_eq_nil_iff.mpr fun i mem => (hi i mem).1
  rw [hc, List.filterMap_append, hn, List.append_nil]

theorem written (s : State) {i : Insn} (hm : i.marks? = none)
    (hi : i.Ordinary s.allotment.homes ∨ also i) : Appends also s (s.written i) :=
  of_code_concat (s.code_written i) (s.allotment_written i) rfl hm hi

end Appends

theorem Valued.appends {also : Insn → Prop} {s s' : State} (h : Valued s s') : Appends also s s' :=
  h.mono nofun

/-- A change that is as `Valued` says as long as the places are those given. -/
def ValuedIn (places : List Place) (s s' : State) : Prop := s.places = places → Valued s s'

instance (places : List Place) : IsPreorder State (ValuedIn places) where
  refl s _ := .refl s
  trans _ _ _ h h' hs := (h hs).trans (h' ((h hs).places.trans hs))

/-! ## The functions that write values -/

namespace Gen

variable {also : Insn → Prop}

theorem put_appends {i : Insn} (hm : i.marks? = none)
    (hi : ∀ homes, i.Ordinary homes ∨ also i) : Does (Appends also) (put i) := fun s =>
  .written s hm (hi _)

theorem op_appends (o : Opcode) : Does (Appends also) (op o) :=
  put_appends rfl fun _ => .inl (.of_none rfl rfl)

theorem count_appends (f : Counters → Counters) : Does (Appends also) (count f) := fun _ =>
  .of_code_eq rfl rfl rfl

/-- A call is the only element that is written. -/
theorem callDirect_code (h : Helper) (s : State) :
    ∃ n s', callDirect h s = .ok () s' ∧ s'.code = s.code ++ [.call ⟨n, h⟩] ∧
      s'.allotment = s.allotment ∧ s'.emitted = s.emitted := by
  have helper := (s.registry.after (s.peers.headD [])).helper_resolve h
  have allotment {i : Insn} {registry : Registry} {peers : List (List Helper)} {c : Counters} :
      { s with tape := s.tape.put i, registry, peers, counters := c }.allotment = s.allotment := by
    simp [State.allotment, Tape.locals_put]
  unfold callDirect
  rw [run_bind (get_run s)]
  cases hr : (s.registry.after (s.peers.headD [])).resolve h with
  | mk callee registry =>
    rw [hr] at helper
    subst helper
    exact ⟨callee.id, _, rfl, Tape.toList_put _ _, allotment, rfl⟩

/-- A helper that takes no enumerator may be called. -/
theorem callDirect_appends {h : Helper} (hh : h.takesEnumerator = false) :
    Does (Appends also) (callDirect h) := by
  intro s
  obtain ⟨n, s', hr, hc, ha, he⟩ := callDirect_code h s
  have ordinary : (Insn.call ⟨n, h⟩).Ordinary s.allotment.homes := by
    refine ⟨nofun, fun callee hcallee => ?_⟩
    rw [← Option.some.inj hcallee]
    exact hh
  exact DoesFrom.to_ok hr (.of_code_concat hc ha he rfl (.inl ordinary))

theorem call_appends {h : Helper} (hh : h.takesEnumerator = false) :
    Does (Appends also) (call h) := by
  unfold call
  split
  · exact (op_appends _).bind fun _ => callDirect_appends hh
  · exact callDirect_appends hh

/-- Ordinary code is appended as a whole. -/
theorem putAll_appends {code : List Insn} {s : State}
    (h : ∀ i ∈ code, i.marks? = none ∧ i.Ordinary s.allotment.homes) :
    DoesFrom (Appends also) (putAll code) s := by
  refine ⟨⟨code, Tape.toList_putAll _ _, fun i mem => ⟨(h i mem).1, .inl (h i mem).2⟩⟩, ?_, rfl⟩
  have locals (t : Tape) : (t.putAll code).listing.locals = t.listing.locals := by
    induction code generalizing t with
    | nil => rfl
    | cons i rest ih =>
      exact (ih (fun j mem => h j (.tail i mem)) (t.put i)).trans (Tape.locals_put t i)
  simp [State.allotment, locals]

theorem DoesFrom.of_forall {α : Type} {R : State → State → Prop} {m : Gen α} {s : State}
    (h : ∀ s', R s s') : DoesFrom R m s := by
  unfold DoesFrom
  split <;> exact h _

open Place in
/-- The code of values leaves local variables alone, except for those of the variables it uses. -/
theorem pieces_valued (places : List Place) :
    Pieces (fun _ => True) (· ∈ places) fun α (m : Gen α) => Does (ValuedIn places) m := by
  have always {α : Type} {m : Gen α} (h : Does Valued m) : Does (ValuedIn places) m :=
    fun s => (h s).mono fun _ hv _ => hv
  have code {p : Place} {code : List Insn} (hp : p ∈ places)
      (plain : ∀ i ∈ code, i.isPlain = true ∧ i.callee? = none)
      (slot : ∀ i ∈ code, ∀ slot ∈ i.slot?, p.slot? = some slot) :
      Does (ValuedIn places) (putAll code) := by
    rintro s rfl
    refine putAll_appends fun i mem => ⟨?_, fun id hid => ?_, ?_⟩
    · exact Insn.marks?_of_isPlain (plain i mem).1
    · exact List.mem_filterMap.mpr ⟨p, hp, slot i mem id hid⟩
    · simp [(plain i mem).2]
  constructor
  case pure => exact Does.pure
  case bind => exact Does.bind
  case unconvertible => exact fun _ _ _ => Does.throw _
  case place =>
    intro β v f _ h s
    by_cases hs : s.places = places
    · unfold Gen.place
      cases hv : s.places[v]? with
      | none =>
        refine DoesFrom.along ?_ (DoesFrom.throw (.danglingVariable v) s) fun _ => id
        rw [bind_assoc, run_bind (get_run s), hv]
        rfl
      | some p =>
        refine DoesFrom.along ?_ (h p (hs ▸ List.mem_of_getElem? hv) s) fun _ => id
        rw [bind_assoc, run_bind (get_run s), hv]
        rfl
    · -- With other places nothing is claimed.
      exact .of_forall fun _ h => absurd h hs
  case load => exact fun hp => code hp (plain_load _) (slot?_load _)
  case loadAddress => exact fun hp => code hp (plain_loadAddress _) (slot?_loadAddress _)
  case store => exact fun hp => code hp (plain_store _) (slot?_store _)
  case op => exact fun _ => always (op_appends _)
  case callDirect => exact fun hh _ => always (callDirect_appends hh)
  case conversion => exact fun c => always (count_appends _)
  case address => exact fun c => always ((count_appends _).bind fun _ => count_appends _)

/-- What holds with the places as they are. -/
theorem Does.valued {α : Type} {m : Gen α} (h : ∀ places, Does (ValuedIn places) m) :
    Does Valued m := fun s => (h s.places s).mono fun _ hv => hv rfl

theorem expr_valued (e : Expr) (target : Encoding) : Does Valued (expr e target) :=
  .valued fun places => (pieces_valued places).expr (fun _ _ => trivial) target

theorem natural_valued (e : Expr) : Does Valued (natural e) :=
  .valued fun places => (pieces_valued places).natural e fun _ _ => trivial

theorem assign_valued (v : VarId) (e : Expr) : Does Valued (assign v e) :=
  .valued fun places => (pieces_valued places).assign trivial fun _ _ => trivial

theorem append_valued (v : VarId) (e : Expr) : Does Valued (append v e) :=
  .valued fun places => (pieces_valued places).append trivial fun _ _ => trivial

theorem convert_valued (source : Encoding) (hint : Hint) (target : Encoding) :
    Does Valued (convert source hint target) :=
  .valued fun places => (pieces_valued places).convert source hint target

end Gen

/-! ## Values that are held for a moment -/

/-- The elements that load a local variable. -/
abbrev Insn.Loads (t : LocalId) (i : Insn) : Prop := i = .ldloc t

/-- A value is stored into `t` and loaded from there (module doc). -/
structure Spilt (t : LocalId) (s s' : State) : Prop where
  code : ∃ before after : List Insn, s'.code = s.code ++ (before ++ .stloc t :: after) ∧
    (∀ i ∈ before, i.marks? = none ∧ i.Ordinary s.allotment.homes) ∧
    ∀ i ∈ after, i.marks? = none ∧ (i.Ordinary s.allotment.homes ∨ i.Loads t)
  grows : s.allotment.Grows s'.allotment
  held : t ∈ s'.allotment.spills
  places : s'.places = s.places
  enumerators : s'.enumerators = s.enumerators
  emitted : s'.emitted = s.emitted

namespace Gen

/-- A local variable that holds a value for a moment is there already or is declared. -/
theorem temp_ok {e : Encoding} {t : LocalId} {s s' : State} (h : temp e s = .ok t s') :
    s'.code = s.code ∧ s.allotment.Grows s'.allotment ∧ t ∈ s'.allotment.spills ∧
      s'.places = s.places ∧ s'.enumerators = s.enumerators ∧ s'.emitted = s.emitted := by
  unfold temp at h
  rw [run_bind (get_run s)] at h
  cases hl : s.temps.lookup e with
  | some id =>
    rw [hl] at h
    cases h
    obtain ⟨before, after, split, -⟩ := List.lookup_eq_some_iff.mp hl
    refine ⟨rfl, .same, ?_, rfl, rfl, rfl⟩
    exact List.mem_map.mpr ⟨(e, t), by simp [State.allotment, split], rfl⟩
  | none =>
    rw [hl] at h
    cases h
    -- The encoding has no such local variable yet, so one is declared.
    have grows := Allotment.Grows.spill (a := s.allotment) hl
    have allotment : { s with
        tape := (s.tape.declare e).2
        temps := (e, s.tape.listing.locals.size) :: s.temps }.allotment =
          { s.allotment with
            temps := (e, s.allotment.count) :: s.allotment.temps
            count := s.allotment.count + 1 } := by
      simp [State.allotment, Tape.declare]
    rw [← allotment] at grows
    exact ⟨rfl, grows, List.mem_cons_self, rfl, rfl, rfl⟩

end Gen

namespace Spilt

variable {t : LocalId} {s s₁ s₂ s' : State}

/-- A value is stored right after its code. -/
theorem start {e : Encoding} (hv : Valued s s₁) (ht : Gen.temp e s₁ = .ok t s₂) :
    Spilt t s (s₂.written (.stloc t)) := by
  obtain ⟨hc, hg, hm, hp, hn, he⟩ := Gen.temp_ok ht
  obtain ⟨code, hcode, hi⟩ := hv.code
  rw [hv.allotment] at hg
  refine ⟨⟨code, [], ?_, fun i mem => ?_, by simp⟩, ?_, ?_, ?_, ?_, ?_⟩
  · rw [State.code_written, hc, hcode, List.append_assoc]
  · exact ⟨(hi i mem).1, (hi i mem).2.resolve_right id⟩
  · rwa [State.allotment_written]
  · rwa [State.allotment_written]
  · exact hp.trans hv.places
  · exact hn.trans hv.enumerators
  · exact he.trans hv.emitted

/-- More code that loads the value. -/
theorem hold (h : Spilt t s s₁) (hw : Appends (Insn.Loads t) s₁ s') : Spilt t s s' := by
  obtain ⟨before, after, hc, hb, ha⟩ := h.code
  obtain ⟨code, hcode, hi⟩ := hw.code
  have homes : s₁.allotment.homes = s.allotment.homes := congrArg (List.filterMap _) h.places
  rw [homes] at hi
  refine ⟨⟨before, after ++ code, ?_, hb, fun i mem => ?_⟩, ?_, ?_, ?_, ?_, ?_⟩
  · rw [hcode, hc]
    simp
  · exact (List.mem_append.mp mem).elim (ha i) (hi i)
  · rw [hw.allotment]
    exact h.grows
  · rw [hw.allotment]
    exact h.held
  · exact hw.places.trans h.places
  · exact hw.enumerators.trans h.enumerators
  · exact hw.emitted.trans h.emitted

end Spilt

namespace Gen

theorem load_appends (t : LocalId) : Does (Appends (Insn.Loads t)) (put (.ldloc t)) :=
  put_appends rfl fun _ => .inr rfl

theorem Does.appends {α : Type} {m : Gen α} {also : Insn → Prop} (h : Does Valued m) :
    Does (Appends also) m := fun s => (h s).mono fun _ hv => hv.appends

/-- A store to a place uses its variable only, or holds the value for a moment to push the
receiver below it. -/
theorem storeTop_spilt {p : Place} {source : Encoding} {hint : Hint} {s s' : State}
    (hp : p ∈ s.places) (h : storeTop p source hint s = .ok () s') :
    Valued s s' ∨ ∃ t, Spilt t s s' := by
  have rest {also : Insn → Prop} {s₁ : State} (hs : p ∈ s₁.places)
      (h : (do convert source hint p.storeEncoding; putAll p.store : Gen Unit) s₁ = .ok () s') :
      Appends also s₁ s' :=
    Valued.appends (((pieces_valued s₁.places).convert _ _ _ |>.bind fun _ =>
      (pieces_valued s₁.places).store hs).of_ok h rfl)
  unfold storeTop at h
  split at h
  · -- The place has to be prepared first, so the value is put aside meanwhile.
    obtain ⟨t, s₁, ht, h⟩ := bind_ok h
    obtain ⟨_, s₂, hput, h⟩ := bind_ok h
    cases hput
    obtain ⟨_, s₃, hprepare, h⟩ := bind_ok h
    obtain ⟨_, s₄, hload, h⟩ := bind_ok h
    have stored := Spilt.start (.refl s) ht
    have here : p ∈ (s₁.written (.stloc t)).places := stored.places ▸ hp
    have prepared : Valued (s₁.written (.stloc t)) s₃ :=
      ((pieces_valued _).prepare here).of_ok hprepare rfl
    have loaded := (load_appends t).of_ok hload
    have held := (stored.hold prepared.appends).hold loaded
    exact .inr ⟨t, held.hold (rest (held.places ▸ hp) h)⟩
  · exact .inl (rest hp h)

/-- The value of a switch is held for the comparisons. -/
theorem select_spilt {value : Expr} {t : LocalId} {s s' : State}
    (h : select value s = .ok t s') : Spilt t s s' := by
  unfold select at h
  obtain ⟨_, s₁, hv, h⟩ := bind_ok h
  obtain ⟨scratch, s₂, ht, h⟩ := bind_ok h
  cases h
  exact .start ((expr_valued _ _).of_ok hv) ht

/-- A comparison loads the held value and writes ordinary code. -/
theorem compare_appends (t : LocalId) (isInt : Bool) (c : Case) :
    Does (Appends (Insn.Loads t)) (compare t isInt c) := by
  have loose (l : Literal) : Does (Appends (Insn.Loads t)) (do
      expr (.ofLiteral l) .value
      call .looseEquals) :=
    (expr_valued _ _).appends.bind fun _ => call_appends rfl
  unfold compare
  refine (load_appends t).bind fun _ => ?_
  split
  · exact (op_appends _).bind fun _ => op_appends _
  · split
    · exact (convert_valued _ _ _).appends.bind fun _ => loose _
    · exact loose _

/-- The index into a table is held between the test of its range and the jump. -/
theorem tableIndex_spilt {value : Expr} {range : TableRange} {t : LocalId} {s s' : State}
    (h : tableIndex value range s = .ok t s') : Spilt t s s' := by
  have rest {s₁ : State} (hv : Valued s s₁) (h : (do
      let index ← temp .int64
      put (.stloc index)
      put (.ldloc index)
      op (.ldcI8 (.ofNat range.size))
      op .cltUn
      return index : Gen LocalId) s₁ = .ok t s') : Spilt t s s' := by
    obtain ⟨index, s₂, ht, h⟩ := bind_ok h
    obtain ⟨_, s₃, hput, h⟩ := bind_ok h
    cases hput
    obtain ⟨_, s₄, hload, h⟩ := bind_ok h
    obtain ⟨_, s₅, hsize, h⟩ := bind_ok h
    obtain ⟨_, s₆, hless, h⟩ := bind_ok h
    cases h
    have loaded := (Spilt.start hv ht).hold ((load_appends t).of_ok hload)
    exact (loaded.hold ((op_appends _).of_ok hsize)).hold ((op_appends _).of_ok hless)
  unfold tableIndex at h
  obtain ⟨_, s₁, hv, h⟩ := bind_ok h
  have value := (expr_valued _ _).of_ok hv
  dsimp only at h
  split at h
  · obtain ⟨_, s₂, hleast, h⟩ := bind_ok h
    obtain ⟨_, s₃, hsub, h⟩ := bind_ok h
    -- The smallest case is subtracted first, unless it is zero.
    have shifted := (value.trans ((op_appends _).of_ok hleast)).trans ((op_appends _).of_ok hsub)
    exact rest shifted h
  · exact rest value h

theorem loadIndex_appends (t : LocalId) : Does (Appends (Insn.Loads t)) (loadIndex t) :=
  (load_appends t).bind fun _ => op_appends _

end Gen
end Linearizer
