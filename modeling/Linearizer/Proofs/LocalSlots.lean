import Linearizer.Proofs.Locals.Stride

/-!
# Local variables are never confused

What the local variables of a routine hold stays apart, wherever the schedule puts the code that
uses them.

- **Enumerators** (`Started`, `Enumerated`): the enumerator that a helper is given was loaded right
  before from the local variable that the block which started the enumeration has stored it in.
- **Held values** (`Spilled`): a local variable that holds a value for a moment is loaded by the
  call that has stored it last, with no label of a block in between.
- **Invariant** (`State.Tidy`): this holds of what has been written, and the local variables are
  for different things. Every deed keeps it (`State.Tidy.deed`).
- **Routines** (`Graph.generate_locals`): the result.
-/

namespace Linearizer

/-- The edge of a block has stored the enumerator that it started. -/
def Started (g : Graph) (code : List Insn) (source : BlockId) (slot : LocalId) : Prop :=
  ∃ (before after : List Insn) (n : Nat) (subject : Expr) (next : BlockId),
    code = before ++ .call ⟨n, .getEnumerator⟩ :: .stloc slot :: after ∧
      lastBlock? before = some source ∧ g.edge? source = some (.foreach subject next)

/-- The code ends with a load, in a block that moves an enumeration on, of the local variable that
the enumerator has been stored in. -/
def Enumerated (g : Graph) (enumerators : List (BlockId × LocalId)) (code : List Insn) : Prop :=
  ∃ (before : List Insn) (b source body after : BlockId) (slot : LocalId) (value : VarId)
      (key : Option VarId), code = before ++ [.ldloc slot] ∧
    lastBlock? before = some b ∧ g.edge? b = some (.moveNext source value key body after) ∧
    (source, slot) ∈ enumerators ∧ Started g before source slot

/-- The last store to the local variable `t` in the code was written by the call that loads it
next, and no label of a block stands behind it. On the way of generation from `start` to `last` the
call leads from the state `s` to `s'`. -/
def Spilled (setting : Setting) (start last : State) (code : List Insn) (t : LocalId) : Prop :=
  ∃ s s', Deeds setting start s ∧ Spill setting s s' ∧ Deeds setting s' last ∧
    ∃ before held : List Insn, code = before ++ .stloc t :: held ∧ s.code <+: before ∧
      code ++ [.ldloc t] <+: s'.code ∧ ∀ i ∈ held, i.marks? = none ∧ i ≠ .stloc t

/-- The local variables of what has been written, on the way of generation from `start` to `last`,
are not confused (module doc). -/
structure State.Tidy (setting : Setting) (start last s : State) : Prop where
  apart : s.allotment.Apart
  used : ∀ i ∈ s.code, ∀ slot ∈ i.slot?, slot ∈ s.allotment.slots
  started : ∀ x ∈ s.enumerators, Started setting.graph s.code x.1 x.2
  enumerated : ∀ (before : List Insn) (callee : HelperRef) (after : List Insn),
    s.code = before ++ .call callee :: after → callee.helper.takesEnumerator = true →
    Enumerated setting.graph s.enumerators before
  spilled : ∀ (before : List Insn) (i : Insn) (after : List Insn) (t : LocalId),
    s.code = before ++ i :: after → i.slot? = some t → t ∈ s.allotment.spills → i ≠ .stloc t →
    i = .ldloc t ∧ Spilled setting start last before t

/-! ## More code -/

/-- Where an element stands in two stretches of code. -/
theorem split_append {code new before after : List Insn} {i : Insn}
    (h : code ++ new = before ++ i :: after) :
    (∃ rest, code = before ++ i :: rest) ∨
      ∃ rest, before = code ++ rest ∧ new = rest ++ i :: after := by
  obtain ⟨rest, rfl, rfl⟩ | ⟨rest, rfl, hafter⟩ := List.append_eq_append_iff.mp h
  · exact .inr ⟨rest, rfl, rfl⟩
  · cases rest with
    | nil => exact .inr ⟨[], by simp, hafter.symm⟩
    | cons j rest =>
      obtain ⟨rfl, -⟩ := List.cons.inj hafter
      exact .inl ⟨rest, rfl⟩

theorem Started.append {g : Graph} {code : List Insn} {source : BlockId} {slot : LocalId}
    (h : Started g code source slot) (new : List Insn) : Started g (code ++ new) source slot := by
  obtain ⟨before, after, n, subject, next, rfl, hb, he⟩ := h
  exact ⟨before, after ++ new, n, subject, next, by simp, hb, he⟩

theorem Enumerated.mono {g : Graph} {enumerators enumerators' : List (BlockId × LocalId)}
    {code : List Insn} (h : Enumerated g enumerators code) (hs : enumerators ⊆ enumerators') :
    Enumerated g enumerators' code := by
  obtain ⟨before, b, source, body, after, slot, value, key, hc, hb, he, hm, hst⟩ := h
  exact ⟨before, b, source, body, after, slot, value, key, hc, hb, he, hs hm, hst⟩

namespace State.Tidy

variable {setting : Setting} {start last s s' : State} {new : List Insn}

/-- What has to be shown of the code that is written. -/
theorem append (h : Tidy setting start last s)
    (code : s'.code = s.code ++ new) (grows : s.allotment.Grows s'.allotment)
    (used : ∀ i ∈ new, ∀ slot ∈ i.slot?, slot ∈ s'.allotment.slots)
    (started : ∀ x ∈ s'.enumerators, x ∈ s.enumerators ∨ Started setting.graph s'.code x.1 x.2)
    (enumerated : ∀ (before : List Insn) (callee : HelperRef) (after : List Insn),
      new = before ++ .call callee :: after → callee.helper.takesEnumerator = true →
      Enumerated setting.graph s'.enumerators (s.code ++ before))
    (spilled : ∀ (before : List Insn) (i : Insn) (after : List Insn) (t : LocalId),
      new = before ++ i :: after → i.slot? = some t → t ∈ s'.allotment.spills → i ≠ .stloc t →
      i = .ldloc t ∧ Spilled setting start last (s.code ++ before) t) :
    Tidy setting start last s' := by
  have apart := grows.apart h.apart
  refine ⟨apart, ?_, ?_, ?_, ?_⟩
  · intro i mem slot hslot
    rw [code] at mem
    obtain mem | mem := List.mem_append.mp mem
    · exact grows.slots_subset (h.used i mem slot hslot)
    · exact used i mem slot hslot
  · intro x hx
    obtain old | hst := started x hx
    · rw [code]
      exact (h.started x old).append new
    · exact hst
  · intro before callee after hsplit hc
    -- The call is in the old code, or in the new.
    obtain ⟨rest, old⟩ | ⟨rest, rfl, hnew⟩ := split_append (code ▸ hsplit)
    · exact (h.enumerated before callee rest old hc).mono grows.enumerators_subset
    · exact enumerated rest callee after hnew hc
  · intro before i after t hsplit hslot ht hi
    obtain ⟨rest, old⟩ | ⟨rest, rfl, hnew⟩ := split_append (code ▸ hsplit)
    · have mem : i ∈ s.code := by simp [old]
      -- A local variable that is in use already does not come to hold values for a moment later.
      have before' := apart.spill_of_grows grows (h.used i mem t hslot) ht
      exact h.spilled before i rest t old hslot before' hi
    · exact spilled rest i after t hnew hslot ht hi

/-- Code that leaves the local variables alone that hold a value for a moment. -/
theorem append_lasting (h : Tidy setting start last s)
    (code : s'.code = s.code ++ new) (grows : s.allotment.Grows s'.allotment)
    (used : ∀ i ∈ new, ∀ slot ∈ i.slot?, slot ∈ s'.allotment.lasting)
    (started : ∀ x ∈ s'.enumerators, x ∈ s.enumerators ∨ Started setting.graph s'.code x.1 x.2)
    (enumerated : ∀ (before : List Insn) (callee : HelperRef) (after : List Insn),
      new = before ++ .call callee :: after → callee.helper.takesEnumerator = true →
      Enumerated setting.graph s'.enumerators (s.code ++ before)) : Tidy setting start last s' := by
  refine h.append code grows ?_ started enumerated ?_
  · intro i mem slot hslot
    exact List.mem_append_right _ (used i mem slot hslot)
  · intro before i after t hnew hslot ht _
    have mem : i ∈ new := by simp [hnew]
    exact absurd (used i mem t hslot) ((grows.apart h.apart).not_lasting ht)

/-- Ordinary code uses the variables of the routine. -/
theorem mem_lasting {a : Allotment} {homes : List LocalId} (hh : a.homes = homes) {i : Insn}
    (hi : i.Ordinary homes) {slot : LocalId} (hslot : slot ∈ i.slot?) : slot ∈ a.lasting := by
  have mem := hi.slot slot hslot
  simp [Allotment.lasting, hh, mem]

/-- Ordinary code gives no enumerator to a helper. -/
theorem not_takesEnumerator {homes : List LocalId} {before after : List Insn} {callee : HelperRef}
    (hi : ∀ i ∈ new, i.Ordinary homes) (hnew : new = before ++ .call callee :: after) :
    ¬callee.helper.takesEnumerator = true := by
  have mem : Insn.call callee ∈ new := by simp [hnew]
  simp [(hi _ mem).callee callee rfl]

theorem grows_of_eq (allotment : s'.allotment = s.allotment) :
    s.allotment.Grows s'.allotment := by
  rw [allotment]
  exact .same

/-- Ordinary code, with the local variables as they are. -/
theorem ordinary (h : Tidy setting start last s)
    (code : s'.code = s.code ++ new) (allotment : s'.allotment = s.allotment)
    (hi : ∀ i ∈ new, i.Ordinary s.allotment.homes) : Tidy setting start last s' := by
  have enumerators : s'.enumerators = s.enumerators := congrArg Allotment.enumerators allotment
  refine h.append_lasting code (grows_of_eq allotment) ?_ ?_ ?_
  · intro i mem slot hslot
    exact mem_lasting (by rw [allotment]) (hi i mem) hslot
  · exact fun x hx => .inl (enumerators ▸ hx)
  · exact fun before callee after hnew hc => absurd hc (not_takesEnumerator hi hnew)

/-- A return stores its value, or the shared exit loads it. -/
theorem share {i : Insn} {slot : LocalId} {label : Label} (h : Tidy setting start last s)
    (hr : s.returnSlot = some (slot, label))
    (hi : i = .stloc slot ∨ i = .ldloc slot) (code : s'.code = s.code ++ [i])
    (allotment : s'.allotment = s.allotment) : Tidy setting start last s' := by
  have enumerators : s'.enumerators = s.enumerators := congrArg Allotment.enumerators allotment
  have exit : slot ∈ s'.allotment.lasting := by
    rw [allotment]
    simp [Allotment.lasting, Allotment.exits, State.allotment, hr]
  refine h.append_lasting code (grows_of_eq allotment) ?_ ?_ ?_
  · intro j mem slot' hslot
    rw [List.mem_singleton.mp mem] at hslot
    obtain rfl | rfl := hi <;> cases hslot <;> exact exit
  · exact fun x hx => .inl (enumerators ▸ hx)
  · intro before callee after hnew
    have mem : Insn.call callee ∈ [i] := by simp [hnew]
    obtain rfl | rfl := hi <;> simp at mem

/-- The edge of a block stores the enumerator that it starts. -/
theorem acquire {b next : BlockId} {subject : Expr} {n : Nat} (h : Tidy setting start last s)
    (he : setting.graph.edge? b = some (.foreach subject next))
    (hb : lastBlock? s.code = some b) (fresh : b ∉ s.enumerators.map Prod.fst)
    (code : s'.code = s.code ++ (new ++ [.call ⟨n, .getEnumerator⟩, .stloc s.allotment.count]))
    (hi : ∀ i ∈ new, i.marks? = none ∧ i.Ordinary s.allotment.homes)
    (allotment : s'.allotment = { s.allotment with
      enumerators := (b, s.allotment.count) :: s.allotment.enumerators
      count := s.allotment.count + 1 }) : Tidy setting start last s' := by
  have enumerators : s'.enumerators = (b, s.allotment.count) :: s.enumerators :=
    congrArg Allotment.enumerators allotment
  have iterator : s.allotment.count ∈ s'.allotment.lasting := by
    rw [allotment]
    simp [Allotment.lasting, Allotment.iterators]
  -- No label has been written since the block was entered.
  have labelled : lastBlock? (s.code ++ new) = some b := by
    have hn : new.filterMap Insn.marks? = [] :=
      List.filterMap_eq_nil_iff.mpr fun i mem => (hi i mem).1
    rw [lastBlock?, List.filterMap_append, hn, List.append_nil]
    exact hb
  have grows : s.allotment.Grows s'.allotment := by
    rw [allotment]
    exact .enumerator fresh
  refine h.append_lasting code grows ?_ ?_ ?_
  · intro i mem slot hslot
    obtain mem | rfl | rfl := by simpa using mem
    · exact mem_lasting (by rw [allotment]; rfl) (hi i mem).2 hslot
    · cases hslot
    · cases hslot
      exact iterator
  · intro x hx
    rw [enumerators] at hx
    obtain rfl | hx := List.mem_cons.mp hx
    · exact .inr ⟨s.code ++ new, [], n, subject, next, by simp [code], labelled, he⟩
    · exact .inl hx
  · intro before callee after hnew hc
    have mem : Insn.call callee ∈ new ++ [.call ⟨n, .getEnumerator⟩, .stloc s.allotment.count] := by
      simp [hnew]
    obtain mem | mem := List.mem_append.mp mem
    · rw [(hi _ mem).2.callee callee rfl] at hc
      cases hc
    · obtain rfl : callee = ⟨n, .getEnumerator⟩ := by simpa using mem
      cases hc

/-- A block that moves an enumeration on loads the enumerator and gives it to a helper. -/
theorem ask {b source body after : BlockId} {value : VarId} {key : Option VarId} {slot : LocalId}
    {callee : HelperRef} (h : Tidy setting start last s)
    (he : setting.graph.edge? b = some (.moveNext source value key body after))
    (hb : lastBlock? s.code = some b) (hl : (source, slot) ∈ s.enumerators)
    (code : s'.code = s.code ++ [.ldloc slot, .call callee])
    (allotment : s'.allotment = s.allotment) : Tidy setting start last s' := by
  have enumerators : s'.enumerators = s.enumerators := congrArg Allotment.enumerators allotment
  have iterator : slot ∈ s'.allotment.lasting := by
    have mem : slot ∈ s.allotment.iterators := List.mem_map.mpr ⟨_, hl, rfl⟩
    rw [allotment]
    simp [Allotment.lasting, mem]
  refine h.append_lasting code (grows_of_eq allotment) ?_ ?_ ?_
  · intro i mem slot' hslot
    obtain rfl | rfl := by simpa using mem
    · cases hslot
      exact iterator
    · cases hslot
  · exact fun x hx => .inl (enumerators ▸ hx)
  · intro before callee' after' hnew hc
    -- The only call is the last instruction.
    have loaded : before = [.ldloc slot] := by
      obtain _ | ⟨i, _ | ⟨j, _⟩⟩ := before
      · cases hnew
      · obtain ⟨rfl, -⟩ := List.cons.inj hnew
        rfl
      · simp at hnew
    rw [enumerators, loaded]
    exact ⟨s.code, b, source, body, after, slot, value, key, rfl, hb, he, hl, h.started _ hl⟩

/-- A value is held for a moment. -/
theorem spilt {t : LocalId} (h : Tidy setting start last s) (past : Deeds setting start s)
    (hs : Spill setting s s') (future : Deeds setting s' last) (ht : Spilt t s s') :
    Tidy setting start last s' := by
  obtain ⟨before, after, code, hbefore, hafter⟩ := ht.code
  have apart := ht.grows.apart h.apart
  have homes : s'.allotment.homes = s.allotment.homes := congrArg (List.filterMap _) ht.places
  have mem_of {i : Insn} (mem : i ∈ before ++ .stloc t :: after) :
      i.Ordinary s.allotment.homes ∨ i = .stloc t ∨ i = .ldloc t := by
    obtain mem | rfl | mem := by simpa using mem
    · exact .inl (hbefore i mem).2
    · exact .inr (.inl rfl)
    · exact (hafter i mem).2.imp_right .inr
  -- What is ordinary does not use a local variable that holds a value for a moment.
  have not_spill {i : Insn} (hi : i.Ordinary s.allotment.homes) {u : LocalId}
      (hu : i.slot? = some u) : u ∉ s'.allotment.spills := fun mem =>
    apart.not_lasting mem (mem_lasting homes hi hu)
  refine h.append code ht.grows ?_ ?_ ?_ ?_
  · intro i mem slot hslot
    have held : t ∈ s'.allotment.slots := List.mem_append_left _ ht.held
    obtain hi | rfl | rfl := mem_of mem
    · exact List.mem_append_right _ (mem_lasting homes hi hslot)
    · cases hslot
      exact held
    · cases hslot
      exact held
  · intro x hx
    exact .inl (ht.enumerators ▸ hx)
  · intro front callee rest hnew hc
    have mem : Insn.call callee ∈ before ++ .stloc t :: after := by simp [hnew]
    obtain hi | hi | hi := mem_of mem
    · rw [hi.callee callee rfl] at hc
      cases hc
    · cases hi
    · cases hi
  · intro front i rest u hnew hslot hu hne
    obtain ⟨rest', old⟩ | ⟨rest', rfl, hrest⟩ := split_append hnew
    · have mem : i ∈ before := by simp [old]
      exact absurd hu (not_spill (hbefore i mem).2 hslot)
    cases rest' with
    | nil =>
      obtain ⟨rfl, -⟩ := List.cons.inj hrest
      cases hslot
      exact absurd rfl hne
    | cons j held =>
      obtain ⟨rfl, rfl⟩ := List.cons.inj hrest
      obtain hi | rfl := (hafter i (by simp)).2
      · exact absurd hu (not_spill hi hslot)
      cases hslot
      refine ⟨rfl, s, s', past, hs, future, s.code ++ before, held, by simp, by simp, ?_, ?_⟩
      · rw [code]
        exact ⟨rest, by simp⟩
      · intro j mem
        obtain ⟨hm, hj⟩ := hafter j (by simp [mem])
        refine ⟨hm, ?_⟩
        rintro rfl
        obtain hj | hj := hj
        · exact not_spill hj rfl ht.held
        · cases hj

theorem stride (h : Tidy setting start last s) (hs : Stride setting s s') :
    Tidy setting start last s' := by
  cases hs with
  | ordinary hc hi ha => exact h.ordinary hc ha hi
  | allot hc he ha =>
    refine h.append_lasting (hc.trans (List.append_nil _).symm) ha ?_ ?_ ?_
    · simp
    · exact fun x hx => .inl (he ▸ hx)
    · intro before callee after hnew
      simp at hnew
  | share hr hi hc ha => exact h.share hr hi hc ha
  | acquire he hb new hc hi ha => exact h.acquire he hb new hc hi ha
  | ask he hb hl hc ha => exact h.ask he hb hl hc ha

theorem strides (h : Tidy setting start last s) (hs : Strides setting s s') :
    Tidy setting start last s' := by
  induction hs with
  | refl => exact h
  | tail _ hs ih => exact ih.stride hs

/-- A deed of generation on its way from `start` to `last` confuses nothing. -/
theorem deed (h : Tidy setting start last s) (past : Deeds setting start s)
    (hs : Deed setting s s') (future : Deeds setting s' last) : Tidy setting start last s' := by
  obtain spill | strides := hs.spill_or_strides
  · obtain hv | ⟨t, ht⟩ := spill.valued_or_spilt
    · obtain ⟨code, hc, hi⟩ := hv.code
      exact h.ordinary hc hv.allotment fun i mem => (hi i mem).2.resolve_right id
    · exact h.spilt past spill future ht
  · exact h.strides strides

/-- All the way from `start` to `last` nothing is confused. -/
theorem deeds (h : Tidy setting start last start) (hs : Deeds setting start last) :
    Tidy setting start last last := by
  -- The rest of the way is at hand at each deed, since a held value is placed in the whole of it.
  suffices along : ∀ s, Deeds setting start s → Deeds setting s last →
      Tidy setting start last s from along last hs .refl
  intro s past
  induction past with
  | refl => exact fun _ => h
  | tail past hs ih => exact fun future => (ih (future.head hs)).deed past hs future

/-- Nothing has been written yet. -/
theorem initial (setting : Setting) (registry : Registry) (last : State) :
    Tidy setting { registry } last { registry } where
  apart := ⟨.refl _, List.nodup_nil, List.nodup_nil⟩
  used i mem := nomatch mem
  started x mem := nomatch mem
  enumerated before callee after h := by
    have : ([] : List Insn) = before ++ .call callee :: after := h
    simp at this
  spilled before i after t h := by
    have : ([] : List Insn) = before ++ i :: after := h
    simp at this

end State.Tidy

/-! ## Routines -/

namespace Graph

variable {g : Graph} {options : Options} {registry : Registry} {c : Counters}

theorem lastState_tidy (h : (g.generate options registry).outcome = .ok c) :
    State.Tidy ⟨g, options⟩ { registry } (g.lastState options registry)
      (g.lastState options registry) :=
  (State.Tidy.initial _ registry _).deeds (Gen.routine_deeds rfl rfl (generate_run h).1)

/-- In the listing of a successful generation the local variables of variables, of values that are
held for a moment, of enumerators and of returns are different ones, and each is loaded where it
holds what it should. -/
theorem generate_locals (h : (g.generate options registry).outcome = .ok c) :
    let listing := (g.generate options registry).listing
    let last := g.lastState options registry
    (∀ i ∈ listing.insns.toList, ∀ slot ∈ i.slot?, slot < listing.locals.size) ∧
      last.allotment.slots.Nodup ∧
      (last.temps.map Prod.fst).Nodup ∧
      (last.enumerators.map Prod.fst).Nodup ∧
      (∀ (before : List Insn) (callee : HelperRef) (after : List Insn),
        listing.insns.toList = before ++ .call callee :: after →
        callee.helper.takesEnumerator = true → Enumerated g last.enumerators before) ∧
      ∀ (before : List Insn) (i : Insn) (after : List Insn) (t : LocalId),
        listing.insns.toList = before ++ i :: after → i.slot? = some t →
        t ∈ last.allotment.spills → i ≠ .stloc t →
        i = .ldloc t ∧ Spilled ⟨g, options⟩ { registry } last before t := by
  have tidy := lastState_tidy h
  have code := g.generate_code options registry
  have locals : (g.generate options registry).listing.locals.size =
      (g.lastState options registry).allotment.count :=
    congrArg (·.locals.size) (g.generate_listing options registry)
  refine ⟨?_, tidy.apart.nodup, tidy.apart.encodings, tidy.apart.blocks, ?_, ?_⟩
  · intro i mem slot hslot
    rw [code] at mem
    rw [locals, ← tidy.apart.mem_slots]
    exact tidy.used i mem slot hslot
  · intro before callee after hsplit
    exact tidy.enumerated before callee after (code ▸ hsplit)
  · intro before i after t hsplit
    exact tidy.spilled before i after t (code ▸ hsplit)

/-- An enumeration in a protected region: its item goes to a field and is compared with constants,
both through one local variable, and the region is left by a return. -/
def mixed : Graph where
  name := "mixed"
  vars := [⟨"items", .param 0, .array, .only .array⟩, ⟨"key", .frame, .value, .any⟩,
    ⟨"item", .global, .value, .any⟩]
  classes := ["Failure"]
  blocks := [
    ⟨"entry", false, [], some (.protect 1 [⟨0, some 2, 5⟩] none 6)⟩,
    ⟨"start", false, [], some (.foreach (.var 0 (.only .array)) 2)⟩,
    ⟨"step", false, [], some (.moveNext 1 2 (some 1) 3 4)⟩,
    ⟨"item", false, [], some (.switch (.var 1 .any) [⟨.int 0, 2⟩, ⟨.string "a", 4⟩] 2)⟩,
    ⟨"done", false, [⟨.ret (some (.var 1 .any)), none⟩], none⟩,
    ⟨"handler", false, [], some (.goto 6)⟩,
    ⟨"next", false, [], none⟩]

theorem mixed_locals :
    (mixed.generate {} {}).outcome.isOk = true ∧
      (mixed.lastState {} {}).allotment.slots = [4, 2, 0, 1, 3] ∧
      (mixed.generate {} {}).listing.insns.toList.count (.ldloc 2) = 3 ∧
      (∀ before after : List Insn,
        (mixed.generate {} {}).listing.insns.toList = before ++ .ldloc 2 :: after →
          Spilled ⟨mixed, {}⟩ { registry := {} } (mixed.lastState {} {}) before 2) ∧
      ∃ before after : List Insn,
        (mixed.generate {} {}).listing.insns.toList = before ++ .call ⟨2, .moveNext⟩ :: after ∧
          Enumerated mixed (mixed.lastState {} {}).enumerators before := by
  have done : (mixed.generate {} {}).outcome.isOk = true := by decide +kernel
  have held : 2 ∈ (mixed.lastState {} {}).allotment.spills := by decide +kernel
  have moves : Insn.call ⟨2, .moveNext⟩ ∈ (mixed.generate {} {}).listing.insns.toList := by
    decide +kernel
  obtain ⟨before, after, hsplit⟩ := List.append_of_mem moves
  cases ho : (mixed.generate {} {}).outcome with
  | error d =>
    rw [ho] at done
    cases done
  | ok c =>
    obtain ⟨-, -, -, -, enumerated, spilled⟩ := generate_locals ho
    refine ⟨rfl, by decide +kernel, by decide +kernel, fun past rest h => ?_, ?_⟩
    · exact (spilled past (.ldloc 2) rest 2 h rfl held nofun).2
    · exact ⟨before, after, hsplit, enumerated before _ after hsplit rfl⟩

end Graph
end Linearizer
