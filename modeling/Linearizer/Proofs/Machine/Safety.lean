import Linearizer.Proofs.Machine.Plan

/-!
# Conversions on any stack and under any hint

A conversion finds on the stack what each of its steps takes, whatever lies below the slot that it
converts and whatever the hint says. A hint that leaves out the kind of the value can make it read
the wrong kind from a tag, and an object can lack the class that is asked for; nothing else goes
wrong.

* `Slot.Conforms`: a slot holds some value in an encoding;
* `Machine.Settles`: what can come of running some steps on the slot of a value;
* `Conversion.cell_settles`, `Conversion.lower?_settles` and `Conversion.plan?_settles` say so of
  the steps of conversions, and `Conversion.runs_safely` of their runs.
-/

namespace Linearizer

open Machine Conversion

/-! ## Slots that hold a value -/

namespace Slot

/-- The slot holds some value in the encoding. -/
def Conforms (s : Slot) (e : Encoding) : Prop := ∃ v, of? v e = some s

/-- What a value is in an encoding is held by it. -/
theorem of?_readAs (v : Value) (context : Context) (e : Encoding) :
    of? (v.readAs context e) e = some (v.slotIn context e) := by
  cases e with
  | int32 => simp [Value.readAs, Value.slotIn, of?]
  | number =>
    unfold Value.readAs Value.slotIn
    cases v.toNumber <;> rfl
  | _ => rfl

theorem conforms_slotIn (v : Value) (context : Context) (e : Encoding) :
    (v.slotIn context e).Conforms e := ⟨_, of?_readAs v context e⟩

theorem of?_erased (v : Value) (e : Encoding) : of? v e.erased = of? v e := by
  cases e with
  | object known => cases v <;> rfl
  | _ => rfl

/-- The slot of a value is that of one that the encoding holds without loss, when the class of an
object is left out. Only an integer that is cut to 32 bits is another one then. -/
theorem held_of_of? {v : Value} {e : Encoding} {s : Slot} (h : of? v e = some s)
    (context : Context) :
    ∃ w, e.erased.Holds w ∧ s = w.slotIn context e.erased ∧ w.toObject = v.toObject := by
  by_cases he : e = .int32
  · subst he
    cases v <;> cases h
    rename_i n
    refine ⟨.long n.toInt32.toInt64, .int32 n.toInt32, ?_, rfl⟩
    simp [Value.slotIn, Value.toLong, Encoding.erased]
  · have hne : e.erased ≠ .int32 := by cases e <;> simp_all [Encoding.erased]
    have hno (c : ClassId) : e.erased ≠ .object (some c) := by cases e <;> simp [Encoding.erased]
    rw [← of?_erased] at h
    refine ⟨v, .of_of? h (fun hi => absurd hi hne) (fun c hc => absurd hc (hno c)), ?_, rfl⟩
    exact eq_slotIn_of_of? h context

/-- An encoding of one kind holds no value of another. -/
theorem of?_eq_none {v : Value} {kind : Kind} {e : Encoding} (h : kind.encoding? = some e)
    (hne : v.kind ≠ kind) : of? v e = none := by
  cases kind <;> cases h <;> cases v <;> simp_all [of?, Value.kind]

end Slot

/-! ## What can come of some steps -/

namespace Machine

variable {context : Context} {a b : List Step} {s s' : Slot} {v : Value}

/-- The steps stop where the value is read as the encoding of another kind, on any stack. -/
def Misreads (context : Context) (steps : List Step) (s : Slot) (e : Encoding) (v : Value) : Prop :=
  ∀ rest, ∃ stack, run context steps (s :: rest) = .error (.payload e v) stack

theorem run_append_error {st st' : List Slot} {trap : Trap}
    (h : run context a st = .error trap st') : run context (a ++ b) st = .error trap st' := by
  rw [run_append]
  simp [bind, EStateM.bind, h]

theorem Misreads.after {e : Encoding} (h : Misreads context b s' e v)
    (hy : Yields context a s s') : Misreads context (a ++ b) s e v := fun rest =>
  have ⟨stack, hs⟩ := h rest
  ⟨stack, (run_append_ok (hy rest)).trans hs⟩

theorem Misreads.before {e : Encoding} (h : Misreads context a s e v) :
    Misreads context (a ++ b) s e v := fun rest =>
  have ⟨stack, hs⟩ := h rest
  ⟨stack, run_append_error hs⟩

/-- A tag is read without being looked at. -/
theorem payload_misreads {source e : Encoding} (h : s.toValue? .value = some v)
    (hp : Slot.of? v e = none) : Misreads context (call (.payload source e)) s e v := by
  refine fun rest => ⟨rest, (run_singleton _ _).trans ((popValue_bind h _ rest).trans ?_)⟩
  simp only [hp]
  rfl

/-- What is popped has no part in what the constant yields. -/
theorem pop_yields {zero : Opcode} {z : Slot} (h : Yields context [.op .pop, .op zero] s z)
    (s' : Slot) : Yields context [.op .pop, .op zero] s' z := fun rest =>
  (run_cons_ok (by rfl)).trans ((run_cons_ok (by rfl)).symm.trans (h rest))

/-- What can come of running the steps on the slot `s`, which holds the value `v`, on any stack: a
slot that conforms to the target, a kind that is misread since the hint leaves out the kind of the
value, or an object that is refused since it lacks the class of the target. -/
inductive Settles (context : Context) (hint : Hint) (target : Encoding) (v : Value)
    (steps : List Step) (s : Slot) : Prop
  | yields {out : Slot} (conforms : out.Conforms target) (h : Yields context steps s out)
  | misreads {e : Encoding} (unhinted : hint.allows v.kind = false)
      (h : Misreads context steps s e v)
  | refuses {c : ClassId} (asked : target = .object (some c)) (lacks : v.toObject ≠ some c)
      (h : Refuses context steps s c)

namespace Settles

variable {hint : Hint} {middle target : Encoding}

/-- Steps that convert a value of the same object settle. -/
theorem of_converts {w : Value} {source : Encoding} (h : Converts context w source target a)
    (hw : w.toObject = v.toObject) : Settles context hint target v a (w.slotIn context source) := by
  by_cases hc : ∀ c, target = .object (some c) → w.toObject = some c
  · exact .yields (Slot.conforms_slotIn w context target) (h.yields hc)
  · simp only [Classical.not_forall] at hc
    obtain ⟨c, ht, hne⟩ := hc
    exact .refuses ht (hw ▸ hne) (h.refuses c ht hne)

theorem after (h : Settles context hint target v b s') (hy : Yields context a s s') :
    Settles context hint target v (a ++ b) s := by
  cases h with
  | yields conforms h => exact .yields conforms (hy.append h)
  | misreads unhinted h => exact .misreads unhinted (h.after hy)
  | refuses asked lacks h => exact .refuses asked lacks (h.after hy)

/-- Steps that work on every slot of the encoding before them. -/
theorem before (h : Settles context hint middle v a s) (hm : ∀ c, middle ≠ .object (some c))
    (hy : ∀ out, out.Conforms middle → ∃ out', out'.Conforms target ∧ Yields context b out out') :
    Settles context hint target v (a ++ b) s := by
  cases h with
  | yields conforms h =>
    obtain ⟨out, hout, hb⟩ := hy _ conforms
    exact .yields hout (h.append hb)
  | misreads unhinted h => exact .misreads unhinted h.before
  | refuses asked => exact absurd asked (hm _)

end Settles
end Machine

/-! ## Conversions settle -/

namespace Conversion

variable {context : Context} {v : Value} {s : Slot} {source target : Encoding} {hint : Hint}
  {steps : List Step}

theorem cell_self (e : Encoding) : cell e e = some [] := by
  cases e <;> simp [cell, fromBool, fromInt32, fromInt64, fromDouble, fromString, fromNumber,
    fromArray, fromObject, fromValue]

/-- The class of an object matters only where it is the one that is asked for. -/
theorem cell_erased (h : target ≠ source) : cell source.erased target = cell source target := by
  cases source with
  | object known =>
    cases target with
    | object cls =>
      have hne : cls ≠ known := fun hc => h (congrArg _ hc)
      cases cls <;> simp [cell, fromObject, Encoding.erased, Conversion.cast, hne]
    | _ => rfl
  | _ => rfl

/-- Every cell of the table settles on the slots of its row. -/
theorem cell_settles (hs : Slot.of? v source = some s) (h : cell source target = some steps) :
    Settles context hint target v steps s := by
  by_cases ht : target = source
  · subst ht
    obtain rfl : [] = steps := Option.some.inj ((cell_self target).symm.trans h)
    exact .yields ⟨v, hs⟩ (.refl s)
  · obtain ⟨w, hheld, rfl, hobject⟩ := Slot.held_of_of? hs context
    exact .of_converts (cell_converts hheld ((cell_erased ht).trans h)) hobject

/-- A hint of one kind may be wrong: null is replaced by a constant all the same, and another kind
is misread. -/
theorem specialize?_settles (hs : Slot.of? v source = some s)
    (h : specialize? source hint target = some steps) :
    Settles context hint target v steps s := by
  unfold specialize? at h
  split at h
  · cases h
  split at h
  · cases h
  rename_i kind hkind
  split at h
  · obtain ⟨zero, hzero, rfl⟩ := Option.map_eq_some_iff.mp h
    have hconv : Converts context .null .value target [.op .pop, .op zero] :=
      nullConstant_converts hzero
    have hplain (c : ClassId) : target ≠ .object (some c) := by
      rintro rfl
      cases hzero
    have hnull := hconv.yields fun c hc => absurd hc (hplain c)
    exact .yields (Slot.conforms_slotIn _ context target) (pop_yields hnull s)
  · obtain ⟨payload, hpayload, h⟩ := Option.bind_eq_some_iff.mp h
    obtain ⟨rest, hrest, h⟩ := Option.bind_eq_some_iff.mp h
    cases h
    obtain ⟨hencoding, hsource⟩ := payload?_eq_some hpayload
    -- A tag is read as the value that it carries, in both encodings that have one.
    have hread : s.toValue? .value = some v := by
      rcases hsource with rfl | rfl
      · cases hs
        rfl
      · cases v <;> cases hs <;> rfl
    by_cases hv : v.kind = kind
    · obtain ⟨-, hslot⟩ := holds_of_encoding? (hv ▸ hencoding) context
      exact (cell_settles hslot hrest).after (payload_yields hread hslot)
    · have hunhinted : hint.allows v.kind = false := by
        refine Bool.eq_false_iff.mpr fun hallows => ?_
        exact hv (Hint.eq_of_singular? hkind hallows)
      exact .misreads hunhinted (payload_misreads hread (Slot.of?_eq_none hencoding hv)).before

theorem lower?_settles {c : Conversion} (hs : Slot.of? v source = some s)
    (h : lower? source hint target = some c) : Settles context hint target v c.steps s := by
  unfold lower? at h
  split at h
  · rename_i steps hsteps
    cases h
    exact specialize?_settles hs hsteps
  · obtain ⟨steps, hsteps, rfl⟩ := Option.map_eq_some_iff.mp h
    exact cell_settles hs hsteps

/-- Reading an alias or a buffer first and making one last settles as well. -/
theorem plan?_settles {c : Conversion} (hs : Slot.of? v source = some s)
    (h : plan? source hint target = some c) : Settles context hint target v c.steps s := by
  obtain ⟨before, current, middle, hcurrent, hmiddle, hy⟩ : ∃ before current middle,
      (if source = .alias ∧ target ≠ .alias then (call .aliasValue, .value) else ([], source)) =
        (before, current) ∧ Slot.of? v current = some middle ∧ Yields context before s middle := by
    split
    · rename_i halias
      obtain ⟨rfl, -⟩ := halias
      cases hs
      exact ⟨_, _, _, rfl, rfl, aliasValue_yields v⟩
    · exact ⟨_, _, _, rfl, hs, .refl _⟩
  unfold plan? at h
  simp only [hcurrent] at h
  split at h
  · -- A new alias of the value.
    rename_i halias
    obtain ⟨rfl, -⟩ := halias
    obtain ⟨c, hc, rfl⟩ := Option.map_eq_some_iff.mp h
    refine ((lower?_settles hmiddle hc).after hy).before nofun ?_
    rintro _ ⟨w, ⟨⟩⟩
    exact ⟨_, ⟨w, rfl⟩, newAlias_yields w⟩
  split at h
  · -- A new buffer of the string.
    rename_i hbuffer
    obtain ⟨rfl, -⟩ := hbuffer
    obtain ⟨c, hc, rfl⟩ := Option.map_eq_some_iff.mp h
    refine ((lower?_settles hmiddle hc).after hy).before nofun ?_
    rintro _ ⟨w, hw⟩
    cases w <;> cases hw
    exact ⟨_, ⟨.string _, rfl⟩, newBuffer_yields _⟩
  split at h
  · -- The string of a buffer.
    rename_i hbuffer
    obtain ⟨rfl, -⟩ := hbuffer
    obtain ⟨c, hc, rfl⟩ := Option.map_eq_some_iff.mp h
    rw [wrap, List.append_nil]
    cases v <;> cases hmiddle
    rename_i text
    have hread : Yields context (call (.coerce .toString .mstring)) (.buffer text) (.str text) :=
      coerce_yields (v := .string text) rfl
    have hstring : Slot.of? (.string text) .string = some (.str text) := rfl
    exact (lower?_settles hstring hc).after (hy.append hread)
  · obtain ⟨c, hc, rfl⟩ := Option.map_eq_some_iff.mp h
    rw [wrap, List.append_nil]
    exact (lower?_settles hmiddle hc).after hy

/-- Running a conversion on the slot of a value, on any stack and under any hint, leaves that stack
with one slot of the target on it; or it stops at a value that is read as a kind which the hint
allows in its place, or at a class of the target that the object lacks. -/
theorem runs_safely {c : Conversion} (hs : Slot.of? v source = some s)
    (hplan : plan? source hint target = some c) (context : Context) (stack : List Slot) :
    (∃ out, out.Conforms target ∧ run context c.steps (s :: stack) = .ok () (out :: stack)) ∨
      (∃ e rest, run context c.steps (s :: stack) = .error (.payload e v) rest ∧
        hint.allows v.kind = false) ∨
      ∃ cls rest, run context c.steps (s :: stack) = .error (.cast cls) rest ∧
        target = .object (some cls) ∧ v.toObject ≠ some cls := by
  have hsettles : Settles context hint target v c.steps s := plan?_settles hs hplan
  cases hsettles with
  | yields conforms h => exact .inl ⟨_, conforms, h stack⟩
  | misreads unhinted h =>
    obtain ⟨rest, hrun⟩ := h stack
    exact .inr (.inl ⟨_, rest, hrun, unhinted⟩)
  | refuses asked lacks h =>
    obtain ⟨rest, hrun⟩ := h stack
    exact .inr (.inr ⟨_, rest, hrun, asked, lacks⟩)

/-- A class is asked for behind an alias, under a hint that has the value to be an integer. -/
theorem runs_safely_misled :
    Slot.of? (.object (some 3)) .alias = some (.alias (.object (some 3))) ∧
      ∃ c, plan? .alias (.only .int64) (.object (some 4)) = some c ∧
        ((∃ out, out.Conforms (.object (some 4)) ∧
            run {} c.steps [.alias (.object (some 3)), .null, .i32 7] =
              .ok () [out, .null, .i32 7]) ∨
          (∃ e rest, run {} c.steps [.alias (.object (some 3)), .null, .i32 7] =
              .error (.payload e (.object (some 3))) rest ∧
            (Hint.only .int64).allows .object = false) ∨
          ∃ cls rest, run {} c.steps [.alias (.object (some 3)), .null, .i32 7] =
              .error (.cast cls) rest ∧
            Encoding.object (some 4) = .object (some cls) ∧ some 3 ≠ some cls) := by
  have hs : Slot.of? (.object (some 3)) .alias = some (.alias (.object (some 3))) := rfl
  obtain ⟨c, hc⟩ : ∃ c, plan? .alias (.only .int64) (.object (some 4)) = some c := ⟨_, rfl⟩
  exact ⟨hs, c, hc, runs_safely hs hc {} [.null, .i32 7]⟩

end Conversion
end Linearizer
