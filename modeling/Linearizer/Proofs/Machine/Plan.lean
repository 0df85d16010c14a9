import Linearizer.Proofs.Machine.Table

/-!
# Conversions on the machine

Whatever way a conversion takes, it reads a value as the weak typing says: directly from a tag that
the hint makes known, by a constant in place of null, or by the general helpers, and through
aliases and buffers. Only an object that is not of the class that is asked for is refused.

* `Conversion.specialize?_converts`, `Conversion.lower?_converts` and `Conversion.plan?_converts`
  say so of the steps;
* `Machine.convert_reads` says so of the machine.
-/

namespace Linearizer

open Machine Conversion

theorem Kind.mem_all (k : Kind) : k ∈ Kind.all := by cases k <;> decide

/-- The only kind of a hint is that of every value that it allows. -/
theorem Hint.eq_of_singular? {hint : Hint} {k k' : Kind} (h : hint.singular? = some k)
    (hk : hint.allows k' = true) : k' = k := by
  have hmem : k' ∈ hint.kinds := List.mem_filter.mpr ⟨k'.mem_all, hk⟩
  unfold singular? at h
  split at h
  · rename_i hkinds
    cases h
    simpa [hkinds] using hmem
  · cases h

namespace Conversion

variable {context : Context} {v : Value} {source target : Encoding} {hint : Hint}

theorem nullConstant_converts {zero : Opcode} (h : nullConstant target = some zero) :
    Converts context .null .value target [.op .pop, .op zero] := by
  cases target <;> cases h
  case double =>
    have hzero : Value.null.slotIn context .double = .f64 0.0 :=
      congrArg Slot.f64 (by decide : Double.ofInt64 0 = 0.0)
    exact .of_yields (fun rest => hzero ▸ rfl) nofun
  all_goals exact .of_yields (fun _ => rfl) nofun

/-- A value is held by the encoding of its kind. -/
theorem holds_of_encoding? {e : Encoding} (h : v.kind.encoding? = some e) (context : Context) :
    e.Holds v ∧ Slot.of? v e = some (v.slotIn context e) := by
  cases v <;> cases h
  case bool b => exact ⟨.bool b, rfl⟩
  case long n => exact ⟨.int64 n, rfl⟩
  case double x => exact ⟨.double x, rfl⟩
  case string s => exact ⟨.string s, rfl⟩
  case array items => exact ⟨.array items, rfl⟩
  case object cls => exact ⟨.object cls, rfl⟩

theorem payload?_eq_some {kind : Kind} {payload : Encoding}
    (h : payload? source kind = some payload) :
    kind.encoding? = some payload ∧ (source = .value ∨ source = .number) := by
  unfold payload? at h
  split at h
  · exact ⟨h, .inl rfl⟩
  · exact ⟨h, .inr rfl⟩
  · exact ⟨h, .inr rfl⟩
  · cases h

/-- What a tagged encoding holds is read from it as the encoding of its kind. -/
theorem payload?_yields {payload : Encoding} (hs : source.Holds v)
    (h : payload? source v.kind = some payload) :
    payload.Holds v ∧ Yields context (call (.payload source payload)) (v.slotIn context source)
      (v.slotIn context payload) := by
  obtain ⟨hkind, hsource⟩ := payload?_eq_some h
  obtain ⟨hheld, hslot⟩ := holds_of_encoding? hkind context
  have hread : (v.slotIn context source).toValue? .value = some v := by
    rcases hsource with rfl | rfl
    · exact hs.toValue? context
    · exact hs.toValue? context
  exact ⟨hheld, payload_yields hread hslot⟩

theorem specialize?_converts {steps : List Step} (hs : source.Holds v)
    (hk : hint.allows v.kind = true) (h : specialize? source hint target = some steps) :
    Converts context v source target steps := by
  unfold specialize? at h
  split at h
  · cases h
  split at h
  · cases h
  rename_i kind hkind
  obtain rfl := Hint.eq_of_singular? hkind hk
  split at h
  · rename_i hnull
    obtain ⟨rfl, hnull⟩ := hnull
    obtain ⟨zero, hzero, rfl⟩ := Option.map_eq_some_iff.mp h
    cases v <;> cases hnull
    exact nullConstant_converts hzero
  · obtain ⟨payload, hpayload, h⟩ := Option.bind_eq_some_iff.mp h
    obtain ⟨rest, hrest, h⟩ := Option.bind_eq_some_iff.mp h
    cases h
    obtain ⟨hheld, hy⟩ := payload?_yields hs hpayload
    exact (cell_converts hheld hrest).after hy

theorem lower?_converts {c : Conversion} (hs : source.Holds v) (hk : hint.allows v.kind = true)
    (h : lower? source hint target = some c) : Converts context v source target c.steps := by
  unfold lower? at h
  split at h
  · rename_i steps hsteps
    cases h
    exact specialize?_converts hs hk hsteps
  · obtain ⟨steps, hsteps, rfl⟩ := Option.map_eq_some_iff.mp h
    exact cell_converts hs hsteps

/-- Aliases and buffers are read before the conversion, and made after it. -/
theorem plan?_converts {c : Conversion} (hs : source.Holds v) (hk : hint.allows v.kind = true)
    (h : plan? source hint target = some c) : Converts context v source target c.steps := by
  obtain ⟨before, current, hcurrent, hheld, hy⟩ : ∃ before current,
      (if source = .alias ∧ target ≠ .alias then (call .aliasValue, .value) else ([], source)) =
        (before, current) ∧ current.Holds v ∧
      Yields context before (v.slotIn context source) (v.slotIn context current) := by
    split
    · rename_i halias
      obtain ⟨rfl, -⟩ := halias
      exact ⟨_, _, rfl, .value v, aliasValue_yields v⟩
    · exact ⟨_, _, rfl, hs, .refl _⟩
  unfold plan? at h
  simp only [hcurrent] at h
  split at h
  · -- A new alias of the value.
    rename_i halias
    obtain ⟨rfl, -⟩ := halias
    obtain ⟨c, hc, rfl⟩ := Option.map_eq_some_iff.mp h
    have hvalue : Converts context v current .value c.steps := lower?_converts hheld hk hc
    exact (hvalue.after hy).before (newAlias_yields v) nofun nofun
  split at h
  · -- A new buffer of the string.
    rename_i hbuffer
    obtain ⟨rfl, -⟩ := hbuffer
    obtain ⟨c, hc, rfl⟩ := Option.map_eq_some_iff.mp h
    have hstring : Converts context v current .string c.steps := lower?_converts hheld hk hc
    exact (hstring.after hy).before (newBuffer_yields _) nofun nofun
  split at h
  · -- The string of a buffer.
    rename_i hbuffer
    obtain ⟨rfl, -⟩ := hbuffer
    obtain ⟨c, hc, rfl⟩ := Option.map_eq_some_iff.mp h
    have hread := hy.append (coerce_held hheld .toString)
    cases hheld with
    | mstring s =>
      have hstring : Converts context (.string s) .string target c.steps :=
        lower?_converts (.string s) hk hc
      rw [wrap, List.append_nil]
      exact hstring.after hread
  · obtain ⟨c, hc, rfl⟩ := Option.map_eq_some_iff.mp h
    rw [wrap, List.append_nil]
    exact (lower?_converts hheld hk hc).after hy

end Conversion

/-! ## Conversions of slots -/

namespace Machine

variable {context : Context} {s s' : Slot} {source target : Encoding} {hint : Hint} {c : Conversion}

theorem convert_of_yields (hplan : plan? source hint target = some c)
    (h : Yields context c.steps s s') : convert context s source hint target [] = .ok s' [] := by
  unfold convert
  simp only [hplan]
  change (run context c.steps >>= fun _ => takeResult) [s] = _
  simp only [bind, EStateM.bind, h []]
  rfl

theorem convert_of_refuses {cls : ClassId} (hplan : plan? source hint target = some c)
    (h : Refuses context c.steps s cls) :
    ∃ stack, convert context s source hint target [] = .error (.cast cls) stack := by
  obtain ⟨stack, hstack⟩ := h []
  refine ⟨stack, ?_⟩
  unfold convert
  simp only [hplan]
  change (run context c.steps >>= fun _ => takeResult) [s] = _
  simp only [bind, EStateM.bind, hstack]

/-- A conversion that exists reads every value that its source holds and its hint allows as the weak
typing says, whichever way it takes; only an object that is not of the class that is asked for is
refused. -/
theorem convert_reads {v : Value} (hs : Slot.of? v source = some s)
    (hrange : source = .int32 → -2 ^ 31 ≤ v.toLong.toInt ∧ v.toLong.toInt < 2 ^ 31)
    (hclass : ∀ cls, source = .object (some cls) → v.toObject = some cls)
    (hk : hint.allows v.kind = true) (hplan : plan? source hint target = some c) :
    ((∀ cls, target = .object (some cls) → v.toObject = some cls) →
      ∃ out, convert context s source hint target [] = .ok out [] ∧
        out.toValue? target = some (v.readAs context target)) ∧
    ∀ cls, target = .object (some cls) → v.toObject ≠ some cls →
      ∃ stack, convert context s source hint target [] = .error (.cast cls) stack := by
  obtain rfl := Slot.eq_slotIn_of_of? hs context
  have hconv : Converts context v source target c.steps :=
    plan?_converts (.of_of? hs hrange hclass) hk hplan
  refine ⟨fun hc => ?_, fun cls ht hne => convert_of_refuses hplan (hconv.refuses cls ht hne)⟩
  exact ⟨_, convert_of_yields hplan (hconv.yields hc), v.toValue?_slotIn context target⟩

/-- An object behind an alias, whose class is checked after what the hint makes known is read. -/
theorem convert_reads_instance :
    Slot.of? (.object (some 3)) .alias = some (.alias (.object (some 3))) ∧
      (Hint.only .object).allows (Value.object (some 3)).kind = true ∧
      (∃ out, convert {} (.alias (.object (some 3))) .alias (.only .object) (.object (some 3)) [] =
        .ok out [] ∧ out.toValue? (.object (some 3)) = some (.object (some 3))) ∧
      ∃ stack, convert {} (.alias (.object (some 3))) .alias (.only .object) (.object (some 4)) [] =
        .error (.cast 4) stack := by
  have hs : Slot.of? (.object (some 3)) .alias = some (.alias (.object (some 3))) := rfl
  have hk : (Hint.only .object).allows (Value.object (some 3)).kind = true := rfl
  refine ⟨hs, hk, (convert_reads hs nofun nofun hk rfl).1 fun cls h => ?_,
    (convert_reads hs nofun nofun hk rfl).2 4 rfl (by decide)⟩
  cases h
  rfl

end Machine
end Linearizer
