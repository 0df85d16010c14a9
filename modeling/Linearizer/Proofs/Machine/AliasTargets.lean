import Linearizer.Proofs.Machine.Safety

/-!
# Aliases as targets

A conversion to an alias is the conversion to a tagged value with a new cell around its result, and
a conversion of an alias is that of what the cell holds. So a cell on the way changes nothing. A
buffer is left out: it can be converted to a tagged value, but there is no conversion of it to an
alias.

* `Conversion.plan?_toAlias` and `Conversion.plan?_ofAlias` are the two equations;
* `Conversion.alias_transparent` puts them together on the machine, and
  `Conversion.buffer_without_alias` is the case of a buffer.
-/

namespace Linearizer

open Machine

namespace Conversion

variable {source target : Encoding} {hint : Hint}

/-- Only a tag leaves something to a hint. -/
theorem specialize?_eq_none (hv : source ≠ .value) (hn : source ≠ .number) :
    specialize? source hint target = none := by
  have hpayload (kind : Kind) : payload? source kind = none := by
    cases source <;> simp_all [payload?]
  unfold specialize?
  split
  · rfl
  split
  · rfl
  · simp [hv, hpayload]

theorem lower?_isSome (h : (cell source target).isSome = true) :
    (lower? source hint target).isSome = true := by
  unfold lower?
  split
  · rfl
  · rw [Option.isSome_map, h]

theorem lower?_eq_cell (hv : source ≠ .value) (hn : source ≠ .number) :
    lower? source hint target = (cell source target).map fun steps => ⟨steps, false⟩ := by
  rw [lower?, specialize?_eq_none hv hn]

/-! ## The two equations -/

/-- A new alias is made of what is lowered to a tagged value. -/
theorem plan?_toAlias (h : source ≠ .alias) :
    plan? source hint .alias = (lower? source hint .value).map (wrap [] · (call .newAlias)) := by
  simp [plan?, h]

theorem plan?_toValue (ha : source ≠ .alias) (hm : source ≠ .mstring) :
    plan? source hint .value = (lower? source hint .value).map (wrap [] · []) := by
  simp [plan?, ha, hm]

/-- An alias is converted as what its cell holds. -/
theorem plan?_ofAlias (h : target ≠ .alias) :
    plan? .alias hint target =
      (plan? .value hint target).map (wrap (call .aliasValue) · []) := by
  by_cases hm : target = .mstring
  · simp [plan?, hm, wrap, Function.comp_def]
  · simp [plan?, h, hm, wrap]

/-- A tagged value has a way to every encoding. -/
theorem plan?_ofValue_isSome : (plan? .value hint target).isSome = true := by
  have hlower (e : Encoding) (he : (cell .value e).isSome = true) :
      (lower? .value hint e).isSome = true := lower?_isSome he
  cases target with
  | «alias» => simpa [plan?] using hlower .value rfl
  | mstring => simpa [plan?] using hlower .string rfl
  | object cls => simpa [plan?] using hlower (.object cls) rfl
  | bool => simpa [plan?] using hlower .bool rfl
  | int32 => simpa [plan?] using hlower .int32 rfl
  | int64 => simpa [plan?] using hlower .int64 rfl
  | double => simpa [plan?] using hlower .double rfl
  | string => simpa [plan?] using hlower .string rfl
  | number => simpa [plan?] using hlower .number rfl
  | array => simpa [plan?] using hlower .array rfl
  | value => simpa [plan?] using hlower .value rfl

/-- The table has no way from a buffer to a tagged value but through its string. -/
theorem plan?_bufferToAlias (hint : Hint) : plan? .mstring hint .alias = none := by
  have hlower : lower? .mstring hint .value = none := lower?_eq_cell nofun nofun
  rw [plan?_toAlias (by decide), hlower]
  rfl

/-- What is not a buffer has a way to an alias if it has one to a tagged value. -/
theorem plan?_toAlias_isSome (ha : source ≠ .alias) (hm : source ≠ .mstring) :
    (plan? source hint .alias).isSome = (plan? source hint .value).isSome := by
  rw [plan?_toAlias ha, plan?_toValue ha hm, Option.isSome_map, Option.isSome_map]

/-! ## On the machine -/

variable {context : Context} {v : Value} {s : Slot}

/-- The cell of a new alias holds what the conversion to a tagged value yields. -/
theorem convert_toAlias (context : Context) (ha : source ≠ .alias) (hm : source ≠ .mstring)
    (hs : Slot.of? v source = some s) (hk : hint.allows v.kind = true)
    (h : (plan? source hint .alias).isSome = true) :
    ∃ w, convert context s source hint .value [] = .ok (.value w) [] ∧
      convert context s source hint .alias [] = .ok (.alias w) [] := by
  rw [plan?_toAlias ha, Option.isSome_map] at h
  obtain ⟨c, hc⟩ := Option.isSome_iff_exists.mp h
  have hsettles : Settles context hint .value v c.steps s := lower?_settles hs hc
  cases hsettles with
  | misreads unhinted => exact absurd hk (Bool.eq_false_iff.mp unhinted)
  | refuses asked => cases asked
  | yields conforms hy =>
    obtain ⟨w, ⟨⟩⟩ := conforms
    have hvalue : plan? source hint .value = some (wrap [] c []) := by
      rw [plan?_toValue ha hm, hc]
      rfl
    have hcell : plan? source hint .alias = some (wrap [] c (call .newAlias)) := by
      rw [plan?_toAlias ha, hc]
      rfl
    refine ⟨w, convert_of_yields hvalue ?_, convert_of_yields hcell (hy.append (newAlias_yields w))⟩
    simpa [wrap] using hy

/-- Reading the cell first changes nothing in a conversion. -/
theorem convert_ofAlias (w : Value) (hint : Hint) (h : target ≠ .alias) :
    convert context (.alias w) .alias hint target [] =
      convert context (.value w) .value hint target [] := by
  have hplan : (plan? .value hint target).isSome = true := plan?_ofValue_isSome
  obtain ⟨c, hc⟩ := Option.isSome_iff_exists.mp hplan
  have halias : plan? .alias hint target = some (wrap (call .aliasValue) c []) := by
    rw [plan?_ofAlias h, hc]
    rfl
  have hrun : run context (wrap (call .aliasValue) c []).steps [.alias w] =
      run context c.steps [.value w] := by
    rw [wrap, List.append_nil]
    exact run_append_ok (aliasValue_yields w [])
  unfold convert
  simp only [halias, hc]
  change (run context _ >>= fun _ => takeResult) [_] = (run context _ >>= fun _ => takeResult) [_]
  simp only [bind, EStateM.bind, hrun]

/-- An alias that is asked for as one is left as it is, and a tagged value gets a new one. -/
theorem convert_aliased (w : Value) (hint : Hint) :
    convert context (.alias w) .alias hint .alias [] =
      convert context (.value w) .value hint .alias [] := by
  have hnone : specialize? .alias hint .alias = none := specialize?_eq_none nofun nofun
  have hnone' : specialize? .value hint .value = none := by simp [specialize?]
  have hsame : plan? .alias hint .alias = some ⟨[], false⟩ := by
    simp [plan?, lower?, hnone, cell_self, wrap]
  have hnew : plan? .value hint .alias = some ⟨call .newAlias, false⟩ := by
    simp [plan?, lower?, hnone', cell_self, wrap]
  exact (convert_of_yields hsame (.refl _)).trans
    (convert_of_yields hnew (newAlias_yields w)).symm

/-- What is neither an alias nor a buffer can be converted to an alias if it can be converted to a
tagged value. The cell then holds that tagged value, and converting the cell on is converting the
tagged value on, to any encoding and under any hint. A buffer can be converted to a tagged value
only. -/
theorem alias_transparent (ha : source ≠ .alias) (hint : Hint) :
    ((plan? source hint .alias).isSome = true ↔
        (plan? source hint .value).isSome = true ∧ source ≠ .mstring) ∧
      ∀ (context : Context) (v : Value) (s : Slot), Slot.of? v source = some s →
        hint.allows v.kind = true → source ≠ .mstring →
        (plan? source hint .value).isSome = true →
        ∃ w, convert context s source hint .value [] = .ok (.value w) [] ∧
          convert context s source hint .alias [] = .ok (.alias w) [] ∧
          ∀ (onward : Hint) (target : Encoding),
            convert context (.alias w) .alias onward target [] =
              convert context (.value w) .value onward target [] := by
  constructor
  · by_cases hm : source = .mstring
    · subst hm
      simp [plan?_bufferToAlias]
    · simp [plan?_toAlias_isSome ha hm, hm]
  · intro context v s hs hk hm hplan
    -- The two plans exist together.
    rw [← plan?_toAlias_isSome ha hm] at hplan
    obtain ⟨w, hvalue, hcell⟩ := convert_toAlias context ha hm hs hk hplan
    refine ⟨w, hvalue, hcell, fun onward target => ?_⟩
    by_cases ht : target = .alias
    · subst ht
      exact convert_aliased w onward
    · exact convert_ofAlias w onward ht

/-- An integer read from a number under a hint of its kind goes through a cell to a string. -/
theorem alias_transparent_number :
    Encoding.number ≠ .alias ∧ Slot.of? (.long 5) .number = some (.number (.long 5)) ∧
      (Hint.only .int64).allows (Value.long 5).kind = true ∧ Encoding.number ≠ .mstring ∧
      (plan? .number (.only .int64) .value).isSome = true ∧
      ∃ w, convert {} (.number (.long 5)) .number (.only .int64) .value [] = .ok (.value w) [] ∧
        convert {} (.number (.long 5)) .number (.only .int64) .alias [] = .ok (.alias w) [] ∧
        ∀ (onward : Hint) (target : Encoding),
          convert {} (.alias w) .alias onward target [] =
            convert {} (.value w) .value onward target [] := by
  have ha : Encoding.number ≠ .alias := by decide
  have hm : Encoding.number ≠ .mstring := by decide
  have hs : Slot.of? (.long 5) .number = some (.number (.long 5)) := rfl
  exact ⟨ha, hs, rfl, hm, rfl, (alias_transparent ha (.only .int64)).2 {} _ _ hs rfl hm rfl⟩

/-- A buffer has a way to a tagged value and none to an alias. -/
theorem buffer_without_alias :
    Slot.of? (.string "x") .mstring = some (.buffer "x") ∧
      (Hint.only .string).allows (Value.string "x").kind = true ∧
      (plan? .mstring (.only .string) .value).isSome = true ∧
      plan? .mstring (.only .string) .alias = none ∧
      convert {} (.buffer "x") .mstring (.only .string) .value [] =
        .ok (.value (.string "x")) [] := by
  exact ⟨rfl, rfl, rfl, rfl, rfl⟩

end Conversion
end Linearizer
