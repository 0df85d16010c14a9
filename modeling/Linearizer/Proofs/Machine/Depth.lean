import Linearizer.Proofs.Machine.Steps
import Linearizer.Proofs.Stack.Value

/-!
# Static effects and runs

The depth of the stack is kept by tables that say how many entries each opcode and each helper takes
and how many it leaves. The machine is written without them, and a run that returns does what they
say.

- **One step** (`Machine.Exchanges`): a computation that returns replaces some entries on top of the
  stack by others and leaves the rest alone. `Machine.runStep_exchanges` has the numbers of the
  table for every step.
- **Many steps** (`Machine.change`, `Machine.lowest`): how far the effects of some steps raise the
  stack, and the deepest point that they reach on the way.
- **Runs** (`Machine.run_follows_effects`): the depth at any time is the sum of the effects so far,
  what lies below the deepest point stays, and a step that does not find what it takes stops the
  run.
-/

namespace Linearizer

/-- How many more entries there are afterwards. -/
def Effect.change (e : Effect) : Int := e.pushes - e.pops

namespace Machine

/-- How many more entries there are after some steps. -/
def change : List Step → Int
  | [] => 0
  | step :: rest => step.effect.change + change rest

/-- The deepest point that some steps reach, counted from the depth that they start at. A step takes
its entries before it leaves any. -/
def lowest : List Step → Int
  | [] => 0
  | step :: rest => min (-step.effect.pops) (step.effect.change + lowest rest)

variable {α β : Type} {context : Context} {a b steps : List Step} {step : Step}
  {stack middle out : List Slot}

theorem lowest_append_le (a b : List Step) : lowest (a ++ b) ≤ lowest a := by
  induction a with
  | nil =>
    cases b with
    | nil => exact Int.le_refl _
    | cons step b =>
      simp only [List.nil_append, lowest]
      omega
  | cons step a ih =>
    simp only [List.cons_append, lowest]
    omega

/-! ## One step -/

/-- A run of the computation that returns takes `pops` entries off the stack and leaves `pushes`
entries on the rest of it. -/
def Exchanges (pops pushes : Nat) (m : Run α) : Prop :=
  ∀ stack x out, m stack = .ok x out → ∃ taken left rest,
    stack = taken ++ rest ∧ out = left ++ rest ∧ taken.length = pops ∧ left.length = pushes

namespace Exchanges

theorem pure (x : α) : Exchanges 0 0 (pure x : Run α) := by
  intro stack _ _ h
  cases h
  exact ⟨[], [], stack, rfl, rfl, rfl, rfl⟩

/-- What never returns exchanges whatever a table says. -/
theorem throw (pops pushes : Nat) (t : Trap) : Exchanges pops pushes (throw t : Run α) := by
  intro _ _ _ h
  cases h

end Exchanges

/-- A run that returns goes through a stack between its two parts. -/
theorem bind_eq_ok {m : Run α} {f : α → Run β} {y : β} (h : (m >>= f) stack = .ok y out) :
    ∃ x middle, m stack = .ok x middle ∧ f x middle = .ok y out := by
  change EStateM.bind m f stack = _ at h
  unfold EStateM.bind at h
  cases hm : m stack with
  | ok x middle =>
    rw [hm] at h
    exact ⟨x, middle, rfl, h⟩
  | error t left =>
    rw [hm] at h
    cases h

/-- What leaves nothing may be followed by what takes more. -/
theorem Exchanges.bind {m : Run α} {f : α → Run β} {n k pushes : Nat} (hm : Exchanges n 0 m)
    (hf : ∀ x, Exchanges k pushes (f x)) : Exchanges (k + n) pushes (m >>= f) := by
  intro stack y out h
  obtain ⟨x, middle, h₁, h₂⟩ := bind_eq_ok h
  obtain ⟨taken, left, rest, rfl, rfl, hn, hnone⟩ := hm stack x middle h₁
  obtain rfl := List.length_eq_zero_iff.mp hnone
  obtain ⟨taken', left', rest', hrest, rfl, hk, hpushes⟩ := hf x _ y out h₂
  have hstack : taken ++ rest = (taken ++ taken') ++ rest' := by
    rw [List.append_assoc]
    exact congrArg (taken ++ ·) hrest
  have htaken : (taken ++ taken').length = k + n := by
    rw [List.length_append, hn, hk, Nat.add_comm]
  exact ⟨taken ++ taken', left', rest', hstack, rfl, htaken, hpushes⟩

theorem push_exchanges (s : Slot) : Exchanges 0 1 (push s) := by
  intro stack _ _ h
  cases h
  exact ⟨[], [s], stack, rfl, rfl, rfl, rfl⟩

theorem pop_exchanges : Exchanges 1 0 pop := by
  intro stack top rest h
  cases stack with
  | nil => cases h
  | cons =>
    cases h
    exact ⟨[top], [], rest, rfl, rfl, rfl, rfl⟩

/-- A result is pushed, if there is one. -/
theorem result_exchanges (result : Option Slot) (t : Trap) :
    Exchanges 0 1 (match result with | some s => push s | none => throw t : Run Unit) := by
  cases result with
  | none => exact .throw 0 1 t
  | some s => exact push_exchanges s

theorem unary_exchanges (step : Step) (f : Slot → Option Slot) : Exchanges 1 1 (unary step f) :=
  pop_exchanges.bind fun _ => result_exchanges _ _

theorem binary_exchanges (o : Opcode) (f : Slot → Slot → Option Slot) :
    Exchanges 2 1 (binary o f) :=
  pop_exchanges.bind fun _ => pop_exchanges.bind fun _ => result_exchanges _ _

theorem castTo_exchanges (c : ClassId) : Exchanges 1 1 (castTo c) := by
  refine pop_exchanges.bind fun found => ?_
  cases found with
  | object cls =>
    dsimp only
    split
    · exact push_exchanges _
    · exact .throw 0 1 _
  | _ => exact .throw 0 1 _

theorem dup_exchanges : Exchanges 1 2 (exec context .dup) := by
  refine pop_exchanges.bind fun top => ?_
  intro stack _ _ h
  cases h
  exact ⟨[], [top, top], stack, rfl, rfl, rfl, rfl⟩

theorem exec_exchanges (o : Opcode) : Exchanges o.effect.pops o.effect.pushes (exec context o) := by
  cases o with
  | nop => exact .pure ()
  | pop => exact pop_exchanges.bind fun _ => .pure ()
  | dup => exact dup_exchanges
  | ldcI4 | ldcI8 | ldcR8 | ldstr | ldnull | ldctx => exact push_exchanges _
  | ceq | clt | cltUn | add | sub | mul => exact binary_exchanges _ _
  | convI4 | convI8 | convR8 => exact unary_exchanges _ _
  | castclass c => exact castTo_exchanges c
  | ldarg | ldarga | starg | ldfld | ldflda | stfld | newobj | ret | throw | endfinally =>
    exact .throw _ _ _

theorem popValue_exchanges (e : Encoding) : Exchanges 1 0 (popValue e) := by
  refine pop_exchanges.bind fun s => ?_
  split
  · exact .pure _
  · exact .throw 0 0 _

theorem popContext_exchanges (h : Helper) :
    Exchanges h.needsContext.toNat 0 (popContext context h) := by
  unfold popContext
  split
  · rename_i hc
    rw [hc, Bool.toNat_true]
    refine pop_exchanges.bind fun found => ?_
    cases found with
    | context c => exact .pure c
    | _ => exact .throw 0 0 _
  · rename_i hc
    rw [Bool.eq_false_iff.mpr hc]
    exact .pure context

/-- A helper takes the context, if it needs one, and then its other arguments. -/
theorem invoke_exchanges (h : Helper) :
    Exchanges h.effect.pops h.effect.pushes (invoke context h) := by
  -- The context lies on top of the other arguments.
  have call {f : Context → Run Unit} {n k : Nat}
      (hinvoke : invoke context h = popContext context h >>= f)
      (hn : h.effect.pops = n + h.needsContext.toNat) (hf : ∀ c, Exchanges n k (f c))
      (hk : h.effect.pushes = k) : Exchanges h.effect.pops h.effect.pushes (invoke context h) := by
    rw [hinvoke, hn, hk]
    exact (popContext_exchanges h).bind hf
  cases h with
  | convert coercion source byAddress =>
    exact call rfl rfl
      (fun _ => (popValue_exchanges source).bind fun _ => push_exchanges _) rfl
  | box source =>
    exact call rfl rfl (fun _ => (popValue_exchanges source).bind fun _ => push_exchanges _) rfl
  | payload source target =>
    exact call rfl rfl (fun _ => (popValue_exchanges .value).bind fun _ => result_exchanges _ _) rfl
  | newAlias =>
    exact call rfl rfl (fun _ => (popValue_exchanges .value).bind fun _ => push_exchanges _) rfl
  | boxObject | widen | newBuffer | aliasValue =>
    exact call rfl rfl (fun _ => unary_exchanges _ _) rfl
  | nullValue => exact call rfl rfl (fun _ => push_exchanges _) rfl
  | newArray => exact call (n := 0) rfl rfl (fun _ => .throw _ _ _) rfl
  | bufferAppend | arrayAdd | arithmetic | concat | looseEquals | looseLess =>
    exact call (n := 2) rfl rfl (fun _ => .throw _ _ _) rfl
  | echo | getEnumerator | moveNext | currentValue | currentKey =>
    exact call (n := 1) rfl rfl (fun _ => .throw _ _ _) rfl

/-- Every step exchanges as many entries as the tables say. -/
theorem runStep_exchanges (step : Step) :
    Exchanges step.effect.pops step.effect.pushes (runStep context step) := by
  cases step with
  | op o => exact exec_exchanges o
  | call h => exact invoke_exchanges h

/-! ## Runs -/

theorem run_append_eq_ok (h : run context (a ++ b) stack = .ok () out) :
    ∃ middle, run context a stack = .ok () middle ∧ run context b middle = .ok () out := by
  rw [run_append] at h
  obtain ⟨⟨⟩, middle, ha, hb⟩ := bind_eq_ok h
  exact ⟨middle, ha, hb⟩

theorem run_cons_eq_ok (h : run context (step :: b) stack = .ok () out) :
    ∃ middle, runStep context step stack = .ok () middle ∧ run context b middle = .ok () out := by
  obtain ⟨middle, hstep, hb⟩ := run_append_eq_ok (a := [step]) h
  exact ⟨middle, (run_singleton step stack).symm.trans hstep, hb⟩

theorem length_of_run (h : run context steps stack = .ok () out) :
    (out.length : Int) = stack.length + change steps := by
  induction steps generalizing stack with
  | nil =>
    cases h
    simp [change]
  | cons step rest ih =>
    obtain ⟨middle, hstep, hrest⟩ := run_cons_eq_ok h
    obtain ⟨taken, left, below, rfl, rfl, hpops, hpushes⟩ := runStep_exchanges step _ _ _ hstep
    have ih := ih hrest
    simp only [List.length_append, change, Effect.change] at ih ⊢
    omega

/-- What lies below the deepest point is still there at the end. -/
theorem exists_kept (h : run context steps stack = .ok () out) : ∃ kept : List Slot,
    (kept.length : Int) = stack.length + lowest steps ∧ kept <:+ stack ∧ kept <:+ out := by
  induction steps generalizing stack with
  | nil =>
    cases h
    exact ⟨out, by simp [lowest], List.suffix_rfl, List.suffix_rfl⟩
  | cons step rest ih =>
    obtain ⟨middle, hstep, hrest⟩ := run_cons_eq_ok h
    obtain ⟨taken, left, below, rfl, rfl, hpops, hpushes⟩ := runStep_exchanges step _ _ _ hstep
    obtain ⟨kept, hlength, hmiddle, hout⟩ := ih hrest
    have hbelow : below <:+ left ++ below := List.suffix_append _ _
    simp only [List.length_append, lowest, Effect.change] at hlength ⊢
    -- The deepest point is that of the rest or that of the first step, whichever keeps less.
    by_cases hle : kept.length ≤ below.length
    · have hkept := List.suffix_of_suffix_length_le hmiddle hbelow hle
      exact ⟨kept, by omega, hkept.trans (List.suffix_append _ _), hout⟩
    · have hkept := List.suffix_of_suffix_length_le hbelow hmiddle (by omega)
      exact ⟨below, by omega, List.suffix_append _ _, hkept.trans hout⟩

/-- A step that finds fewer entries than it takes does not return. -/
theorem pops_le_of_runStep (h : runStep context step stack = .ok () out) :
    step.effect.pops ≤ stack.length := by
  obtain ⟨taken, left, below, rfl, -, hpops, -⟩ := runStep_exchanges step _ _ _ h
  simp [hpops]

/-- Runs do what the tables of effects say. When a run returns, the depth at the end, and after each
part of the steps, is the first depth with the effects so far, and what lies below the deepest point
of the effects is unchanged, then and all the while. When a step finds fewer entries than it takes,
the run fails. -/
theorem run_follows_effects (context : Context) (steps : List Step) (stack : List Slot) :
    (∀ out, run context steps stack = .ok () out →
      (out.length : Int) = stack.length + change steps ∧
      ∃ kept : List Slot, (kept.length : Int) = stack.length + lowest steps ∧ kept <:+ stack ∧
        kept <:+ out ∧ ∀ before after, steps = before ++ after → ∃ middle,
          run context before stack = .ok () middle ∧ run context after middle = .ok () out ∧
          (middle.length : Int) = stack.length + change before ∧ kept <:+ middle) ∧
      ∀ before step after middle, steps = before ++ step :: after →
        run context before stack = .ok () middle → middle.length < step.effect.pops →
        ∃ trap left, run context steps stack = .error trap left := by
  refine ⟨fun out h => ?_, ?_⟩
  · obtain ⟨kept, hlength, hstack, hout⟩ := exists_kept h
    refine ⟨length_of_run h, kept, hlength, hstack, hout, ?_⟩
    rintro before after rfl
    obtain ⟨middle, hbefore, hafter⟩ := run_append_eq_ok h
    obtain ⟨kept', hlength', hstack', hmiddle⟩ := exists_kept hbefore
    -- The steps before do not reach deeper than all the steps.
    have hle := lowest_append_le before after
    have hkept := List.suffix_of_suffix_length_le hstack hstack' (by omega)
    exact ⟨middle, hbefore, hafter, length_of_run hbefore, hkept.trans hmiddle⟩
  · rintro before step after middle rfl hbefore hlt
    cases h : run context (before ++ step :: after) stack with
    | error trap left => exact ⟨trap, left, rfl⟩
    | ok x out =>
      rw [run_append_ok hbefore] at h
      obtain ⟨_, hstep, -⟩ := run_cons_eq_ok h
      have := pops_le_of_runStep hstep
      omega

/-- The text of a double takes the context as well: the entry below the double is left alone, and a
call that finds the context missing fails. -/
theorem run_follows_effects_text :
    let steps : List Step := [.op .ldctx, .call (.coerce .toString .double), .call .newBuffer]
    (∃ out, run {} steps [.f64 0.5, .null] = .ok () out ∧ (out.length : Int) = 2 ∧
      ∃ kept : List Slot, (kept.length : Int) = 1 ∧ kept <:+ [.f64 0.5, .null] ∧ kept <:+ out) ∧
      ∃ trap left, run {} (.op .pop :: steps.tail) [.f64 0.5, .null] = .error trap left := by
  intro steps
  constructor
  · obtain ⟨out, hout⟩ : ∃ out, run {} steps [.f64 0.5, .null] = .ok () out := ⟨_, rfl⟩
    obtain ⟨hdepth, kept, hlength, hstack, hkept, -⟩ := (run_follows_effects {} steps _).1 out hout
    have hlowest : lowest steps = -1 := by decide
    refine ⟨out, hout, hdepth.trans (by decide), kept, ?_, hstack, hkept⟩
    rw [hlength, hlowest]
    rfl
  · exact (run_follows_effects {} _ _).2 [.op .pop] (.call (.coerce .toString .double))
      [.call .newBuffer] [.null] rfl rfl (by decide)

end Machine
end Linearizer
