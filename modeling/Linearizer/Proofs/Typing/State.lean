import Linearizer.Proofs.Generator.Change
import Linearizer.Proofs.Generator.Contract
import Linearizer.Proofs.Typing.Basic

/-!
# Typed states of generation

Local variables are declared while code is written, so that the declarations grow. What is typed
with the local variables so far stays so with more of them.

- **States** (`State.Typed g known σ`): the code flows from the empty stack to `σ`, the local
  variables start with those of `known`, and all storage that the state keeps is declared with what
  the state says it holds.
- **Computations** (`Gen.Finds g known σ τ fact m`): from such a state a run of `m` that returns `a`
  leads to one with the stack `τ a`, and `fact` holds of the local variables by then and of `a`.
  `Gen.Types` is the same without a fact.
-/

namespace Linearizer
namespace State

/-- The encodings of the local variables. -/
def locals (s : State) : List Encoding := s.tape.listing.locals.toList

/-- The storage that the state keeps, with what it holds. -/
def stored (s : State) : List (Storage × Encoding) :=
  s.places.map (fun p => (p.storage, p.encoding)) ++
    s.temps.map (fun x => (.slot x.2, x.1)) ++
    s.enumerators.map (fun x => (.slot x.2, .object none)) ++
    s.returnSlot.toList.map fun x => (.slot x.1, .value)

/-- The code is typed, and so is the storage (module doc). -/
structure Typed (g : Graph) (known : List Encoding) (σ : List Shape) (s : State) : Prop where
  grows : known <+: s.locals
  flows : Flows (g.Declares s.locals) [] s.code σ
  declared : ∀ x ∈ s.stored, g.Declares s.locals x.1 x.2

namespace Typed

variable {g : Graph} {known : List Encoding} {σ τ : List Shape} {s s' : State}

/-- All local variables are known. -/
theorem here (h : s.Typed g known σ) : s.Typed g s.locals σ :=
  ⟨List.prefix_refl _, h.flows, h.declared⟩

/-- Fewer local variables may be known. -/
theorem forget {known' : List Encoding} (h : s.Typed g known' σ) (hk : known <+: known') :
    s.Typed g known σ := ⟨hk.trans h.grows, h.flows, h.declared⟩

/-- A change that writes nothing and keeps only further storage that is declared. -/
theorem change (h : s.Typed g known σ) (hl : s'.tape.listing = s.tape.listing)
    (hs : ∀ x ∈ s'.stored, x ∈ s.stored ∨ g.Declares s.locals x.1 x.2) : s'.Typed g known σ := by
  have locals : s'.locals = s.locals := congrArg (·.locals.toList) hl
  have code : s'.code = s.code := congrArg (·.insns.toList) hl
  refine ⟨?_, ?_, fun x hx => ?_⟩
  · rw [locals]
    exact h.grows
  · rw [locals, code]
    exact h.flows
  · rw [locals]
    exact (hs x hx).elim (h.declared x) id

/-- A change of what types do not depend on. -/
theorem congr (h : s.Typed g known σ) (hl : s'.tape.listing = s.tape.listing)
    (hs : s'.stored = s.stored) : s'.Typed g known σ :=
  h.change hl fun _ hx => .inl (hs ▸ hx)

/-- An element is written that the local variables known so far give a type. -/
theorem put (h : s.Typed g known σ) {i : Insn} (hi : i.Types (g.Declares known) σ τ) :
    { s with tape := s.tape.put i }.Typed g known τ := by
  have locals : { s with tape := s.tape.put i }.locals = s.locals :=
    congrArg Array.toList (Tape.locals_put _ _)
  refine ⟨?_, ?_, ?_⟩
  · rw [locals]
    exact h.grows
  · rw [locals]
    have code : { s with tape := s.tape.put i }.code = s.code ++ [i] := Tape.toList_put _ _
    rw [code]
    exact h.flows.append (hi.mono (Graph.Declares.mono h.grows)).flows
  · rw [locals]
    exact h.declared

/-- A local variable is declared. -/
theorem declare (h : s.Typed g known σ) (e : Encoding) :
    { s with tape := (s.tape.declare e).2 }.Typed g known σ ∧
      g.Declares { s with tape := (s.tape.declare e).2 }.locals (.slot (s.tape.declare e).1) e := by
  have locals : { s with tape := (s.tape.declare e).2 }.locals = s.locals ++ [e] :=
    Array.toList_push
  have more : s.locals <+: s.locals ++ [e] := List.prefix_append _ _
  have mono := Graph.Declares.mono (g := g) more
  refine ⟨⟨?_, ?_, ?_⟩, ?_⟩
  · rw [locals]
    exact h.grows.trans more
  · rw [locals]
    exact h.flows.mono mono
  · rw [locals]
    exact fun x hx => mono _ _ (h.declared x hx)
  · rw [locals]
    exact List.getElem?_concat_length

/-! ### What is stored -/

/-- The place of a variable is declared. -/
theorem place (h : s.Typed g known σ) {p : Place} (hp : p ∈ s.places) :
    g.Declares s.locals p.storage p.encoding :=
  h.declared (p.storage, p.encoding) (by grind [stored])

theorem temp (h : s.Typed g known σ) {e : Encoding} {id : LocalId}
    (found : s.temps.lookup e = some id) : g.Declares s.locals (.slot id) e := by
  obtain ⟨before, after, split, -⟩ := List.lookup_eq_some_iff.mp found
  exact h.declared (.slot id, e) (by simp [stored, split])

/-- The local variable of an enumerator is one for objects. -/
theorem enumerator (h : s.Typed g known σ) {b : BlockId} {id : LocalId}
    (found : s.enumerators.lookup b = some id) :
    g.Declares s.locals (.slot id) (.object none) := by
  obtain ⟨before, after, split, -⟩ := List.lookup_eq_some_iff.mp found
  exact h.declared (.slot id, .object none) (by simp [stored, split])

theorem returned (h : s.Typed g known σ) {shared : LocalId × Label}
    (found : s.returnSlot = some shared) : g.Declares s.locals (.slot shared.1) .value :=
  h.declared (.slot shared.1, .value) (by simp [stored, found])

end Typed
end State

namespace Gen

variable {α β : Type} {g : Graph} {known : List Encoding} {σ υ : List Shape}
  {τ : α → List Shape} {fact : List Encoding → α → Prop}

/-- The types of the code that a computation writes, with a fact about its result (module doc). -/
def Finds (g : Graph) (known : List Encoding) (σ : List Shape) (τ : α → List Shape)
    (fact : List Encoding → α → Prop) (m : Gen α) : Prop :=
  Meets (·.Typed g known σ) m (fun a s => s.Typed g known (τ a) ∧ fact s.locals a) fun _ _ => True

/-- The types of the code that a computation writes (module doc). -/
abbrev Types (g : Graph) (known : List Encoding) (σ : List Shape) (τ : α → List Shape)
    (m : Gen α) : Prop := Finds g known σ τ (fun _ _ => True) m

/-! ## Rules -/

theorem Finds.pure {a : α} (hτ : τ a = σ) (h : ∀ locals, known <+: locals → fact locals a) :
    Finds g known σ τ fact (pure a) :=
  Meets.pure fun _ typed => ⟨hτ ▸ typed, h _ typed.grows⟩

theorem Types.pure {a : α} (hτ : τ a = σ) : Types g known σ τ (pure a) :=
  Finds.pure hτ fun _ _ => trivial

theorem Finds.throw (e : Fault) : Finds g known σ τ fact (throw e) :=
  Meets.throw fun _ _ => trivial

theorem Finds.throw_bind (e : Fault) (f : β → Gen α) :
    Finds g known σ τ fact ((MonadExcept.throw e : Gen β) >>= f) := fun _ _ => trivial

/-- The second part may use the fact, and the local variables declared by then. -/
theorem Finds.bind {ρ : β → List Shape} {goal : List Encoding → β → Prop} {m : Gen α}
    {f : α → Gen β} (hm : Finds g known σ τ fact m)
    (hf : ∀ a known', known <+: known' → fact known' a → Finds g known' (τ a) ρ goal (f a)) :
    Finds g known σ ρ goal (m >>= f) := fun s hs =>
  (hm s hs).bind fun a s' ⟨typed, holds⟩ => by
    -- The second part starts with all local variables known, and ends with at least those.
    have rest := hf a s'.locals typed.grows holds s' typed.here
    unfold MeetsFrom at rest ⊢
    split at rest
    · exact ⟨rest.1.forget typed.grows, rest.2⟩
    · trivial

/-- Code that reads the state knows the local variables that are declared then. -/
theorem Finds.get_bind {f : State → Gen α}
    (h : ∀ s, s.Typed g known σ → Finds g s.locals σ τ fact (f s)) :
    Finds g known σ τ fact (get >>= f) := by
  have read : Finds g known σ (fun _ => σ)
      (fun locals s => locals = s.locals ∧ s.Typed g known σ) get := fun _ typed =>
    ⟨typed, rfl, typed⟩
  refine read.bind fun s known' _ ⟨same, typed⟩ => ?_
  rw [same]
  exact h s typed

/-- A first part that only reads the state. -/
theorem Finds.read {m : Gen β} {f : β → Gen α} (hm : ∀ s, ∃ b, m s = .ok b s)
    (h : ∀ b, Finds g known σ τ fact (f b)) : Finds g known σ τ fact (m >>= f) := fun s typed => by
  obtain ⟨b, hr⟩ := hm s
  exact MeetsFrom.read hr (h b s typed)

/-- One thing after the other leads from the first types to the last. -/
theorem Types.bind {ρ : β → List Shape} {goal : List Encoding → β → Prop} {m : Gen α}
    {f : α → Gen β} (hm : Types g known σ τ m) (hf : ∀ a, Finds g known (τ a) ρ goal (f a)) :
    Finds g known σ ρ goal (m >>= f) := Meets.bind hm fun a s hs => hf a s hs.1

/-- A loop whose rounds keep the types keeps them. -/
theorem Types.forM {γ : Type} {f : γ → Gen Unit} (l : List γ)
    (h : ∀ x ∈ l, Types g known σ (fun _ => σ) (f x)) :
    Types g known σ (fun _ => σ) (l.forM f) := by
  induction l with
  | nil => exact Types.pure rfl
  | cons x l ih =>
    refine Types.bind (h x List.mem_cons_self) fun _ => ih fun y hy => ?_
    exact h y (List.mem_cons_of_mem x hy)

/-- A change of what types do not depend on. -/
theorem Types.modify {f : State → State} (hl : ∀ s, (f s).tape.listing = s.tape.listing)
    (hs : ∀ s, (f s).stored = s.stored) :
    Types g known σ (fun _ => σ) (modify f : Gen Unit) :=
  Meets.modify fun s typed => ⟨typed.congr (hl s) (hs s), trivial⟩

/-- The state comes to keep further storage, which is declared. -/
theorem keep_types {f : State → State} {storage : Storage} {e : Encoding}
    (declared : g.Declares known storage e) (hl : ∀ s, (f s).tape.listing = s.tape.listing)
    (hs : ∀ s, ∀ x ∈ (f s).stored, x ∈ s.stored ∨ x = (storage, e)) :
    Types g known σ (fun _ => σ) (modify f : Gen Unit) := by
  refine Meets.modify fun s typed => ⟨typed.change (hl s) fun x hx => ?_, trivial⟩
  refine (hs s x hx).imp_right ?_
  rintro rfl
  exact Graph.Declares.mono typed.grows _ _ declared

/-! ## Single instructions -/

theorem put_types {i : Insn} (h : i.Types (g.Declares known) σ υ) :
    Types g known σ (fun _ => υ) (put i) :=
  Meets.modify fun _ typed => ⟨typed.put h, trivial⟩

/-- Code that flows from types to types may be written. -/
theorem putAll_types {code : List Insn} (h : Flows (g.Declares known) σ code υ) :
    Types g known σ (fun _ => υ) (putAll code) := by
  induction h with
  | nil => exact fun _ typed => ⟨typed, trivial⟩
  | cons hi _ ih => exact Types.bind (put_types hi) fun _ => ih

theorem op_types {o : Opcode} (h : o.retype? σ = some υ) :
    Types g known σ (fun _ => υ) (op o) := put_types (.op h)

theorem count_types (f : Counters → Counters) : Types g known σ (fun _ => σ) (count f) :=
  Types.modify (fun _ => rfl) fun _ => rfl

/-- A helper takes and leaves entries as its type says. -/
theorem callDirect_types {h : Helper} (hr : h.retype? σ = some υ) :
    Types g known σ (fun _ => υ) (callDirect h) := fun s typed => by
  have hcall : (Insn.call ((s.registry.after (s.peers.headD [])).resolve h).1).Types
      (g.Declares known) σ υ := .call (by rw [Registry.helper_resolve]; exact hr)
  exact ⟨(typed.put hcall).congr rfl rfl, trivial⟩

/-- The context is pushed for a helper that needs it. -/
theorem call_types {h : Helper} (hr : h.retype? (h.context ++ σ) = some υ) :
    Types g known σ (fun _ => υ) (call h) := by
  unfold Helper.context at hr
  unfold call
  split
  · rename_i needed
    rw [if_pos needed] at hr
    exact Types.bind (op_types (o := .ldctx) rfl) fun _ => callDirect_types hr
  · rename_i needless
    rw [if_neg needless] at hr
    exact callDirect_types hr

theorem branch_types {o : BranchOp} (ho : o.isConditional = true) (target : Label) :
    Types g known [.int32] (fun _ => []) (branch o target) :=
  Types.bind (count_types _) fun _ => put_types (.branch ho)

theorem goto_types {o : BranchOp} (ho : o.isConditional = false) (target : Label) :
    Types g known [] (fun _ => []) (branch o target) :=
  Types.bind (count_types _) fun _ => put_types (.jump ho)

/-! ## Storage -/

/-- The result is a local variable that is known to be declared. -/
theorem slot_finds {id : LocalId} {e : Encoding} (declared : g.Declares known (.slot id) e) :
    Finds g known σ (fun _ => σ) (fun locals id => g.Declares locals (.slot id) e) (pure id) :=
  Finds.pure rfl fun _ more => Graph.Declares.mono more _ _ declared

theorem declare_finds (e : Encoding) :
    Finds g known σ (fun _ => σ) (fun locals id => g.Declares locals (.slot id) e) (declare e) :=
  fun _ typed => typed.declare e

/-- A local variable that is found or declared for a moment has the wanted encoding. -/
theorem temp_finds (e : Encoding) :
    Finds g known σ (fun _ => σ) (fun locals id => g.Declares locals (.slot id) e) (temp e) := by
  refine Finds.get_bind fun s typed => ?_
  cases found : s.temps.lookup e with
  | some id => exact slot_finds (typed.temp found)
  | none =>
    refine (declare_finds e).bind fun id known' _ declared => ?_
    refine Types.bind (keep_types declared (fun _ => rfl) fun s x hx => ?_) fun _ => ?_
    · grind [State.stored]
    · exact slot_finds declared

/-- The variable is stored where it is declared. -/
theorem place_finds (v : VarId) :
    Finds g known σ (fun _ => σ) (fun locals p => g.Declares locals p.storage p.encoding)
      (place v) := by
  refine Finds.get_bind fun s typed => ?_
  cases found : s.places[v]? with
  | some p =>
    refine Finds.pure rfl ?_
    exact fun _ more => Graph.Declares.mono more _ _ (typed.place (List.mem_of_getElem? found))
  | none => exact Finds.throw _

end Gen
end Linearizer
