import Linearizer.Proofs.Generator.Contract
import Linearizer.Proofs.Generator.Straight

/-!
# The balance of the evaluation stack

Every instruction has to find on the stack what it takes, and the stack has to be empty where
control joins or parts: at labels, at the markers of regions and behind branches. Only the code of
a handler starts with an entry, the exception that it catches.

- **Balance** (`balance?`): how many entries some code leaves, if it keeps these rules;
  `Tape.retrace` is the tape that has written it.
- **Computations** (`Gen.Shifts a b m`): from `a` entries `m` writes code that keeps the rules and
  leaves `b` when it returns. If it fails, what it has written keeps the rules as well.
-/

namespace Linearizer

/-- How many entries an instruction leaves, if it finds what it takes. -/
def Effect.after? (e : Effect) (depth : Nat) : Option Nat :=
  if e.pops ≤ depth then some (depth - e.pops + e.pushes) else none

namespace Insn

/-- How many entries the stack holds at the start of the code behind an element, without an
instruction that pushes them. -/
def caught : Insn → Nat
  | .beginCatch _ => 1
  | _ => 0

/-- How many entries an element leaves, if it keeps the rules (module doc). -/
def settle? (depth : Nat) (i : Insn) : Option Nat :=
  match i.effect? with
  | none => if depth = 0 then some i.caught else none
  | some e => if i.isBranch = true ∧ depth ≠ e.pops then none else e.after? depth

end Insn

/-- How many entries some code leaves, if it keeps the rules (module doc). -/
def balance? (depth : Nat) (code : List Insn) : Option Nat := code.foldlM Insn.settle? depth

/-- Code is followed part by part. -/
theorem balance?_append (depth : Nat) (code code' : List Insn) :
    balance? depth (code ++ code') = (balance? depth code).bind (balance? · code') :=
  List.foldlM_append

theorem balance?_singleton (depth : Nat) (i : Insn) : balance? depth [i] = i.settle? depth := by
  simp [balance?]

theorem balance?_cons {depth n : Nat} {i : Insn} {code : List Insn} :
    balance? depth (i :: code) = some n ↔
      ∃ m, i.settle? depth = some m ∧ balance? m code = some n := by
  simp [balance?, Option.bind_eq_some_iff]

/-! ## Balance and the tape -/

namespace Tape

/-- Writes an element, with the exception that a handler starts with. -/
def follow (t : Tape) (i : Insn) : Tape :=
  match i with
  | .beginCatch _ => (t.put i).assume 1
  | _ => t.put i

/-- The tape that has written some code. -/
def retrace (code : List Insn) : Tape := code.foldl follow {}

@[simp] theorem retrace_append_singleton (code : List Insn) (i : Insn) :
    retrace (code ++ [i]) = (retrace code).follow i := by
  simp [retrace]

theorem follow_of_caught {i : Insn} (h : i.caught = 0) (t : Tape) : t.follow i = t.put i := by
  cases i with
  | beginCatch => cases h
  | _ => rfl

/-- The recorded depth follows the one that an element leads to. -/
theorem depth_follow {t : Tape} {i : Insn} {a b : Nat} (ht : t.depth = a)
    (h : i.settle? a = some b) : (t.follow i).depth = b := by
  unfold Insn.settle? at h
  cases he : i.effect? with
  | none =>
    simp only [he, Option.ite_none_right_eq_some, Option.some.injEq] at h
    obtain ⟨rfl, rfl⟩ := h
    cases i <;> simp_all [follow, put, assume, Insn.caught, Insn.effect?]
  | some e =>
    have hcaught : i.caught = 0 := by
      cases i with
      | beginCatch => cases he
      | _ => rfl
    simp only [he, Effect.after?, Option.ite_none_left_eq_some, Option.ite_none_right_eq_some,
      Option.some.injEq] at h
    rw [follow_of_caught hcaught]
    simp only [put, he, ht]
    omega

/-- So it does over any code. -/
theorem depth_foldl_follow {t : Tape} {code : List Insn} {a b : Nat} (ht : t.depth = a)
    (h : balance? a code = some b) : (code.foldl follow t).depth = b := by
  induction code generalizing t a with
  | nil =>
    cases h
    exact ht
  | cons i rest ih =>
    obtain ⟨m, hi, hrest⟩ := balance?_cons.mp h
    exact ih (depth_follow ht hi) hrest

/-- The tape that has written some code holds as many entries as the code leaves. -/
theorem depth_retrace {code : List Insn} {n : Nat} (h : balance? 0 code = some n) :
    (retrace code).depth = n := depth_foldl_follow rfl h

/-- What the tape has written keeps the rules and leaves `n` entries, and the tape has counted all
along what its code does. -/
structure Settled (n : Nat) (t : Tape) : Prop where
  balance : balance? 0 t.listing.insns.toList = some n
  counted : t = { retrace t.listing.insns.toList with listing := t.listing }

namespace Settled

variable {t : Tape} {a b : Nat}

theorem depth (h : t.Settled a) : t.depth = a :=
  (congrArg Tape.depth h.counted).trans (depth_retrace h.balance)

/-- Another element that can be executed keeps a tape settled. -/
theorem follow (h : t.Settled a) {i : Insn} (hi : i.settle? a = some b) :
    (t.follow i).Settled b := by
  have hl : (t.follow i).listing.insns.toList = t.listing.insns.toList ++ [i] := by
    unfold Tape.follow
    split <;> exact t.toList_put _
  refine ⟨?_, ?_⟩
  · rw [hl, balance?_append, h.balance]
    exact (balance?_singleton a i).trans hi
  · rw [hl, retrace_append_singleton, h.counted]
    cases i <;> simp [Tape.follow, Tape.put, assume, Insn.effect?]

theorem put (h : t.Settled a) {i : Insn} (hc : i.caught = 0) (hi : i.settle? a = some b) :
    (t.put i).Settled b := by
  rw [← follow_of_caught hc]
  exact h.follow hi

theorem declare (h : t.Settled a) (e : Encoding) : (t.declare e).2.Settled a :=
  ⟨h.balance, congrArg (fun u : Tape => (u.declare e).2) h.counted⟩

end Settled
end Tape

/-! ## Computations -/

namespace Gen

variable {α β : Type} {a b c k : Nat}

/-- What is left of a failed run: code that keeps the rules. The fault is never that the stack is
out of balance. -/
def Stopped (e : Fault) (s : State) : Prop :=
  (∀ depth kind, e ≠ .imbalance depth kind) ∧ ∃ n, s.tape.Settled n

/-- The code that a computation writes takes the stack from `a` to `b` entries (module doc). -/
def Shifts (a b : Nat) (m : Gen α) : Prop :=
  Meets (·.tape.Settled a) m (fun _ s => s.tape.Settled b) Stopped

theorem Shifts.pure (x : α) : Shifts a a (pure x : Gen α) := Meets.pure fun _ h => h

theorem Shifts.throw_bind {e : Fault} (h : ∀ depth kind, e ≠ .imbalance depth kind)
    (f : α → Gen β) : Shifts a b ((throw e : Gen α) >>= f) := fun _ hs => ⟨h, a, hs⟩

theorem Shifts.throw {e : Fault} (h : ∀ depth kind, e ≠ .imbalance depth kind) :
    Shifts a b (throw e : Gen α) := Meets.throw fun _ hs => ⟨h, a, hs⟩

/-- One thing after the other changes the depth by both. -/
theorem Shifts.bind {m : Gen α} {f : α → Gen β} (hm : Shifts a b m) (hf : ∀ x, Shifts b c (f x)) :
    Shifts a c (m >>= f) := Meets.bind hm hf

theorem Shifts.get_bind {f : State → Gen β} (h : ∀ s, Shifts a b (f s)) :
    Shifts a b (get >>= f) := Meets.get_bind h

theorem Shifts.forM {γ : Type} {f : γ → Gen Unit} (l : List γ) (h : ∀ x ∈ l, Shifts a a (f x)) :
    Shifts a a (l.forM f) := Meets.forM l h

/-- A change that leaves the tape alone. -/
theorem Shifts.modify {f : State → State} (h : ∀ s, (f s).tape = s.tape) :
    Shifts a a (modify f : Gen Unit) :=
  Meets.modify fun s hs => (h s).symm ▸ hs

theorem put_shifts {i : Insn} (hc : i.caught = 0) (hi : i.settle? a = some b) :
    Shifts a b (put i) := Meets.modify fun _ h => h.put hc hi

theorem putAll_nil_shifts : Shifts a a (putAll []) := fun _ hs => hs

/-- Code is written element by element. -/
theorem putAll_cons_shifts {i : Insn} {rest : List Insn} (hi : Shifts a b (put i))
    (hrest : Shifts b c (putAll rest)) : Shifts a c (putAll (i :: rest)) :=
  hi.bind fun _ => hrest

/-- An instruction that is no branch works on top of any stack. -/
theorem settle?_of_effect (i : Insn) {e : Effect} (he : i.effect? = some e)
    (hb : i.isBranch = false) (k : Nat) : i.settle? (k + e.pops) = some (k + e.pushes) := by
  simp [Insn.settle?, he, hb, Effect.after?]

/-- An instruction changes the depth by its effect. -/
theorem op_shifts (o : Opcode) : Shifts (k + o.effect.pops) (k + o.effect.pushes) (op o) :=
  put_shifts rfl (settle?_of_effect (.op o) rfl rfl k)

theorem ldloc_shifts (slot : LocalId) : Shifts k (k + 1) (put (.ldloc slot)) :=
  put_shifts rfl (settle?_of_effect (.ldloc slot) rfl rfl k)

theorem stloc_shifts (slot : LocalId) : Shifts (k + 1) k (put (.stloc slot)) :=
  put_shifts rfl (settle?_of_effect (.stloc slot) rfl rfl k)

theorem count_shifts (f : Counters → Counters) : Shifts a a (count f) :=
  Shifts.modify fun _ => rfl

/-- A helper takes its arguments and leaves its result, if it has one. -/
theorem callDirect_shifts (h : Helper) :
    Shifts (k + h.arity) (k + h.returns.toNat) (callDirect h) := fun s hs => by
  have hcall := settle?_of_effect
    (.call ((s.registry.after (s.peers.headD [])).resolve h).1) rfl rfl k
  rw [Registry.helper_resolve] at hcall
  exact hs.put rfl hcall

/-- A call takes the arguments that stand on the stack, and the context when it needs one. -/
theorem call_shifts (h : Helper) {n : Nat} (hn : h.arity = n + h.needsContext.toNat) :
    Shifts (k + n) (k + h.returns.toNat) (call h) := by
  have direct := callDirect_shifts (k := k) h
  rw [hn] at direct
  unfold call
  split
  · rename_i hc
    rw [hc] at direct
    exact (op_shifts .ldctx).bind fun _ => direct
  · rename_i hc
    rw [Bool.eq_false_iff.mpr hc] at direct
    exact direct

theorem declare_shifts (e : Encoding) : Shifts a a (declare e) := fun _ hs => hs.declare e

theorem temp_shifts (e : Encoding) : Shifts a a (temp e) := by
  unfold temp
  refine Shifts.get_bind fun s => ?_
  split
  · exact Shifts.pure _
  · refine (declare_shifts e).bind fun id => ?_
    exact (Shifts.modify fun _ => rfl).bind fun _ => Shifts.pure id

theorem place_shifts (v : VarId) : Shifts a a (place v) := by
  unfold place
  refine Shifts.get_bind fun s => ?_
  split
  · exact Shifts.pure _
  · exact Shifts.throw nofun

end Gen
end Linearizer
