import Linearizer.Proofs.Generator.Pieces

/-!
# Runs that differ in the numbers of helpers

Two runs of a generator whose registries differ write the same code but for the numbers of the
helpers that they call. This holds whatever other routines do to the registry in between.

- **Forgetting** (`anonymous`): code and states without the numbers of helpers and without the
  registry.
- **Service** (`Service`): the registry with what it has answered so far; `State.service` is the one
  that a state is in.
- **States** (`State.Alike start s s'`): `s` and `s'` are the same but for what is forgotten, and
  the service of `s` is `start` after the calls that `s` has written.
- **Computations** (`Gen.Oblivious start m`): from alike states, `m` ends in the same way, with the
  same result or fault, in alike states.
-/

namespace Linearizer

/-! ## Forgetting the numbers -/

namespace Insn

/-- The element without the number of the helper that it calls. -/
def anonymous : Insn → Insn
  | .call callee => .call ⟨0, callee.helper⟩
  | i => i

theorem anonymous_of_callee? {i : Insn} (h : i.callee? = none) : i.anonymous = i := by
  cases i with
  | call => cases h
  | _ => rfl

@[simp] theorem effect?_anonymous (i : Insn) : i.anonymous.effect? = i.effect? := by
  cases i <;> rfl

end Insn

/-- The listing without the numbers of helpers. -/
def Listing.anonymous (l : Listing) : Listing := { l with insns := l.insns.map Insn.anonymous }

theorem Listing.calls_eq (l : Listing) : l.calls = l.insns.toList.filterMap Insn.callee? := rfl

/-- The helpers that are called are not forgotten. -/
theorem Listing.helper_calls_anonymous (l : Listing) :
    l.anonymous.calls.map HelperRef.helper = l.calls.map HelperRef.helper := by
  have hi (i : Insn) :
      i.anonymous.callee?.map HelperRef.helper = i.callee?.map HelperRef.helper := by
    cases i <;> rfl
  simp only [calls_eq, anonymous, Array.toList_map, List.filterMap_map, List.map_filterMap,
    Function.comp_def, hi]

namespace Tape

/-- The tape without the numbers of helpers. -/
def anonymous (t : Tape) : Tape := { t with listing := t.listing.anonymous }

/-- Numbers are left out element by element. -/
theorem anonymous_put (t : Tape) (i : Insn) :
    (t.put i).anonymous = t.anonymous.put i.anonymous := by
  unfold put
  rw [Insn.effect?_anonymous]
  cases i.effect? <;> simp [anonymous, Listing.anonymous]

theorem calls_put (t : Tape) (i : Insn) :
    (t.put i).listing.calls = t.listing.calls ++ i.callee?.toList := by
  rw [Listing.calls_eq, toList_put, List.filterMap_append, ← Listing.calls_eq]
  cases h : i.callee? <;> simp [h]

end Tape

/-- The state without the numbers of helpers and without the registry. -/
def State.anonymous (s : State) : State :=
  { s with tape := s.tape.anonymous, registry := {}, peers := [] }

/-! ## The service of a registry -/

/-- A registry that others use as well, with what it has answered. -/
structure Service where
  /-- The registry. -/
  registry : Registry
  /-- What others call before each of the next calls. -/
  peers : List (List Helper)
  /-- The answers so far. -/
  answers : List HelperRef := []

/-- The service after a call. -/
def Service.answer (service : Service) (h : Helper) : Service :=
  let (callee, registry) :=
    (service.registry.after (service.peers.headD [])).resolve h
  ⟨registry, service.peers.tail, service.answers ++ [callee]⟩

/-- The service after some calls. -/
def Service.serve (service : Service) (calls : List Helper) : Service :=
  calls.foldl answer service

/-- The service that a state is in. -/
def State.service (s : State) : Service := ⟨s.registry, s.peers, s.tape.listing.calls⟩

/-- Calls are served in order. -/
theorem Service.serve_append (service : Service) (calls calls' : List Helper) :
    service.serve (calls ++ calls') = (service.serve calls).serve calls' := List.foldl_append

/-- What is answered is the helper that was called. -/
theorem Service.answers_answer (service : Service) (h : Helper) :
    (service.answer h).answers.map HelperRef.helper =
      service.answers.map HelperRef.helper ++ [h] := by
  simp [answer]

/-- The state after the call of a helper. -/
def State.called (s : State) (h : Helper) : State :=
  let (callee, registry) := (s.registry.after (s.peers.headD [])).resolve h
  { s with
    tape := s.tape.put (.call callee)
    registry
    peers := s.peers.tail
    counters := { s.counters with helperCalls := s.counters.helperCalls + 1 } }

/-- A call is answered by the registry, with what the other routines have asked for before it. -/
theorem State.service_called (s : State) (h : Helper) :
    (s.called h).service = s.service.answer h := by
  simp [service, called, Service.answer, Tape.calls_put, Insn.callee?]

/-- Without its number, the call of a helper is the same from any registry. -/
theorem State.anonymous_called (s : State) (h : Helper) :
    (s.called h).anonymous =
      { s.anonymous with
        tape := s.anonymous.tape.put (.call ⟨0, h⟩)
        counters :=
          { s.anonymous.counters with helperCalls := s.anonymous.counters.helperCalls + 1 } } := by
  simp [anonymous, called, Tape.anonymous_put, Insn.anonymous]

/-- States that differ in nothing but the numbers of helpers and the registry (module doc). -/
structure State.Alike (start : Service) (s s' : State) : Prop where
  same : s.anonymous = s'.anonymous
  served : s.service = start.serve (s.service.answers.map HelperRef.helper)

namespace State.Alike

variable {start : Service} {s s' : State}

theorem depth (h : s.Alike start s') : s.tape.depth = s'.tape.depth :=
  congrArg (·.tape.depth) h.same

theorem locals (h : s.Alike start s') : s.tape.listing.locals = s'.tape.listing.locals :=
  congrArg (·.tape.listing.locals) h.same

theorem scopes (h : s.Alike start s') : s.scopes = s'.scopes := congrArg (·.scopes) h.same

theorem emitted (h : s.Alike start s') : s.emitted = s'.emitted := congrArg (·.emitted) h.same

theorem queued (h : s.Alike start s') : s.queued = s'.queued := congrArg (·.queued) h.same

theorem enumerators (h : s.Alike start s') : s.enumerators = s'.enumerators :=
  congrArg (·.enumerators) h.same

theorem places (h : s.Alike start s') : s.places = s'.places := congrArg (·.places) h.same

theorem temps (h : s.Alike start s') : s.temps = s'.temps := congrArg (·.temps) h.same

theorem returnSlot (h : s.Alike start s') : s.returnSlot = s'.returnSlot :=
  congrArg (·.returnSlot) h.same

theorem nextLabel (h : s.Alike start s') : s.nextLabel = s'.nextLabel :=
  congrArg (·.nextLabel) h.same

/-- A change that neither looks at what is forgotten nor touches it. -/
theorem change {f : State → State}
    (hf : ∀ s tape registry peers,
      f { s with tape, registry, peers } = { f s with tape, registry, peers })
    (h : s.Alike start s') : (f s).Alike start (f s') := by
  have keeps (s : State) :
      f s = { f s with tape := s.tape, registry := s.registry, peers := s.peers } :=
    hf s s.tape s.registry s.peers
  have forgets (s : State) : (f s).anonymous = f s.anonymous := by
    refine Eq.trans ?_ (hf s s.tape.anonymous {} []).symm
    rw [keeps s]
    rfl
  refine ⟨by rw [forgets, forgets, h.same], ?_⟩
  rw [keeps s]
  exact h.served

/-- A change of the tape that looks at no number and writes no call. -/
theorem tape (f : Tape → Tape) (hf : ∀ t, (f t).anonymous = f t.anonymous)
    (hc : ∀ t, (f t).listing.calls = t.listing.calls) (h : s.Alike start s') :
    ({ s with tape := f s.tape } : State).Alike start { s' with tape := f s'.tape } := by
  have forgets (s : State) : ({ s with tape := f s.tape } : State).anonymous =
      { s.anonymous with tape := f s.anonymous.tape } := by
    show ({ s with tape := (f s.tape).anonymous, registry := {}, peers := [] } : State) = _
    rw [hf]
    rfl
  refine ⟨by rw [forgets, forgets, h.same], ?_⟩
  have hs : ({ s with tape := f s.tape } : State).service = s.service := by
    simp [State.service, hc]
  rw [hs]
  exact h.served

end State.Alike

/-! ## Computations -/

namespace Gen

variable {α β : Type} {start : Service}

/-- Two runs end in the same way, in alike states. -/
inductive Agree (start : Service) :
    EStateM.Result Fault State α → EStateM.Result Fault State α → Prop where
  | ok (a : α) {s s' : State} (h : s.Alike start s') : Agree start (.ok a s) (.ok a s')
  | error (e : Fault) {s s' : State} (h : s.Alike start s') :
    Agree start (.error e s) (.error e s')

/-- A computation whose runs from alike states agree (module doc). -/
def Oblivious (start : Service) (m : Gen α) : Prop :=
  ∀ s s', s.Alike start s' → Agree start (m s) (m s')

theorem Oblivious.pure (a : α) : Oblivious start (pure a : Gen α) := fun _ _ h => .ok a h

theorem Oblivious.throw (e : Fault) : Oblivious start (throw e : Gen α) := fun _ _ h => .error e h

/-- Two runs that agree so far go on with computations that do not look at numbers. -/
theorem Agree.bind {m : Gen α} {f : α → Gen β} {s s' : State} (hm : Agree start (m s) (m s'))
    (hf : ∀ a, Oblivious start (f a)) : Agree start ((m >>= f) s) ((m >>= f) s') := by
  show Agree start (EStateM.bind m f s) (EStateM.bind m f s')
  unfold EStateM.bind
  generalize m s = r, m s' = r' at hm
  cases hm with
  | ok a h => exact hf a _ _ h
  | error e h => exact .error e h

/-- One thing after the other does not look at numbers if neither part does. -/
theorem Oblivious.bind {m : Gen α} {f : α → Gen β} (hm : Oblivious start m)
    (hf : ∀ a, Oblivious start (f a)) : Oblivious start (m >>= f) :=
  fun s s' h => (hm s s' h).bind hf

/-- A loop does not look at numbers if no round does. -/
theorem Oblivious.forM {γ : Type} {f : γ → Gen Unit} (l : List γ)
    (h : ∀ x ∈ l, Oblivious start (f x)) : Oblivious start (l.forM f) := by
  induction l with
  | nil => exact Oblivious.pure ()
  | cons x l ih =>
    exact (h x List.mem_cons_self).bind fun _ => ih fun y hy => h y (List.mem_cons_of_mem x hy)

/-- A computation that reads the state first, in two runs from alike states. -/
theorem Oblivious.get_bind {f : State → Gen β}
    (h : ∀ s s', s.Alike start s' → Agree start (f s s) (f s' s')) :
    Oblivious start (get >>= f) := h

/-- A change that leaves the tape and the registry alone does not look at numbers. -/
theorem Oblivious.modify {f : State → State}
    (hf : ∀ s tape registry peers,
      f { s with tape, registry, peers } = { f s with tape, registry, peers }) :
    Oblivious start (modify f : Gen Unit) := fun _ _ h => .ok () (h.change hf)

/-! ## Instructions -/

/-- An element that calls no helper has no number. -/
theorem put_oblivious {i : Insn} (hi : i.callee? = none) : Oblivious start (put i) := by
  refine fun s s' h => .ok () (h.tape (·.put i) (fun t => ?_) fun t => ?_)
  · rw [Tape.anonymous_put, Insn.anonymous_of_callee? hi]
  · rw [Tape.calls_put, hi]
    exact List.append_nil _

theorem op_oblivious (o : Opcode) : Oblivious start (op o) := put_oblivious rfl

theorem count_oblivious (f : Counters → Counters) : Oblivious start (count f) :=
  Oblivious.modify fun _ _ _ _ => rfl

theorem callDirect_run (h : Helper) (s : State) : callDirect h s = .ok () (s.called h) := rfl

/-- The numbers that two registries give may differ, but the helper is the same. -/
theorem callDirect_oblivious (h : Helper) : Oblivious start (callDirect h) := by
  intro s s' hs
  rw [callDirect_run, callDirect_run]
  refine .ok () ⟨?_, ?_⟩
  · rw [State.anonymous_called, State.anonymous_called, hs.same]
  · rw [State.service_called, Service.answers_answer, Service.serve_append, ← hs.served]
    rfl

theorem declare_oblivious (e : Encoding) : Oblivious start (declare e) := by
  intro s s' h
  show Agree start (.ok s.tape.listing.locals.size { s with tape := (s.tape.declare e).2 })
    (.ok s'.tape.listing.locals.size { s' with tape := (s'.tape.declare e).2 })
  rw [h.locals]
  exact .ok _ (h.tape (fun t => (t.declare e).2) (fun _ => rfl) fun _ => rfl)

/-- Which local variable is free does not depend on numbers of helpers. -/
theorem temp_oblivious (e : Encoding) : Oblivious start (temp e) := by
  refine Oblivious.get_bind fun s s' h => ?_
  rw [h.temps]
  cases s'.temps.lookup e with
  | some id => exact .ok id h
  | none =>
    refine (declare_oblivious e s s' h).bind fun id => ?_
    exact (Oblivious.modify fun _ _ _ _ => rfl).bind fun _ => Oblivious.pure id

theorem place_oblivious (v : VarId) : Oblivious start (place v) := by
  refine Oblivious.get_bind fun s s' h => ?_
  rw [h.places]
  cases s'.places[v]? with
  | some p => exact .ok p h
  | none => exact .error _ h

theorem assume_oblivious :
    Oblivious start (modify fun s => { s with tape := s.tape.assume 1 }) := fun _ _ h =>
  .ok () (h.tape (·.assume 1) (fun _ => rfl) fun _ => rfl)

/-- All code of values. -/
theorem Oblivious.parts : Parts (fun _ => True) fun _ m => Oblivious start m where
  pure := Oblivious.pure
  bind := Oblivious.bind
  unconvertible _ _ _ := Oblivious.throw _
  place _ := place_oblivious _
  put _ := put_oblivious
  callDirect _ := callDirect_oblivious _
  conversion _ := count_oblivious _
  address _ := (count_oblivious _).bind fun _ => count_oblivious _
  declare := declare_oblivious
  temp := temp_oblivious
  assume := assume_oblivious

end Gen
end Linearizer
