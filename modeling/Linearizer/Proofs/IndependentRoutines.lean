import Linearizer.Compile
import Linearizer.Proofs.Independence.Generator

/-!
# Routines are compiled independently

Routines that share a registry do not influence each other: what becomes of each, its listing but
for the numbers of helpers or its diagnostic, is what becomes of it alone. The statistics of
separate sessions add up to those of one session.

- **Alone** (`Graph.alone`): what becomes of a routine in a new session with an empty registry.
- **Interleavings** (`Interleaves`): an order in which the calls of routines can reach the registry
  that they share, so that each routine has written the references that it was given.
- **Statistics** (`Stats.merge_assoc`): groups of routines can be added up in any grouping.

`compile_independent` is the result for all ways to compile some routines.
-/

namespace Linearizer

/-! ## Statistics -/

namespace Stats

/-- The statistics of one generated routine. -/
def ofRoutine (name : String) (c : Counters) : Stats where
  compiled := 1
  totals := c
  largestSize := c.instructions
  largestName := if 0 < c.instructions then name else ""

/-- The statistics of one routine that failed. -/
def ofFailure : Stats where
  failed := 1

/-- Groups of routines can be added up in any grouping. -/
theorem merge_assoc (a b c : Stats) : (a.merge b).merge c = a.merge (b.merge c) := by
  have larger : (if (if a.largestSize < b.largestSize then b.largestSize else a.largestSize) <
        c.largestSize then c.largestName
      else if a.largestSize < b.largestSize then b.largestName else a.largestName) =
      if a.largestSize < (if b.largestSize < c.largestSize then c.largestSize else b.largestSize)
      then if b.largestSize < c.largestSize then c.largestName else b.largestName
      else a.largestName := by
    grind
  simp only [merge, Counters.add, Nat.add_assoc, mk.injEq, true_and]
  exact ⟨by grind, larger⟩

/-- Nothing is added by no routines at the end. -/
theorem merge_none (a : Stats) : a.merge {} = a := by
  simp [merge, Counters.add]

/-- No routines at the start play no part behind others. -/
theorem merge_none_merge (a b : Stats) : a.merge (merge {} b) = a.merge b := by
  rw [← merge_assoc, merge_none]

end Stats

/-- A routine that was generated adds its own statistics. -/
theorem Session.stats_record (s : Session) (name : String) (c : Counters) :
    (s.record name c).stats = s.stats.merge (.ofRoutine name c) := by
  unfold record Stats.merge Stats.ofRoutine
  by_cases hsize : s.stats.largestSize < c.instructions
  · have hpos : 0 < c.instructions := Nat.zero_lt_of_lt hsize
    simp [hsize, hpos]
  · simp [hsize]

theorem Session.stats_fail (s : Session) : s.fail.stats = s.stats.merge .ofFailure := by
  simp [fail, Stats.merge, Stats.ofFailure, Counters.add]

/-! ## One routine -/

/-- Generation from any registry, whatever others call in between, makes the same of a routine as
generation alone, but for the numbers of helpers, which are those that the registry gives. -/
theorem Graph.generateAmong_alike (g : Graph) (options : Options) (registry : Registry)
    (peers : List (List Helper)) :
    let generation := g.generateAmong options registry peers
    generation.outcome = (g.generate options {}).outcome ∧
      generation.listing.anonymous = (g.generate options {}).listing.anonymous ∧
      generation.listing.calls = (Service.serve ⟨registry, peers, []⟩
        (generation.listing.calls.map HelperRef.helper)).answers := by
  have alike : State.Alike ⟨registry, peers, []⟩ { registry, peers } { registry := {} } :=
    ⟨rfl, rfl⟩
  have agree := Gen.routine_oblivious ⟨g, options⟩ _ _ alike
  unfold generate generateAmong EStateM.run
  generalize Gen.routine ⟨g, options⟩ { registry, peers } = r,
    Gen.routine ⟨g, options⟩ { registry := {} } = r' at agree
  cases agree with
  | @ok _ s s' h =>
    refine ⟨?_, congrArg (·.tape.listing) h.same, congrArg Service.answers h.served⟩
    have hc : s.counters = s'.counters := congrArg (·.counters) h.same
    have he : s.tape.emitted = s'.tape.emitted := congrArg (·.tape.emitted) h.same
    simp only [hc, he]
  | @error e s s' h =>
    refine ⟨?_, congrArg (·.tape.listing) h.same, congrArg Service.answers h.served⟩
    have hs : s.span = s'.span := congrArg (·.span) h.same
    simp only [hs]

/-- What becomes of a routine, without the numbers of helpers. -/
def Compiled.anonymous (c : Compiled) : Compiled := c.map Listing.anonymous

/-- What becomes of a routine that is compiled alone, without the numbers of helpers. -/
def Graph.alone (options : Options) (g : Graph) : Compiled :=
  Compiled.anonymous (Session.compile {} options {} g).1

/-- The statistics of a routine. -/
def Generation.stats (generation : Generation) (name : String) : Stats :=
  match generation.outcome with
  | .ok counters => .ofRoutine name counters
  | .error _ => .ofFailure

/-- The statistics of a routine that is compiled alone. -/
def Graph.stats (options : Options) (g : Graph) : Stats := (g.generate options {}).stats g.name

theorem Session.result_finish (s : Session) (g : Graph) (generation : Generation) :
    (s.finish g generation).1 = generation.result := by
  unfold finish Generation.result
  cases generation.outcome <;> rfl

theorem Session.stats_finish (s : Session) (g : Graph) (generation : Generation) :
    (s.finish g generation).2.stats = s.stats.merge (generation.stats g.name) := by
  unfold finish Generation.stats
  cases generation.outcome with
  | ok counters => exact (s.start g.name).stats_record g.name counters
  | error d => exact (s.start g.name).stats_fail

/-- What becomes of a routine and its statistics are the same as alone. -/
theorem Session.finish_alone (s : Session) (options : Options) (registry : Registry)
    (peers : List (List Helper)) (g : Graph) :
    Compiled.anonymous (s.finish g (g.generateAmong options registry peers)).1 =
        g.alone options ∧
      (s.finish g (g.generateAmong options registry peers)).2.stats =
        s.stats.merge (g.stats options) := by
  obtain ⟨ho, hl, -⟩ := g.generateAmong_alike options registry peers
  constructor
  · show Compiled.anonymous _ = Compiled.anonymous (finish {} g (g.generate options {})).1
    rw [result_finish, result_finish, Generation.result, Generation.result, ho]
    cases (g.generate options {}).outcome with
    | ok counters => exact congrArg Except.ok hl
    | error d => rfl
  · rw [stats_finish, Graph.stats, Generation.stats, Generation.stats, ho]

/-- A routine that fails counts as failed and for nothing else. -/
theorem Session.compile_failed (s : Session) {options : Options} {registry : Registry} {g : Graph}
    {d : Diagnostic} (h : (s.compile options registry g).1 = .error d) :
    (s.compile options registry g).2.1.stats = { s.stats with failed := s.stats.failed + 1 } := by
  change (s.finish g (g.generate options registry)).1 = .error d at h
  change (s.finish g (g.generate options registry)).2.stats = _
  unfold finish at h ⊢
  cases ho : (g.generate options registry).outcome with
  | ok counters =>
    rw [ho] at h
    cases h
  | error d' => rfl

/-! ## Several routines -/

/-- The statistics of the routines, added one by one to those of others. -/
def Stats.addEach (options : Options) (stats : Stats) (graphs : List Graph) : Stats :=
  graphs.foldl (fun stats g => stats.merge (g.stats options)) stats

theorem Session.compileEach_alone (options : Options) (s : Session) (registry : Registry)
    (graphs : List Graph) :
    (compileEach options s registry graphs).1.map Compiled.anonymous =
        graphs.map (Graph.alone options) ∧
      (compileEach options s registry graphs).2.1.stats = s.stats.addEach options graphs := by
  induction graphs generalizing s registry with
  | nil => exact ⟨rfl, rfl⟩
  | cons g rest ih =>
    obtain ⟨hfirst, hstats⟩ := s.finish_alone options registry [] g
    obtain ⟨hothers, hrest⟩ :=
      ih (s.compile options registry g).2.1 (s.compile options registry g).2.2
    have hsum := congrArg (Stats.addEach options · rest) hstats
    exact ⟨congrArg₂ List.cons hfirst hothers, hrest.trans hsum⟩

/-- The routines have been compiled in new sessions, each as alone. -/
def Apart (options : Options) (graphs : List Graph) (finished : List (Compiled × Session)) : Prop :=
  finished.map (fun x => (x.1.anonymous, x.2.stats)) =
    graphs.map fun g => (g.alone options, Stats.merge {} (g.stats options))

/-- Sessions of their own add up to the statistics of one. -/
theorem Apart.ofSessions {options : Options} {graphs : List Graph}
    {finished : List (Compiled × Session)} (h : Apart options graphs finished)
    (registry : Registry) :
    (Batch.ofSessions finished registry).results.map Compiled.anonymous =
        graphs.map (Graph.alone options) ∧
      (Batch.ofSessions finished registry).stats = Stats.addEach options {} graphs := by
  constructor
  · simpa [Batch.ofSessions, Function.comp_def] using congrArg (List.map Prod.fst) h
  · have hstats : finished.map (·.2.stats) =
        graphs.map fun g => Stats.merge {} (g.stats options) := by
      simpa [Function.comp_def] using congrArg (List.map Prod.snd) h
    calc finished.foldl (fun stats x => stats.merge x.2.stats) {}
        = (finished.map (·.2.stats)).foldl Stats.merge {} := List.foldl_map.symm
      _ = graphs.foldl (fun stats g => stats.merge (Stats.merge {} (g.stats options))) {} := by
          rw [hstats, List.foldl_map]
      _ = Stats.addEach options {} graphs := by simp only [Stats.merge_none_merge]; rfl

theorem Session.compileApart_alone (options : Options) (registry : Registry)
    (graphs : List Graph) :
    Apart options graphs (compileApart options false registry graphs).1 := by
  induction graphs generalizing registry with
  | nil => rfl
  | cons g rest ih =>
    obtain ⟨hfirst, hstats⟩ := Session.finish_alone {} options registry [] g
    exact congrArg₂ List.cons (congrArg₂ Prod.mk hfirst hstats) (ih _)

theorem compileTogether_alone (options : Options) (registry : Registry) (calls : List SharedCall)
    (graphs : List Graph) :
    Apart options graphs (graphs.mapIdx fun k g =>
      Session.finish {} g (g.generateAmong options registry (SharedCall.interference k calls))) := by
  refine List.ext_getElem (by simp) fun k hk _ => ?_
  simp only [List.getElem_map, List.getElem_mapIdx]
  obtain ⟨hresult, hstats⟩ := Session.finish_alone {} options registry _ _
  exact congrArg₂ Prod.mk hresult hstats

/-! ## Interleavings -/

namespace SharedCall

/-- The helpers that a routine calls. -/
def callsOf (k : Nat) (calls : List SharedCall) : List Helper :=
  (calls.filter (·.routine = k)).map SharedCall.helper

/-- What a registry that receives some calls in order answers a routine. -/
def answers (k : Nat) : Registry → List SharedCall → List HelperRef
  | _, [] => []
  | r, call :: rest =>
    let (callee, r) := r.resolve call.helper
    if call.routine = k then callee :: answers k r rest else answers k r rest

section Cons

variable {k : Nat} {call : SharedCall} (rest : List SharedCall)

theorem callsOf_own (h : call.routine = k) :
    callsOf k (call :: rest) = call.helper :: callsOf k rest := by
  simp [callsOf, h]

theorem callsOf_other (h : call.routine ≠ k) : callsOf k (call :: rest) = callsOf k rest := by
  simp [callsOf, h]

theorem answers_own (h : call.routine = k) (r : Registry) :
    answers k r (call :: rest) =
      (r.resolve call.helper).1 :: answers k (r.resolve call.helper).2 rest := by
  simp [answers, h]

theorem answers_other (h : call.routine ≠ k) (r : Registry) :
    answers k r (call :: rest) = answers k (r.resolve call.helper).2 rest := by
  simp [answers, h]

theorem interference_own (h : call.routine = k) :
    interference k (call :: rest) = [] :: interference k rest := if_pos h

theorem interference_other (h : call.routine ≠ k) :
    interference k (call :: rest) = (interference k rest).modifyHead (call.helper :: ·) := if_neg h

end Cons

theorem helper_answers (k : Nat) (r : Registry) (calls : List SharedCall) :
    (answers k r calls).map HelperRef.helper = callsOf k calls := by
  induction calls generalizing r with
  | nil => rfl
  | cons call rest ih =>
    by_cases hk : call.routine = k
    · rw [answers_own rest hk, callsOf_own rest hk, List.map_cons, Registry.helper_resolve, ih]
    · rw [answers_other rest hk, callsOf_other rest hk, ih]

theorem exists_interference (k : Nat) (calls : List SharedCall) :
    ∃ first others, interference k calls = first :: others := by
  induction calls with
  | nil => exact ⟨[], [], rfl⟩
  | cons call rest ih =>
    by_cases hk : call.routine = k
    · exact ⟨_, _, interference_own rest hk⟩
    · obtain ⟨first, others, hr⟩ := ih
      exact ⟨call.helper :: first, others, by rw [interference_other rest hk, hr]; rfl⟩

/-- A call that others make before the next one has been made before it. -/
theorem serve_before (r : Registry) (h : Helper) (first : List Helper) (others : List (List Helper))
    (given : List HelperRef) (calls : List Helper) :
    (Service.serve ⟨r, (h :: first) :: others, given⟩ calls).answers =
      (Service.serve ⟨(r.resolve h).2, first :: others, given⟩ calls).answers := by
  cases calls <;> rfl

/-- A routine that lets the others make their calls before each of its own is answered as by the
registry that receives all calls. -/
theorem serve_interference (k : Nat) (r : Registry) (given : List HelperRef)
    (calls : List SharedCall) :
    (Service.serve ⟨r, interference k calls, given⟩ (callsOf k calls)).answers =
      given ++ answers k r calls := by
  induction calls generalizing r given with
  | nil => exact (List.append_nil given).symm
  | cons call rest ih =>
    by_cases hk : call.routine = k
    · rw [interference_own rest hk, callsOf_own rest hk, answers_own rest hk]
      refine (ih (r.resolve call.helper).2 (given ++ [(r.resolve call.helper).1])).trans ?_
      rw [List.append_assoc]
      rfl
    · obtain ⟨first, others, hr⟩ := exists_interference k rest
      rw [interference_other rest hk, callsOf_other rest hk, answers_other rest hk, hr,
        List.modifyHead_cons, serve_before, ← hr]
      exact ih _ given

end SharedCall

/-- The calls of some routines can reach the registry that they share in this order: each routine
has written the references that the registry has given it. -/
def Interleaves (options : Options) (registry : Registry) (graphs : List Graph)
    (calls : List SharedCall) : Prop :=
  ∀ k g, graphs[k]? = some g →
    (g.generateAmong options registry (SharedCall.interference k calls)).listing.calls =
      SharedCall.answers k registry calls

/-- An order is possible just if each routine makes the calls in it that it makes alone. -/
theorem interleaves_iff (options : Options) (registry : Registry) (graphs : List Graph)
    (calls : List SharedCall) :
    Interleaves options registry graphs calls ↔
      ∀ k g, graphs[k]? = some g →
        SharedCall.callsOf k calls =
          (g.generate options {}).listing.calls.map HelperRef.helper := by
  have same (k : Nat) (g : Graph) :
      (g.generateAmong options registry (SharedCall.interference k calls)).listing.calls.map
          HelperRef.helper =
        (g.generate options {}).listing.calls.map HelperRef.helper := by
    have hl := (g.generateAmong_alike options registry (SharedCall.interference k calls)).2.1
    rw [← Listing.helper_calls_anonymous, hl, Listing.helper_calls_anonymous]
  refine forall_congr' fun k => forall_congr' fun g => imp_congr_right fun _ => ?_
  obtain ⟨-, -, hserved⟩ := g.generateAmong_alike options registry (SharedCall.interference k calls)
  constructor
  · intro h
    rw [← same, h, SharedCall.helper_answers]
  · intro h
    rw [hserved, same, ← h, SharedCall.serve_interference]
    rfl

/-- Routines are compiled independently: in one session, in sessions of their own one after the
other, and at the same time with the calls of helpers in any order, each becomes what it becomes
alone, but for the numbers of helpers; and any order of the calls that the routines make alone is
one in which they can reach the registry. Separate sessions add up to the statistics of one session,
in which a routine that fails counts as failed and for nothing else. -/
theorem compile_independent (options : Options) (registry : Registry) (graphs : List Graph) :
    (∀ s, (Session.compileEach options s registry graphs).1.map Compiled.anonymous =
        graphs.map (Graph.alone options)) ∧
      (compileAll options false registry graphs).results.map Compiled.anonymous =
        graphs.map (Graph.alone options) ∧
      (∀ calls, (compileTogether options registry calls graphs).results.map Compiled.anonymous =
        graphs.map (Graph.alone options)) ∧
      (∀ calls, Interleaves options registry graphs calls ↔
        ∀ k g, graphs[k]? = some g →
          SharedCall.callsOf k calls =
            (g.generate options {}).listing.calls.map HelperRef.helper) ∧
      (compileAll options false registry graphs).stats =
        (Session.compileEach options {} registry graphs).2.1.stats ∧
      (∀ calls, (compileTogether options registry calls graphs).stats =
        (Session.compileEach options {} registry graphs).2.1.stats) ∧
      ∀ (s : Session) g d, (s.compile options registry g).1 = .error d →
        (s.compile options registry g).2.1.stats =
          { s.stats with failed := s.stats.failed + 1 } := by
  have one := (Session.compileEach_alone options {} registry graphs).2
  have apart := (Session.compileApart_alone options registry graphs).ofSessions
    (Session.compileApart options false registry graphs).2
  have together (calls : List SharedCall) :=
    (compileTogether_alone options registry calls graphs).ofSessions
      (registry.after (calls.map (·.helper)))
  refine ⟨?_, ?_, ?_, ?_, ?_, ?_, ?_⟩
  · exact fun s => (Session.compileEach_alone options s registry graphs).1
  · exact apart.1
  · exact fun calls => (together calls).1
  · exact interleaves_iff options registry graphs
  · exact apart.2.trans one.symm
  · exact fun calls => (together calls).2.trans one.symm
  · intro s g d hd
    exact s.compile_failed hd

end Linearizer
