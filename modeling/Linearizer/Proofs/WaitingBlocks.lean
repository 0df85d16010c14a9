import Linearizer.Proofs.Queue.Explained
import Linearizer.Proofs.Queue.Limits

/-!
# Waiting blocks at every call

Whenever generation calls a function that schedules blocks, the marks of the blocks that wait agree
with the lists of the open scopes, and nothing waits in a scope when it is closed. Generation is
followed with a journal of its calls, of which no call is missing (`Journaled.routine_complete`).
-/

namespace Linearizer
namespace Graph

/-- Generation with a journal is generation, which no bound stops, and all that it notes is sound:
whenever a function that schedules blocks is called, the blocks with a mark are the ones that stand
in the list of an open scope, each in exactly one and inside of that scope, and they are live and
have not been written; and nothing waits in a scope when it is closed. The journal is complete: what
has been done to the schedule is explained by what was noted before. -/
theorem generate_keeps_queues (g : Graph) (options : Options) (registry : Registry)
    (peers : List (List Helper)) :
    let start : State := { registry, peers }
    let run := Journaled.routine ⟨g, options⟩ start
    run.2 = Gen.routine ⟨g, options⟩ start ∧
      (∀ d, (g.generateAmong options registry peers).outcome = .error d → d.fault ≠ .nesting) ∧
      (∀ x ∈ run.1, x.Sound g) ∧ Journaled.Complete 0 [] run.1 run.2 := by
  intro start run
  have hstart : start.Explained 1 [] :=
    ⟨List.forall_mem_nil _, List.forall_mem_nil _, fun _ _ _ => Nat.le_refl 0, Nat.one_pos⟩
  have hbounded := Journaled.routine_bounded ⟨g, options⟩ registry peers
  have hrun : run.2 = Gen.routine ⟨g, options⟩ start :=
    congrFun (Journaled.erase_routine ⟨g, options⟩) start
  refine ⟨hrun, fun d hd hfault => ?_, fun x hx => ?_,
    Journaled.routine_complete ⟨g, options⟩ hstart⟩
  · -- A run that the bound had stopped would have failed with that fault.
    unfold generateAmong at hd
    have hends := hbounded.erase
    rw [Journaled.erase_routine] at hends
    cases hr : Gen.routine ⟨g, options⟩ start with
    | ok _ s =>
      rw [EStateM.run, hr] at hd
      cases hd
    | error fault s =>
      rw [EStateM.run, hr] at hd
      cases hd
      obtain ⟨-, -, hno⟩ := hends.of_error hr
      rw [show fault = .nesting from hfault] at hno
      cases hno
  · obtain ⟨-, ⟨n, hsteps, -⟩, active, drained⟩ := hbounded.noted x hx
    exact ⟨active, State.Coherent.steps (.of_closed rfl rfl) hsteps, drained⟩

/-- The body of the region leads to a block of the handler, which comes to wait in the scope of the
routine; the handler takes it over when it branches there. -/
def handOver : Graph where
  name := "handOver"
  vars := [⟨"flag", .param 0, .value, .any⟩]
  blocks := [
    ⟨"entry", false, [], some (.protect 1 [⟨0, none, 2⟩] none 4)⟩,
    ⟨"body", false, [], some (.goto 3)⟩,
    ⟨"handler", false, [], some (.conditional (.var 0 .any) 4 3)⟩,
    ⟨"shared", false, [], some (.goto 4)⟩,
    ⟨"next", false, [], none⟩]

theorem handOver_keeps_queues :
    let run := Journaled.routine ⟨handOver, {}⟩ { registry := {} }
    run.1.map (fun x => (x.call, x.state.scopes.map Scope.pending)) = [
      (.visit false 0, [[]]),
      (.visit false 1, [[], []]),
      (.visit true 3, [[], []]),
      (.enqueueOuter 3, [[], []]),
      (.closeScope .body, [[], [3]]),
      (.visit false 2, [[], [3]]),
      (.branchTo .brfalse 3, [[], [3]]),
      (.schedule 3, [[], [3]]),
      (.visit true 4, [[3], []]),
      (.enqueueOuter 4, [[3], []]),
      (.visit false 3, [[], [4]]),
      (.visit true 4, [[], [4]]),
      (.enqueueOuter 4, [[], [4]]),
      (.closeScope .handler, [[], [4]]),
      (.visit true 4, [[4]]),
      (.closeScope .routine, [[]])] ∧
      ∀ x ∈ run.1, x.Sound handOver :=
  ⟨by decide +kernel, (handOver.generate_keeps_queues {} {} []).2.2.1⟩

end Graph
end Linearizer
