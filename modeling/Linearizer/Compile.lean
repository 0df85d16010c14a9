import Linearizer.Generator.Routine
import Linearizer.Graph.Render

/-!
# Compiling routines

Routines are compiled into listings one by one. A routine that fails leaves a diagnostic and does
not keep the others from being compiled. All routines number their helpers in one registry.

* `Session.compile` compiles a routine in a session, and `Session.compileEach` some in order;
* `compileAll` compiles each routine in a session of its own (`Session.compileApart`) and adds up
  the statistics;
* `compileTogether` compiles the routines at the same time, for an order in which their calls of
  helpers reach the registry.
-/

namespace Linearizer

/-- What becomes of a routine. -/
abbrev Compiled := Except Diagnostic Listing

/-- The text of what becomes of a routine: its listing, or a line with its diagnostic. -/
def Compiled.render (g : Graph) : Compiled → String
  | .ok l => l.render g
  | .error d => "error: " ++ d.message ++ "\n"

namespace Session

/-- Ends a routine with what generation made of it. -/
def finish (s : Session) (g : Graph) (generation : Generation) : Compiled × Session :=
  match generation.outcome with
  | .ok counters => (.ok generation.listing, (s.start g.name).record g.name counters)
  | .error d => (.error d, (s.start g.name).fail)

/-- Compiles a routine. -/
def compile (s : Session) (options : Options) (registry : Registry) (g : Graph) :
    Compiled × Session × Registry :=
  let generation := g.generate options registry
  let (result, session) := s.finish g generation
  (result, session, generation.registry)

/-- Compiles routines in order. -/
def compileEach (options : Options) :
    Session → Registry → List Graph → List Compiled × Session × Registry
  | s, registry, [] => ([], s, registry)
  | s, registry, g :: rest =>
    let (first, s, registry) := s.compile options registry g
    let (others, s, registry) := compileEach options s registry rest
    (first :: others, s, registry)

end Session

/-- What becomes of some routines. -/
structure Batch where
  /-- The routines' listings and diagnostics, in order. -/
  results : List Compiled
  /-- The statistics of all routines. -/
  stats : Stats
  /-- The helpers that are called. -/
  registry : Registry

namespace Batch

/-- The diagnostics of the routines that failed. -/
def failures (b : Batch) : List Diagnostic :=
  b.results.filterMap fun
    | .error d => some d
    | .ok _ => none

/-- Whether no routine failed. -/
def isSuccess (b : Batch) : Bool := b.failures.isEmpty

/-- The batch of routines that have been compiled in sessions of their own. -/
def ofSessions (finished : List (Compiled × Session)) (registry : Registry) : Batch where
  results := finished.map (·.1)
  stats := finished.foldl (fun stats x => stats.merge x.2.stats) {}
  registry

end Batch

/-- Compiles routines in order, each in a session of its own. When it is cancelled before it starts,
a routine fails without being looked at. -/
def Session.compileApart (options : Options) (cancelled : Bool) :
    Registry → List Graph → List (Compiled × Session) × Registry
  | registry, [] => ([], registry)
  | registry, g :: rest =>
    let (result, session, registry) :=
      if cancelled then
        ((.error ⟨g.name, none, .cancelled⟩ : Compiled), Session.fail {}, registry)
      else Session.compile {} options registry g
    let (others, registry) := compileApart options cancelled registry rest
    ((result, session) :: others, registry)

/-- Compiles each routine in a session of its own and adds up the statistics. -/
def compileAll (options : Options) (cancelled : Bool) (registry : Registry)
    (graphs : List Graph) : Batch :=
  let (finished, registry) := Session.compileApart options cancelled registry graphs
  .ofSessions finished registry

/-- A call of a helper by one of several routines that share a registry. -/
structure SharedCall where
  /-- The place of the routine among them. -/
  routine : Nat
  /-- The helper that it calls. -/
  helper : Helper
deriving DecidableEq

/-- What the other routines call before each call of a routine, and after its last one. -/
def SharedCall.interference (k : Nat) : List SharedCall → List (List Helper)
  | [] => [[]]
  | call :: rest =>
    if call.routine = k then [] :: interference k rest
    else (interference k rest).modifyHead (call.helper :: ·)

/-- Compiles routines at the same time, each in a session of its own, where the calls of helpers
reach the registry in the order of `calls`. -/
def compileTogether (options : Options) (registry : Registry) (calls : List SharedCall)
    (graphs : List Graph) : Batch :=
  let finished := graphs.mapIdx fun k g =>
    Session.finish {} g (g.generateAmong options registry (SharedCall.interference k calls))
  .ofSessions finished (registry.after (calls.map (·.helper)))

end Linearizer
