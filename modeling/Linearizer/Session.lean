/-!
# Sessions

A session generates routines one after the other and keeps statistics of them. A routine that fails
only counts as failed. Statistics of several sessions can be added up.
-/

namespace Linearizer

/-- What is counted while a routine is generated. -/
structure Counters where
  /-- Blocks whose code was written. -/
  blocksEmitted : Nat := 0
  /-- Blocks written right after the block that leads to them. -/
  fallthroughs : Nat := 0
  /-- Branches of all forms. -/
  branches : Nat := 0
  /-- Transfers to blocks that were written before. -/
  backEdges : Nat := 0
  /-- Blocks handed to a scope further out. -/
  deferred : Nat := 0
  /-- Scopes opened inside the routine. -/
  scopesOpened : Nat := 0
  /-- Conversions with at least one step. -/
  conversions : Nat := 0
  /-- Conversions that rely on a hint of one kind. -/
  specialized : Nat := 0
  /-- Conversions of a variable through its address. -/
  byAddress : Nat := 0
  /-- Calls of helpers. -/
  helperCalls : Nat := 0
  /-- Jump tables. -/
  jumpTables : Nat := 0
  /-- Instructions; labels and markers of regions do not count. -/
  instructions : Nat := 0
deriving DecidableEq

/-- The sums of two sets of counters. -/
def Counters.add (a b : Counters) : Counters where
  blocksEmitted := a.blocksEmitted + b.blocksEmitted
  fallthroughs := a.fallthroughs + b.fallthroughs
  branches := a.branches + b.branches
  backEdges := a.backEdges + b.backEdges
  deferred := a.deferred + b.deferred
  scopesOpened := a.scopesOpened + b.scopesOpened
  conversions := a.conversions + b.conversions
  specialized := a.specialized + b.specialized
  byAddress := a.byAddress + b.byAddress
  helperCalls := a.helperCalls + b.helperCalls
  jumpTables := a.jumpTables + b.jumpTables
  instructions := a.instructions + b.instructions

/-- The statistics of some routines. -/
structure Stats where
  /-- Routines that were generated. -/
  compiled : Nat := 0
  /-- Routines that failed. -/
  failed : Nat := 0
  /-- The sums over the generated routines. -/
  totals : Counters := {}
  /-- The instructions of the largest routine, the first of several. -/
  largestSize : Nat := 0
  /-- The name of the largest routine. -/
  largestName : String := ""
deriving DecidableEq

namespace Stats

/-- The statistics of two groups of routines, one after the other. -/
def merge (a b : Stats) : Stats where
  compiled := a.compiled + b.compiled
  failed := a.failed + b.failed
  totals := a.totals.add b.totals
  largestSize := if a.largestSize < b.largestSize then b.largestSize else a.largestSize
  largestName := if a.largestSize < b.largestSize then b.largestName else a.largestName

/-- The statistics as a report. -/
def report (s : Stats) : String :=
  let t := s.totals
  "Code Generation Statistics:\n" ++
  s!"  Routines compiled: {s.compiled}\n" ++
  s!"  Routines failed: {s.failed}\n" ++
  s!"  Instructions: {t.instructions}\n" ++
  s!"  Blocks emitted: {t.blocksEmitted} ({t.fallthroughs} fallthrough)\n" ++
  s!"  Branches: {t.branches} ({t.backEdges} back edges)\n" ++
  s!"  Blocks deferred to outer scopes: {t.deferred}\n" ++
  s!"  Nested scopes: {t.scopesOpened}\n" ++
  s!"  Conversions: {t.conversions} ({t.specialized} specialized, {t.byAddress} by address)\n" ++
  s!"  Helper calls: {t.helperCalls}\n" ++
  s!"  Jump tables: {t.jumpTables}\n" ++
  if s.largestName = "" then ""
  else s!"  Largest routine: {s.largestName} ({s.largestSize} instructions)\n"

end Stats

/-- A session. -/
structure Session where
  /-- The statistics of the routines so far. -/
  stats : Stats := {}
  /-- The routine being generated. -/
  current : Option String := none
deriving DecidableEq

namespace Session

/-- Starts a routine. -/
def start (s : Session) (name : String) : Session := { s with current := some name }

/-- Ends a routine that was generated. -/
def record (s : Session) (name : String) (c : Counters) : Session where
  stats :=
    let stats := { s.stats with
      compiled := s.stats.compiled + 1
      totals := s.stats.totals.add c }
    if stats.largestSize < c.instructions then
      { stats with largestSize := c.instructions, largestName := name }
    else stats

/-- Ends a routine that failed. -/
def fail (s : Session) : Session where
  stats := { s.stats with failed := s.stats.failed + 1 }

end Session
end Linearizer
