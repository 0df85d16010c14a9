import Linearizer.Main
import Linearizer.Machine.Run
import Linearizer.Proofs.BlockLabels
import Linearizer.Proofs.BranchTargets
import Linearizer.Proofs.ControlFlow.Preservation
import Linearizer.Proofs.Machine.Plan
import Linearizer.Proofs.RegionBrackets
import Linearizer.Proofs.RegionContainment
import Linearizer.Proofs.RegionExits
import Linearizer.Proofs.StackDiscipline
import Linearizer.Proofs.JumpTables
import Linearizer.Proofs.Region.Tracking
import Linearizer.Proofs.Region.Origin
import Linearizer.Proofs.RegionEntries
import Linearizer.Proofs.RegionNesting
import Linearizer.Proofs.CleanupExits
import Linearizer.Proofs.RegionEnds
import Linearizer.Proofs.Closed.Identifiers
import Linearizer.Proofs.Closed.Reading
import Linearizer.Proofs.Closed.Lookup
import Linearizer.Proofs.ClosedRoutines
import Linearizer.Proofs.Independence.Alike
import Linearizer.Proofs.Independence.Generator
import Linearizer.Proofs.IndependentRoutines
import Linearizer.Proofs.Typing.Basic
import Linearizer.Proofs.Typing.State
import Linearizer.Proofs.Typing.Value
import Linearizer.Proofs.WellTypedCode
import Linearizer.Proofs.Machine.AliasTargets
import Linearizer.Proofs.Machine.Dispatch
import Linearizer.Proofs.SwitchDispatch
import Linearizer.Proofs.Flat.Requests
import Linearizer.Proofs.Flat.Value
import Linearizer.Proofs.FlatRoutines
import Linearizer.Proofs.Machine.Depth
import Linearizer.Proofs.Machine.AddressConversions
import Linearizer.Proofs.BackwardBranches
import Linearizer.Proofs.ExpressionCode
import Linearizer.Proofs.WrittenForm
import Linearizer.Proofs.Renumbering
import Linearizer.Proofs.CommentLines
import Linearizer.Proofs.Generator.Pieces
import Linearizer.Proofs.Statistics
import Linearizer.Proofs.Locals.Allotment
import Linearizer.Proofs.Locals.Value
import Linearizer.Proofs.Locals.Stride
import Linearizer.Proofs.LocalSlots
import Linearizer.Proofs.Numeral.Spelling
import Linearizer.Proofs.Numeral.Scan
import Linearizer.Proofs.LeadingNumbers
import Linearizer.Proofs.IntegerText
import Linearizer.Proofs.Double.Value
import Linearizer.Proofs.Double.Rounding
import Linearizer.Proofs.Double.Arithmetic
import Linearizer.Proofs.Truncation
import Linearizer.Proofs.Decimal.Layout
import Linearizer.Proofs.Decimal.Significant
import Linearizer.Proofs.DoubleText
import Linearizer.Proofs.Check.Progress
import Linearizer.Proofs.HelperNumbers
import Linearizer.Proofs.DirectiveMatching
import Linearizer.Proofs.DirectiveRange
import Linearizer.Proofs.Queue.Coherence
import Linearizer.Proofs.Queue.Explained
import Linearizer.Proofs.Generator.Journal
import Linearizer.Proofs.Queue.Limits
import Linearizer.Proofs.WaitingBlocks
