import MatchCompiler.Coverage
import MatchCompiler.Diagnostic.Basic
import MatchCompiler.Diagnostic.Code
import MatchCompiler.Diagnostic.Position
import MatchCompiler.Diagnostic.Queue
import MatchCompiler.Diagnostic.Report
import MatchCompiler.Interner
import MatchCompiler.Literal
import MatchCompiler.Number.Double
import MatchCompiler.Number.Shortest
import MatchCompiler.Pattern.Basic
import MatchCompiler.Pattern.CaseName
import MatchCompiler.Pattern.Check
import MatchCompiler.Pattern.Checked
import MatchCompiler.Pattern.Constructor
import MatchCompiler.Pattern.LiteralCheck
import MatchCompiler.Pattern.Problem
import MatchCompiler.Pattern.SeqLayout
import MatchCompiler.Primitive
import MatchCompiler.Procedure.Basic
import MatchCompiler.Procedure.Execute
import MatchCompiler.Procedure.Lower
import MatchCompiler.Procedure.Render
import MatchCompiler.Procedure.SeqAccess
import MatchCompiler.Procedure.Simplify
import MatchCompiler.Procedure.Test
import MatchCompiler.Procedure.Value
import MatchCompiler.Schema.Basic
import MatchCompiler.Schema.Compat
import MatchCompiler.Schema.Pool
import MatchCompiler.Schema.Registry
import MatchCompiler.Session
import MatchCompiler.Span
import MatchCompiler.Suggestion
import MatchCompiler.Text.CharRange
import MatchCompiler.Text.Lowercase
import MatchCompiler.Text.Printable
import MatchCompiler.Text.Quoted
import MatchCompiler.TypeTable
import MatchCompiler.Proofs.Acceptance
import MatchCompiler.Proofs.AcceptedUses
import MatchCompiler.Proofs.Checking
import MatchCompiler.Proofs.DirectMatch
import MatchCompiler.Proofs.Equality
import MatchCompiler.Proofs.Evaluation
import MatchCompiler.Proofs.Grouping
import MatchCompiler.Proofs.Names
import MatchCompiler.Proofs.Numbering
import MatchCompiler.Proofs.Plan
import MatchCompiler.Proofs.Preservation
import MatchCompiler.Proofs.Scope
import MatchCompiler.Proofs.SeqReading
import MatchCompiler.Proofs.Simplification
import MatchCompiler.Proofs.Simulation
import MatchCompiler.Proofs.Typing
import MatchCompiler.Proofs.Describing
import MatchCompiler.Proofs.Extraction
import MatchCompiler.Proofs.Reuse
import MatchCompiler.Proofs.Views
import MatchCompiler.Proofs.Parameters
import MatchCompiler.Proofs.Unwrapping
import MatchCompiler.Proofs.Keys
import MatchCompiler.Proofs.Inheritance
import MatchCompiler.Proofs.SlotTyping
import MatchCompiler.Proofs.PartTyping
import MatchCompiler.Proofs.Verdicts
import MatchCompiler.Proofs.LabelBounds
import MatchCompiler.Proofs.CoverageSoundness
import MatchCompiler.Proofs.PlainCoverage
import MatchCompiler.Proofs.HeadTyping
import MatchCompiler.Proofs.OpenCoverage
import MatchCompiler.Proofs.FaultFreedom
import MatchCompiler.Proofs.PartReading
import MatchCompiler.Proofs.ShapeSafety
import MatchCompiler.Proofs.CompileVerdict
import MatchCompiler.Proofs.Termination
import MatchCompiler.Proofs.GuardCalls
import MatchCompiler.Proofs.AskedPlans
import MatchCompiler.Proofs.MatchEvents
import MatchCompiler.Proofs.GuardBindings
import MatchCompiler.Proofs.Closedness
import MatchCompiler.Proofs.RepeatedExtraction
import MatchCompiler.Proofs.CheckedLookups
import MatchCompiler.Proofs.ExtractTrials
import MatchCompiler.Proofs.CheckTrials
import MatchCompiler.Proofs.SlotBounds
import MatchCompiler.Proofs.SetTests
import MatchCompiler.Proofs.SameReading
import MatchCompiler.Proofs.SlotDefaults
import MatchCompiler.Proofs.BranchChoices
import MatchCompiler.Proofs.RecordedBranches
import MatchCompiler.Proofs.MapKeys
import MatchCompiler.Proofs.ProperSchemas
import MatchCompiler.Proofs.BranchReading
import MatchCompiler.Proofs.BranchTypes
import MatchCompiler.Proofs.KeptParts
import MatchCompiler.Proofs.BoundNames
import MatchCompiler.Proofs.PointeeKinds
import MatchCompiler.Proofs.TwinSlots
import MatchCompiler.Proofs.PairedChecks
import MatchCompiler.Proofs.PairedPatterns
import MatchCompiler.Proofs.Comparability
import MatchCompiler.Proofs.SharedSequences
import MatchCompiler.Proofs.BranchOrder
import MatchCompiler.Proofs.DescribedViews
import MatchCompiler.Proofs.NamedTypes
import MatchCompiler.Proofs.ElementOrder
import MatchCompiler.Proofs.SlotReading
import MatchCompiler.Proofs.NilCoverage
import MatchCompiler.Proofs.SilentGuards
import MatchCompiler.Proofs.FlatPatterns
import MatchCompiler.Proofs.MissingCases
import MatchCompiler.Proofs.NormalForms
import MatchCompiler.Proofs.ArgumentsInScope
import MatchCompiler.Proofs.FieldPositions
import MatchCompiler.Proofs.CaseNames
import MatchCompiler.Proofs.StableSort
import MatchCompiler.Proofs.Suggestions
import MatchCompiler.Proofs.QueueRuns
import MatchCompiler.Proofs.ErrorEvidence
import MatchCompiler.Proofs.PrimitiveAliases
import MatchCompiler.Proofs.NumericLiterals
import MatchCompiler.Proofs.SourcePositions
import MatchCompiler.Proofs.EditDistances
import MatchCompiler.Proofs.UnwrappingEnds
import MatchCompiler.Proofs.InternerRuns
import MatchCompiler.Proofs.ReadableNames
import MatchCompiler.Proofs.InstanceNames
