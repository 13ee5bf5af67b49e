import MatchCompiler.Coverage
import MatchCompiler.Diagnostic.Queue
import MatchCompiler.Pattern.Check
import MatchCompiler.Procedure.Lower

/-
  This file compiles whole matches.

  A session holds the described types and the schemas
  extracted from them. Compiling a match checks all arms,
  then coverage, and then lowers; every problem of a stage is
  reported before the match is given up.

  Key definitions include:
    * `MatchOptions`
    * `CompiledMatch`
    * `Session`
    * `Session.compile`
-/

------------------------------------------------------------
-- Sessions
------------------------------------------------------------

namespace MatchCompiler

/-
  Settings of a session: the character that ends the common
  beginning of branch labels, whether coverage is checked and
  redundant arms reported, how many errors are kept, and the
  limits for the compiled form.
-/
structure MatchOptions where
  marker : Char := 'k'
  checkExhaustiveness : Bool := true
  reportRedundancy : Bool := true
  errorLimit : Nat := 0
  lowering : LoweringOptions := {}

/- A compiled match and the warnings about it. -/
structure CompiledMatch where
  procedure : Procedure
  warnings : List Diagnostic

/-
  The described types and the schemas of a session, and how
  deep the descriptors of a table may be nested when one is
  extracted.
-/
structure Session where
  options : MatchOptions := {}
  table : TypeTable := {}
  registry : Registry := {}
  nesting : TypeTable → Nat := Registry.depthLimit

namespace Session

/- A session without types. -/
def ofOptions (options : MatchOptions) : Session :=
  { options, registry := { marker := options.marker } }

/- What checking refers to. -/
def context (s : Session) : CheckContext :=
  { table := s.table
    marker := s.options.marker
    depth := s.nesting s.table }

/- The schema of a described type. -/
def schemaOf
    (s : Session)
    (id : DescriptorId) : Session × SchemaId :=
  let (registry, slot) :=
    s.registry.schemaWithin s.table (s.nesting s.table) id
  ({ s with registry }, slot)

/- Check arms against a schema. -/
def checkArms
    (s : Session)
    (id : SchemaId)
    (arms : List Pattern) :
    Session × List (Except (List Problem) CheckedArm) :=
  let (registry, results) := s.registry.checkArms s.context id arms
  ({ s with registry }, results)

end Session

end MatchCompiler

------------------------------------------------------------
-- Compilation
------------------------------------------------------------

namespace MatchCompiler

/- The arms that passed checking. -/
def acceptedArms
    (results : List (Except (List Problem) CheckedArm)) :
    List CheckedArm :=
  results.filterMap Except.toOption

/- The problems of the arms that did not pass. -/
def rejectionProblems
    (results : List (Except (List Problem) CheckedArm)) :
    List Problem :=
  results.flatMap fun
    | .ok _ => []
    | .error problems => problems

namespace Session

/- The reports on coverage that the options ask for. -/
def coverageDiagnostics
    (s : Session)
    (c : Coverage) : List Diagnostic :=
  c.diagnostics.filter fun d =>
    s.options.reportRedundancy || d.code != .unreachableArm

/-
  What becomes of a match whose arms have all passed, once
  coverage is known: a procedure, or the reports that the
  queue has.
-/
def conclude
    (s : Session)
    (id : SchemaId)
    (arms : List CheckedArm)
    (queue : DiagnosticQueue)
    (coverage : Coverage) :
    Except (List Diagnostic) CompiledMatch :=
  let checked := s.options.checkExhaustiveness
  let queue :=
    if checked then
      queue.extend (s.coverageDiagnostics coverage)
    else
      queue
  if queue.hasErrors.isSome then
    .error queue.flush.2
  else
    let exhaustive := checked && coverage.exhaustive
    let procedure :=
      Procedure.ofArms s.options.lowering arms id exhaustive
    .ok { procedure, warnings := queue.flush.2 }

/- The queue once the problems of rejected arms are reported. -/
def queueAfterArms
    (s : Session)
    (results : List (Except (List Problem) CheckedArm)) :
    DiagnosticQueue :=
  let queue : DiagnosticQueue :=
    { config := { errorLimit := s.options.errorLimit } }
  queue.extend ((rejectionProblems results).map Problem.diagnostic)

/-
  Compile a match on a described type; `span` is that of the
  whole match. There is a procedure or a list of reports.
-/
def compile
    (s : Session)
    (scrutinee : DescriptorId)
    (arms : List Pattern)
    (span : Span) :
    Session × Except (List Diagnostic) CompiledMatch :=
  let (s, id) := s.schemaOf scrutinee
  let (s, results) := s.checkArms id arms
  let queue := s.queueAfterArms results
  if queue.hasErrors.isSome then
    (s, .error queue.flush.2)
  else
    let accepted := acceptedArms results
    let coverage := s.registry.pool.coverage id accepted span
    (s, s.conclude id accepted queue coverage)

end Session

end MatchCompiler
