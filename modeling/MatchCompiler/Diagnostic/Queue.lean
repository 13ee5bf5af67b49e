import MatchCompiler.Diagnostic.Basic

/-
  This file defines the queue that collects the diagnostics
  of one compilation.

  The queue refuses errors beyond a limit and, when asked to,
  a diagnostic whose code, primary span and message repeat an
  earlier one. Distinct problems at one span differ in their
  messages and are all kept. Flushing returns what is held in
  source order and starts afresh.

  Key definitions include:
    * `DiagnosticQueue`
    * `DiagnosticQueue.add`
    * `DiagnosticQueue.extend`
    * `DiagnosticQueue.emitError`
    * `DiagnosticQueue.flush`

  Key theorems include:
    * `DiagnosticQueue.flush_perm`
    * `DiagnosticQueue.flush_queue`
    * `DiagnosticQueue.add_of_refuses`
    * `DiagnosticQueue.add_of_not_refuses`
-/

------------------------------------------------------------
-- Evidence Of Errors
------------------------------------------------------------

namespace MatchCompiler

/- Evidence that an error has been reported. -/
structure ErrorReported where
deriving DecidableEq

/- How the evidence reads. -/
def ErrorReported.text (_ : ErrorReported) : String :=
  "error(s) emitted"

/- A positive number of errors is evidence. -/
def ErrorReported.ofCount (n : Nat) : Option ErrorReported :=
  if 0 < n then some {} else none

end MatchCompiler

------------------------------------------------------------
-- Queues
------------------------------------------------------------

namespace MatchCompiler

/- Settings of a queue; a limit of zero is no limit. -/
structure QueueConfig where
  errorLimit : Nat := 0
  deduplicate : Bool := true

/- What makes two diagnostics repetitions of one another. -/
structure DiagnosticKey where
  code : DiagnosticCode
  span : Span
  message : String
deriving DecidableEq

/- The key of a diagnostic; no primary span counts as empty. -/
def Diagnostic.key (d : Diagnostic) : DiagnosticKey :=
  { code := d.code
    span := d.primarySpan.getD {}
    message := d.message }

/-
  The diagnostics held, in order of acceptance, the keys met
  since the last flush, and the numbers of errors and of
  other diagnostics.
-/
structure DiagnosticQueue where
  config : QueueConfig := {}
  held : List Diagnostic := []
  seen : List DiagnosticKey := []
  errorCount : Nat := 0
  warningCount : Nat := 0

namespace DiagnosticQueue

/- Whether no further error is accepted. -/
def limitReached (q : DiagnosticQueue) : Bool :=
  0 < q.config.errorLimit && q.config.errorLimit ≤ q.errorCount

/- Whether nothing is held. -/
def isEmpty (q : DiagnosticQueue) : Bool :=
  q.held.isEmpty

/- Evidence that the queue holds an error. -/
def hasErrors (q : DiagnosticQueue) : Option ErrorReported :=
  ErrorReported.ofCount q.errorCount

/- Hold a diagnostic and count it. -/
def accept
    (q : DiagnosticQueue)
    (d : Diagnostic) : DiagnosticQueue :=
  { q with
    held := q.held ++ [d]
    seen := if q.config.deduplicate then d.key :: q.seen else q.seen
    errorCount := if d.isError then q.errorCount + 1 else q.errorCount
    warningCount :=
      if d.isError then q.warningCount else q.warningCount + 1 }

/-
  Whether a diagnostic is refused: an error at the limit, or
  a repetition.
-/
def refuses
    (q : DiagnosticQueue)
    (d : Diagnostic) : Bool :=
  (d.isError && q.limitReached) ||
    (q.config.deduplicate && q.seen.contains d.key)

/- Record a diagnostic and say whether it was accepted. -/
def add
    (q : DiagnosticQueue)
    (d : Diagnostic) : DiagnosticQueue × Bool :=
  if q.refuses d then (q, false) else (q.accept d, true)

/- Record several diagnostics in order. -/
def extend
    (q : DiagnosticQueue)
    (ds : List Diagnostic) : DiagnosticQueue :=
  ds.foldl (fun q d => (q.add d).1) q

/- Record an error and hand out evidence for it. -/
def emitError
    (q : DiagnosticQueue)
    (d : Diagnostic) : DiagnosticQueue × ErrorReported :=
  ((q.add d).1, {})

/-
  Place of a diagnostic in source order: the start of its
  primary span, or the greatest offset there is.
-/
def position (d : Diagnostic) : Nat :=
  (d.primarySpan.map Span.start).getD 4294967295

/-
  What is held, sorted by position with the order of
  acceptance kept among equals, and the emptied queue.
-/
def flush
    (q : DiagnosticQueue) :
    DiagnosticQueue × List Diagnostic :=
  ({ config := q.config },
    q.held.mergeSort (fun d e => position d ≤ position e))

end DiagnosticQueue

end MatchCompiler

------------------------------------------------------------
-- Properties Of Queues
------------------------------------------------------------

namespace MatchCompiler

namespace DiagnosticQueue

/- Flushing hands out exactly what was held. -/
theorem flush_perm
    (q : DiagnosticQueue) :
    q.flush.2.Perm q.held := by
  unfold flush
  exact List.mergeSort_perm _ _

/- Flushing empties the queue and keeps its settings. -/
theorem flush_queue
    (q : DiagnosticQueue) :
    q.flush.1 = { config := q.config } := rfl

/- A refused diagnostic leaves no trace. -/
theorem add_of_refuses
    {q : DiagnosticQueue}
    {d : Diagnostic}
    (h : q.refuses d = true) :
    q.add d = (q, false) := by
  simp only [add, h, if_true]

/- Any other diagnostic is accepted. -/
theorem add_of_not_refuses
    {q : DiagnosticQueue}
    {d : Diagnostic}
    (h : q.refuses d = false) :
    q.add d = (q.accept d, true) := by
  simp only [add, h, Bool.false_eq_true, if_false]

end DiagnosticQueue

end MatchCompiler
