import MatchCompiler.Diagnostic.Code
import MatchCompiler.Span

/-
  This file defines diagnostics: a code with a severity, a
  message, labelled spans, notes and help lines.

  Key definitions include:
    * `Severity`
    * `Label`
    * `Diagnostic`
    * `Diagnostic.withSimilarNames`
    * `Diagnostic.primarySpan`
    * `Diagnostic.text`
-/

------------------------------------------------------------
-- Severities And Labels
------------------------------------------------------------

namespace MatchCompiler

/- How serious a diagnostic is. -/
inductive Severity where
| error
| warning
| note
deriving DecidableEq

/- The word for a severity. -/
def Severity.text : Severity → String
| .error => "error"
| .warning => "warning"
| .note => "note"

/-
  A remark on a span. The primary labels stand at the
  offending node, the others give context.
-/
structure Label where
  span : Span
  message : String
  isPrimary : Bool
deriving DecidableEq

/- The sign in front of a label. -/
def Label.marker (l : Label) : String :=
  if l.isPrimary then "-->" else "   "

end MatchCompiler

------------------------------------------------------------
-- Diagnostics
------------------------------------------------------------

namespace MatchCompiler

/-
  One reported problem. `similarNames` holds the declared
  names closest to an unknown one, best first, for tools that
  offer a fix; `suggestions` holds help lines for people.
-/
structure Diagnostic where
  code : DiagnosticCode
  severity : Severity := .error
  message : String := ""
  labels : List Label := []
  notes : List String := []
  suggestions : List String := []
  similarNames : List String := []
deriving DecidableEq

namespace Diagnostic

/- An error with a message. -/
def error
    (code : DiagnosticCode)
    (message : String) : Diagnostic :=
  { code, message }

/- A warning with a message. -/
def warning
    (code : DiagnosticCode)
    (message : String) : Diagnostic :=
  { code, message, severity := .warning }

/- Add a label at the offending node. -/
def withLabel
    (d : Diagnostic)
    (span : Span)
    (message : String) : Diagnostic :=
  { d with labels := d.labels ++ [⟨span, message, true⟩] }

/- Add a label that gives context. -/
def withContext
    (d : Diagnostic)
    (span : Span)
    (message : String) : Diagnostic :=
  { d with labels := d.labels ++ [⟨span, message, false⟩] }

/- Add a note. -/
def withNote
    (d : Diagnostic)
    (note : String) : Diagnostic :=
  { d with notes := d.notes ++ [note] }

/- Add a help line. -/
def withSuggestion
    (d : Diagnostic)
    (suggestion : String) : Diagnostic :=
  { d with suggestions := d.suggestions ++ [suggestion] }

/- Write alternatives as `a`, as `a or b`, as `a, b or c`. -/
def alternatives (items : List String) : String :=
  match items.getLast? with
  | none => ""
  | some last =>
      if items.length == 1 then
        last
      else
        ", ".intercalate items.dropLast ++ " or " ++ last

/-
  Offer the names an unknown one may stand for, best first.
  One help line lists them all; no names leave no line.
-/
def withSimilarNames
    (d : Diagnostic)
    (names : List String) : Diagnostic :=
  if names.isEmpty then
    d
  else
    let quoted := alternatives (names.map (fun n => s!"`{n}`"))
    { d.withSuggestion s!"did you mean {quoted}?" with
      similarNames := names }

/- The span of the first primary label. -/
def primarySpan (d : Diagnostic) : Option Span :=
  (d.labels.find? Label.isPrimary).map Label.span

/- Whether the diagnostic is an error. -/
def isError (d : Diagnostic) : Bool :=
  d.severity == .error

end Diagnostic

end MatchCompiler

------------------------------------------------------------
-- Plain Text
------------------------------------------------------------

namespace MatchCompiler

namespace Diagnostic

/-
  A diagnostic as plain text, its parts on lines of their
  own. The last line does not end in a line feed.
-/
def text (d : Diagnostic) : String :=
  let head :=
    s!"{d.severity.text} [{d.code.text}]: {d.message}"
  let labels := d.labels.map fun l =>
    s!"\n  {l.marker} {l.span.text}: {l.message}"
  let notes := d.notes.map fun n => s!"\n  = note: {n}"
  let helps := d.suggestions.map fun s => s!"\n  = help: {s}"
  head ++ String.join (labels ++ notes ++ helps)

end Diagnostic

end MatchCompiler
