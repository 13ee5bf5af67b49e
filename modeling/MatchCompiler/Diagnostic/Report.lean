import MatchCompiler.Diagnostic.Basic
import MatchCompiler.Diagnostic.Position

/-
  This file writes diagnostics for a terminal.

  With the source text at hand a label shows line, column,
  the offending line and an underline; without it a label
  shows its span. Words can be coloured. A closing line
  counts errors and warnings.

  Key definitions include:
    * `ColorMode`
    * `Report`
    * `Report.diagnostic`
    * `Report.summary`
    * `renderDiagnostics`
-/

------------------------------------------------------------
-- Colours
------------------------------------------------------------

namespace MatchCompiler

/- When words are coloured. -/
inductive ColorMode where
| auto
| always
| never
deriving DecidableEq

/- The automatic mode colours what goes to a terminal. -/
def ColorMode.colors
    (mode : ColorMode)
    (terminal : Bool) : Bool :=
  match mode with
  | .auto => terminal
  | .always => true
  | .never => false

/- The styles of the words in a report. -/
inductive Color where
| error
| warning
| note
| help
| bold
| secondary

/- The control sequence that switches a style on. -/
def Color.start : Color → String
| .error => "\x1b[1;31m"
| .warning => "\x1b[1;33m"
| .note => "\x1b[1;36m"
| .help => "\x1b[1;32m"
| .bold => "\x1b[1m"
| .secondary => "\x1b[1;34m"

/- The control sequence that switches every style off. -/
def Color.reset : String :=
  "\x1b[0m"

/- The style of the word for a severity. -/
def Severity.color : Severity → Color
| .error => .error
| .warning => .warning
| .note => .note

end MatchCompiler

------------------------------------------------------------
-- Reports
------------------------------------------------------------

namespace MatchCompiler

/- How a report is written. -/
structure Report where
  colored : Bool
  source : Option String

namespace Report

/- Put a style around a word. -/
def paint
    (r : Report)
    (color : Color)
    (word : String) : String :=
  if r.colored then color.start ++ word ++ Color.reset else word

/- A character repeated. -/
def rule
    (n : Nat)
    (c : Char) : String :=
  String.ofList (List.replicate n c)

/- The style of a label. -/
def labelColor (l : Label) : Color :=
  if l.isPrimary then .error else .secondary

/- A label with its span, for want of a source text. -/
def bareLabel
    (r : Report)
    (l : Label) : String :=
  let message := r.paint (labelColor l) l.message
  s!"  {l.marker} {l.span.text}: {message}\n"

/-
  A label with the line it starts on, underlined as far as
  the label reaches on that line, at least at one place.
-/
def sourceLabel
    (r : Report)
    (source : String)
    (l : Label) : String :=
  let place := SourcePosition.ofOffset source l.span.start
  let line := ((SourcePosition.lines source)[place.line - 1]?).getD []
  let start := place.column - 1
  let width := max 1 (min l.span.length (line.length - start))
  let caret := if l.isPrimary then '^' else '-'
  let underline :=
    rule start ' ' ++ rule width caret ++ " " ++ l.message
  let number := toString place.line
  let pad := rule number.length ' '
  let shown := String.ofList line
  let marked := r.paint (labelColor l) underline
  s!"  {l.marker} {number}:{place.column}\n" ++
    s!"  {pad} |\n" ++
    s!"  {number} | {shown}\n" ++
    s!"  {pad} | {marked}\n"

/- A label. -/
def label
    (r : Report)
    (l : Label) : String :=
  match r.source with
  | none => r.bareLabel l
  | some source => r.sourceLabel source l

/- A diagnostic, followed by an empty line. -/
def diagnostic
    (r : Report)
    (d : Diagnostic) : String :=
  let severity := r.paint d.severity.color d.severity.text
  let code := r.paint .bold s!"[{d.code.text}]"
  let noteWord := r.paint .bold "note"
  let helpWord := r.paint .help "help"
  s!"{severity}{code}: {d.message}\n" ++
    String.join (d.labels.map r.label) ++
    String.join (d.notes.map fun n => s!"  = {noteWord}: {n}\n") ++
    String.join
      (d.suggestions.map fun s => s!"  = {helpWord}: {s}\n") ++
    "\n"

/- Several diagnostics. -/
def diagnostics
    (r : Report)
    (ds : List Diagnostic) : String :=
  String.join (ds.map r.diagnostic)

/- A count of warnings, in words. -/
def warningsText (n : Nat) : String :=
  s!"{n} warning" ++ (if n == 1 then "" else "s") ++ " emitted"

/- The closing line; nothing when there is nothing to count. -/
def summary
    (r : Report)
    (errors warnings : Nat) : String :=
  if 0 < errors then
    let cause :=
      if errors == 1 then
        "previous error"
      else
        s!"{errors} previous errors"
    let rest :=
      if 0 < warnings then "; " ++ warningsText warnings else ""
    let word := r.paint .error "error"
    s!"{word}: aborting due to {cause}{rest}\n"
  else if 0 < warnings then
    let word := r.paint .warning "warning"
    s!"{word}: {warningsText warnings}\n"
  else
    ""

end Report

/-
  The text of several diagnostics and the closing line. What
  is not an error counts as a warning there.
-/
def renderDiagnostics
    (ds : List Diagnostic)
    (source : Option String)
    (mode : ColorMode) : String :=
  let r : Report := { colored := mode.colors false, source }
  let errors := ds.countP Diagnostic.isError
  r.diagnostics ds ++ r.summary errors (ds.length - errors)

end MatchCompiler
