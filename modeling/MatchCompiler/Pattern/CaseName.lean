/-
  This file resolves the short name of a case.

  The labels of a union often share a beginning that ends in
  a marker character. A case name stands for the label equal
  to it or, failing that, for the label that ends in the
  marker followed by the name.

  Key definitions include:
    * `CaseResolution`
    * `CaseResolution.label?`
    * `resolveCase`
-/

------------------------------------------------------------
-- Case Names
------------------------------------------------------------

namespace MatchCompiler

/- What a case name may stand for. -/
inductive CaseResolution where
| exact (label : String)
| marked (label : String)
| ambiguous (labels : List String)
| unknown
deriving DecidableEq

/- The one label that a case name stands for. -/
def CaseResolution.label? : CaseResolution → Option String
| .exact label => some label
| .marked label => some label
| .ambiguous _ => none
| .unknown => none

/- Whether a label ends in the marker and the case name. -/
def endsMarked
    (marker : Char)
    (caseName label : String) : Bool :=
  (marker :: caseName.toList).isSuffixOf label.toList

/- The label that a case name stands for. -/
def resolveCase
    (labels : List String)
    (caseName : String)
    (marker : Char) : CaseResolution :=
  if caseName.isEmpty then
    .unknown
  else if labels.contains caseName then
    .exact caseName
  else
    match labels.filter (endsMarked marker caseName) with
    | [] => .unknown
    | [label] => .marked label
    | several => .ambiguous several

end MatchCompiler
