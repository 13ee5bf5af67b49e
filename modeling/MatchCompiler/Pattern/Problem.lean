import MatchCompiler.Diagnostic.Basic
import MatchCompiler.Literal
import MatchCompiler.Schema.Basic
import MatchCompiler.Suggestion

/-
  This file lists what can be wrong with a pattern and says
  how each problem is reported.

  Key definitions include:
    * `LiteralProblem`
    * `LiteralProblem.diagnostic`
    * `Problem`
    * `Problem.diagnostic`
-/

------------------------------------------------------------
-- Literals
------------------------------------------------------------

namespace MatchCompiler

/- Names in quotes with commas between them. -/
def quotedNames (names : List String) : String :=
  ", ".intercalate (names.map (fun n => s!"`{n}`"))

/-
  Why a literal does not fit a type: it is of another type,
  perhaps that of an optional's payload, it lies outside the
  range of its width, or it names no single member of an
  enumeration.
-/
inductive LiteralProblem where
| mismatch (literal : Literal) (type : String)
| payloadOnly (literal : Literal) (type : String)
| outOfRange (literal : Literal) (width : Primitive) (range : Int × Int)
| ambiguousMember
    (name : String) (labels : List String) (type : String)
| unknownMember
    (name : String) (members : List String) (type : String)

namespace LiteralProblem

/- A literal as a message names it. -/
def describe (l : Literal) : String :=
  match l, l.suffix with
  | .nil, _ => "`nil`"
  | _, some width => s!"`{width.name}` literal `{l.text}`"
  | _, none => s!"{l.category} `{l.text}`"

/- A literal of another type. -/
def mismatchDiagnostic
    (l : Literal)
    (type : String) : Diagnostic :=
  .error .literalMismatch
    s!"{describe l} cannot match a value of type `{type}`"

/- The report of a problem, to be labelled where it occurs. -/
def diagnostic : LiteralProblem → Diagnostic
| .mismatch l type => mismatchDiagnostic l type
| .payloadOnly l type =>
    (mismatchDiagnostic l type).withSuggestion
      s!"write `Some({l.text})`"
| .outOfRange l width (least, greatest) =>
    (Diagnostic.error .literalRange
      s!"`{l.text}` does not fit in `{width.name}`").withNote
      s!"`{width.name}` holds {least}..={greatest}"
| .ambiguousMember name labels type =>
    (Diagnostic.error .ambiguousCase
      s!"`{name}` could name any of {quotedNames labels} in `{type}`")
      |>.withSuggestion "write the full member name"
| .unknownMember name members type =>
    (Diagnostic.error .unknownMember
      s!"`{name}` is not a member of `{type}`").withSimilarNames
      (Suggestion.similar name members)

end LiteralProblem

end MatchCompiler

------------------------------------------------------------
-- Patterns
------------------------------------------------------------

namespace MatchCompiler

/-
  What is wrong with a pattern. Types appear under the names
  they are shown by, and spans are those of the offending
  nodes.
-/
inductive Problem where
| literal (span : Span) (type : String) (cause : LiteralProblem)
| mapKey (span : Span) (keyType : String) (cause : LiteralProblem)
| setMember (span : Span) (elementType : String) (cause : LiteralProblem)
| slotDefault
    (span : Span) (value : Literal) (elementType : String)
    (cause : LiteralProblem)
| boundTwice (span first : Span) (name : String)
| alternativeNames (span : Span) (missing extra : List String)
| alternativeTypes
    (span first : Span) (name type firstType : String)
| unboundInGuard (span : Span) (names bound : List String)
| hopelessTest (span : Span) (scrutinee target : String)
| unknownConstructed (span : Span) (type : String)
| notConstructed (span : Span) (type : String) (kind : SchemaKind)
| someArguments (span : Span) (count : Nat)
| noneArguments (span : Span)
| notOptionalCase (span : Span) (written type : String)
| unrelatedType (span : Span) (head scrutinee : String)
| differentType
    (span : Span) (head scrutinee : String) (candidates : List String)
| noCases (span : Span) (type caseName : String)
| ambiguousCase
    (span : Span) (type caseName : String) (labels : List String)
| unknownCase
    (span : Span) (type caseName : String) (labels : List String)
| contradiction (span : Span) (discriminator : String)
| unknownField
    (span : Span) (type field : String) (declared : List String)
| unpinnedField
    (span : Span) (field discriminator : String) (owners : List String)
| foreignField
    (span : Span) (field discriminator : String)
    (pinned owners : List String)
| tooManyArguments
    (span : Span) (type : String) (declared given : Nat)
| twoSpreads (second first : Span)
| unknownDestructured (span : Span) (type : String)
| notPositional (span : Span) (type : String) (kind : SchemaKind)
| arrayTooLong (span : Span) (type : String) (length most : Nat)
| arrayTooShort (span : Span) (type : String) (length least : Nat)
| tupleSpread (span : Span) (type : String)
| tupleDefault (span : Span)
| tupleLength (span : Span) (type : String) (declared given : Nat)
| notMap (span : Span) (type : String) (kind : SchemaKind)
| notSet (span : Span) (type : String) (kind : SchemaKind)

namespace Problem

/- An array whose length can never match. -/
def arrayDiagnostic
    (span : Span)
    (type : String)
    (length : Nat)
    (needs : String) : Diagnostic :=
  (Diagnostic.error .arrayLength
    (s!"`{type}` always has {length} elements, " ++
      s!"but this pattern needs {needs}")).withLabel span
    "can never match"

/- A pattern over a type of the wrong kind. -/
def shapeDiagnostic
    (span : Span)
    (message label : String) : Diagnostic :=
  (Diagnostic.error .shapeMismatch message).withLabel span label

/- Alternatives that bind different names. -/
def alternativeNamesDiagnostic
    (span : Span)
    (missing extra : List String) : Diagnostic :=
  let d := (Diagnostic.error .alternationNames
    "alternatives must bind the same names").withLabel span
    "this alternative binds a different set of names"
  let d :=
    if missing.isEmpty then d
    else d.withNote s!"missing here: {quotedNames missing}"
  if extra.isEmpty then d
  else d.withNote
    s!"not bound by the first alternative: {quotedNames extra}"

/- A default that does not fit the elements of a sequence. -/
def defaultDiagnostic
    (span : Span)
    (value : Literal)
    (elementType : String)
    (cause : LiteralProblem) : Diagnostic :=
  let d := ((Diagnostic.error .defaultMismatch
    s!"default `{value.text}` is not a valid `{elementType}`").withLabel
    span "default for this position").withNote
    cause.diagnostic.message
  { d with suggestions := cause.diagnostic.suggestions }

/- The report of a problem. -/
def diagnostic : Problem → Diagnostic
| .literal span type cause =>
    cause.diagnostic.withLabel span s!"expected `{type}`"
| .mapKey span keyType cause =>
    cause.diagnostic.withLabel span s!"keys are `{keyType}`"
| .setMember span elementType cause =>
    cause.diagnostic.withLabel span s!"members are `{elementType}`"
| .slotDefault span value elementType cause =>
    defaultDiagnostic span value elementType cause
| .boundTwice span first name =>
    ((Diagnostic.error .repeatedName
      s!"`{name}` is bound more than once in this pattern").withLabel
      span "bound again here").withContext first "first bound here"
| .alternativeNames span missing extra =>
    alternativeNamesDiagnostic span missing extra
| .alternativeTypes span first name type firstType =>
    ((Diagnostic.error .alternationTypes
      (s!"`{name}` is bound as `{type}` here " ++
        s!"but as `{firstType}` in the first alternative")).withLabel
      span "incompatible binding").withContext first "first bound here"
| .unboundInGuard span names bound =>
    ((Diagnostic.error .unboundName
      (s!"guard uses {quotedNames names}, " ++
        "which this pattern does not bind")).withLabel
      span "guard evaluated here").withSimilarNames
      (names.filterMap (fun n => Suggestion.best? n bound))
| .hopelessTest span scrutinee target =>
    (Diagnostic.error .hopelessTest
      s!"`{scrutinee}` can never be a `{target}`").withLabel
      span "impossible type test"
| .unknownConstructed span type =>
    (shapeDiagnostic span
      s!"cannot destructure `{type}`: its structure is unknown"
      "constructor pattern over an opaque type").withNote
      "literals, wildcards and bindings still match it"
| .notConstructed span type kind =>
    shapeDiagnostic span
      s!"constructor pattern cannot match `{type}`, a {kind.text}"
      "constructor pattern here"
| .someArguments span count =>
    (Diagnostic.error .argumentCount
      ("`Some` takes exactly one positional sub-pattern, " ++
        s!"found {count}")).withLabel span "in this pattern"
| .noneArguments span =>
    (Diagnostic.error .argumentCount
      "`None` takes no sub-patterns").withLabel span "in this pattern"
| .notOptionalCase span written type =>
    ((Diagnostic.error .unknownCase
      s!"`{written}` is not a case of `{type}`").withLabel
      span "expected `Some` or `None`").withSimilarNames
      (Suggestion.similar written ["Some", "None"])
| .unrelatedType span head scrutinee =>
    (Diagnostic.error .foreignType
      s!"`{head}` is neither `{scrutinee}` nor derived from it").withLabel
      span "constructor names an unrelated type"
| .differentType span head scrutinee candidates =>
    ((Diagnostic.error .foreignType
      s!"expected a `{scrutinee}` constructor, found `{head}`").withLabel
      span "constructor names a different type").withSimilarNames
      (Suggestion.similar head candidates)
| .noCases span type caseName =>
    (Diagnostic.error .unknownCase
      s!"`{type}` has no cases; `{caseName}` is not one of them").withLabel
      span "case name on a type without branches"
| .ambiguousCase span type caseName labels =>
    ((Diagnostic.error .ambiguousCase
      (s!"case `{caseName}` matches several branches of `{type}`: " ++
        quotedNames labels)).withLabel
      span "ambiguous case name").withSuggestion
      "write the full branch label"
| .unknownCase span type caseName labels =>
    ((Diagnostic.error .unknownCase
      s!"`{caseName}` is not a case of `{type}`").withLabel
      span "unknown case").withSimilarNames
      (Suggestion.similar caseName labels)
| .contradiction span discriminator =>
    (Diagnostic.error .foreignField
      (s!"`{discriminator}` contradicts " ++
        "the case named by the constructor")).withLabel
      span "no branch satisfies both"
| .unknownField span type field declared =>
    ((Diagnostic.error .unknownField
      s!"`{type}` has no field `{field}`").withLabel
      span "unknown field").withSimilarNames
      (Suggestion.similar field declared)
| .unpinnedField span field discriminator owners =>
    let owner := owners.headD ""
    ((Diagnostic.error .unpinnedField
      (s!"field `{field}` exists only when `{discriminator}` is " ++
        quotedNames owners)).withLabel
      span "read without testing the discriminator").withSuggestion
      s!"pin the branch first, e.g. `{discriminator}: {owner}`"
| .foreignField span field discriminator pinned owners =>
    ((Diagnostic.error .foreignField
      (s!"field `{field}` is not readable when `{discriminator}` is " ++
        quotedNames pinned)).withLabel
      span "field of another branch").withNote
      s!"`{field}` belongs to {quotedNames owners}"
| .tooManyArguments span type declared given =>
    let plural := if declared == 1 then "" else "s"
    (Diagnostic.error .argumentCount
      (s!"`{type}` has {declared} positional field{plural}, " ++
        s!"found {given} sub-patterns")).withLabel
      span "too many positional sub-patterns"
| .twoSpreads second first =>
    ((Diagnostic.error .repeatedSpread
      "a destructure may contain at most one spread").withLabel
      second "second spread").withContext first "first spread here"
| .unknownDestructured span type =>
    shapeDiagnostic span
      s!"cannot destructure `{type}`: its structure is unknown"
      "destructure of an opaque type"
| .notPositional span type kind =>
    shapeDiagnostic span
      s!"cannot destructure `{type}`, a {kind.text}, by position"
      "positional destructure here"
| .arrayTooLong span type length most =>
    arrayDiagnostic span type length s!"at most {most}"
| .arrayTooShort span type length least =>
    arrayDiagnostic span type length s!"at least {least}"
| .tupleSpread span type =>
    (Diagnostic.error .misplacedSpread
      s!"`{type}` is a tuple; spreads need a sequence or array").withLabel
      span "spread over a tuple"
| .tupleDefault span =>
    (Diagnostic.error .defaultMismatch
      "tuple positions cannot have defaults").withLabel
      span "every tuple position is always present"
| .tupleLength span type declared given =>
    (Diagnostic.error .argumentCount
      (s!"`{type}` has {declared} elements, " ++
        s!"found {given} sub-patterns")).withLabel
      span "wrong number of positions"
| .notMap span type kind =>
    shapeDiagnostic span
      s!"map pattern cannot match `{type}`, a {kind.text}"
      "map pattern here"
| .notSet span type kind =>
    shapeDiagnostic span
      s!"set pattern cannot match `{type}`, a {kind.text}"
      "set pattern here"

end Problem

end MatchCompiler
