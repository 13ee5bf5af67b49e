/-
  This file defines the codes of diagnostics. The first digit
  names the stage that reports: 2 for checking a pattern, 3
  for coverage of a whole match, 9 for the compiler itself.

  Key definitions include:
    * `DiagnosticCode`
    * `DiagnosticCode.text`
    * `DiagnosticCode.description`
    * `DiagnosticCode.isValidation`
    * `DiagnosticCode.ofText?`

  Key theorems include:
    * `DiagnosticCode.ofText?_text`
-/

------------------------------------------------------------
-- Codes
------------------------------------------------------------

namespace MatchCompiler

/- The kinds of problem that are reported. -/
inductive DiagnosticCode where
| unknownField
| unknownCase
| ambiguousCase
| unpinnedField
| foreignField
| literalMismatch
| literalRange
| shapeMismatch
| argumentCount
| repeatedSpread
| misplacedSpread
| arrayLength
| alternationNames
| alternationTypes
| repeatedName
| foreignType
| hopelessTest
| unknownMember
| unboundName
| defaultMismatch
| missingCases
| unreachableArm
| internal
deriving DecidableEq

namespace DiagnosticCode

/- Every code, in the order of the written forms. -/
def all : List DiagnosticCode :=
  [.unknownField, .unknownCase, .ambiguousCase,
    .unpinnedField, .foreignField, .literalMismatch,
    .literalRange, .shapeMismatch, .argumentCount,
    .repeatedSpread, .misplacedSpread, .arrayLength,
    .alternationNames, .alternationTypes, .repeatedName,
    .foreignType, .hopelessTest, .unknownMember,
    .unboundName, .defaultMismatch, .missingCases,
    .unreachableArm, .internal]

/- The written form of a code. -/
def text : DiagnosticCode → String
| .unknownField => "E2001"
| .unknownCase => "E2002"
| .ambiguousCase => "E2003"
| .unpinnedField => "E2004"
| .foreignField => "E2005"
| .literalMismatch => "E2006"
| .literalRange => "E2007"
| .shapeMismatch => "E2008"
| .argumentCount => "E2009"
| .repeatedSpread => "E2010"
| .misplacedSpread => "E2011"
| .arrayLength => "E2012"
| .alternationNames => "E2013"
| .alternationTypes => "E2014"
| .repeatedName => "E2015"
| .foreignType => "E2016"
| .hopelessTest => "E2017"
| .unknownMember => "E2018"
| .unboundName => "E2019"
| .defaultMismatch => "E2020"
| .missingCases => "E3001"
| .unreachableArm => "E3002"
| .internal => "E9001"

/- A one-line explanation. -/
def description : DiagnosticCode → String
| .unknownField =>
    "unknown field in constructor pattern"
| .unknownCase =>
    "unknown constructor or branch name"
| .ambiguousCase =>
    "ambiguous branch name"
| .unpinnedField =>
    "branch field read without a discriminator test"
| .foreignField =>
    "branch field read under a different branch"
| .literalMismatch =>
    "literal does not match the scrutinee type"
| .literalRange =>
    "literal out of range for its suffix"
| .shapeMismatch =>
    "pattern shape does not apply to this type"
| .argumentCount =>
    "wrong number of positional sub-patterns"
| .repeatedSpread =>
    "more than one spread in a destructure"
| .misplacedSpread =>
    "spread outside a positional destructure"
| .arrayLength =>
    "fixed-length array cannot satisfy the pattern"
| .alternationNames =>
    "alternation branches bind different names"
| .alternationTypes =>
    "alternation branches bind incompatible types"
| .repeatedName =>
    "name bound more than once"
| .foreignType =>
    "constructor names a different type"
| .hopelessTest =>
    "type test can never succeed"
| .unknownMember =>
    "unknown enumeration member"
| .unboundName =>
    "guard references an unbound name"
| .defaultMismatch =>
    "default value does not match the element type"
| .missingCases =>
    "non-exhaustive match"
| .unreachableArm =>
    "unreachable match arm"
| .internal =>
    "internal compiler error"

/- The code belongs to the checking of patterns. -/
def isValidation : DiagnosticCode → Bool
| .missingCases | .unreachableArm | .internal => false
| _ => true

/- The code with a given written form. -/
def ofText? (s : String) : Option DiagnosticCode :=
  all.find? (fun c => c.text == s)

end DiagnosticCode

end MatchCompiler

------------------------------------------------------------
-- Properties Of Codes
------------------------------------------------------------

namespace MatchCompiler

namespace DiagnosticCode

/- A written code is read back. -/
theorem ofText?_text
    (c : DiagnosticCode) :
    ofText? c.text = some c := by
  cases c <;> decide

end DiagnosticCode

end MatchCompiler
