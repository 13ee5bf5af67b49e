import MatchCompiler.Procedure.Basic

/-
  This file writes a procedure as a chain of conditionals
  over a scrutinee named `value`.

  Each branch introduces the names of its clause and then
  runs its arm. A guard is asked before the branch binds
  anything, so it stands in a block that repeats the
  bindings.

  Key definitions include:
    * `GuardTexts`
    * `Access.render`
    * `Test.render`
    * `Procedure.render`
-/

------------------------------------------------------------
-- Parts
------------------------------------------------------------

namespace MatchCompiler

/- What is written for guards; the last entry counts. -/
abbrev GuardTexts :=
  List (GuardId × String)

/- The text of a guard, or a stand-in with its number. -/
def GuardTexts.text
    (texts : GuardTexts)
    (id : GuardId) : String :=
  (texts.reverse.lookup id).getD s!"guard{id}"

/- The texts of the guards in some patterns. -/
def GuardTexts.ofPatterns (arms : List Pattern) : GuardTexts :=
  (arms.flatMap Pattern.guards).map (fun g => (g.id, g.text))

namespace Render

/- Items with commas between them. -/
def commas (items : List String) : String :=
  ", ".intercalate items

/- Items with commas between them, in braces. -/
def braces (items : List String) : String :=
  "\x7b" ++ commas items ++ "\x7d"

/- Literals in braces. -/
def literals (values : List Literal) : String :=
  braces (values.map Literal.text)

/- A mask in hexadecimal. -/
def mask (n : Nat) : String :=
  "0x" ++ String.ofList (Nat.toDigits 16 n)

/- A guard in the scope of bindings already written. -/
def guard
    (text scope : String) : String :=
  if scope.isEmpty then text else "(block: " ++ scope ++ text ++ ")"

/- Parentheses where they are needed. -/
def parens
    (needed : Bool)
    (text : String) : String :=
  if needed then "(" ++ text ++ ")" else text

/- The word in front of a condition of a chain. -/
def keyword (first : Bool) : String :=
  if first then "if " else " elif "

end Render

end MatchCompiler

------------------------------------------------------------
-- Accesses And Tests
------------------------------------------------------------

namespace MatchCompiler

mutual

/- An access. -/
def Access.render
    (texts : GuardTexts) : Access → String
| .scrutinee => "value"
| .field base name => base.render texts ++ "." ++ name
| .index base (.fromStart i) => base.render texts ++ s!"[{i}]"
| .index base (.fromEnd i) => base.render texts ++ s!"[^{i}]"
| .slice base r =>
    base.render texts ++ s!"[{r.start} .. ^{r.endFromEnd + 1}]"
| .payload base => base.render texts ++ ".get"
| .mapValue base key => base.render texts ++ "[" ++ key.text ++ "]"
| .constant value => value.text
| .byLength base cases otherwise =>
    "(" ++ Access.renderCases texts (base.render texts) true cases ++
      " else: " ++ otherwise.render texts ++ ")"
| .choice _ choices => Access.renderChoices texts true choices
termination_by structural a => a

/- The single lengths of an access that depends on one. -/
def Access.renderCases
    (texts : GuardTexts)
    (base : String) :
    Bool → List (Nat × Access) → String
| _, [] => ""
| first, (n, a) :: cs =>
    Render.keyword first ++ base ++ s!".len == {n}: " ++
      a.render texts ++ Access.renderCases texts base false cs
termination_by structural _ cs => cs

/-
  The branches of a choice: a conditional whose last branch
  needs no condition.
-/
def Access.renderChoices
    (texts : GuardTexts) :
    Bool → List Alternative → String
| _, [] => "value"
| true, [.mk _ _ _ a] => a.render texts
| false, [.mk _ _ _ a] => " else: " ++ a.render texts ++ ")"
| first, .mk _ t bs a :: c :: cs =>
    (if first then "(" else "") ++ Render.keyword first ++
      t.render texts (Access.renderScope texts bs) false ++ ": " ++
      a.render texts ++ Access.renderChoices texts false (c :: cs)
termination_by structural _ cs => cs

/- Bindings as a guard repeats them. -/
def Access.renderScope
    (texts : GuardTexts) :
    List (String × Access) → String
| [] => ""
| (name, a) :: bs =>
    "let " ++ name ++ " = " ++ a.render texts ++ "; " ++
      Access.renderScope texts bs
termination_by structural bs => bs

/-
  A test in the scope of the bindings that its guards repeat.
  A test inside another is put in parentheses if it is built
  from several.
-/
def Test.render
    (texts : GuardTexts)
    (scope : String) :
    Test → Bool → String
| .always, _ => "true"
| .never, _ => "false"
| .and tests, nested =>
    Render.parens nested
      (Test.renderJoined texts scope " and " tests)
| .or tests, nested =>
    Render.parens nested
      (Test.renderJoined texts scope " or " tests)
| .alt _ branches, nested =>
    Render.parens nested
      (Test.renderJoined texts scope " or " branches)
| .equals a k, _ => a.render texts ++ " == " ++ k.text
| .oneOf a ks, _ => a.render texts ++ " in " ++ Render.literals ks
| .oneOfTexts a ks, _ =>
    a.render texts ++ " in toHashSet([" ++
      Render.commas (ks.map Text.quoted) ++ "])"
| .tagIs a label, _ => a.render texts ++ " == " ++ label.name
| .tagIn a labels, _ =>
    a.render texts ++ " in " ++ Render.braces (labels.map Member.name)
| .lengthIs a n, _ => a.render texts ++ s!".len == {n}"
| .lengthAtLeast a n, _ => a.render texts ++ s!".len >= {n}"
| .lengthIn a least greatest, _ =>
    a.render texts ++ s!".len in {least} .. {greatest}"
| .isNil a, _ => a.render texts ++ ".isNil"
| .isNotNil a, _ => "not " ++ a.render texts ++ ".isNil"
| .typeIs a name, _ => a.render texts ++ " of " ++ name
| .isSome a, _ => a.render texts ++ ".isSome"
| .isNone a, _ => a.render texts ++ ".isNone"
| .hasKey a key, _ =>
    a.render texts ++ ".hasKey(" ++ key.text ++ ")"
| .setContains a members true, _ =>
    a.render texts ++ " == " ++ Render.literals members
| .setContains a members false, _ =>
    Render.literals members ++ " <= " ++ a.render texts
| .setMask a m true, _ =>
    a.render texts ++ ".bits == " ++ Render.mask m
| .setMask a m false, _ =>
    "(" ++ a.render texts ++ ".bits and " ++ Render.mask m ++
      ") == " ++ Render.mask m
| .guard id, _ => Render.guard (texts.text id) scope
termination_by structural t => t

/- Tests with an operator between them. -/
def Test.renderJoined
    (texts : GuardTexts)
    (scope operator : String) :
    List Test → String
| [] => ""
| [t] => t.render texts scope true
| t :: u :: ts =>
    t.render texts scope true ++ operator ++
      Test.renderJoined texts scope operator (u :: ts)
termination_by structural ts => ts

end

end MatchCompiler

------------------------------------------------------------
-- Procedures
------------------------------------------------------------

namespace MatchCompiler

/- What a clause does once its test holds. -/
def Clause.renderBody
    (texts : GuardTexts)
    (c : Clause) : String :=
  let lets := c.bindings.map fun (name, a) =>
    "  let " ++ name ++ " = " ++ a.render texts ++ "\n"
  String.join lets ++ s!"  arm({c.arm})\n"

/-
  The clauses of a procedure. A clause that takes every value
  ends the chain, as its last alternative unless it is also
  the first. If the arms may leave values over, the chain
  ends in a failure.
-/
def Clause.renderChain
    (texts : GuardTexts)
    (exhaustive : Bool) :
    Bool → List Clause → String
| first, [] =>
    if exhaustive then
      ""
    else
      (if first then "if true:\n" else "else:\n") ++
        "  raise newException(NoMatchError, \"no match\")\n"
| first, c :: cs =>
    if c.isCatchAll then
      (if first then "if true:\n" else "else:\n") ++
        c.renderBody texts
    else
      (if first then "if " else "elif ") ++
        c.test.render texts (Access.renderScope texts c.bindings) false ++
        ":\n" ++ c.renderBody texts ++
        renderChain texts exhaustive false cs

/- A procedure, with given texts for its guards. -/
def Procedure.render
    (p : Procedure)
    (texts : GuardTexts) : String :=
  Clause.renderChain texts p.exhaustive true p.clauses

end MatchCompiler
