import MatchCompiler.Procedure.Test

/-
  This file simplifies tests.

  Nested conjunctions and disjunctions are flattened, tests
  that always or never hold are absorbed, and long runs of
  comparisons of one part with constants become one test for
  membership. Only neighbouring tests are grouped, so that
  what remains is tried in the order written. The branches of
  an alternation are simplified one by one and keep their
  places, which choices refer to.

  Key definitions include:
    * `LoweringOptions`
    * `Test.conjunction`
    * `Test.disjunction`
    * `Test.groupRuns`
    * `Test.simplify`
-/

------------------------------------------------------------
-- Options
------------------------------------------------------------

namespace MatchCompiler

/-
  Limits for the compiled form: runs of more comparisons than
  `literalSetThreshold` become one membership test, and sets
  of more texts than `stringHashThreshold` a hashed one. Set
  patterns over at most `bitsetDomainLimit` numbered values
  become mask tests.
-/
structure LoweringOptions where
  literalSetThreshold : Nat := 4
  stringHashThreshold : Nat := 8
  bitsetDomainLimit : Nat := 128

namespace LoweringOptions

/- The widest mask there is. -/
def maskWidth : Nat :=
  128

/- The limit on mask tests, never above the mask width. -/
def bitsetLimit (o : LoweringOptions) : Nat :=
  min o.bitsetDomainLimit maskWidth

end LoweringOptions

end MatchCompiler

------------------------------------------------------------
-- Conjunctions
------------------------------------------------------------

namespace MatchCompiler

namespace Test

/-
  The conjuncts of a conjunction with nested ones opened and
  those that always hold dropped; none if one never holds.
-/
def conjuncts : List Test → Option (List Test)
| [] => some []
| .always :: ts => conjuncts ts
| .never :: _ => none
| .and inner :: ts => (conjuncts ts).map (inner ++ ·)
| t :: ts => (conjuncts ts).map (t :: ·)

/- A conjunction of simplified tests. -/
def conjunction (ts : List Test) : Test :=
  match conjuncts ts with
  | none => .never
  | some [] => .always
  | some [t] => t
  | some several => .and several

end Test

end MatchCompiler

------------------------------------------------------------
-- Runs Of Comparisons
------------------------------------------------------------

namespace MatchCompiler

namespace Test

/- Whether two tests compare one part in the same way. -/
def joins : Test → Test → Bool
| .equals a _, .equals b _ => a == b
| .tagIs a _, .tagIs b _ => a == b
| _, _ => false

/- The constants that comparisons compare with. -/
def comparands (run : List Test) : List Literal :=
  run.filterMap fun
    | .equals _ value => some value
    | _ => none

/- The labels that tag tests ask for. -/
def comparedLabels (run : List Test) : List Member :=
  run.filterMap fun
    | .tagIs _ label => some label
    | _ => none

/- The texts of string literals, if all are such. -/
def texts? (values : List Literal) : Option (List String) :=
  values.mapM fun
    | .str s => some s
    | _ => none

/- Membership of one part in a list of constants. -/
def membership
    (o : LoweringOptions)
    (access : Access)
    (values : List Literal) : Test :=
  match texts? values with
  | some texts =>
      if o.stringHashThreshold < texts.length then
        .oneOfTexts access texts
      else
        .oneOf access values
  | none => .oneOf access values

/- A long run becomes one test, a short one stays. -/
def groupRun
    (o : LoweringOptions)
    (run : List Test) : List Test :=
  if run.length ≤ o.literalSetThreshold then
    run
  else
    match run with
    | .equals a _ :: _ => [membership o a (comparands run).eraseDups]
    | .tagIs a _ :: _ =>
        [.tagIn a
          ((comparedLabels run).eraseDupsBy
            (fun k l => k.ordinal == l.ordinal))]
    | _ => run

/- Group the runs of neighbouring comparisons. -/
def groupRuns
    (o : LoweringOptions)
    (ts : List Test) : List Test :=
  (ts.splitBy joins).flatMap (groupRun o)

end Test

end MatchCompiler

------------------------------------------------------------
-- Disjunctions
------------------------------------------------------------

namespace MatchCompiler

namespace Test

/-
  The disjuncts of a disjunction with nested ones opened and
  those that never hold dropped; none if one always holds.
-/
def disjuncts : List Test → Option (List Test)
| [] => some []
| .always :: _ => none
| .never :: ts => disjuncts ts
| .or inner :: ts => (disjuncts ts).map (inner ++ ·)
| t :: ts => (disjuncts ts).map (t :: ·)

/- A disjunction of simplified tests. -/
def disjunction
    (o : LoweringOptions)
    (ts : List Test) : Test :=
  match (disjuncts ts).map (groupRuns o) with
  | none => .always
  | some [] => .never
  | some [t] => t
  | some several => .or several

end Test

end MatchCompiler

------------------------------------------------------------
-- Simplification
------------------------------------------------------------

namespace MatchCompiler

namespace Test

mutual

/- Simplify a test from the inside out. -/
def simplify
    (o : LoweringOptions) : Test → Test
| .and ts => conjunction (simplifyAll o ts)
| .or ts => disjunction o (simplifyAll o ts)
| .alt id branches => .alt id (simplifyAll o branches)
| t => t
termination_by structural t => t

/- Simplify several tests. -/
def simplifyAll
    (o : LoweringOptions) : List Test → List Test
| [] => []
| t :: ts => t.simplify o :: simplifyAll o ts
termination_by structural ts => ts

end

end Test

end MatchCompiler
