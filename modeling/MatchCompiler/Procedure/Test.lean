import MatchCompiler.Pattern.Basic
import MatchCompiler.Pattern.SeqLayout

/-
  This file defines the tests of a compiled match and the
  accesses through which they read parts of the scrutinee.

  An access is a path. Two forms choose between paths: one by
  the length of a sequence, since the place of a slot can
  depend on it, and one by the branch of an alternation that
  matched, since branches may bind a name to different parts.

  Key definitions include:
    * `Access`
    * `Alternative`
    * `Test`
    * `Access.same`
    * `Access.atLength`
    * `Access.depth`
    * `Test.hasGuard`
    * `Test.size`
-/

------------------------------------------------------------
-- Accesses And Tests
------------------------------------------------------------

namespace MatchCompiler

mutual

/-
  A path from the scrutinee to a part of it. `byLength` lists
  paths for single lengths of its base and has another for
  all other lengths; `choice` has a path for each branch of
  the alternation with its number.
-/
inductive Access where
| scrutinee
| field (base : Access) (name : String)
| index (base : Access) (index : ElementIndex)
| slice (base : Access) (range : SpreadRange)
| payload (base : Access)
| mapValue (base : Access) (key : Literal)
| constant (value : Literal)
| byLength
    (base : Access)
    (cases : List (Nat × Access))
    (otherwise : Access)
| choice (alt : Nat) (choices : List Alternative)

/-
  What one branch of an alternation contributes to a choice:
  its number, its test, the names it binds, and the path.
-/
inductive Alternative where
| mk
    (branch : Nat)
    (test : Test)
    (bindings : List (String × Access))
    (access : Access)

/-
  A condition on the scrutinee. Conjunctions and disjunctions
  are tried from left to right and stop early. `alt` is a
  disjunction that remembers which branch matched.
-/
inductive Test where
| always
| never
| and (tests : List Test)
| or (tests : List Test)
| alt (id : Nat) (branches : List Test)
| equals (access : Access) (value : Literal)
| oneOf (access : Access) (values : List Literal)
| oneOfTexts (access : Access) (values : List String)
| tagIs (access : Access) (label : Member)
| tagIn (access : Access) (labels : List Member)
| lengthIs (access : Access) (length : Nat)
| lengthAtLeast (access : Access) (length : Nat)
| lengthIn (access : Access) (least greatest : Nat)
| isNil (access : Access)
| isNotNil (access : Access)
| typeIs (access : Access) (typeName : String)
| isSome (access : Access)
| isNone (access : Access)
| hasKey (access : Access) (key : Literal)
| setContains (access : Access) (members : List Literal) (exact : Bool)
| setMask (access : Access) (mask : Nat) (exact : Bool)
| guard (id : GuardId)

end

deriving instance Inhabited for Access, Test

/- The names a clause binds, each with its path. -/
abbrev AccessBindings :=
  List (String × Access)

namespace Alternative

/- Place of the branch in its alternation. -/
def branch : Alternative → Nat
| .mk branch _ _ _ => branch

/- The test of the branch. -/
def test : Alternative → Test
| .mk _ test _ _ => test

/- The names the branch binds. -/
def bindings : Alternative → AccessBindings
| .mk _ _ bindings _ => bindings

/- The path of the branch. -/
def access : Alternative → Access
| .mk _ _ _ access => access

end Alternative

end MatchCompiler

------------------------------------------------------------
-- Equality
------------------------------------------------------------

namespace MatchCompiler

mutual

/- Whether two accesses are written alike. -/
def Access.same : Access → Access → Bool
| .scrutinee, .scrutinee => true
| .field a n, .field b m => a.same b && n == m
| .index a i, .index b j => a.same b && i == j
| .slice a r, .slice b s => a.same b && r == s
| .payload a, .payload b => a.same b
| .mapValue a k, .mapValue b l => a.same b && k == l
| .constant k, .constant l => k == l
| .byLength a cs o, .byLength b ds p =>
    a.same b && sameCases cs ds && o.same p
| .choice i cs, .choice j ds => i == j && sameChoices cs ds
| _, _ => false
termination_by structural a => a

/- Whether two branches of a choice are written alike. -/
def Alternative.same : Alternative → Alternative → Bool
| .mk i t bs a, .mk j u cs b =>
    i == j && t.same u && sameBindings bs cs && a.same b
termination_by structural a => a

/- Whether two tests are written alike. -/
def Test.same : Test → Test → Bool
| .always, .always => true
| .never, .never => true
| .and ts, .and us => sameTests ts us
| .or ts, .or us => sameTests ts us
| .alt i ts, .alt j us => i == j && sameTests ts us
| .equals a k, .equals b l => a.same b && k == l
| .oneOf a ks, .oneOf b ls => a.same b && ks == ls
| .oneOfTexts a ks, .oneOfTexts b ls => a.same b && ks == ls
| .tagIs a k, .tagIs b l => a.same b && k == l
| .tagIn a ks, .tagIn b ls => a.same b && ks == ls
| .lengthIs a n, .lengthIs b m => a.same b && n == m
| .lengthAtLeast a n, .lengthAtLeast b m => a.same b && n == m
| .lengthIn a n k, .lengthIn b m l =>
    a.same b && n == m && k == l
| .isNil a, .isNil b => a.same b
| .isNotNil a, .isNotNil b => a.same b
| .typeIs a n, .typeIs b m => a.same b && n == m
| .isSome a, .isSome b => a.same b
| .isNone a, .isNone b => a.same b
| .hasKey a k, .hasKey b l => a.same b && k == l
| .setContains a ks e, .setContains b ls f =>
    a.same b && ks == ls && e == f
| .setMask a m e, .setMask b n f => a.same b && m == n && e == f
| .guard i, .guard j => i == j
| _, _ => false
termination_by structural t => t

/- Whether the cases of two accesses are written alike. -/
def sameCases : List (Nat × Access) → List (Nat × Access) → Bool
| [], [] => true
| (n, a) :: cs, (m, b) :: ds => n == m && a.same b && sameCases cs ds
| _, _ => false
termination_by structural cs => cs

/- Whether two lists of branches are written alike. -/
def sameChoices : List Alternative → List Alternative → Bool
| [], [] => true
| a :: cs, b :: ds => a.same b && sameChoices cs ds
| _, _ => false
termination_by structural cs => cs

/- Whether two lists of bindings are written alike. -/
def sameBindings :
    List (String × Access) → List (String × Access) → Bool
| [], [] => true
| (n, a) :: cs, (m, b) :: ds =>
    n == m && a.same b && sameBindings cs ds
| _, _ => false
termination_by structural cs => cs

/- Whether two lists of tests are written alike. -/
def sameTests : List Test → List Test → Bool
| [], [] => true
| t :: ts, u :: us => t.same u && sameTests ts us
| _, _ => false
termination_by structural ts => ts

end

instance : BEq Access :=
  ⟨Access.same⟩

instance : BEq Test :=
  ⟨Test.same⟩

end MatchCompiler

------------------------------------------------------------
-- Operations On Accesses
------------------------------------------------------------

namespace MatchCompiler

namespace Access

/- Where the value of a slot is read. -/
def slot
    (base : Access) : SlotSource → Access
| .element i => .index base i
| .default value => .constant value

/-
  The access for an input of exactly the given length: an
  element of the base counted from the end is counted from
  the start. There is none if that element does not exist.
-/
def atLength
    (base : Access)
    (length : Nat) : Access → Option Access
| .index b (.fromEnd i) =>
    if b == base then
      if i ≤ length then
        some (.index base (.fromStart (length - i)))
      else
        none
    else
      some (.index b (.fromEnd i))
| a => some a

/- Number of projections on the way to the scrutinee. -/
def depth : Access → Nat
| .scrutinee => 0
| .constant _ => 0
| .choice _ _ => 0
| .field base _ => base.depth + 1
| .index base _ => base.depth + 1
| .slice base _ => base.depth + 1
| .payload base => base.depth + 1
| .mapValue base _ => base.depth + 1
| .byLength base _ _ => base.depth + 1

end Access

end MatchCompiler

------------------------------------------------------------
-- Operations On Tests
------------------------------------------------------------

namespace MatchCompiler

namespace Test

/- Whether a test is the one that always holds. -/
def isAlways : Test → Bool
| .always => true
| _ => false

mutual

/- Whether a test asks a guard. -/
def hasGuard : Test → Bool
| .guard _ => true
| .and tests => anyHasGuard tests
| .or tests => anyHasGuard tests
| .alt _ branches => anyHasGuard branches
| _ => false
termination_by structural t => t

/- Whether one of several tests asks a guard. -/
def anyHasGuard : List Test → Bool
| [] => false
| t :: ts => t.hasGuard || anyHasGuard ts
termination_by structural ts => ts

end

mutual

/- Number of tests that are not built from others. -/
def size : Test → Nat
| .and tests => sizeOfList tests
| .or tests => sizeOfList tests
| .alt _ branches => sizeOfList branches
| _ => 1
termination_by structural t => t

/- Number of such tests in a list. -/
def sizeOfList : List Test → Nat
| [] => 0
| t :: ts => t.size + sizeOfList ts
termination_by structural ts => ts

end

end Test

end MatchCompiler
