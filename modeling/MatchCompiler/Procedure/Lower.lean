import MatchCompiler.Pattern.Checked
import MatchCompiler.Procedure.Basic
import MatchCompiler.Procedure.SeqAccess
import MatchCompiler.Procedure.Simplify

/-
  This file compiles checked patterns to clauses.

  A node becomes a test on the access of the value that it
  matches, and names are bound to accesses. Guards are asked
  after the whole structure has matched; a guard inside an
  alternation stays with its branch, since it must not decide
  about the others.

  Key definitions include:
    * `Lowered`
    * `Lowered.alternation`
    * `Checked.lower`
    * `CheckedArm.clause`
    * `Procedure.ofArms`
-/

------------------------------------------------------------
-- Lowered Patterns
------------------------------------------------------------

namespace MatchCompiler

/- The test for a pattern and the names it binds. -/
structure Lowered where
  test : Test
  bindings : AccessBindings

/-
  What lowering an arm gathers: the guards that are asked
  last, and how many alternations have a number.
-/
structure LoweringState where
  guards : List GuardId := []
  alternations : Nat := 0

/- Steps of lowering. -/
abbrev Lower :=
  StateM LoweringState

namespace Lowered

/- A test that binds nothing. -/
def ofTest (test : Test) : Lowered :=
  { test, bindings := [] }

/- A conjunction of tests and of lowered patterns after them. -/
def conjunction
    (tests : List Test)
    (parts : List Lowered) : Lowered :=
  { test := .and (tests ++ parts.map Lowered.test)
    bindings := parts.flatMap Lowered.bindings }

end Lowered

end MatchCompiler

------------------------------------------------------------
-- Alternations
------------------------------------------------------------

namespace MatchCompiler

namespace Lowered

/- Whether all branches bind a name to one access. -/
def agreeOn
    (branches : List Lowered)
    (name : String)
    (access : Access) : Bool :=
  branches.all fun b => (b.bindings.lookup name).all (· == access)

/- The access of a name that depends on the branch. -/
def choice
    (o : LoweringOptions)
    (id : Nat)
    (branches : List Lowered)
    (name : String) : Access :=
  .choice id <| branches.zipIdx.filterMap fun (b, i) =>
    (b.bindings.lookup name).map fun access =>
      .mk i (b.test.simplify o) b.bindings access

/-
  An alternation of lowered branches. It has a number if some
  name depends on the branch that matches.
-/
def alternation
    (o : LoweringOptions)
    (branches : List Lowered) : Lower Lowered := do
  let bound := (branches.head?.map Lowered.bindings).getD []
  let tests := branches.map Lowered.test
  if branches.isEmpty then
    return .ofTest .never
  else if bound.all (fun (n, a) => agreeOn branches n a) then
    return { test := .or tests, bindings := bound }
  else
    let id := (← get).alternations
    modify fun s => { s with alternations := id + 1 }
    let bindings := bound.map fun (n, a) =>
      if agreeOn branches n a then
        (n, a)
      else
        (n, choice o id branches n)
    return { test := .alt id tests, bindings }

end Lowered

end MatchCompiler

------------------------------------------------------------
-- Nodes
------------------------------------------------------------

namespace MatchCompiler

namespace Lowered

/- A literal. -/
def literal
    (access : Access) : CheckedLiteral → Lowered
| .value l => .ofTest (.equals access l)
| .member m => .ofTest (.tagIs access m)
| .nil => .ofTest (.isNil access)
| .none => .ofTest (.isNone access)

/- The labels that a case name pins. -/
def pin
    (access : Access)
    (p : Pin) : Test :=
  let tag := Access.field access p.discriminator
  match p.labels with
  | [only] => .tagIs tag only
  | labels => .tagIn tag labels

/-
  The tests of an object that come before its fields. Nil
  fails the test for a type too.
-/
def objectTests
    (access : Access)
    (h : ObjectHead) : List Test :=
  (h.runtimeType.map (Test.typeIs access)).toList ++
    (if h.nilCheck then [.isNotNil access] else []) ++
    (h.pin.map (pin access)).toList

/- The mask of some numbers. -/
def maskOf (ordinals : List Nat) : Nat :=
  (ordinals.filter (· < LoweringOptions.maskWidth)).foldl
    (fun mask n => mask ||| 1 <<< n) 0

/-
  A set pattern: a mask if the element type has few enough
  numbered values, and membership otherwise.
-/
def set
    (o : LoweringOptions)
    (access : Access)
    (p : SetPattern) : Test :=
  let members := p.members.map SetMember.literal
  match p.domain, p.members.mapM SetMember.ordinal with
  | some domain, some ordinals =>
      if domain ≤ o.bitsetLimit then
        .setMask access (maskOf ordinals) p.exact
      else
        .setContains access members p.exact
  | _, _ => .setContains access members p.exact

/- A guard; outside of alternations it is asked last. -/
def guarded
    (inside : Bool)
    (id : GuardId)
    (inner : Lowered) : Lower Lowered := do
  if inside then
    return { inner with test := .and [inner.test, .guard id] }
  else
    modify fun s => { s with guards := s.guards ++ [id] }
    return inner

/-
  The length test and the accesses of slots and spread of a
  sequence pattern; none if the fixed length cannot match.
-/
def seqAccesses
    (layout : SeqLayout)
    (access : Access) :
    Option Nat →
    Option (Option Test × List Access × Option Access)
| none =>
    some (layout.lengthTest? access, layout.slotAccesses access,
      layout.spreadAccess? access)
| some n =>
    (layout.resolve n).map fun r =>
      (none, r.slots.map access.slot, r.spread.map (.slice access))

end Lowered

end MatchCompiler

------------------------------------------------------------
-- Patterns
------------------------------------------------------------

namespace MatchCompiler

namespace Checked

mutual

/-
  Lower a pattern that matches the value of an access;
  `inside` says whether an alternation is around it.
-/
def lower
    (o : LoweringOptions) :
    Checked → Bool → Access → Lower Lowered
| .wildcard _, _, _ => return .ofTest .always
| .bind _ name inner, inside, access => do
    let part ← inner.lower o inside access
    return { part with bindings := (name, access) :: part.bindings }
| .literal _ l, _, access => return .literal access l
| .alt _ branches, _, access => do
    Lowered.alternation o (← lowerAll o branches access)
| .guarded _ inner id, inside, access => do
    Lowered.guarded inside id (← inner.lower o inside access)
| .object _ head fields, inside, access => do
    let parts ← lowerFields o fields inside access
    return .conjunction (Lowered.objectTests access head) parts
| .some _ inner, inside, access => do
    let part ← inner.lower o inside (.payload access)
    return .conjunction [.isSome access] [part]
| .tuple _ items, inside, access => do
    return .conjunction [] (← lowerTuple o items inside access)
| .seq _ layout fixed items spread, inside, access => do
    match Lowered.seqAccesses layout access fixed with
    | Option.none => return .ofTest .never
    | Option.some (length, slots, slice) =>
        let parts ← lowerSlots o items inside slots
        let rest ←
          match spread, slice with
          | Option.some p, Option.some slice => do
              let part ← p.lower o inside slice
              pure [part]
          | _, _ => pure []
        return .conjunction length.toList (parts ++ rest)
| .map _ entries, inside, access => do
    return .conjunction [] (← lowerEntries o entries inside access)
| .set _ p, _, access => return .ofTest (Lowered.set o access p)
| .typeIs _ _ name, _, access => return .ofTest (.typeIs access name)
termination_by structural p => p

/- Lower the branches of an alternation. -/
def lowerAll
    (o : LoweringOptions) :
    List Checked → Access → Lower (List Lowered)
| [], _ => return []
| p :: ps, access => do
    let part ← p.lower o true access
    let rest ← lowerAll o ps access
    return part :: rest
termination_by structural ps => ps

/- Lower the fields of an object. -/
def lowerFields
    (o : LoweringOptions) :
    List (FieldRead × Checked) → Bool → Access → Lower (List Lowered)
| [], _, _ => return []
| (f, p) :: fs, inside, access => do
    let part ← p.lower o inside (.field access f.name)
    let rest ← lowerFields o fs inside access
    return part :: rest
termination_by structural fs => fs

/- Lower the items of a tuple. -/
def lowerTuple
    (o : LoweringOptions) :
    List (Nat × Checked) → Bool → Access → Lower (List Lowered)
| [], _, _ => return []
| (position, p) :: items, inside, access => do
    let part ← p.lower o inside (.index access (.fromStart position))
    let rest ← lowerTuple o items inside access
    return part :: rest
termination_by structural items => items

/- Lower the items of a sequence at their slots. -/
def lowerSlots
    (o : LoweringOptions) :
    List Checked → Bool → List Access → Lower (List Lowered)
| p :: ps, inside, slot :: slots => do
    let part ← p.lower o inside slot
    let rest ← lowerSlots o ps inside slots
    return part :: rest
| _, _, _ => return []
termination_by structural ps => ps

/-
  Lower the entries of a map: the key is there, and its value
  matches.
-/
def lowerEntries
    (o : LoweringOptions) :
    List (Literal × Checked) → Bool → Access → Lower (List Lowered)
| [], _, _ => return []
| (key, p) :: es, inside, access => do
    let part ← p.lower o inside (.mapValue access key)
    let rest ← lowerEntries o es inside access
    return .ofTest (.hasKey access key) :: part :: rest
termination_by structural es => es

end

end Checked

end MatchCompiler

------------------------------------------------------------
-- Procedures
------------------------------------------------------------

namespace MatchCompiler

/- The clause of an arm. -/
def CheckedArm.clause
    (o : LoweringOptions)
    (a : CheckedArm)
    (arm : Nat) : Clause :=
  let (part, s) := (a.pattern.lower o false .scrutinee).run {}
  let tests := part.test :: s.guards.map Test.guard
  { arm
    test := (Test.and tests).simplify o
    bindings := part.bindings }

/- The procedure of some arms in order. -/
def Procedure.ofArms
    (o : LoweringOptions)
    (arms : List CheckedArm)
    (scrutinee : SchemaId)
    (exhaustive : Bool) : Procedure :=
  { clauses := arms.zipIdx.map fun (a, i) => a.clause o i
    scrutinee
    exhaustive }

end MatchCompiler
