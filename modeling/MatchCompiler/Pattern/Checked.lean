import MatchCompiler.Pattern.Basic
import MatchCompiler.Pattern.SeqLayout
import MatchCompiler.Schema.Basic

/-
  This file defines patterns that have been checked against a
  schema. Everything that a compiled match needs is decided
  in them: which field each part reads, which branches a
  constructor pins, where a type has to be tested at run time
  and which elements the slots of a sequence read.

  Key definitions include:
    * `CheckedLiteral`
    * `ObjectHead`
    * `Checked`
    * `Checked.isCatchAll`
    * `Checked.isGuarded`
    * `Checked.hasGuard`
    * `Binding`
    * `CheckedArm`
-/

------------------------------------------------------------
-- Parts Of Checked Patterns
------------------------------------------------------------

namespace MatchCompiler

/-
  What a literal means at the type it is compared with: the
  literal itself, an enumeration member, a nil reference or
  an absent optional.
-/
inductive CheckedLiteral where
| value (literal : Literal)
| member (member : Member)
| nil
| none
deriving DecidableEq

/- The discriminator holds one of some labels. -/
structure Pin where
  discriminator : String
  labels : List Member

/-
  What a constructor pattern asks of an object besides its
  fields: the schema that the fields belong to, whether nil
  must be excluded, the derived type that the object must
  have, and the branches that its case name pins.
-/
structure ObjectHead where
  schema : SchemaId
  nilCheck : Bool
  runtimeType : Option String
  pin : Option Pin

/- The field that a part of an object pattern reads. -/
structure FieldRead where
  name : String
  position : Nat

/- A member of a set pattern and its number, if it has one. -/
structure SetMember where
  literal : Literal
  ordinal : Option Nat

/-
  A set pattern; `domain` is the number of values of the
  element type if they are numbered.
-/
structure SetPattern where
  members : List SetMember
  exact : Bool
  domain : Option Nat

end MatchCompiler

------------------------------------------------------------
-- Checked Patterns
------------------------------------------------------------

namespace MatchCompiler

/-
  A checked pattern. The fields of an object come with the
  discriminator first, and a sequence has one item for each
  slot of its layout. The length of a fixed array needs no
  test.
-/
inductive Checked where
| wildcard (span : Span)
| bind (span : Span) (name : String) (inner : Checked)
| literal (span : Span) (value : CheckedLiteral)
| alt (span : Span) (branches : List Checked)
| guarded (span : Span) (inner : Checked) (guard : GuardId)
| object
    (span : Span)
    (head : ObjectHead)
    (fields : List (FieldRead × Checked))
| some (span : Span) (inner : Checked)
| tuple (span : Span) (items : List (Nat × Checked))
| seq
    (span : Span)
    (layout : SeqLayout)
    (fixedLength : Option Nat)
    (items : List Checked)
    (spread : Option Checked)
| map (span : Span) (entries : List (Literal × Checked))
| set (span : Span) (pattern : SetPattern)
| typeIs (span : Span) (schema : SchemaId) (typeName : String)

namespace Checked

/- The span of a checked pattern. -/
def span : Checked → Span
| .wildcard s => s
| .bind s _ _ => s
| .literal s _ => s
| .alt s _ => s
| .guarded s _ _ => s
| .object s _ _ => s
| .some s _ => s
| .tuple s _ => s
| .seq s _ _ _ _ => s
| .map s _ => s
| .set s _ => s
| .typeIs s _ _ => s

mutual

/- Whether a pattern matches every value. -/
def isCatchAll : Checked → Bool
| .wildcard _ => true
| .bind _ _ inner => inner.isCatchAll
| .alt _ branches => anyCatchAll branches
| _ => false
termination_by structural p => p

/- Whether one of several patterns matches every value. -/
def anyCatchAll : List Checked → Bool
| [] => false
| p :: ps => p.isCatchAll || anyCatchAll ps
termination_by structural ps => ps

end

/- Whether a guard decides the whole pattern. -/
def isGuarded : Checked → Bool
| .guarded _ _ _ => true
| .bind _ _ inner => inner.isGuarded
| _ => false

mutual

/- Whether a guard stands anywhere in a pattern. -/
def hasGuard : Checked → Bool
| .guarded _ _ _ => true
| .bind _ _ inner => inner.hasGuard
| .some _ inner => inner.hasGuard
| .alt _ branches => anyHasGuard branches
| .object _ _ fields => fieldsHaveGuard fields
| .tuple _ items => itemsHaveGuard items
| .seq _ _ _ items none => anyHasGuard items
| .seq _ _ _ items (Option.some spread) =>
    anyHasGuard items || spread.hasGuard
| .map _ entries => entriesHaveGuard entries
| _ => false
termination_by structural p => p

/- Whether a guard stands in one of several patterns. -/
def anyHasGuard : List Checked → Bool
| [] => false
| p :: ps => p.hasGuard || anyHasGuard ps
termination_by structural ps => ps

/- Whether a guard stands in the fields of an object. -/
def fieldsHaveGuard : List (FieldRead × Checked) → Bool
| [] => false
| (_, p) :: fs => p.hasGuard || fieldsHaveGuard fs
termination_by structural fs => fs

/- Whether a guard stands in the items of a tuple. -/
def itemsHaveGuard : List (Nat × Checked) → Bool
| [] => false
| (_, p) :: items => p.hasGuard || itemsHaveGuard items
termination_by structural items => items

/- Whether a guard stands in the entries of a map. -/
def entriesHaveGuard : List (Literal × Checked) → Bool
| [] => false
| (_, p) :: es => p.hasGuard || entriesHaveGuard es
termination_by structural es => es

end

end Checked

end MatchCompiler

------------------------------------------------------------
-- Arms
------------------------------------------------------------

namespace MatchCompiler

/- A name that an arm binds, and its type. -/
structure Binding where
  name : String
  schema : SchemaId
  span : Span

/- A checked pattern with the names it binds. -/
structure CheckedArm where
  pattern : Checked
  bindings : List Binding

/- The binding of a name. -/
def CheckedArm.binding?
    (a : CheckedArm)
    (name : String) : Option Binding :=
  a.bindings.find? (fun b => b.name == name)

end MatchCompiler
