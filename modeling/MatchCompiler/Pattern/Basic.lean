import MatchCompiler.Literal
import MatchCompiler.Span
import MatchCompiler.TypeTable

/-
  This file defines patterns as a front end builds them.

  Key definitions include:
    * `Guard`
    * `ConstructorHead`
    * `SeqElement`
    * `Pattern`
    * `Pattern.isIrrefutable`
    * `Pattern.isGuarded`
    * `Pattern.guards`
-/

------------------------------------------------------------
-- Parts Of Patterns
------------------------------------------------------------

namespace MatchCompiler

/- Number of a guard; the host evaluates guards by number. -/
abbrev GuardId :=
  Nat

/- A condition of the host and the names it reads. -/
structure Guard where
  id : GuardId
  text : String
  uses : List String

/-
  What a constructor pattern names: a type, a case of it, and
  the descriptor of the type if it may be a derived one.
-/
structure ConstructorHead where
  typeName : Option String := none
  caseName : Option String := none
  target : Option DescriptorId := none

/- The name that decides: the case, or else the type. -/
def ConstructorHead.name (h : ConstructorHead) : Option String :=
  h.caseName.or h.typeName

/- The name of a field where a pattern mentions it. -/
structure FieldName where
  name : String
  span : Span

/-
  An element of a positional pattern: an item, perhaps with a
  default for inputs that are too short, or a spread that
  takes the elements left over.
-/
inductive SeqElement (α : Type) where
| item (pattern : α) (default : Option Literal)
| spread (binding : Option α) (span : Span)

end MatchCompiler

------------------------------------------------------------
-- Patterns
------------------------------------------------------------

namespace MatchCompiler

/- A pattern; every node knows its span. -/
inductive Pattern where
| wildcard (span : Span)
| bind (span : Span) (name : String)
| literal (span : Span) (value : Literal)
| alt (span : Span) (branches : List Pattern)
| guarded (span : Span) (inner : Pattern) (guard : Guard)
| named (span : Span) (name : String) (inner : Pattern)
| constructor
    (span : Span)
    (head : ConstructorHead)
    (fields : List (FieldName × Pattern))
    (args : List Pattern)
| seq (span : Span) (elements : List (SeqElement Pattern))
| typeTest (span : Span) (target : DescriptorId)
| narrow (span : Span) (name : String) (target : DescriptorId)
| map (span : Span) (entries : List (Literal × Pattern))
| set (span : Span) (members : List Literal) (exact : Bool)

namespace Pattern

/- The span of a pattern. -/
def span : Pattern → Span
| .wildcard s => s
| .bind s _ => s
| .literal s _ => s
| .alt s _ => s
| .guarded s _ _ => s
| .named s _ _ => s
| .constructor s _ _ _ => s
| .seq s _ => s
| .typeTest s _ => s
| .narrow s _ _ => s
| .map s _ => s
| .set s _ _ => s

mutual

/- Whether a pattern visibly matches every value. -/
def isIrrefutable : Pattern → Bool
| .wildcard _ => true
| .bind _ _ => true
| .named _ _ inner => inner.isIrrefutable
| .alt _ branches => anyIrrefutable branches
| _ => false
termination_by structural p => p

/- Whether one of several patterns matches every value. -/
def anyIrrefutable : List Pattern → Bool
| [] => false
| p :: ps => p.isIrrefutable || anyIrrefutable ps
termination_by structural ps => ps

end

/- Whether a guard decides the whole pattern. -/
def isGuarded : Pattern → Bool
| .guarded _ _ _ => true
| .named _ _ inner => inner.isGuarded
| _ => false

end Pattern

end MatchCompiler

------------------------------------------------------------
-- Guards Of A Pattern
------------------------------------------------------------

namespace MatchCompiler

namespace Pattern

mutual

/-
  The guards of a pattern in order of appearance: a guard
  before those inside what it guards, and the named fields of
  a constructor before its arguments.
-/
def guards : Pattern → List Guard
| .guarded _ inner guard => guard :: inner.guards
| .named _ _ inner => inner.guards
| .alt _ branches => guardsOfList branches
| .constructor _ _ fields args =>
    guardsOfFields fields ++ guardsOfList args
| .seq _ elements => guardsOfElements elements
| .map _ entries => guardsOfEntries entries
| _ => []
termination_by structural p => p

/- The guards of several patterns. -/
def guardsOfList : List Pattern → List Guard
| [] => []
| p :: ps => p.guards ++ guardsOfList ps
termination_by structural ps => ps

/- The guards of named fields. -/
def guardsOfFields : List (FieldName × Pattern) → List Guard
| [] => []
| (_, p) :: fs => p.guards ++ guardsOfFields fs
termination_by structural fs => fs

/- The guards of positional elements. -/
def guardsOfElements : List (SeqElement Pattern) → List Guard
| [] => []
| .item p _ :: es => p.guards ++ guardsOfElements es
| .spread none _ :: es => guardsOfElements es
| .spread (some p) _ :: es => p.guards ++ guardsOfElements es
termination_by structural es => es

/- The guards of map entries. -/
def guardsOfEntries : List (Literal × Pattern) → List Guard
| [] => []
| (_, p) :: es => p.guards ++ guardsOfEntries es
termination_by structural es => es

end

end Pattern

end MatchCompiler
