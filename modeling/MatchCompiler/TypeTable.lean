import MatchCompiler.Primitive

/-
  This file defines type tables, the description of a host's
  types from which schemas are extracted.

  Descriptors refer to one another by their position in the
  table, so recursive types need nothing special. A generic
  template refers to its parameters by their position.

  Key definitions include:
    * `TypeRef`
    * `Shape`
    * `Shape.refs`
    * `TypeDescriptor`
    * `TypeTable`
-/

------------------------------------------------------------
-- References
------------------------------------------------------------

namespace MatchCompiler

/- Position of a descriptor in its table. -/
abbrev DescriptorId :=
  Nat

/- A type as a descriptor mentions it. -/
inductive TypeRef where
| described (id : DescriptorId)
| parameter (index : Nat)
deriving DecidableEq

/-
  What produced a descriptor. It decides only whether a union
  counts as a tagged one.
-/
inductive Origin where
| host
| unionDeclaration
| taggedDeclaration
deriving DecidableEq

end MatchCompiler

------------------------------------------------------------
-- Shapes
------------------------------------------------------------

namespace MatchCompiler

/- The kinds of container. -/
inductive Container where
| sequence
| array (length : Nat)
| map
| set
| optional
deriving DecidableEq

/- Number of type arguments a container takes. -/
def Container.arity : Container → Nat
| .map => 2
| _ => 1

/- A declared field. -/
structure FieldDecl where
  name : String
  type : TypeRef
  isPrivate : Bool := false

/- The discriminator values that select a branch. -/
inductive BranchSelector where
| labels (names : List String)
| otherwise

/- A branch of a variant part and the fields it adds. -/
structure BranchDecl where
  selector : BranchSelector
  fields : List FieldDecl

/-
  The variant part of an object: a discriminator and the
  fields that its values make readable.
-/
structure VariantPart where
  discriminator : FieldDecl
  branches : List BranchDecl

/- An object: a base, own fields and a variant part. -/
structure ObjectShape where
  base : Option TypeRef := none
  fields : List FieldDecl := []
  inheritable : Bool := false
  variant : Option VariantPart := none

/- An element of a tuple; it need not have a name. -/
structure TupleElement where
  name : Option String
  type : TypeRef

/- A name with the number that stands for it. -/
structure Member where
  name : String
  ordinal : Int
deriving DecidableEq

/- The shape of a described type. -/
inductive Shape where
| primitive (kind : Primitive)
| alias (target : TypeRef)
| reference (target : TypeRef)
| generic (template : DescriptorId) (args : List TypeRef)
| container (kind : Container) (args : List TypeRef)
| object (shape : ObjectShape)
| tuple (elements : List TupleElement)
| enumeration (members : List Member)
| unknown

/- The types a variant part mentions. -/
def VariantPart.refs (v : VariantPart) : List TypeRef :=
  v.discriminator.type ::
    v.branches.flatMap (fun b => b.fields.map FieldDecl.type)

/- The types an object mentions. -/
def ObjectShape.refs (o : ObjectShape) : List TypeRef :=
  o.base.toList ++ o.fields.map FieldDecl.type ++
    (o.variant.map VariantPart.refs).getD []

/- The types a shape mentions, in order of appearance. -/
def Shape.refs : Shape → List TypeRef
| .primitive _ | .enumeration _ | .unknown => []
| .alias target => [target]
| .reference target => [target]
| .generic template args => .described template :: args
| .container _ args => args
| .object o => o.refs
| .tuple elements => elements.map TupleElement.type

end MatchCompiler

------------------------------------------------------------
-- Tables
------------------------------------------------------------

namespace MatchCompiler

/- A described type; templates have parameters. -/
structure TypeDescriptor where
  name : String
  shape : Shape
  origin : Origin := .host
  params : Nat := 0

/- The described types of a host. -/
structure TypeTable where
  descriptors : Array TypeDescriptor := #[]

namespace TypeTable

/- Number of descriptors. -/
def size (t : TypeTable) : Nat :=
  t.descriptors.size

/- A table without descriptors. -/
def isEmpty (t : TypeTable) : Bool :=
  t.size == 0

/- The descriptor at a position. -/
def get?
    (t : TypeTable)
    (id : DescriptorId) : Option TypeDescriptor :=
  t.descriptors[id]?

/- Append a descriptor. -/
def define
    (t : TypeTable)
    (d : TypeDescriptor) : TypeTable × DescriptorId :=
  ({ descriptors := t.descriptors.push d }, t.size)

/- Append a type whose shape is given later. -/
def declare
    (t : TypeTable)
    (name : String) : TypeTable × DescriptorId :=
  t.define { name, shape := .unknown }

/- Replace the shape of a descriptor. -/
def setShape
    (t : TypeTable)
    (id : DescriptorId)
    (shape : Shape) : TypeTable :=
  { descriptors :=
      t.descriptors.modify id (fun d => { d with shape }) }

/- The first descriptor with a given name. -/
def lookup?
    (t : TypeTable)
    (name : String) : Option DescriptorId :=
  t.descriptors.findIdx? (fun d => d.name == name)

/- The descriptors of a table are those below its size. -/
theorem isSome_get?_iff
    {t : TypeTable}
    {id : DescriptorId} :
    (t.get? id).isSome = true ↔ id < t.size := by
  simp [get?, size]

end TypeTable

end MatchCompiler
