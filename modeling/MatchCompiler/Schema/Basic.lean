import MatchCompiler.TypeTable

/-
  This file defines schemas, the normalized shapes that
  patterns are checked against.

  Schemas refer to one another by their position in a pool.
  Which parts of a schema are present depends on its kind. A
  reference carries the fields and branches of what it points
  to, and an alias is a copy of its target under another
  name.

  Key definitions include:
    * `SchemaKind`
    * `SchemaFlags`
    * `Field`
    * `Branch`
    * `Schema`
    * `Schema.structuralKind`
    * `Schema.allFieldNames`
    * `Schema.caseLabels`
-/

------------------------------------------------------------
-- Kinds And Flags
------------------------------------------------------------

namespace MatchCompiler

/- Position of a schema in its pool. -/
abbrev SchemaId :=
  Nat

/- The kinds of schema. -/
inductive SchemaKind where
| primitive
| record
| union
| tuple
| sequence
| array
| map
| set
| enumeration
| optional
| reference
| unknown
deriving DecidableEq

namespace SchemaKind

/- Every kind. -/
def all : List SchemaKind :=
  [.primitive, .record, .union, .tuple, .sequence, .array,
    .map, .set, .enumeration, .optional, .reference, .unknown]

/- The kinds whose cases can be listed. -/
def isClosed : SchemaKind → Bool
| .enumeration | .optional | .union => true
| _ => false

/- The kinds whose fields a constructor pattern reads. -/
def hasFields : SchemaKind → Bool
| .record | .union | .reference => true
| _ => false

/- What a kind is called in a message. -/
def text : SchemaKind → String
| .primitive => "primitive"
| .record => "record"
| .union => "discriminated union"
| .tuple => "tuple"
| .sequence => "sequence"
| .array => "fixed array"
| .map => "map"
| .set => "set"
| .enumeration => "enumeration"
| .optional => "optional"
| .reference => "reference"
| .unknown => "opaque type"

end SchemaKind

/-
  Properties of a schema: whether values of derived types may
  appear, whether it is a reference, whether it is a tagged
  union, whether it was reached through an alias.
-/
structure SchemaFlags where
  extensible : Bool := false
  indirect : Bool := false
  tagged : Bool := false
  aliased : Bool := false
deriving DecidableEq

end MatchCompiler

------------------------------------------------------------
-- Schemas
------------------------------------------------------------

namespace MatchCompiler

/- A field; its position is what positional patterns use. -/
structure Field where
  name : String
  schema : SchemaId
  position : Nat
  isPrivate : Bool := false
deriving DecidableEq

/-
  One case of a union: the fields that can be read while the
  discriminator has the label's ordinal.
-/
structure Branch where
  label : String
  ordinal : Int
  fields : List Field
deriving DecidableEq

/- The field of a branch with a given name. -/
def Branch.field?
    (b : Branch)
    (name : String) : Option Field :=
  b.fields.find? (fun f => f.name == name)

/- The field that selects the branch of a union. -/
structure Discriminator where
  field : String
  schema : SchemaId
deriving DecidableEq

/-
  A normalized type. `fields` holds the fields shared by all
  branches, the discriminator among them, and `ancestors` the
  bases, nearest first. `target` is what a reference points
  to or an alias stands for.
-/
structure Schema where
  kind : SchemaKind
  name : String
  aliasName : Option String := none
  flags : SchemaFlags := {}
  primitive : Option Primitive := none
  fields : List Field := []
  branches : List Branch := []
  discriminator : Option Discriminator := none
  element : Option SchemaId := none
  key : Option SchemaId := none
  value : Option SchemaId := none
  arrayLength : Option Nat := none
  members : List Member := []
  ancestors : List SchemaId := []
  target : Option SchemaId := none
  descriptor : Option DescriptorId := none
deriving DecidableEq

namespace Schema

/- The schema of a type about which nothing is known. -/
def unknown (name : String) : Schema :=
  { kind := .unknown, name }

/- The schema of a primitive. -/
def ofPrimitive
    (p : Primitive)
    (name : String) : Schema :=
  { kind := .primitive, name, primitive := some p }

/- Whether the schema is a reference. -/
def isReference (s : Schema) : Bool :=
  s.kind == .reference

/- Whether values of derived types may appear. -/
def isExtensible (s : Schema) : Bool :=
  s.flags.extensible

/-
  The kind of a value once a reference is followed: what
  carries a discriminator is a union, anything else that is
  pointed to is read as a record.
-/
def structuralKind (s : Schema) : SchemaKind :=
  if s.kind == .reference then
    if s.discriminator.isSome then .union else .record
  else
    s.kind

/- The length of a fixed array. -/
def fixedLength? (s : Schema) : Option Nat :=
  if s.structuralKind == .array then s.arrayLength else none

/- The shared field with a given name. -/
def field?
    (s : Schema)
    (name : String) : Option Field :=
  s.fields.find? (fun f => f.name == name)

/- The shared field at a given position. -/
def fieldAt?
    (s : Schema)
    (position : Nat) : Option Field :=
  s.fields.find? (fun f => f.position == position)

/- The branch with a given label. -/
def branch?
    (s : Schema)
    (label : String) : Option Branch :=
  s.branches.find? (fun b => b.label == label)

/- The labels of the branches that declare a field. -/
def owners
    (s : Schema)
    (field : String) : List String :=
  (s.branches.filter (fun b => (b.field? field).isSome)).map
    Branch.label

/-
  The names a constructor pattern may mention: all shared
  fields, then each new name among the branch fields.
-/
def allFieldNames (s : Schema) : List String :=
  (s.branches.flatMap Branch.fields).foldl
    (fun names f =>
      if names.contains f.name then names else names ++ [f.name])
    (s.fields.map Field.name)

/- The case labels of a closed schema. -/
def caseLabels (s : Schema) : List String :=
  match s.structuralKind with
  | .union => s.branches.map Branch.label
  | .enumeration => s.members.map Member.name
  | .optional => ["Some", "None"]
  | _ => []

/- The enumeration member with a given name. -/
def member?
    (s : Schema)
    (name : String) : Option Member :=
  s.members.find? (fun m => m.name == name)

/- The name as written: the alias, if there is one. -/
def displayName (s : Schema) : String :=
  s.aliasName.getD s.name

end Schema

end MatchCompiler
