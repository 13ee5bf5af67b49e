import MatchCompiler.Schema.Basic

/-
  This file defines the pool that holds schemas.

  Slots are only ever appended. A slot may be reserved before
  its schema is known, so that recursive types can refer to
  it, and reads as an unknown type until it is filled.

  Key definitions include:
    * `SchemaPool`
    * `SchemaPool.get`
    * `SchemaPool.push`
    * `SchemaPool.fill`
    * `SchemaPool.canonical`
    * `SchemaPool.unwrap`
    * `SchemaPool.sequenceOf`

  Key theorems include:
    * `SchemaPool.size_push`
    * `SchemaPool.get?_push_self`
    * `SchemaPool.get?_push_of_lt`
    * `SchemaPool.size_fill`
    * `SchemaPool.get?_fill_of_ne`
-/

------------------------------------------------------------
-- Pools
------------------------------------------------------------

namespace MatchCompiler

/- Schemas that no descriptor stands for, shared by key. -/
inductive SyntheticKey where
| primitive (kind : Primitive)
| sequenceOf (element : SchemaId)
| unknown
deriving DecidableEq

/- The schemas of a session, and the shared ones by key. -/
structure SchemaPool where
  schemas : Array Schema := #[]
  synthetic : List (SyntheticKey × SchemaId) := []
deriving DecidableEq

namespace SchemaPool

/- Number of slots. -/
def size (p : SchemaPool) : Nat :=
  p.schemas.size

/- A pool without slots. -/
def isEmpty (p : SchemaPool) : Bool :=
  p.size == 0

/- The schema in a slot, if there is such a slot. -/
def get?
    (p : SchemaPool)
    (id : SchemaId) : Option Schema :=
  p.schemas[id]?

/- The schema in a slot; no slot reads as an unknown type. -/
def get
    (p : SchemaPool)
    (id : SchemaId) : Schema :=
  (p.get? id).getD (Schema.unknown "")

/- Append a slot. -/
def push
    (p : SchemaPool)
    (s : Schema) : SchemaPool × SchemaId :=
  ({ p with schemas := p.schemas.push s }, p.size)

/- Replace the schema in a slot. -/
def fill
    (p : SchemaPool)
    (id : SchemaId)
    (s : Schema) : SchemaPool :=
  { p with schemas := p.schemas.setIfInBounds id s }

/- The name shown for the schema in a slot. -/
def nameOf
    (p : SchemaPool)
    (id : SchemaId) : String :=
  (p.get id).displayName

end SchemaPool

end MatchCompiler

------------------------------------------------------------
-- Aliases And References
------------------------------------------------------------

namespace MatchCompiler

namespace SchemaPool

/-
  Follow the targets of the schemas that satisfy `through`,
  for at most a number of steps. A schema that is its own
  target is not followed.
-/
def follow
    (p : SchemaPool)
    (through : Schema → Bool) :
    Nat → SchemaId → SchemaId
| 0, id => id
| n + 1, id =>
    match (p.get id).target with
    | none => id
    | some target =>
        if through (p.get id) && target != id then
          follow p through n target
        else
          id

/- The schema that an alias finally stands for. -/
def canonical
    (p : SchemaPool)
    (id : SchemaId) : SchemaId :=
  p.follow (fun s => s.aliasName.isSome) p.size id

/- Follow references, and the aliases between them. -/
def followReferences
    (p : SchemaPool) :
    Nat → SchemaId → SchemaId
| 0, id => id
| n + 1, id =>
    match (p.get id).target with
    | none => id
    | some target =>
        if (p.get id).isReference && target != id then
          followReferences p n (p.canonical target)
        else
          id

/- What a chain of aliases and references leads to. -/
def unwrap
    (p : SchemaPool)
    (id : SchemaId) : SchemaId :=
  p.followReferences p.size (p.canonical id)

end SchemaPool

end MatchCompiler

------------------------------------------------------------
-- Shared Schemas
------------------------------------------------------------

namespace MatchCompiler

namespace SchemaPool

/- The shared schema with a key, appended at first use. -/
def share
    (p : SchemaPool)
    (key : SyntheticKey)
    (s : Schema) : SchemaPool × SchemaId :=
  match p.synthetic.lookup key with
  | some id => (p, id)
  | none =>
      let (p, id) := p.push s
      ({ p with synthetic := (key, id) :: p.synthetic }, id)

/- The shared schema of a primitive. -/
def primitive
    (p : SchemaPool)
    (kind : Primitive) : SchemaPool × SchemaId :=
  p.share (.primitive kind) (Schema.ofPrimitive kind kind.name)

/- The shared schema of the sequences of an element type. -/
def sequenceOf
    (p : SchemaPool)
    (element : SchemaId) : SchemaPool × SchemaId :=
  p.share (.sequenceOf element)
    { kind := .sequence
      name := s!"seq[{p.nameOf element}]"
      element := some element }

/- The shared schema of what cannot be resolved. -/
def unknown (p : SchemaPool) : SchemaPool × SchemaId :=
  p.share .unknown (Schema.unknown "<unknown>")

end SchemaPool

end MatchCompiler

------------------------------------------------------------
-- Properties Of Slots
------------------------------------------------------------

namespace MatchCompiler

namespace SchemaPool

/- A slot is appended at the end. -/
theorem size_push
    (p : SchemaPool)
    (s : Schema) :
    (p.push s).1.size = p.size + 1 := by
  simp [push, size]

/- An appended schema is found in its slot. -/
theorem get?_push_self
    (p : SchemaPool)
    (s : Schema) :
    (p.push s).1.get? (p.push s).2 = some s := by
  simp [push, get?, size]

/- Appending keeps the slots there were. -/
theorem get?_push_of_lt
    (p : SchemaPool)
    (s : Schema)
    {id : SchemaId}
    (h : id < p.size) :
    (p.push s).1.get? id = p.get? id := by
  have hNe : id ≠ p.schemas.size := Nat.ne_of_lt h
  simp only [push, get?]
  rw [Array.getElem?_push, if_neg hNe]

/- Filling a slot appends none. -/
theorem size_fill
    (p : SchemaPool)
    (id : SchemaId)
    (s : Schema) :
    (p.fill id s).size = p.size := by
  simp [fill, size]

/- Filling a slot keeps the others. -/
theorem get?_fill_of_ne
    (p : SchemaPool)
    (s : Schema)
    {id other : SchemaId}
    (h : id ≠ other) :
    (p.fill id s).get? other = p.get? other := by
  simp only [fill, get?]
  exact Array.getElem?_setIfInBounds_ne h

end SchemaPool

end MatchCompiler
