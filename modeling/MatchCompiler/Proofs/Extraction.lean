import MatchCompiler.Schema.Registry
import Mathlib.Data.List.Forall2
import Mathlib.Logic.Relation

/-
  This file says what an extraction does.

  Whatever is extracted, the slots that were there stay as
  they are, and nothing that was remembered is forgotten. An
  extraction is a sequence of moves: a slot is reserved, or
  the slot that was reserved last is filled, and some moves
  touch no slot. What a slot is filled with is told by the
  slots that the registry remembers for the types that the
  descriptor mentions, and its name by the slots that were
  passed as generic arguments.

  Key definitions include:
    * `Extraction.Grows`
    * `Registry.Finds`
    * `Built`
    * `Move`
    * `Extraction.Passed`
    * `NamingMove`
    * `Extraction.Runs`

  Key theorems include:
    * `Traced.bind`
    * `Extract.traced_nested`
-/

------------------------------------------------------------
-- Growth
------------------------------------------------------------

namespace MatchCompiler

/- What is found in a list of entries is found in another. -/
def EntriesKept
    {α β : Type}
    [BEq α]
    (l l' : List (α × β)) : Prop :=
  ∀ k v, l.lookup k = some v → l'.lookup k = some v

/- Slots are added to a pool, and none is changed. -/
structure SchemaPool.Grows
    (p q : SchemaPool) : Prop where
  schemas : p.schemas.toList <+: q.schemas.toList
  synthetic : EntriesKept p.synthetic q.synthetic

/- What a registry remembers is kept. -/
structure Registry.Grows
    (r r' : Registry) : Prop where
  pool : r.pool.Grows r'.pool
  cache : EntriesKept r.cache r'.cache
  parametric : EntriesKept r.parametric r'.parametric
  marker : r'.marker = r.marker

/-
  An extraction goes on, and is back where it started: the
  unfilled slots are the same, and only views in new slots
  are noted.
-/
structure Extraction.Grows
    (x y : Extraction) : Prop where
  registry : x.registry.Grows y.registry
  pending : y.pending = x.pending
  views :
    ∃ new, y.views = x.views ++ new ∧
      ∀ v ∈ new, x.registry.pool.size ≤ v.slot

section

variable {α β : Type}
variable [BEq α]
variable {l l' l'' : List (α × β)}

theorem EntriesKept.refl : EntriesKept l l :=
  fun _ _ h => h

theorem EntriesKept.trans
    (h : EntriesKept l l')
    (h' : EntriesKept l' l'') :
    EntriesKept l l'' :=
  fun k v hFound => h' k v (h k v hFound)

/- An entry is added for what was not found. -/
theorem EntriesKept.cons
    [LawfulBEq α]
    {k : α}
    (h : EntriesKept l l')
    (hNone : l.lookup k = none)
    (v : β) :
    EntriesKept l ((k, v) :: l') := by
  intro k' v' hFound
  have hNe : k' ≠ k := by
    rintro rfl
    rw [hNone] at hFound
    cases hFound
  rw [List.lookup_cons, beq_eq_false_iff_ne.mpr hNe]
  exact h k' v' hFound

end

namespace SchemaPool

variable {p q r : SchemaPool}

theorem Grows.refl (p : SchemaPool) : p.Grows p :=
  ⟨List.prefix_refl _, .refl⟩

theorem Grows.trans
    (h : p.Grows q)
    (h' : q.Grows r) :
    p.Grows r :=
  ⟨h.schemas.trans h'.schemas, h.synthetic.trans h'.synthetic⟩

theorem Grows.size_le
    (h : p.Grows q) :
    p.size ≤ q.size := by
  simpa [size] using h.schemas.length_le

/- A slot that was there is the same. -/
theorem Grows.get?_eq
    (h : p.Grows q)
    {slot : SchemaId}
    (hSlot : slot < p.size) :
    q.get? slot = p.get? slot := by
  have hLt : slot < p.schemas.toList.length := by simpa [size] using hSlot
  have hSame := List.prefix_iff_getElem?.mp h.schemas slot hLt
  simp only [get?, Array.getElem?_toList] at hSame ⊢
  rw [hSame, Array.getElem_toList, Array.getElem?_eq_getElem]

theorem Grows.get_eq
    (h : p.Grows q)
    {slot : SchemaId}
    (hSlot : slot < p.size) :
    q.get slot = p.get slot := by
  simp only [get, h.get?_eq hSlot]

/- Appending a slot. -/
theorem grows_push
    (p : SchemaPool)
    (s : Schema) :
    p.Grows (p.push s).1 :=
  ⟨by simp [push], .refl⟩

/- Looking up a shared schema. -/
theorem grows_share
    (p : SchemaPool)
    (key : SyntheticKey)
    (s : Schema) :
    p.Grows (p.share key s).1 := by
  unfold share
  cases hFound : p.synthetic.lookup key with
  | some id => exact .refl p
  | none => exact ⟨(p.grows_push s).schemas, EntriesKept.refl.cons hFound _⟩

/- A shared schema is found from then on. -/
theorem lookup_share
    (p : SchemaPool)
    (key : SyntheticKey)
    (s : Schema) :
    (p.share key s).1.synthetic.lookup key = some (p.share key s).2 := by
  unfold share
  cases hFound : p.synthetic.lookup key with
  | some id => exact hFound
  | none => simp [push]

/- A new slot is filled. -/
theorem Grows.fill
    (h : p.Grows q)
    {slot : SchemaId}
    (hSlot : p.size ≤ slot)
    (s : Schema) :
    p.Grows (q.fill slot s) := by
  refine ⟨?_, h.synthetic⟩
  rcases h.schemas with ⟨rest, hRest⟩
  refine ⟨rest.set (slot - p.size) s, ?_⟩
  simp only [SchemaPool.fill, Array.toList_setIfInBounds, ← hRest]
  rw [List.set_append_right _ _ (by simpa [size] using hSlot)]
  simp [size]

end SchemaPool

namespace Registry

variable {r r' r'' : Registry}

theorem Grows.refl (r : Registry) : r.Grows r :=
  ⟨.refl _, .refl, .refl, rfl⟩

theorem Grows.trans
    (h : r.Grows r')
    (h' : r'.Grows r'') :
    r.Grows r'' :=
  ⟨h.pool.trans h'.pool, h.cache.trans h'.cache,
    h.parametric.trans h'.parametric, h'.marker.trans h.marker⟩

end Registry

namespace Extraction

variable {x y z : Extraction}

theorem Grows.refl (x : Extraction) : x.Grows x :=
  ⟨.refl _, rfl, [], (List.append_nil _).symm, nofun⟩

theorem Grows.trans
    (h : x.Grows y)
    (h' : y.Grows z) :
    x.Grows z := by
  refine ⟨h.registry.trans h'.registry, h'.pending.trans h.pending, ?_⟩
  rcases h.views with ⟨new, hNew, hSlots⟩
  rcases h'.views with ⟨more, hMore, hLater⟩
  refine ⟨new ++ more, by rw [hMore, hNew, List.append_assoc], ?_⟩
  intro v hv
  rcases List.mem_append.mp hv with hv | hv
  · exact hSlots v hv
  · exact Nat.le_trans h.registry.pool.size_le (hLater v hv)

/- Only the registry has grown. -/
theorem grows_of_registry
    {r : Registry}
    (h : x.registry.Grows r) :
    x.Grows { x with registry := r } :=
  ⟨h, rfl, [], (List.append_nil _).symm, nofun⟩

end Extraction

end MatchCompiler

------------------------------------------------------------
-- Slots
------------------------------------------------------------

namespace MatchCompiler

/- A schema that is neither an alias nor a reference. -/
structure Schema.IsPlain
    (s : Schema) : Prop where
  target : s.target = none
  aliasName : s.aliasName = none
  kind : s.kind ≠ .reference

theorem Schema.isPlain_unknown
    (name : String) :
    (Schema.unknown name).IsPlain :=
  ⟨rfl, rfl, nofun⟩

namespace SchemaPool

variable {p : SchemaPool}

theorem get_of_le
    {slot : SchemaId}
    (h : p.size ≤ slot) :
    p.get slot = Schema.unknown "" := by
  have hNone : p.get? slot = none := Array.getElem?_eq_none h
  rw [get, hNone]
  rfl

theorem get_fill_self
    {slot : SchemaId}
    (h : slot < p.size)
    (s : Schema) :
    (p.fill slot s).get slot = s := by
  have hLt : slot < p.schemas.size := h
  simp [get, get?, fill, hLt]

theorem get_fill_of_ne
    {slot other : SchemaId}
    (h : slot ≠ other)
    (s : Schema) :
    (p.fill slot s).get other = p.get other := by
  rw [get, get?_fill_of_ne p s h, get]

theorem get_push_self
    (p : SchemaPool)
    (s : Schema) :
    (p.push s).1.get p.size = s := by
  simp [get, get?, push, size]

theorem get_push_of_ne
    {slot : SchemaId}
    (h : slot ≠ p.size)
    (s : Schema) :
    (p.push s).1.get slot = p.get slot := by
  have hNe : slot ≠ p.schemas.size := h
  simp [get, get?, push, Array.getElem?_push, hNe]

end SchemaPool

end MatchCompiler

------------------------------------------------------------
-- What Is Found
------------------------------------------------------------

namespace MatchCompiler

/-
  The types of a shape that are looked at. The arguments of a
  container are not if their number is wrong.
-/
def Shape.followed : Shape → List TypeRef
| .container kind args =>
    if args.length = kind.arity then args else []
| shape => shape.refs

section

variable {shape : Shape}
variable {o : ObjectShape}
variable (hShape : shape = .object o)

include hShape

theorem Shape.base_mem_followed
    {base : TypeRef}
    (hBase : o.base = some base) :
    base ∈ shape.followed := by
  simp [hShape, Shape.followed, Shape.refs, ObjectShape.refs, hBase]

theorem Shape.fields_subset_followed :
    o.fields.map FieldDecl.type ⊆ shape.followed := by
  subst hShape
  simp only [Shape.followed, Shape.refs, ObjectShape.refs]
  intro ref hRef
  simp [hRef]

theorem Shape.variant_subset_followed
    {v : VariantPart}
    (hVariant : o.variant = some v) :
    v.refs ⊆ shape.followed := by
  subst hShape
  simp only [Shape.followed, Shape.refs, ObjectShape.refs, hVariant]
  exact List.subset_append_right _ _

end

namespace TypeTable

/- A descriptor mentions another. -/
def Mentions
    (t : TypeTable)
    (id other : DescriptorId) : Prop :=
  ∃ d, t.get? id = some d ∧ .described other ∈ d.shape.followed

/- A descriptor mentions another through a number of others. -/
def Reaches (t : TypeTable) :
    DescriptorId → DescriptorId → Prop :=
  Relation.ReflTransGen t.Mentions

/- A descriptor that is given a slot of its own. -/
def IsConcrete
    (t : TypeTable)
    (id : DescriptorId) : Prop :=
  ∃ d, t.get? id = some d ∧
    ∀ template args, d.shape ≠ .generic template args

end TypeTable

/-
  The slot that a registry remembers for a mentioned type
  under generic arguments.
-/
inductive Registry.Finds
    (t : TypeTable)
    (r : Registry)
    (env : List SchemaId) : TypeRef → SchemaId → Prop
| known
    {id : DescriptorId}
    {d : TypeDescriptor}
    {parametric : Bool}
    {slot : SchemaId}
    (hGet : t.get? id = some d)
    (hParametric : r.parametric.lookup id = some parametric)
    (hCache :
      r.cache.lookup ⟨id, if parametric then env else []⟩ = some slot) :
    Finds t r env (.described id) slot
| dangling
    {id : DescriptorId}
    {slot : SchemaId}
    (hGet : t.get? id = none)
    (hUnknown : r.pool.synthetic.lookup .unknown = some slot) :
    Finds t r env (.described id) slot
| argument
    {i : Nat}
    {slot : SchemaId}
    (hArgument : env[i]? = some slot) :
    Finds t r env (.parameter i) slot
| missing
    {i : Nat}
    {slot : SchemaId}
    (hArgument : env[i]? = none)
    (hUnknown : r.pool.synthetic.lookup .unknown = some slot) :
    Finds t r env (.parameter i) slot

/- A registry finds all that another does. -/
structure Registry.Recalls
    (r r' : Registry) : Prop where
  cache : EntriesKept r.cache r'.cache
  parametric : EntriesKept r.parametric r'.parametric
  synthetic : EntriesKept r.pool.synthetic r'.pool.synthetic

theorem Registry.Grows.recalls
    {r r' : Registry}
    (h : r.Grows r') :
    r.Recalls r' :=
  ⟨h.cache, h.parametric, h.pool.synthetic⟩

/- What has been found stays found. -/
theorem Registry.Finds.mono
    {t : TypeTable}
    {r r' : Registry}
    {env : List SchemaId}
    {ref : TypeRef}
    {slot : SchemaId}
    (h : r.Finds t env ref slot)
    (hRecalls : r.Recalls r') :
    r'.Finds t env ref slot := by
  cases h with
  | known hGet hParametric hCache =>
      exact .known hGet (hRecalls.parametric _ _ hParametric)
        (hRecalls.cache _ _ hCache)
  | dangling hGet hUnknown =>
      exact .dangling hGet (hRecalls.synthetic _ _ hUnknown)
  | argument hArgument => exact .argument hArgument
  | missing hArgument hUnknown =>
      exact .missing hArgument (hRecalls.synthetic _ _ hUnknown)

/- The targets of a pool are slots of it. -/
def SchemaPool.TargetsWithin (p : SchemaPool) : Prop :=
  ∀ slot, ∀ source ∈ (p.get slot).target, source < p.size

/- What a registry remembers are slots of its pool. -/
structure Registry.Bounded
    (r : Registry) : Prop where
  cache : ∀ key slot, r.cache.lookup key = some slot → slot < r.pool.size
  synthetic :
    ∀ key slot, r.pool.synthetic.lookup key = some slot →
      slot < r.pool.size
  targets : r.pool.TargetsWithin

/- A slot was read when the pool had no more than its slots. -/
structure SchemaPool.SeenIn
    (slot : SchemaId)
    (p q : SchemaPool) : Prop where
  grows : p.Grows q
  slot_lt : slot < p.size
  targets : p.TargetsWithin

theorem SchemaPool.SeenIn.mono
    {slot : SchemaId}
    {p q q' : SchemaPool}
    (h : SchemaPool.SeenIn slot p q)
    (hGrows : q.Grows q') :
    SchemaPool.SeenIn slot p q' :=
  ⟨h.grows.trans hGrows, h.slot_lt, h.targets⟩

theorem Registry.Finds.lt
    {t : TypeTable}
    {r : Registry}
    {env : List SchemaId}
    {ref : TypeRef}
    {slot : SchemaId}
    (h : r.Finds t env ref slot)
    (hBounded : r.Bounded)
    (hEnv : ∀ s ∈ env, s < r.pool.size) :
    slot < r.pool.size := by
  cases h with
  | known _ _ hCache => exact hBounded.cache _ _ hCache
  | dangling _ hUnknown => exact hBounded.synthetic _ _ hUnknown
  | argument hArgument => exact hEnv _ (List.mem_of_getElem? hArgument)
  | missing _ hUnknown => exact hBounded.synthetic _ _ hUnknown

theorem Registry.Finds.all_lt
    {t : TypeTable}
    {r : Registry}
    {env : List SchemaId}
    {refs : List TypeRef}
    {slots : List SchemaId}
    (h : List.Forall₂ (r.Finds t env) refs slots)
    (hBounded : r.Bounded)
    (hEnv : ∀ s ∈ env, s < r.pool.size) :
    ∀ s ∈ slots, s < r.pool.size := by
  induction h with
  | nil => exact nofun
  | cons hFinds _ ih =>
      exact List.forall_mem_cons.mpr ⟨hFinds.lt hBounded hEnv, ih⟩

namespace SchemaPool

variable {p : SchemaPool}

/- A schema without a target is appended. -/
theorem TargetsWithin.push
    (h : p.TargetsWithin)
    {s : Schema}
    (hTarget : s.target = none) :
    (p.push s).1.TargetsWithin := by
  intro slot source hSource
  by_cases hNew : slot = p.size
  · rw [hNew, get_push_self, hTarget] at hSource
    cases hSource
  · rw [get_push_of_ne hNew] at hSource
    rw [size_push]
    exact Nat.lt_succ_of_lt (h slot source hSource)

/- A schema with a target in the pool is filled in. -/
theorem TargetsWithin.fill
    (h : p.TargetsWithin)
    (slot : SchemaId)
    {s : Schema}
    (hTarget : ∀ source ∈ s.target, source < p.size) :
    (p.fill slot s).TargetsWithin := by
  intro other source hSource
  rw [size_fill]
  by_cases hSame : slot = other
  · subst hSame
    by_cases hLt : slot < p.size
    · rw [get_fill_self hLt] at hSource
      exact hTarget source hSource
    · rw [get_of_le (by rw [size_fill]; exact Nat.le_of_not_lt hLt)]
        at hSource
      cases hSource
  · rw [get_fill_of_ne hSame] at hSource
    exact h other source hSource

end SchemaPool

/- Sharing a schema keeps to the slots of the pool. -/
theorem Registry.Bounded.share
    {r : Registry}
    (h : r.Bounded)
    (key : SyntheticKey)
    {s : Schema}
    (hTarget : s.target = none) :
    Registry.Bounded { r with pool := (r.pool.share key s).1 } := by
  unfold SchemaPool.share
  cases hShared : r.pool.synthetic.lookup key with
  | some id => exact h
  | none =>
      have hSize := r.pool.size_push s
      refine ⟨fun key' slot hFound => ?_, fun key' slot hFound => ?_,
        h.targets.push hTarget⟩
      · exact Nat.lt_of_lt_of_eq
          (Nat.lt_succ_of_lt (h.cache key' slot hFound)) hSize.symm
      · refine Nat.lt_of_lt_of_eq ?_ hSize.symm
        change ((key, r.pool.size) :: r.pool.synthetic).lookup key' =
          some slot at hFound
        rw [List.lookup_cons] at hFound
        split at hFound
        · cases hFound
          exact Nat.lt_succ_self _
        · exact Nat.lt_succ_of_lt (h.synthetic key' slot hFound)

end MatchCompiler

------------------------------------------------------------
-- What Is Built
------------------------------------------------------------

namespace MatchCompiler

/- The shape of a view of a type. -/
def ViewKind.shape
    (target : TypeRef) : ViewKind → Shape
| .alias => .alias target
| .reference => .reference target

/- The schema of a container whose arguments have slots. -/
def Container.schema
    (name : String) : Container → List SchemaId → Schema
| .map, [key, value] =>
    { kind := .map, name, key := some key, value := some value }
| .array n, [element] =>
    { kind := .array, name, element := some element,
      arrayLength := some n }
| .sequence, [element] =>
    { kind := .sequence, name, element := some element }
| .set, [element] => { kind := .set, name, element := some element }
| .optional, [element] =>
    { kind := .optional, name, element := some element }
| _, _ => Schema.unknown name

/- The elements of a tuple as declared fields. -/
def tupleDecls : Nat → List TupleElement → List FieldDecl
| _, [] => []
| position, e :: es =>
    { name := e.name.getD (toString position), type := e.type } ::
      tupleDecls (position + 1) es

/- What an object with or without a base starts from. -/
def ObjectShape.start
    (o : ObjectShape)
    (name : String) : Option (SchemaPool × SchemaId) → Schema
| none =>
    { kind := .record, name, flags := { extensible := o.inheritable } }
| some (p, id) =>
    { kind := .record, name, flags := { extensible := true },
      fields := (p.get id).fields,
      ancestors := id :: (p.get id).ancestors,
      branches := if o.variant.isSome then [] else (p.get id).branches,
      discriminator :=
        if o.variant.isSome then none else (p.get id).discriminator }

section

variable (t : TypeTable)
variable (r : Registry)
variable (env : List SchemaId)

/- Declared fields become fields, numbered from a position. -/
inductive Gives : Nat → List FieldDecl → List Field → Prop
| nil (position : Nat) : Gives position [] []
| cons
    {position : Nat}
    {d : FieldDecl}
    {slot : SchemaId}
    {ds : List FieldDecl}
    {fs : List Field}
    (hSlot : r.Finds t env d.type slot)
    (hRest : Gives (position + 1) ds fs) :
    Gives position (d :: ds)
      ({ name := d.name, schema := slot, position,
         isPrivate := d.isPrivate } :: fs)

/- Declared branches become lists of fields. -/
def GivesBranches
    (position : Nat)
    (branches : List BranchDecl)
    (added : List (BranchSelector × List Field)) : Prop :=
  List.Forall₂
    (fun b a => a.1 = b.selector ∧ Gives t r env position b.fields a.2)
    branches added

/-
  What an object starts from. The base is read when it has
  been found, from a pool that has only grown since.
-/
inductive Starts
    (name : String)
    (o : ObjectShape) : Schema → Prop
| root
    (hBase : o.base = none) :
    Starts name o (o.start name none)
| derived
    {base : TypeRef}
    {source : SchemaId}
    {p : SchemaPool}
    (hBase : o.base = some base)
    (hSource : r.Finds t env base source)
    (hSeen : SchemaPool.SeenIn source p r.pool) :
    Starts name o (o.start name (some (p, p.unwrap source)))

/- A variant part is added. -/
inductive Varies
    (origin : Origin)
    (s : Schema)
    (v : VariantPart) : Schema → Prop
| mk
    {slot : SchemaId}
    {p : SchemaPool}
    {tagged : Bool}
    {added : List (BranchSelector × List Field)}
    (hSlot : r.Finds t env v.discriminator.type slot)
    (hSeen : SchemaPool.SeenIn slot p r.pool)
    (hAdded :
      GivesBranches t r env (s.fields.length + 1) v.branches added)
    (hTagged :
      tagged = (origin == .taggedDeclaration &&
        !(p.labelDomain slot v.branches).isEmpty &&
        (p.labelDomain slot v.branches).all
          (fun m => isMarked r.marker m.name))) :
    Varies origin s v
      { s with
        fields := s.fields ++
          [{ name := v.discriminator.name, schema := slot,
             position := s.fields.length,
             isPrivate := v.discriminator.isPrivate }]
        branches := (p.labelDomain slot v.branches).map fun m =>
          { label := m.name, ordinal := m.ordinal,
            fields :=
              added.foldl
                (fun fs (sel, own) =>
                  if sel.selects (declaredLabels v.branches) m.name then
                    own
                  else
                    fs)
                ([] : List Field) }
        discriminator :=
          some { field := v.discriminator.name, schema := slot }
        flags := { s.flags with tagged := s.flags.tagged || tagged } }

/- An object is built. -/
inductive BuiltObject
    (name : String)
    (origin : Origin)
    (o : ObjectShape) : Schema → Prop
| plain
    {s : Schema}
    {own : List Field}
    (hStart : Starts t r env name o s)
    (hOwn : Gives t r env s.fields.length o.fields own)
    (hVariant : o.variant = none) :
    BuiltObject name origin o
      { s with
        fields := s.fields ++ own
        kind := if s.discriminator.isSome then .union else .record }
| variant
    {s s' : Schema}
    {own : List Field}
    {v : VariantPart}
    (hStart : Starts t r env name o s)
    (hOwn : Gives t r env s.fields.length o.fields own)
    (hVariant : o.variant = some v)
    (hVaries :
      Varies t r env origin { s with fields := s.fields ++ own } v s') :
    BuiltObject name origin o { s' with kind := .union }

end

/-
  The schema that a descriptor is given, and the views that
  are noted for rebuilding.
-/
inductive Built
    (t : TypeTable)
    (x : Extraction)
    (env : List SchemaId)
    (id : DescriptorId)
    (origin : Origin)
    (slot : SchemaId)
    (name : String) : Shape → Schema → List View → Prop
| primitive (kind : Primitive) :
    Built t x env id origin slot name (.primitive kind)
      (Schema.ofPrimitive kind name) []
| enumeration (members : List Member) :
    Built t x env id origin slot name (.enumeration members)
      { kind := .enumeration, name, members } []
| unknown :
    Built t x env id origin slot name .unknown (Schema.unknown name) []
| container
    {kind : Container}
    {args : List TypeRef}
    {slots : List SchemaId}
    (hArity : args.length = kind.arity)
    (hArgs : List.Forall₂ (x.registry.Finds t env) args slots) :
    Built t x env id origin slot name (.container kind args)
      (kind.schema name slots) []
| misfit
    {kind : Container}
    {args : List TypeRef}
    (hArity : args.length ≠ kind.arity) :
    Built t x env id origin slot name (.container kind args)
      (Schema.unknown name) []
| tuple
    {elements : List TupleElement}
    {fields : List Field}
    (hFields :
      Gives t x.registry env 0 (tupleDecls 0 elements) fields) :
    Built t x env id origin slot name (.tuple elements)
      { kind := .tuple, name, fields } []
| object
    {o : ObjectShape}
    {s : Schema}
    (hObject : BuiltObject t x.registry env name origin o s) :
    Built t x env id origin slot name (.object o) s []
| view
    {kind : ViewKind}
    {target : TypeRef}
    {source : SchemaId}
    {shape : Shape}
    {noted : List View}
    (hShape : shape = kind.shape target)
    (hSource : x.registry.Finds t env target source)
    (hNoted :
      noted =
        if x.pending.contains source ||
            x.views.any (fun v => v.slot == source) then
          [{ slot, source, kind, name, descriptor := id }]
        else
          []) :
    Built t x env id origin slot name shape
      (x.registry.pool.view kind source name) noted

/- Whatever is built and is no view is plain. -/
theorem BuiltObject.isPlain
    {t : TypeTable}
    {r : Registry}
    {env : List SchemaId}
    {name : String}
    {origin : Origin}
    {o : ObjectShape}
    {s : Schema}
    (h : BuiltObject t r env name origin o s) :
    s.IsPlain := by
  have hStart :
      ∀ {s}, Starts t r env name o s → s.target = none ∧
        s.aliasName = none := by
    intro s hStart
    cases hStart <;> exact ⟨rfl, rfl⟩
  cases h with
  | @plain s own hStarts hOwn hVariant =>
      refine ⟨(hStart hStarts).1, (hStart hStarts).2, ?_⟩
      cases s.discriminator.isSome <;> simp
  | variant hStarts hOwn hVariant hVaries =>
      cases hVaries
      exact ⟨(hStart hStarts).1, (hStart hStarts).2, nofun⟩

theorem Container.isPlain_schema
    (name : String)
    (kind : Container)
    (slots : List SchemaId) :
    (kind.schema name slots).IsPlain := by
  unfold Container.schema
  split <;> exact ⟨rfl, rfl, nofun⟩

/- A view is of a slot that has been found. -/
theorem Built.target_lt
    {t : TypeTable}
    {x : Extraction}
    {env : List SchemaId}
    {id : DescriptorId}
    {origin : Origin}
    {slot : SchemaId}
    {name : String}
    {shape : Shape}
    {s : Schema}
    {noted : List View}
    (h : Built t x env id origin slot name shape s noted)
    (hBounded : x.registry.Bounded)
    (hEnv : ∀ s ∈ env, s < x.registry.pool.size) :
    (∀ source ∈ s.target, source < x.registry.pool.size) ∧
    ∀ v ∈ noted, v.source < x.registry.pool.size := by
  have hPlain :
      ∀ {s : Schema}, s.IsPlain →
        (∀ source ∈ s.target, source < x.registry.pool.size) ∧
        ∀ v ∈ ([] : List View), v.source < x.registry.pool.size := by
    intro s hs
    rw [hs.target]
    exact ⟨nofun, nofun⟩
  cases h with
  | primitive kind => exact hPlain ⟨rfl, rfl, nofun⟩
  | enumeration members => exact hPlain ⟨rfl, rfl, nofun⟩
  | unknown => exact hPlain ⟨rfl, rfl, nofun⟩
  | misfit => exact hPlain ⟨rfl, rfl, nofun⟩
  | tuple => exact hPlain ⟨rfl, rfl, nofun⟩
  | object hObject => exact hPlain hObject.isPlain
  | container => exact hPlain (Container.isPlain_schema _ _ _)
  | @view kind target source _ _ hShape hSource hNoted =>
      have hLt := hSource.lt hBounded hEnv
      refine ⟨fun other hOther => ?_, fun v hv => ?_⟩
      · have hSame : other = source := by
          cases kind <;> exact (Option.some.inj hOther).symm
        exact hSame ▸ hLt
      · rw [hNoted] at hv
        split at hv
        · cases List.mem_singleton.mp hv
          exact hLt
        · cases hv

/- Nothing is built for an instance. -/
theorem Built.not_generic
    {t : TypeTable}
    {x : Extraction}
    {env : List SchemaId}
    {id : DescriptorId}
    {origin : Origin}
    {slot : SchemaId}
    {name : String}
    {shape : Shape}
    {s : Schema}
    {noted : List View}
    (h : Built t x env id origin slot name shape s noted)
    (template : DescriptorId)
    (args : List TypeRef) :
    shape ≠ .generic template args := by
  rintro rfl
  cases h with
  | @view kind _ _ _ _ hShape => cases kind <;> cases hShape

/- A view is noted for the slot that is filled. -/
theorem Built.slot_of_noted
    {t : TypeTable}
    {x : Extraction}
    {env : List SchemaId}
    {id : DescriptorId}
    {origin : Origin}
    {slot : SchemaId}
    {name : String}
    {shape : Shape}
    {s : Schema}
    {noted : List View}
    (h : Built t x env id origin slot name shape s noted)
    {v : View}
    (hNoted : v ∈ noted) :
    v.slot = slot := by
  cases h with
  | view hShape hSource hIf =>
      rw [hIf] at hNoted
      split at hNoted
      · cases List.mem_singleton.mp hNoted
        rfl
      · cases hNoted
  | _ => cases hNoted

end MatchCompiler

------------------------------------------------------------
-- Names
------------------------------------------------------------

namespace MatchCompiler

namespace SchemaPool

/-
  The name of a descriptor under generic arguments: a
  template shows the names of the arguments.
-/
def instanceName
    (p : SchemaPool)
    (d : TypeDescriptor)
    (env : List SchemaId) : String :=
  if d.params == 0 || env.isEmpty then
    d.name
  else
    let args := ", ".intercalate (env.map p.nameOf)
    s!"{d.name}[{args}]"

/- What declares no parameters has its own name. -/
theorem instanceName_of_params
    (p : SchemaPool)
    {d : TypeDescriptor}
    (h : d.params = 0)
    (env : List SchemaId) :
    p.instanceName d env = d.name := by
  simp [instanceName, h]

/- The names of the arguments are all that is read. -/
theorem instanceName_congr
    {p q : SchemaPool}
    (d : TypeDescriptor)
    {env : List SchemaId}
    (h : ∀ s ∈ env, q.nameOf s = p.nameOf s) :
    q.instanceName d env = p.instanceName d env := by
  simp only [instanceName, List.map_congr_left h]

end SchemaPool

/- The name is read from the pool as it is. -/
theorem Extract.instanceName_eq
    (d : TypeDescriptor)
    (env : List SchemaId)
    (x : Extraction) :
    Extract.instanceName d env x =
      some (x.registry.pool.instanceName d env, x) := by
  unfold Extract.instanceName SchemaPool.instanceName
  split <;> rfl

theorem BuiltObject.name_eq
    {t : TypeTable}
    {r : Registry}
    {env : List SchemaId}
    {name : String}
    {origin : Origin}
    {o : ObjectShape}
    {s : Schema}
    (h : BuiltObject t r env name origin o s) :
    s.name = name := by
  have hStart :
      ∀ {s}, Starts t r env name o s → s.name = name := by
    intro s hStart
    cases hStart <;> rfl
  cases h with
  | plain hStarts =>
      have hName := hStart hStarts
      exact hName
  | variant hStarts _ _ hVaries =>
      have hName := hStart hStarts
      cases hVaries
      exact hName

theorem SchemaPool.displayName_view
    (p : SchemaPool)
    (kind : ViewKind)
    (source : SchemaId)
    (name : String) :
    (p.view kind source name).displayName = name := by
  cases kind <;> rfl

/- What is built has the name that it is built under. -/
theorem Built.displayName_eq
    {t : TypeTable}
    {x : Extraction}
    {env : List SchemaId}
    {id : DescriptorId}
    {origin : Origin}
    {slot : SchemaId}
    {name : String}
    {shape : Shape}
    {s : Schema}
    {noted : List View}
    (h : Built t x env id origin slot name shape s noted) :
    s.displayName = name := by
  cases h with
  | object hObject =>
      rw [Schema.displayName, hObject.isPlain.aliasName, hObject.name_eq]
      rfl
  | @container kind args slots =>
      unfold Container.schema
      split <;> rfl
  | view => exact x.registry.pool.displayName_view _ _ name
  | _ => rfl

/- So does the view that is noted. -/
theorem Built.name_of_noted
    {t : TypeTable}
    {x : Extraction}
    {env : List SchemaId}
    {id : DescriptorId}
    {origin : Origin}
    {slot : SchemaId}
    {name : String}
    {shape : Shape}
    {s : Schema}
    {noted : List View}
    (h : Built t x env id origin slot name shape s noted)
    {v : View}
    (hNoted : v ∈ noted) :
    v.name = name := by
  cases h with
  | view hShape hSource hIf =>
      rw [hIf] at hNoted
      split at hNoted
      · cases List.mem_singleton.mp hNoted
        rfl
      · cases hNoted
  | _ => cases hNoted

end MatchCompiler

------------------------------------------------------------
-- Moves
------------------------------------------------------------

namespace MatchCompiler

/- The key of a descriptor under generic arguments. -/
def Registry.IsKey
    (r : Registry)
    (id : DescriptorId)
    (env : List SchemaId)
    (key : ExtractionKey) : Prop :=
  ∃ parametric, r.parametric.lookup id = some parametric ∧
    key = ⟨id, if parametric then env else []⟩

namespace Extraction

/- A slot is reserved for a key. -/
def reserved
    (x : Extraction)
    (key : ExtractionKey)
    (name : String) : Extraction :=
  { x with
    registry :=
      { x.registry with
        pool := (x.registry.pool.push (Schema.unknown name)).1
        cache := (key, x.registry.pool.size) :: x.registry.cache }
    pending := x.registry.pool.size :: x.pending }

/- A slot is filled, and views are noted. -/
def filled
    (x : Extraction)
    (slot : SchemaId)
    (s : Schema)
    (noted : List View) : Extraction :=
  { registry :=
      { x.registry with pool := x.registry.pool.fill slot s }
    pending := x.pending.erase slot
    views := x.views ++ noted }

/- A slot is remembered for a key. -/
def remembered
    (x : Extraction)
    (key : ExtractionKey)
    (slot : SchemaId) : Extraction :=
  { x with
    registry :=
      { x.registry with cache := (key, slot) :: x.registry.cache } }

/-
  The unfilled slots are those of descriptors through which
  a descriptor is reached.
-/
def Stacked
    (x : Extraction)
    (t : TypeTable)
    (id : DescriptorId) : Prop :=
  ∀ slot ∈ x.pending, ∃ key,
    x.registry.cache.lookup key = some slot ∧
    t.IsConcrete key.descriptor ∧
    t.Reaches key.descriptor id

end Extraction

/- The arguments that a shape passes to a template. -/
def Shape.passed : Shape → List TypeRef
| .generic _ args => args
| _ => []

/- A descriptor is an argument of an instance. -/
def TypeTable.PassedTo
    (t : TypeTable)
    (id inst : DescriptorId) : Prop :=
  ∃ d, t.get? inst = some d ∧ .described id ∈ d.shape.passed

namespace Extraction

/-
  A slot stands for what cannot be resolved or for an
  argument of an instance. If it is unfilled then, its
  descriptor reaches the instance.
-/
def Passed
    (x : Extraction)
    (t : TypeTable)
    (slot : SchemaId) : Prop :=
  x.registry.pool.synthetic.lookup .unknown = some slot ∨
  ∃ key inst, x.registry.cache.lookup key = some slot ∧
    t.PassedTo key.descriptor inst ∧
    (slot ∈ x.pending → ∃ own,
      x.registry.cache.lookup own = some slot ∧
      t.IsConcrete own.descriptor ∧
      t.Reaches own.descriptor inst)

/-
  The name that the slot of a descriptor is given under
  arguments that were passed.
-/
def Names
    (x : Extraction)
    (t : TypeTable)
    (slot : SchemaId)
    (name : String) : Prop :=
  ∃ id d env key, t.get? id = some d ∧
    (∀ template args, d.shape ≠ .generic template args) ∧
    x.registry.IsKey id env key ∧
    x.registry.cache.lookup key = some slot ∧
    (∀ s ∈ env, x.Passed t s) ∧
    name = x.registry.pool.instanceName d env

end Extraction

/- What an extraction can do at one time. -/
inductive Move
    (t : TypeTable) : Extraction → Extraction → Prop
| memo
    {x : Extraction}
    {id : DescriptorId}
    (hNone : x.registry.parametric.lookup id = none) :
    Move t x
      { x with
        registry :=
          { x.registry with
            parametric :=
              (id, t.mentionsParams id) :: x.registry.parametric } }
| hit
    (x : Extraction) :
    Move t x
      { x with
        registry := { x.registry with hits := x.registry.hits + 1 } }
| miss
    (x : Extraction) :
    Move t x
      { x with
        registry :=
          { x.registry with misses := x.registry.misses + 1 } }
| unknown
    (x : Extraction) :
    Move t x
      { x with
        registry :=
          { x.registry with pool := x.registry.pool.unknown.1 } }
| reserve
    {x : Extraction}
    {id : DescriptorId}
    {d : TypeDescriptor}
    {env : List SchemaId}
    {key : ExtractionKey}
    (hGet : t.get? id = some d)
    (hGeneric : ∀ template args, d.shape ≠ .generic template args)
    (hKey : x.registry.IsKey id env key)
    (hNone : x.registry.cache.lookup key = none)
    (hEnv : ∀ s ∈ env, s < x.registry.pool.size) :
    Move t x (x.reserved key d.name)
| remember
    {x : Extraction}
    {id : DescriptorId}
    {d : TypeDescriptor}
    {env : List SchemaId}
    {key : ExtractionKey}
    {template : DescriptorId}
    {args : List TypeRef}
    {slots : List SchemaId}
    {slot : SchemaId}
    (hGet : t.get? id = some d)
    (hGeneric : d.shape = .generic template args)
    (hKey : x.registry.IsKey id env key)
    (hArgs : List.Forall₂ (x.registry.Finds t env) args slots)
    (hTemplate : x.registry.Finds t slots (.described template) slot)
    (hEnv : ∀ s ∈ env, s < x.registry.pool.size) :
    Move t x (x.remembered key slot)
| fill
    {x : Extraction}
    {id : DescriptorId}
    {d : TypeDescriptor}
    {env : List SchemaId}
    {key : ExtractionKey}
    {slot : SchemaId}
    {rest : List SchemaId}
    {name : String}
    {s : Schema}
    {noted : List View}
    (hGet : t.get? id = some d)
    (hKey : x.registry.IsKey id env key)
    (hSlot : x.registry.cache.lookup key = some slot)
    (hPending : x.pending = slot :: rest)
    (hStacked : x.Stacked t id)
    (hEnv : ∀ s ∈ env, s < x.registry.pool.size)
    (hName : d.params = 0 → name = d.name)
    (hBuilt : Built t x env id d.origin slot name d.shape s noted) :
    Move t x
      (x.filled slot { s with descriptor := some id } noted)

/- A move that names the slot it fills. -/
structure NamingMove
    (t : TypeTable)
    (x y : Extraction) : Prop where
  move : Move t x y
  names :
    ∀ slot ∈ x.pending, slot ∉ y.pending →
      x.Names t slot (y.registry.pool.nameOf slot)

/- An extraction goes on by a number of moves. -/
structure Extraction.Runs
    (t : TypeTable)
    (x y : Extraction) : Prop where
  grows : x.Grows y
  steps : Relation.ReflTransGen (NamingMove t) x y

/- A move that fills no slot. -/
theorem Move.naming
    {t : TypeTable}
    {x y : Extraction}
    (h : Move t x y)
    (hPending : x.pending ⊆ y.pending) :
    NamingMove t x y :=
  ⟨h, fun _ hMem hNot => absurd (hPending hMem) hNot⟩

namespace Extraction

variable {t : TypeTable}
variable {x y z : Extraction}
variable {id other : DescriptorId}

theorem Runs.moves
    (h : x.Runs t y) :
    Relation.ReflTransGen (Move t) x y :=
  Relation.ReflTransGen.mono (fun _ _ hStep => hStep.move) _ _ h.steps

theorem Runs.refl (x : Extraction) : x.Runs t x :=
  ⟨.refl x, .refl⟩

theorem Runs.trans
    (h : x.Runs t y)
    (h' : y.Runs t z) :
    x.Runs t z :=
  ⟨h.grows.trans h'.grows, h.steps.trans h'.steps⟩

/- A move after which as many slots are unfilled. -/
theorem Runs.of_move
    (hGrows : x.Grows y)
    (h : Move t x y) :
    x.Runs t y :=
  ⟨hGrows, .single (h.naming fun _ hMem => hGrows.pending.symm ▸ hMem)⟩

theorem Stacked.mono
    (h : x.Stacked t id)
    (hGrows : x.Grows y) :
    y.Stacked t id := by
  intro slot hSlot
  rw [hGrows.pending] at hSlot
  rcases h slot hSlot with ⟨key, hKey, hReaches⟩
  exact ⟨key, hGrows.registry.cache _ _ hKey, hReaches⟩

theorem Stacked.mentioned
    (h : x.Stacked t id)
    (hMentions : t.Mentions id other) :
    x.Stacked t other := by
  intro slot hSlot
  rcases h slot hSlot with ⟨key, hKey, hConcrete, hReaches⟩
  exact ⟨key, hKey, hConcrete, hReaches.tail hMentions⟩

end Extraction

/- An extraction keeps to the slots of its pool. -/
structure Extraction.Bounded
    (x : Extraction) : Prop where
  registry : x.registry.Bounded
  views : ∀ v ∈ x.views, v.source < x.registry.pool.size

/- A move keeps to the slots of the pool. -/
theorem Move.bounded
    {t : TypeTable}
    {x y : Extraction}
    (h : Move t x y)
    (hBounded : x.Bounded) :
    y.Bounded := by
  have hRegistry := hBounded.registry
  cases h with
  | memo hNone =>
      exact ⟨⟨hRegistry.cache, hRegistry.synthetic, hRegistry.targets⟩,
        hBounded.views⟩
  | hit =>
      exact ⟨⟨hRegistry.cache, hRegistry.synthetic, hRegistry.targets⟩,
        hBounded.views⟩
  | miss =>
      exact ⟨⟨hRegistry.cache, hRegistry.synthetic, hRegistry.targets⟩,
        hBounded.views⟩
  | unknown =>
      have hGrows := x.registry.pool.grows_share .unknown
        (Schema.unknown "<unknown>")
      exact ⟨hRegistry.share _ rfl, fun v hv =>
        Nat.lt_of_lt_of_le (hBounded.views v hv) hGrows.size_le⟩
  | @reserve id d env key hGet hGeneric hKey hNone =>
      have hSize := x.registry.pool.size_push (Schema.unknown d.name)
      refine ⟨⟨fun key' slot hFound => ?_, fun key' slot hFound => ?_,
        hRegistry.targets.push rfl⟩, fun v hv => ?_⟩
      · refine Nat.lt_of_lt_of_eq ?_ hSize.symm
        simp only [Extraction.reserved, List.lookup_cons] at hFound
        split at hFound
        · cases hFound
          exact Nat.lt_succ_self _
        · exact Nat.lt_succ_of_lt (hRegistry.cache key' slot hFound)
      · exact Nat.lt_of_lt_of_eq
          (Nat.lt_succ_of_lt (hRegistry.synthetic key' slot hFound))
          hSize.symm
      · exact Nat.lt_of_lt_of_eq
          (Nat.lt_succ_of_lt (hBounded.views v hv)) hSize.symm
  | @remember id d env key template args slots slot hGet hGeneric hKey
      hArgs hTemplate =>
      refine ⟨⟨fun key' slot' hFound => ?_, hRegistry.synthetic,
        hRegistry.targets⟩, hBounded.views⟩
      simp only [Extraction.remembered, List.lookup_cons] at hFound
      split at hFound
      · cases hFound
        cases hTemplate with
        | known _ _ hCache => exact hRegistry.cache _ _ hCache
        | dangling _ hUnknown => exact hRegistry.synthetic _ _ hUnknown
      · exact hRegistry.cache key' slot' hFound
  | @fill id d env key slot rest name s noted hGet hKey hSlot hPending
      hStacked hEnv hName hBuilt =>
      rcases hBuilt.target_lt hRegistry hEnv with ⟨hTarget, hNoted⟩
      have hSize := x.registry.pool.size_fill slot
        { s with descriptor := some id }
      refine ⟨⟨fun key' slot' hFound => ?_, fun key' slot' hFound => ?_,
        hRegistry.targets.fill slot hTarget⟩, fun v hv => ?_⟩
      · exact Nat.lt_of_lt_of_eq (hRegistry.cache key' slot' hFound)
          hSize.symm
      · exact Nat.lt_of_lt_of_eq (hRegistry.synthetic key' slot' hFound)
          hSize.symm
      · refine Nat.lt_of_lt_of_eq ?_ hSize.symm
        rcases List.mem_append.mp hv with hv | hv
        · exact hBounded.views v hv
        · exact hNoted v hv

namespace Extraction

variable {t : TypeTable}
variable {x y : Extraction}
variable {id other : DescriptorId}
variable {env : List SchemaId}

/- What holds of all states of a run. -/
theorem Runs.invariant_naming
    {P : Extraction → Prop}
    (hMove : ∀ {x y}, NamingMove t x y → P x → P y)
    (h : x.Runs t y)
    (hStart : P x) :
    P y := by
  have hSteps := h.steps
  clear h
  induction hSteps with
  | refl => exact hStart
  | tail _ hLast ih => exact hMove hLast ih

theorem Runs.invariant
    {P : Extraction → Prop}
    (hMove : ∀ {x y}, Move t x y → P x → P y)
    (h : x.Runs t y)
    (hStart : P x) :
    P y :=
  h.invariant_naming (fun hStep => hMove hStep.move) hStart

/- A slot that is not found is counted. -/
def missed (x : Extraction) : Extraction :=
  { x with
    registry := { x.registry with misses := x.registry.misses + 1 } }

theorem runs_missed
    (t : TypeTable)
    (x : Extraction) :
    x.Runs t x.missed :=
  .of_move (grows_of_registry ⟨.refl _, .refl, .refl, rfl⟩) (.miss x)

/-
  An extraction can turn to a descriptor under generic
  arguments.
-/
structure Ready
    (x : Extraction)
    (t : TypeTable)
    (id : DescriptorId)
    (env : List SchemaId) : Prop where
  stacked : x.Stacked t id
  bounded : x.Bounded
  passed : ∀ s ∈ env, x.Passed t s
  env : ∀ s ∈ env, s < x.registry.pool.size

theorem Passed.mono
    {slot : SchemaId}
    (h : x.Passed t slot)
    (hCache : EntriesKept x.registry.cache y.registry.cache)
    (hSynthetic :
      EntriesKept x.registry.pool.synthetic y.registry.pool.synthetic)
    (hPending : slot ∈ y.pending → slot ∈ x.pending) :
    y.Passed t slot := by
  rcases h with hUnknown | ⟨key, inst, hKey, hArgument, hUnfilled⟩
  · exact .inl (hSynthetic _ _ hUnknown)
  · refine .inr ⟨key, inst, hCache _ _ hKey, hArgument, fun hMem => ?_⟩
    rcases hUnfilled (hPending hMem) with ⟨own, hOwn, hRest⟩
    exact ⟨own, hCache _ _ hOwn, hRest⟩

theorem Ready.mono
    (h : x.Ready t id env)
    (hRuns : x.Runs t y) :
    y.Ready t id env where
  stacked := h.stacked.mono hRuns.grows
  bounded := hRuns.invariant (P := Extraction.Bounded) Move.bounded h.bounded
  env := fun s hs =>
    Nat.lt_of_lt_of_le (h.env s hs) hRuns.grows.registry.pool.size_le
  passed := fun s hs =>
    (h.passed s hs).mono hRuns.grows.registry.cache
      hRuns.grows.registry.pool.synthetic
      (fun hMem => hRuns.grows.pending ▸ hMem)

theorem Ready.mentioned
    (h : x.Ready t id env)
    (hMentions : t.Mentions id other) :
    x.Ready t other env :=
  ⟨h.stacked.mentioned hMentions, h.bounded, h.passed, h.env⟩

/- What is found for the arguments of an instance is passed. -/
theorem Ready.passed_of_finds
    (h : x.Ready t id env)
    {refs : List TypeRef}
    {slots : List SchemaId}
    (hArguments :
      ∀ other, .described other ∈ refs → t.PassedTo other id)
    (hFinds : List.Forall₂ (x.registry.Finds t env) refs slots) :
    ∀ s ∈ slots, x.Passed t s := by
  induction hFinds with
  | nil => exact nofun
  | @cons ref slot refs slots hFirst _ ih =>
      have hRest := ih fun other hMem =>
        hArguments other (List.mem_cons_of_mem _ hMem)
      refine List.forall_mem_cons.mpr ⟨?_, hRest⟩
      cases hFirst with
      | known _ _ hCache =>
          exact .inr ⟨_, id, hCache, hArguments _ List.mem_cons_self,
            h.stacked slot⟩
      | dangling _ hUnknown => exact .inl hUnknown
      | argument hArgument =>
          exact h.passed slot (List.mem_of_getElem? hArgument)
      | missing _ hUnknown => exact .inl hUnknown

/- The template of an instance is turned to. -/
theorem Ready.template
    (h : x.Ready t id env)
    {d : TypeDescriptor}
    {template : DescriptorId}
    {args : List TypeRef}
    {slots : List SchemaId}
    (hGet : t.get? id = some d)
    (hGeneric : d.shape = .generic template args)
    (hArgs : List.Forall₂ (x.registry.Finds t env) args slots) :
    x.Ready t template slots := by
  have hMentions : t.Mentions id template := by
    refine ⟨d, hGet, ?_⟩
    rw [hGeneric]
    exact List.mem_cons_self
  exact ⟨h.stacked.mentioned hMentions, h.bounded,
    h.passed_of_finds (fun _ hMem => ⟨d, hGet, hGeneric ▸ hMem⟩) hArgs,
    Registry.Finds.all_lt hArgs h.bounded.registry h.env⟩

/- A slot is reserved for the descriptor that is turned to. -/
theorem Ready.reserved
    (h : x.Ready t id env)
    {d : TypeDescriptor}
    {key : ExtractionKey}
    (hGet : t.get? id = some d)
    (hGeneric : ∀ template args, d.shape ≠ .generic template args)
    (hKey : x.registry.IsKey id env key)
    (hNone : x.registry.cache.lookup key = none) :
    (x.reserved key d.name).Ready t id env := by
  have hReserve : Move t x (x.reserved key d.name) :=
    .reserve hGet hGeneric hKey hNone h.env
  refine ⟨fun q hq => ?_, hReserve.bounded h.bounded, fun s hs => ?_,
    fun s hs => ?_⟩
  · rcases List.mem_cons.mp hq with rfl | hq
    · rcases hKey with ⟨b, -, rfl⟩
      exact ⟨_, List.lookup_cons_self, ⟨d, hGet, hGeneric⟩, .refl⟩
    · rcases h.stacked q hq with ⟨key', hKey', hReaches⟩
      exact ⟨key', EntriesKept.refl.cons hNone _ _ _ hKey', hReaches⟩
  · refine (h.passed s hs).mono (EntriesKept.refl.cons hNone _) .refl ?_
    intro hMem
    rcases List.mem_cons.mp hMem with rfl | hMem
    · exact absurd (h.env _ hs) (Nat.lt_irrefl _)
    · exact hMem
  · exact Nat.lt_of_lt_of_le (h.env s hs)
      (x.registry.pool.grows_push _).size_le

/- The last reserved slot is filled with what has been built. -/
theorem Ready.fills
    (h : x.Ready t id env)
    {d : TypeDescriptor}
    {key : ExtractionKey}
    {slot : SchemaId}
    {rest : List SchemaId}
    {s : Schema}
    {noted : List View}
    (hGet : t.get? id = some d)
    (hGeneric : ∀ template args, d.shape ≠ .generic template args)
    (hKey : x.registry.IsKey id env key)
    (hSlot : x.registry.cache.lookup key = some slot)
    (hPending : x.pending = slot :: rest)
    (hBuilt :
      Built t x env id d.origin slot (x.registry.pool.instanceName d env)
        d.shape s noted) :
    NamingMove t x
      (x.filled slot { s with descriptor := some id } noted) := by
  refine ⟨.fill hGet hKey hSlot hPending h.stacked h.env
    (x.registry.pool.instanceName_of_params · env) hBuilt, ?_⟩
  intro other hMem hNot
  have hSame : other = slot := by
    by_contra hNe
    exact hNot ((List.mem_erase_of_ne hNe).mpr hMem)
  subst hSame
  have hFilled :=
    SchemaPool.get_fill_self (h.bounded.registry.cache _ _ hSlot)
      { s with descriptor := some id }
  exact ⟨id, d, env, key, hGet, hGeneric, hKey, hSlot, h.passed,
    (congrArg Schema.displayName hFilled).trans hBuilt.displayName_eq⟩

/- A slot is reserved, and filled after all that it needs. -/
theorem Grows.fill_reserved
    {key : ExtractionKey}
    {name : String}
    {s : Schema}
    {noted : List View}
    (h : (x.reserved key name).Grows y)
    (hNone : x.registry.cache.lookup key = none)
    (hNoted : ∀ v ∈ noted, v.slot = x.registry.pool.size) :
    x.Grows (y.filled x.registry.pool.size s noted) := by
  have hPush := x.registry.pool.grows_push (Schema.unknown name)
  refine ⟨⟨?_, ?_, h.registry.parametric, h.registry.marker⟩, ?_, ?_⟩
  · exact (hPush.trans h.registry.pool).fill (Nat.le_refl _) _
  · exact (EntriesKept.refl.cons hNone _).trans h.registry.cache
  · change y.pending.erase x.registry.pool.size = x.pending
    rw [h.pending]
    exact List.erase_cons_head ..
  · rcases h.views with ⟨new, hNew, hSlots⟩
    refine ⟨new ++ noted, ?_, fun v hv => ?_⟩
    · change y.views ++ noted = x.views ++ (new ++ noted)
      rw [hNew, List.append_assoc]
      rfl
    · rcases List.mem_append.mp hv with hv | hv
      · exact Nat.le_trans hPush.size_le (hSlots v hv)
      · exact Nat.le_of_eq (hNoted v hv).symm

end Extraction

end MatchCompiler

------------------------------------------------------------
-- Programs
------------------------------------------------------------

namespace MatchCompiler

/- A step after a step ends if both do. -/
theorem Extract.bind_eq_some_iff
    {α β : Type}
    {m : Extract α}
    {f : α → Extract β}
    {x z : Extraction}
    {b : β} :
    (m >>= f) x = some (b, z) ↔
      ∃ a y, m x = some (a, y) ∧ f a y = some (b, z) := by
  change Option.bind (m x) (fun p => f p.1 p.2) = some (b, z) ↔ _
  rw [Option.bind_eq_some_iff]
  exact ⟨fun ⟨⟨a, y⟩, h⟩ => ⟨a, y, h⟩, fun ⟨a, y, h⟩ => ⟨(a, y), h⟩⟩

/-
  While a descriptor is looked at, a step runs by moves and
  its result is as described.
-/
def Traced
    {α : Type}
    (t : TypeTable)
    (id : DescriptorId)
    (env : List SchemaId)
    (m : Extract α)
    (post : Extraction → α → Prop) : Prop :=
  ∀ x a y, x.Ready t id env → m x = some (a, y) →
    x.Runs t y ∧ post y a

/- A description that stays true. -/
def Stable
    {α : Type}
    (post : Extraction → α → Prop) : Prop :=
  ∀ x y a, x.Grows y → post x a → post y a

namespace Traced

variable {α β : Type}
variable {t : TypeTable}
variable {id : DescriptorId}
variable {env : List SchemaId}

theorem pure
    {post : Extraction → α → Prop}
    {a : α}
    (h : ∀ x, post x a) :
    Traced t id env (Pure.pure a) post := by
  intro x a' y _ hEnds
  cases hEnds
  exact ⟨.refl x, h x⟩

/- A step after a step. -/
theorem bind
    {m : Extract α}
    {f : α → Extract β}
    {mid : Extraction → α → Prop}
    {post : Extraction → β → Prop}
    (hm : Traced t id env m mid)
    (hStable : Stable mid)
    (hf : ∀ a, Traced t id env (f a) fun y b => mid y a → post y b) :
    Traced t id env (m >>= f) post := by
  intro x b z hReady hEnds
  rcases Extract.bind_eq_some_iff.mp hEnds with ⟨a, y, hFirst, hThen⟩
  rcases hm x a y hReady hFirst with ⟨hRuns, hMid⟩
  rcases hf a y b z (hReady.mono hRuns) hThen with
    ⟨hRuns', hPost⟩
  exact ⟨hRuns.trans hRuns', hPost (hStable y z a hRuns'.grows hMid)⟩

theorem mono
    {m : Extract α}
    {pre post : Extraction → α → Prop}
    (h : Traced t id env m pre)
    (hImp : ∀ x a, pre x a → post x a) :
    Traced t id env m post := by
  intro x a y hReady hEnds
  rcases h x a y hReady hEnds with ⟨hRuns, hPre⟩
  exact ⟨hRuns, hImp y a hPre⟩

/- The pool that is looked at only grows. -/
theorem pool :
    Traced t id env Extract.pool
      (fun y p => p.Grows y.registry.pool) := by
  intro x p y _ hEnds
  cases hEnds
  exact ⟨.refl x, .refl _⟩

/- The slot of what cannot be resolved. -/
theorem unknown :
    Traced t id env Extract.unknown
      (fun y slot =>
        y.registry.pool.synthetic.lookup .unknown = some slot) := by
  intro x slot y _ hEnds
  cases hEnds
  have hPool : x.registry.pool.Grows x.registry.pool.unknown.1 :=
    x.registry.pool.grows_share .unknown _
  refine ⟨.of_move ?_ (.unknown x), ?_⟩
  · exact Extraction.grows_of_registry ⟨hPool, .refl, .refl, rfl⟩
  · exact x.registry.pool.lookup_share .unknown _

end Traced

namespace Stable

theorem finds
    (t : TypeTable)
    (env : List SchemaId)
    (ref : TypeRef) :
    Stable fun y slot => y.registry.Finds t env ref slot :=
  fun _ _ _ hGrows h => h.mono hGrows.registry.recalls

end Stable

end MatchCompiler

------------------------------------------------------------
-- Types And Fields
------------------------------------------------------------

namespace MatchCompiler

theorem Gives.mono
    {t : TypeTable}
    {r r' : Registry}
    {env : List SchemaId}
    {position : Nat}
    {ds : List FieldDecl}
    {fs : List Field}
    (h : Gives t r env position ds fs)
    (hRecalls : r.Recalls r') :
    Gives t r' env position ds fs := by
  induction h with
  | nil position => exact .nil position
  | cons hSlot _ ih => exact .cons (hSlot.mono hRecalls) ih

namespace Stable

variable (t : TypeTable)
variable (env : List SchemaId)

theorem gives
    (position : Nat)
    (ds : List FieldDecl) :
    Stable fun y fs => Gives t y.registry env position ds fs :=
  fun _ _ _ hGrows h => h.mono hGrows.registry.recalls

theorem givesBranches
    (position : Nat)
    (branches : List BranchDecl) :
    Stable fun y added =>
      GivesBranches t y.registry env position branches added :=
  fun _ _ _ hGrows h =>
    h.imp fun _ _ hGives =>
      ⟨hGives.1, hGives.2.mono hGrows.registry.recalls⟩

theorem findsAll
    (refs : List TypeRef) :
    Stable fun y slots =>
      List.Forall₂ (y.registry.Finds t env) refs slots :=
  fun _ _ _ hGrows h =>
    h.imp fun _ _ hFinds => hFinds.mono hGrows.registry.recalls

theorem starts
    (name : String)
    (o : ObjectShape) :
    Stable fun y s => Starts t y.registry env name o s := by
  intro x y s hGrows h
  cases h with
  | root hBase => exact .root hBase
  | derived hBase hSource hSeen =>
      exact .derived hBase (hSource.mono hGrows.registry.recalls)
        (hSeen.mono hGrows.registry.pool)

end Stable

/- Every extraction finds the slot that it returns. -/
def Follows
    (t : TypeTable)
    (extract : DescriptorId → List SchemaId → Extract SchemaId) : Prop :=
  ∀ id env,
    Traced t id env (extract id env) fun y slot =>
      y.registry.Finds t env (.described id) slot

namespace Follows

variable {t : TypeTable}
variable {extract : DescriptorId → List SchemaId → Extract SchemaId}
variable {id : DescriptorId}
variable {d : TypeDescriptor}
variable (hFollows : Follows t extract)
variable (hGet : t.get? id = some d)
variable (env : List SchemaId)

include hFollows hGet

theorem resolve
    {ref : TypeRef}
    (hRef : ref ∈ d.shape.followed) :
    Traced t id env (Extract.resolve extract env ref) fun y slot =>
      y.registry.Finds t env ref slot := by
  cases ref with
  | described other =>
      intro x slot y hReady hEnds
      have hMentions : t.Mentions id other := ⟨d, hGet, hRef⟩
      exact hFollows other env x slot y (hReady.mentioned hMentions)
        hEnds
  | parameter i =>
      cases hArgument : env[i]? with
      | some slot =>
          simp only [Extract.resolve, hArgument]
          exact .pure fun _ => .argument hArgument
      | none =>
          simp only [Extract.resolve, hArgument]
          exact Traced.unknown.mono fun _ _ h => .missing hArgument h

/- A slot is found, and the pool is looked at. -/
theorem look
    {β : Type}
    {ref : TypeRef}
    {f : SchemaId → SchemaPool → Extract β}
    {post : Extraction → β → Prop}
    (hRef : ref ∈ d.shape.followed)
    (hf :
      ∀ slot p, Traced t id env (f slot p) fun y b =>
        y.registry.Finds t env ref slot →
        SchemaPool.SeenIn slot p y.registry.pool → post y b) :
    Traced t id env
      (Extract.resolve extract env ref >>= fun slot =>
        Extract.pool >>= fun p => f slot p) post := by
  intro x b y hReady hEnds
  rcases Extract.bind_eq_some_iff.mp hEnds with ⟨slot, z, hResolve, hRest⟩
  rcases hFollows.resolve hGet env hRef x slot z hReady hResolve with
    ⟨hRuns, hFinds⟩
  have hReady' := hReady.mono hRuns
  rcases hf slot z.registry.pool z b y hReady' hRest with ⟨hRuns', hPost⟩
  refine ⟨hRuns.trans hRuns',
    hPost (hFinds.mono hRuns'.grows.registry.recalls) ?_⟩
  exact ⟨hRuns'.grows.registry.pool,
    hFinds.lt hReady'.bounded.registry hReady'.env,
    hReady'.bounded.registry.targets⟩

theorem resolveAll
    {refs : List TypeRef}
    (hRefs : refs ⊆ d.shape.followed) :
    Traced t id env (refs.mapM (Extract.resolve extract env))
      fun y slots =>
        List.Forall₂ (y.registry.Finds t env) refs slots := by
  induction refs with
  | nil => exact .pure fun _ => .nil
  | cons ref refs ih =>
      rcases List.cons_subset.mp hRefs with ⟨hRef, hRest⟩
      rw [List.mapM_cons]
      refine (hFollows.resolve hGet env hRef).bind (.finds t env ref)
        fun slot => ?_
      refine (ih hRest).bind (.findsAll t env refs) fun slots => ?_
      exact .pure fun _ hSlots hSlot => .cons hSlot hSlots

theorem fields
    {ds : List FieldDecl}
    (hTypes : ds.map FieldDecl.type ⊆ d.shape.followed)
    (position : Nat) :
    Traced t id env (Extract.fields extract env position ds)
      fun y fs => Gives t y.registry env position ds fs := by
  induction ds generalizing position with
  | nil => exact .pure fun _ => .nil position
  | cons decl ds ih =>
      rcases List.cons_subset.mp hTypes with ⟨hType, hRest⟩
      refine (hFollows.resolve hGet env hType).bind
        (.finds t env decl.type) fun slot => ?_
      refine (ih hRest (position + 1)).bind
        (.gives t env (position + 1) ds) fun fs => ?_
      exact .pure fun _ hFields hSlot => .cons hSlot hFields

theorem tupleFields
    {es : List TupleElement}
    (hTypes : es.map TupleElement.type ⊆ d.shape.followed)
    (position : Nat) :
    Traced t id env (Extract.tupleFields extract env position es)
      fun y fs =>
        Gives t y.registry env position (tupleDecls position es) fs := by
  induction es generalizing position with
  | nil => exact .pure fun _ => .nil position
  | cons e es ih =>
      rcases List.cons_subset.mp hTypes with ⟨hType, hRest⟩
      refine (hFollows.resolve hGet env hType).bind
        (.finds t env e.type) fun slot => ?_
      refine (ih hRest (position + 1)).bind
        (.gives t env (position + 1) _) fun fs => ?_
      exact .pure fun _ hFields hSlot => .cons hSlot hFields

theorem branchFields
    {branches : List BranchDecl}
    (hTypes :
      branches.flatMap (fun b => b.fields.map FieldDecl.type) ⊆
        d.shape.followed)
    (position : Nat) :
    Traced t id env (Extract.branchFields extract env position branches)
      fun y added =>
        GivesBranches t y.registry env position branches added := by
  induction branches with
  | nil => exact .pure fun _ => .nil
  | cons b bs ih =>
      rw [List.flatMap_cons, List.append_subset] at hTypes
      refine (hFollows.fields hGet env hTypes.1 position).bind
        (.gives t env position b.fields) fun own => ?_
      refine (ih hTypes.2).bind (.givesBranches t env position bs)
        fun rest => ?_
      exact .pure fun _ hRest hOwn => .cons ⟨rfl, hOwn⟩ hRest

end Follows

end MatchCompiler

------------------------------------------------------------
-- Schemas
------------------------------------------------------------

namespace MatchCompiler

namespace Follows

variable {t : TypeTable}
variable {extract : DescriptorId → List SchemaId → Extract SchemaId}
variable {id : DescriptorId}
variable {d : TypeDescriptor}
variable (hFollows : Follows t extract)
variable (hGet : t.get? id = some d)
variable (env : List SchemaId)
variable (name : String)

/- The arguments of a container whose number is right. -/
theorem container_eq
    {m : Type → Type}
    [Monad m]
    [LawfulMonad m]
    (extract : DescriptorId → List SchemaId → ExtractT m SchemaId)
    {kind : Container}
    {args : List TypeRef}
    (hArity : args.length = kind.arity) :
    Extract.container extract env name kind args =
      (do
        let slots ← args.mapM (Extract.resolve extract env)
        return kind.schema name slots) := by
  match kind, args, hArity with
  | .map, [k, v], _ =>
      simp [Extract.container, Container.schema]
  | .array n, [e], _ =>
      simp [Extract.container, Container.schema]
  | .sequence, [e], _ =>
      simp [Extract.container, Container.schema]
  | .set, [e], _ =>
      simp [Extract.container, Container.schema]
  | .optional, [e], _ =>
      simp [Extract.container, Container.schema]

theorem container_of_misfit
    {m : Type → Type}
    [Monad m]
    (extract : DescriptorId → List SchemaId → ExtractT m SchemaId)
    {kind : Container}
    {args : List TypeRef}
    (hArity : args.length ≠ kind.arity) :
    Extract.container extract env name kind args =
      return Schema.unknown name := by
  unfold Extract.container
  split <;> simp_all [Container.arity]

include hFollows hGet

theorem container
    {kind : Container}
    {args : List TypeRef}
    (hShape : d.shape = .container kind args)
    (slot : SchemaId) :
    Traced t id env (Extract.container extract env name kind args)
      fun y s => Built t y env id d.origin slot name d.shape s [] := by
  rw [hShape]
  by_cases hArity : args.length = kind.arity
  · rw [container_eq env name extract hArity]
    have hArgs : args ⊆ d.shape.followed := by
      rw [hShape, Shape.followed, if_pos hArity]
      exact List.Subset.refl _
    refine (hFollows.resolveAll hGet env hArgs).bind
      (.findsAll t env args) fun slots => ?_
    exact .pure fun _ hSlots => .container hArity hSlots
  · rw [container_of_misfit env name extract hArity]
    exact .pure fun _ => .misfit hArity

theorem inherit
    {o : ObjectShape}
    (hShape : d.shape = .object o) :
    Traced t id env (Extract.inherit extract env name o)
      fun y s => Starts t y.registry env name o s := by
  unfold Extract.inherit
  split
  · rename_i hBase
    exact .pure fun _ => .root hBase
  · rename_i base hBase
    have hRef := Shape.base_mem_followed hShape hBase
    refine hFollows.look hGet env hRef fun source p => ?_
    exact .pure fun _ hSource hSeen => .derived hBase hSource hSeen

theorem variant
    {o : ObjectShape}
    {v : VariantPart}
    (hShape : d.shape = .object o)
    (hVariant : o.variant = some v)
    (s : Schema) :
    Traced t id env (Extract.variant extract env d.origin s v)
      fun y s' => Varies t y.registry env d.origin s v s' := by
  rcases List.cons_subset.mp
      (Shape.variant_subset_followed hShape hVariant) with
    ⟨hType, hBranches⟩
  refine hFollows.look hGet env hType fun slot p => ?_
  refine (hFollows.branchFields hGet env hBranches _).bind
    (.givesBranches t env _ v.branches) fun added => ?_
  -- What is left only looks at the marker.
  intro x s' y _ hEnds
  cases hEnds
  refine ⟨.refl x, fun hAdded hSlot hSeen => ?_⟩
  have hVaries : Varies t x.registry env d.origin s v _ :=
    .mk hSlot hSeen hAdded rfl
  simpa [Schema.withVariant, List.all_map, Function.comp_def] using hVaries

theorem object
    {o : ObjectShape}
    (hShape : d.shape = .object o) :
    Traced t id env (Extract.object extract env name d.origin o)
      fun y s => BuiltObject t y.registry env name d.origin o s := by
  have hFields := Shape.fields_subset_followed hShape
  refine (hFollows.inherit hGet env name hShape).bind
    (.starts t env name o) fun s => ?_
  refine (hFollows.fields hGet env hFields _).bind
    (.gives t env _ o.fields) fun own => ?_
  cases hVariant : o.variant with
  | none => exact .pure fun _ hOwn hStart => .plain hStart hOwn hVariant
  | some v =>
      intro x s' y hStacked hEnds
      rcases Extract.bind_eq_some_iff.mp hEnds with ⟨u, z, hVaries, hEnd⟩
      rcases hFollows.variant hGet env hShape hVariant _ x u z hStacked
          hVaries with ⟨hRuns, hVaries⟩
      cases hEnd
      refine ⟨hRuns, fun hOwn hStart => ?_⟩
      have hSome : u.discriminator.isSome = true := by
        cases hVaries
        rfl
      rw [if_pos hSome]
      exact .variant hStart hOwn hVariant hVaries

end Follows

end MatchCompiler

------------------------------------------------------------
-- Whole Extractions
------------------------------------------------------------

namespace MatchCompiler

/- A view is noted, or nothing is. -/
theorem Extract.note_eq
    {m : Type → Type}
    [Monad m]
    (v : View)
    (x : Extraction) :
    (Extract.note v : ExtractT m Unit) x =
      pure ((), { x with
        views := x.views ++
          if x.pending.contains v.source ||
              x.views.any (fun w => w.slot == v.source) then
            [v]
          else
            [] }) := by
  unfold Extract.note
  by_cases hPending :
      (x.pending.contains v.source ||
        x.views.any fun w => w.slot == v.source) = true
  · simp only [if_pos hPending]
    exact congrArg (fun y => pure ((), y)) (if_pos hPending)
  · simp only [if_neg hPending, List.append_nil]
    exact congrArg (fun y => pure ((), y)) (if_neg hPending)

/- A view reads its source when that has been found. -/
theorem Extract.view_eq
    (kind : ViewKind)
    (slot source : SchemaId)
    (name : String)
    (id : DescriptorId)
    (x : Extraction) :
    Extract.view kind slot source name id x =
      some (x.registry.pool.view kind source name,
        { x with
          views := x.views ++
            if x.pending.contains source ||
                x.views.any (fun v => v.slot == source) then
              [{ slot, source, kind, name, descriptor := id }]
            else
              [] }) := by
  refine Extract.bind_eq_some_iff.mpr ⟨(), _, Extract.note_eq _ x, ?_⟩
  rfl

namespace Follows

variable {t : TypeTable}
variable {extract : DescriptorId → List SchemaId → Extract SchemaId}
variable {id : DescriptorId}
variable {d : TypeDescriptor}
variable (hFollows : Follows t extract)
variable (hGet : t.get? id = some d)
variable (env : List SchemaId)

include hFollows hGet

/- What a shape gives is built after all that it mentions. -/
theorem ofShape
    (hGeneric : ∀ template args, d.shape ≠ .generic template args)
    {slot : SchemaId}
    {name : String}
    {x y : Extraction}
    {s : Schema}
    (hReady : x.Ready t id env)
    (hEnds : Extract.ofShape extract env id d slot name x = some (s, y)) :
    ∃ z noted, x.Runs t z ∧
      y = { z with views := z.views ++ noted } ∧
      Built t z env id d.origin slot name d.shape s noted := by
  -- All shapes but views are built from what has been found.
  have hPlain :
      ∀ {m : Extract Schema},
        Traced t id env m (fun z s =>
          Built t z env id d.origin slot name d.shape s []) →
        m x = some (s, y) →
        ∃ z noted, x.Runs t z ∧
          y = { z with views := z.views ++ noted } ∧
          Built t z env id d.origin slot name d.shape s noted := by
    intro m hTraced hEnds
    rcases hTraced x s y hReady hEnds with ⟨hRuns, hBuilt⟩
    exact ⟨y, [], hRuns, by simp, hBuilt⟩
  have hView :
      ∀ (kind : ViewKind) {target : TypeRef},
        d.shape = kind.shape target →
        (Extract.resolve extract env target >>= fun source =>
          Extract.view kind slot source name id) x = some (s, y) →
        ∃ z noted, x.Runs t z ∧
          y = { z with views := z.views ++ noted } ∧
          Built t z env id d.origin slot name d.shape s noted := by
    intro kind target hShape hEnds
    rcases Extract.bind_eq_some_iff.mp hEnds with
      ⟨source, z, hResolve, hShow⟩
    have hRef : target ∈ d.shape.followed := by
      rw [hShape]
      cases kind <;> exact List.mem_singleton_self target
    rcases hFollows.resolve hGet env hRef x source z hReady
        hResolve with ⟨hRuns, hSource⟩
    rw [Extract.view_eq] at hShow
    cases hShow
    exact ⟨z, _, hRuns, rfl, .view hShape hSource rfl⟩
  generalize hProgram :
    Extract.ofShape extract env id d slot name = program at hEnds
  unfold Extract.ofShape at hProgram
  split at hProgram <;> subst hProgram
  · rename_i kind hShape
    exact hPlain (.pure fun _ => hShape ▸ .primitive kind) hEnds
  · rename_i target hShape
    exact hView .alias hShape hEnds
  · rename_i target hShape
    exact hView .reference hShape hEnds
  · rename_i kind args hShape
    exact hPlain (hFollows.container hGet env name hShape slot) hEnds
  · rename_i o hShape
    refine hPlain ((hFollows.object hGet env name hShape).mono ?_) hEnds
    intro z s hObject
    exact hShape ▸ .object hObject
  · rename_i elements hShape
    have hTypes :
        elements.map TupleElement.type ⊆ d.shape.followed := by
      rw [hShape]
      exact List.Subset.refl _
    refine hPlain ((hFollows.tupleFields hGet env hTypes 0).bind
      (.gives t env 0 _) fun fields => .pure ?_) hEnds
    intro z hFields
    exact hShape ▸ .tuple hFields
  · rename_i members hShape
    exact hPlain (.pure fun _ => hShape ▸ .enumeration members) hEnds
  · rename_i template args hShape
    exact absurd hShape (hGeneric template args)
  · rename_i hShape
    exact hPlain (.pure fun _ => hShape ▸ .unknown) hEnds

/- A descriptor that is not remembered is given a slot. -/
theorem slot
    (hGeneric : ∀ template args, d.shape ≠ .generic template args)
    {key : ExtractionKey}
    {x y : Extraction}
    {slot : SchemaId}
    (hReady : x.Ready t id env)
    (hKey : x.registry.IsKey id env key)
    (hNone : x.registry.cache.lookup key = none)
    (hEnds :
      (do
        let slot ← Extract.reserve d.name
        Extract.remember key slot
        let s ← Extract.build extract env id d slot
        Extract.fill slot s
        return slot : Extract SchemaId) x = some (slot, y)) :
    x.Runs t y ∧ y.registry.Finds t env (.described id) slot := by
  let u := x.reserved key d.name
  have hReserve : Move t x u :=
    .reserve hGet hGeneric hKey hNone hReady.env
  have hFound : u.registry.cache.lookup key = some x.registry.pool.size := by
    simp [u, Extraction.reserved]
  have hReadyU : u.Ready t id env :=
    hReady.reserved hGet hGeneric hKey hNone
  -- The first two steps lead to `u`.
  change (Extract.build extract env id d x.registry.pool.size >>=
    fun s => Extract.fill x.registry.pool.size s >>=
      fun _ => Pure.pure x.registry.pool.size) u = some (slot, y) at hEnds
  rcases Extract.bind_eq_some_iff.mp hEnds with ⟨s, v, hBuild, hFill⟩
  rcases Extract.bind_eq_some_iff.mp hBuild with ⟨name, w, hNamed, hRest⟩
  rw [Extract.instanceName_eq] at hNamed
  cases hNamed
  rcases Extract.bind_eq_some_iff.mp hRest with ⟨s', v', hShape, hEnd⟩
  cases hEnd
  rcases hFollows.ofShape hGet env hGeneric hReadyU hShape with
    ⟨z, noted, hRuns, rfl, hBuilt⟩
  cases hFill
  have hPending : z.pending = x.registry.pool.size :: x.pending :=
    hRuns.grows.pending
  have hKeyZ : z.registry.IsKey id env key := by
    rcases hKey with ⟨b, hParametric, rfl⟩
    exact ⟨b, hRuns.grows.registry.parametric _ _ hParametric, rfl⟩
  have hFoundZ := hRuns.grows.registry.cache _ _ hFound
  -- Since it was read, the name is what the arguments still give.
  have hName :
      u.registry.pool.instanceName d env =
        z.registry.pool.instanceName d env :=
    SchemaPool.instanceName_congr d fun s hs =>
      congrArg Schema.displayName
        (hRuns.grows.registry.pool.get_eq (hReadyU.env s hs)).symm
  have hFills :=
    (hReadyU.mono hRuns).fills hGet hGeneric hKeyZ hFoundZ hPending
      (hName ▸ hBuilt)
  refine ⟨⟨hRuns.grows.fill_reserved hNone fun v => hBuilt.slot_of_noted,
    ?_⟩, ?_⟩
  · have hReserved := hReserve.naming (List.subset_cons_self _ _)
    exact (Relation.ReflTransGen.head hReserved hRuns.steps).tail hFills
  · rcases hKeyZ with ⟨b, hParametric, rfl⟩
    exact .known hGet hParametric hFoundZ

/- The slot of an instance is that of its template. -/
theorem generic
    {template : DescriptorId}
    {args : List TypeRef}
    (hGeneric : d.shape = .generic template args)
    {key : ExtractionKey}
    {x y : Extraction}
    {slot : SchemaId}
    (hReady : x.Ready t id env)
    (hKey : x.registry.IsKey id env key)
    (hNone : x.registry.cache.lookup key = none)
    (hEnds :
      (do
        let args ← args.mapM (Extract.resolve extract env)
        let slot ← extract template args
        Extract.remember key slot
        return slot : Extract SchemaId) x = some (slot, y)) :
    x.Runs t y ∧ y.registry.Finds t env (.described id) slot := by
  have hRefs : args ⊆ d.shape.followed := by
    rw [hGeneric]
    exact List.subset_cons_self _ _
  rcases Extract.bind_eq_some_iff.mp hEnds with ⟨slots, u, hArgs, hRest⟩
  rcases hFollows.resolveAll hGet env hRefs x slots u hReady hArgs with
    ⟨hRunsU, hSlots⟩
  have hReadyT := (hReady.mono hRunsU).template hGet hGeneric hSlots
  rcases Extract.bind_eq_some_iff.mp hRest with ⟨slot', z, hTemplate, hEnd⟩
  rcases hFollows template slots u slot' z hReadyT hTemplate with
    ⟨hRunsZ, hFound⟩
  cases hEnd
  have hRuns := hRunsU.trans hRunsZ
  rcases hKey with ⟨b, hParametric, rfl⟩
  have hParametricZ := hRuns.grows.registry.parametric _ _ hParametric
  have hMove : Move t z (z.remembered ⟨id, if b then env else []⟩ slot) :=
    .remember hGet hGeneric ⟨b, hParametricZ, rfl⟩
      (hSlots.imp fun _ _ h => h.mono hRunsZ.grows.registry.recalls)
      hFound (hReady.mono hRuns).env
  have hGrows := hRuns.grows.registry
  refine ⟨⟨⟨⟨hGrows.pool, hGrows.cache.cons hNone slot,
    hGrows.parametric, hGrows.marker⟩, hRuns.grows.pending,
    hRuns.grows.views⟩,
    hRuns.steps.tail (hMove.naming (List.Subset.refl _))⟩, ?_⟩
  exact .known hGet hParametricZ (by simp)

/- A descriptor that is not remembered has a slot then. -/
theorem assign
    {key : ExtractionKey}
    {x y : Extraction}
    {slot : SchemaId}
    (hReady : x.Ready t id env)
    (hKey : x.registry.IsKey id env key)
    (hNone : x.registry.cache.lookup key = none)
    (hEnds : Extract.assign extract env id d key x = some (slot, y)) :
    x.Runs t y ∧ y.registry.Finds t env (.described id) slot := by
  generalize hProgram : Extract.assign extract env id d key = program
    at hEnds
  unfold Extract.assign at hProgram
  split at hProgram <;> subst hProgram
  · rename_i template args hGeneric
    exact hFollows.generic hGet env hGeneric hReady hKey hNone hEnds
  · rename_i hGeneric
    exact hFollows.slot hGet env hGeneric hReady hKey hNone hEnds

end Follows

/- What is known about a descriptor is looked up. -/
theorem Extract.isParametric_of_known
    (t : TypeTable)
    {id : DescriptorId}
    {x : Extraction}
    {known : Bool}
    (h : x.registry.parametric.lookup id = some known) :
    Extract.isParametric t id x = some (known, x) := by
  unfold Extract.isParametric
  simp only [bind, StateT.bind, get, getThe, MonadStateOf.get, StateT.get,
    pure, Option.bind_some, h]
  rfl

/- What is not known is found out and noted. -/
theorem Extract.isParametric_of_new
    (t : TypeTable)
    {id : DescriptorId}
    {x : Extraction}
    (h : x.registry.parametric.lookup id = none) :
    Extract.isParametric t id x =
      some (t.mentionsParams id,
        { x with registry := { x.registry with
            parametric :=
              (id, t.mentionsParams id) :: x.registry.parametric } }) := by
  unfold Extract.isParametric
  simp only [bind, StateT.bind, get, getThe, MonadStateOf.get, StateT.get,
    pure, Option.bind_some, h]
  rfl

/- Whether a descriptor mentions parameters is looked up. -/
theorem Traced.isParametric
    (t : TypeTable)
    (id : DescriptorId)
    (env : List SchemaId) :
    Traced t id env (Extract.isParametric t id) fun y b =>
      y.registry.parametric.lookup id = some b := by
  intro x b y _ hEnds
  cases hKnown : x.registry.parametric.lookup id with
  | some known =>
      cases (Extract.isParametric_of_known t hKnown).symm.trans hEnds
      exact ⟨.refl x, hKnown⟩
  | none =>
      cases (Extract.isParametric_of_new t hKnown).symm.trans hEnds
      refine ⟨.of_move ?_ (.memo hKnown), by simp⟩
      exact Extraction.grows_of_registry
        ⟨.refl _, .refl, EntriesKept.refl.cons hKnown _, rfl⟩

namespace Extract

/- One more level of descriptors. -/
theorem follows_step
    {t : TypeTable}
    {extract : DescriptorId → List SchemaId → Extract SchemaId}
    (hFollows : Follows t extract) :
    Follows t (step t extract) := by
  intro id env
  unfold step
  cases hGet : t.get? id with
  | none => exact Traced.unknown.mono fun _ _ h => .dangling hGet h
  | some d =>
      intro x slot y hReady hEnds
      rcases Extract.bind_eq_some_iff.mp hEnds with
        ⟨b, u, hMemo, hRest⟩
      rcases Traced.isParametric t id env x b u hReady hMemo with
        ⟨hRunsU, hParametric⟩
      have hReadyU := hReady.mono hRunsU
      let key : ExtractionKey := ⟨id, if b then env else []⟩
      have hKey : u.registry.IsKey id env key := ⟨b, hParametric, rfl⟩
      suffices u.Runs t y ∧ y.registry.Finds t env (.described id) slot from
        ⟨hRunsU.trans this.1, this.2⟩
      rcases Extract.bind_eq_some_iff.mp hRest with ⟨u', u'', hGot, hRest⟩
      cases hGot
      cases hFound : u.registry.cache.lookup key with
      | some found =>
          simp only [key] at hFound
          simp only [hFound] at hRest
          cases hRest
          refine ⟨.of_move ?_ (.hit u), .known hGet hParametric hFound⟩
          exact Extraction.grows_of_registry
            ⟨.refl _, .refl, .refl, rfl⟩
      | none =>
          simp only [key] at hFound
          simp only [hFound] at hRest
          have hRunsV := u.runs_missed t
          suffices u.missed.Runs t y ∧
              y.registry.Finds t env (.described id) slot from
            ⟨hRunsV.trans this.1, this.2⟩
          rcases Extract.bind_eq_some_iff.mp hRest with
            ⟨_, _, hMissed, hRest⟩
          cases hMissed
          exact hFollows.assign hGet env (hReadyU.mono hRunsV)
            hKey hFound hRest

/- Extraction runs by moves, however deep it goes. -/
theorem follows_nested
    (t : TypeTable)
    (n : Nat) :
    Follows t (nested t n) := by
  induction n with
  | zero => exact fun _ _ _ _ _ _ => nofun
  | succ n ih => exact follows_step ih

end Extract

end MatchCompiler
