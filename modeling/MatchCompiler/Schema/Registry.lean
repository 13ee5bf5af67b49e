import MatchCompiler.Schema.Pool

/-
  This file extracts schemas from descriptors.

  A registry keeps the pool of a session and remembers which
  slot stands for a descriptor under given generic arguments.
  The arguments matter only to descriptors that mention a
  template parameter somewhere below them. A slot is reserved
  and remembered before the parts of a type are visited, so
  that recursive types find it.

  An alias or a reference is a view of another slot. A view
  of a slot that is still being built is rebuilt at the end.

  Key definitions include:
    * `Registry`
    * `TypeTable.mentionsParams`
    * `Extraction`
    * `Extract.step`
    * `Extract.nested`
    * `Registry.extract?`
    * `Registry.schemaWithin`
    * `Registry.schemaOf`
-/

------------------------------------------------------------
-- Template Parameters
------------------------------------------------------------

namespace MatchCompiler

/-
  The types through which a descriptor can depend on the
  generic arguments in scope. A generic instance binds the
  parameters of its template, so only its arguments count.
-/
def Shape.openRefs : Shape → List TypeRef
| .generic _ args => args
| shape => shape.refs

namespace TypeTable

/-
  Whether a parameter, or a descriptor with parameters, can
  be reached from some types, looking at no more than a
  number of them.
-/
def reachesParam
    (t : TypeTable) :
    Nat → List DescriptorId → List TypeRef → Bool
| 0, _, _ => false
| _ + 1, _, [] => false
| _ + 1, _, .parameter _ :: _ => true
| n + 1, visited, .described id :: rest =>
    match t.get? id with
    | none => reachesParam t n visited rest
    | some d =>
        if visited.contains id then
          reachesParam t n visited rest
        else if 0 < d.params then
          true
        else
          reachesParam t n (id :: visited) (d.shape.openRefs ++ rest)

/- Number of types mentioned in the whole table. -/
def refCount (t : TypeTable) : Nat :=
  (t.descriptors.toList.flatMap fun d => d.shape.openRefs).length

/-
  Whether the schema of a descriptor depends on the generic
  arguments in scope. Every descriptor is entered once, so
  that no more types are looked at than the table mentions,
  and the first.
-/
def mentionsParams
    (t : TypeTable)
    (id : DescriptorId) : Bool :=
  t.reachesParam (t.refCount + 1) [] [.described id]

end TypeTable

end MatchCompiler

------------------------------------------------------------
-- Registries
------------------------------------------------------------

namespace MatchCompiler

/- A descriptor under the generic arguments that matter. -/
structure ExtractionKey where
  descriptor : DescriptorId
  args : List SchemaId
deriving DecidableEq

/-
  The pool of a session, the slots of what has been
  extracted, which descriptors mention parameters, how often
  a slot was found and how often not, and the character that
  ends the common beginning of branch labels.
-/
structure Registry where
  pool : SchemaPool := {}
  cache : List (ExtractionKey × SchemaId) := []
  parametric : List (DescriptorId × Bool) := []
  hits : Nat := 0
  misses : Nat := 0
  marker : Char := 'k'
deriving DecidableEq

/- The schema in a slot of the registry's pool. -/
def Registry.get
    (r : Registry)
    (id : SchemaId) : Schema :=
  r.pool.get id

/- The two kinds of view. -/
inductive ViewKind where
| alias
| reference
deriving DecidableEq

/- A view that has to be rebuilt, and what it is a view of. -/
structure View where
  slot : SchemaId
  source : SchemaId
  kind : ViewKind
  name : String
  descriptor : DescriptorId

/- An extraction under way: the unfilled slots and views. -/
structure Extraction where
  registry : Registry
  pending : List SchemaId := []
  views : List View := []

/- Extraction steps, on top of steps of another kind. -/
abbrev ExtractT (m : Type → Type) :=
  StateT Extraction m

/- Extraction steps; there is no result if they do not end. -/
abbrev Extract :=
  ExtractT Option

end MatchCompiler

------------------------------------------------------------
-- Single Steps
------------------------------------------------------------

namespace MatchCompiler

namespace Extract

variable {m : Type → Type}
variable [Monad m]

/- Look at the pool. -/
def pool : ExtractT m SchemaPool :=
  return (← get).registry.pool

/- Change the registry. -/
def modifyRegistry
    (f : Registry → Registry) : ExtractT m Unit :=
  modify fun x => { x with registry := f x.registry }

/- The slot of what cannot be resolved. -/
def unknown : ExtractT m SchemaId := do
  let (pool, id) := (← pool).unknown
  modifyRegistry fun r => { r with pool }
  return id

/- Whether a descriptor mentions parameters, looked up once. -/
def isParametric
    (table : TypeTable)
    (id : DescriptorId) : ExtractT m Bool := do
  match (← get).registry.parametric.lookup id with
  | some known => return known
  | none =>
      let result := table.mentionsParams id
      modifyRegistry fun r =>
        { r with parametric := (id, result) :: r.parametric }
      return result

/- Remember the slot of a key. -/
def remember
    (key : ExtractionKey)
    (slot : SchemaId) : ExtractT m Unit :=
  modifyRegistry fun r => { r with cache := (key, slot) :: r.cache }

/- Append a slot that is filled later. -/
def reserve (name : String) : ExtractT m SchemaId := do
  let (pool, slot) := (← pool).push (Schema.unknown name)
  modifyRegistry fun r => { r with pool }
  modify fun x => { x with pending := slot :: x.pending }
  return slot

/- Fill a reserved slot. -/
def fill
    (slot : SchemaId)
    (s : Schema) : ExtractT m Unit := do
  modifyRegistry fun r => { r with pool := r.pool.fill slot s }
  modify fun x => { x with pending := x.pending.erase slot }

end Extract

end MatchCompiler

------------------------------------------------------------
-- Views
------------------------------------------------------------

namespace MatchCompiler

/-
  An alias is its source under another name; a reference
  carries what can be read through it.
-/
def Schema.view
    (s : Schema)
    (kind : ViewKind)
    (source : SchemaId)
    (name : String) : Schema :=
  match kind with
  | .alias =>
      { s with
        aliasName := some name
        flags := { s.flags with aliased := true }
        target := some source }
  | .reference =>
      { kind := .reference
        name
        flags :=
          { extensible := s.flags.extensible
            indirect := true
            tagged := s.flags.tagged }
        fields := s.fields
        branches := s.branches
        discriminator := s.discriminator
        ancestors := s.ancestors
        target := some source }

/- A view of the schema in a slot. -/
def SchemaPool.view
    (p : SchemaPool)
    (kind : ViewKind)
    (source : SchemaId)
    (name : String) : Schema :=
  (p.get source).view kind source name

namespace Extract

/- Note a view for rebuilding if its source is not finished. -/
def note
    {m : Type → Type}
    [Monad m]
    (v : View) : ExtractT m Unit :=
  modify fun x =>
    if x.pending.contains v.source ||
        x.views.any (fun w => w.slot == v.source) then
      { x with views := x.views ++ [v] }
    else
      x

/- A view of a source. -/
def view
    (kind : ViewKind)
    (slot source : SchemaId)
    (name : String)
    (descriptor : DescriptorId) : Extract Schema := do
  note { slot, source, kind, name, descriptor }
  return (← pool).view kind source name

end Extract

namespace View

/-
  Rebuild a view, after the view it shows if that is one to
  be rebuilt too. `done` holds the slots already entered,
  which ends the walk on a cycle of views.
-/
def complete
    (views : List View) :
    Nat → View → List SchemaId × SchemaPool →
    List SchemaId × SchemaPool
| 0, _, state => state
| n + 1, v, (done, pool) =>
    if done.contains v.slot then
      (done, pool)
    else
      let (done, pool) :=
        match views.find? (fun w => w.slot == v.source) with
        | some w => complete views n w (v.slot :: done, pool)
        | none => (v.slot :: done, pool)
      let s := pool.view v.kind v.source v.name
      (done,
        pool.fill v.slot { s with descriptor := some v.descriptor })

/- Rebuild all views in the order in which they were noted. -/
def completeAll
    (views : List View)
    (pool : SchemaPool) : SchemaPool :=
  (views.foldl
    (fun state v => complete views views.length v state)
    ([], pool)).2

end View

end MatchCompiler

------------------------------------------------------------
-- Branch Labels
------------------------------------------------------------

namespace MatchCompiler

/-
  Whether the characters hold the marker with a capital
  letter right after it.
-/
def markerAhead (marker : Char) : List Char → Bool
| c :: d :: rest =>
    (c == marker && d.isUpper) || markerAhead marker (d :: rest)
| _ => false

/-
  Whether a label falls into a beginning that ends in the
  marker and a capitalized case name.
-/
def isMarked
    (marker : Char)
    (label : String) : Bool :=
  markerAhead marker (label.toList.drop 1)

/- The labels that branches name, each once. -/
def declaredLabels (branches : List BranchDecl) : List String :=
  (branches.flatMap fun b =>
    match b.selector with
    | .labels names => names
    | .otherwise => []).eraseDups

/-
  The labels that a discriminator of a type can take.
  Enumerations and booleans list their own values; for any
  other type the declared labels are numbered in order.
-/
def Schema.labelDomain
    (s : Schema)
    (branches : List BranchDecl) : List Member :=
  if s.kind == .enumeration then
    s.members
  else if s.kind == .primitive && s.primitive == some .bool then
    [⟨"false", 0⟩, ⟨"true", 1⟩]
  else
    (declaredLabels branches).zipIdx.map fun (label, i) =>
      { name := label, ordinal := i }

/- The labels that the discriminator in a slot can take. -/
def SchemaPool.labelDomain
    (p : SchemaPool)
    (discriminator : SchemaId)
    (branches : List BranchDecl) : List Member :=
  (p.get (p.unwrap discriminator)).labelDomain branches

/- Whether a branch is selected by a label. -/
def BranchSelector.selects
    (named : List String)
    (label : String) : BranchSelector → Bool
| .labels names => names.contains label
| .otherwise => !named.contains label

end MatchCompiler

------------------------------------------------------------
-- Building Schemas
------------------------------------------------------------

namespace MatchCompiler

namespace Schema

/-
  What an object takes over from its base: the fields, the
  chain of bases and, if it has no variant part of its own,
  the branches.
-/
def derived
    (base : Schema)
    (name : String)
    (id : SchemaId)
    (own : Bool) : Schema :=
  { kind := .record
    name
    flags := { extensible := true }
    fields := base.fields
    ancestors := id :: base.ancestors
    branches := if own then [] else base.branches
    discriminator := if own then none else base.discriminator }

/-
  Add a variant part: the discriminator becomes the last
  shared field, and every label it can take has the fields of
  the last branch that it selects.
-/
def withVariant
    (s : Schema)
    (origin : Origin)
    (v : VariantPart)
    (schema : SchemaId)
    (domain : List Member)
    (added : List (BranchSelector × List Field))
    (marker : Char) : Schema :=
  let discriminator : Field :=
    { name := v.discriminator.name
      schema
      position := s.fields.length
      isPrivate := v.discriminator.isPrivate }
  let named := declaredLabels v.branches
  let fieldsOf := fun label =>
    added.foldl
      (fun fs (sel, own) =>
        if sel.selects named label then own else fs)
      ([] : List Field)
  let branches : List Branch := domain.map fun m =>
    { label := m.name, ordinal := m.ordinal, fields := fieldsOf m.name }
  let tagged :=
    origin == .taggedDeclaration && !branches.isEmpty &&
      branches.all (fun b => isMarked marker b.label)
  { s with
    fields := s.fields ++ [discriminator]
    branches
    discriminator := some { field := discriminator.name, schema }
    flags := { s.flags with tagged := s.flags.tagged || tagged } }

end Schema

namespace Extract

variable {m : Type → Type}
variable [Monad m]

/-
  The slot of a type as mentioned; `extract` finds the slot
  of a descriptor under generic arguments.
-/
def resolve
    (extract : DescriptorId → List SchemaId → ExtractT m SchemaId)
    (env : List SchemaId) : TypeRef → ExtractT m SchemaId
| .described id => extract id env
| .parameter i =>
    match env[i]? with
    | some arg => return arg
    | none => unknown

/- The name of a template shows its arguments. -/
def instanceName
    (d : TypeDescriptor)
    (env : List SchemaId) : Extract String := do
  if d.params == 0 || env.isEmpty then
    return d.name
  else
    let pool ← pool
    let args := ", ".intercalate (env.map pool.nameOf)
    return s!"{d.name}[{args}]"

/- Declared fields, numbered from a position on. -/
def fields
    (extract : DescriptorId → List SchemaId → ExtractT m SchemaId)
    (env : List SchemaId) :
    Nat → List FieldDecl → ExtractT m (List Field)
| _, [] => return []
| position, d :: ds => do
    let schema ← resolve extract env d.type
    let rest ← fields extract env (position + 1) ds
    return { name := d.name, schema, position, isPrivate := d.isPrivate } ::
      rest

/- The elements of a tuple; unnamed ones are named by place. -/
def tupleFields
    (extract : DescriptorId → List SchemaId → ExtractT m SchemaId)
    (env : List SchemaId) :
    Nat → List TupleElement → ExtractT m (List Field)
| _, [] => return []
| position, e :: es => do
    let schema ← resolve extract env e.type
    let rest ← tupleFields extract env (position + 1) es
    return { name := e.name.getD (toString position), schema, position } ::
      rest

/- A container, unknown if the number of arguments is wrong. -/
def container
    (extract : DescriptorId → List SchemaId → ExtractT m SchemaId)
    (env : List SchemaId)
    (name : String)
    (kind : Container)
    (args : List TypeRef) : ExtractT m Schema := do
  match kind, args with
  | .map, [k, v] =>
      let key ← resolve extract env k
      let value ← resolve extract env v
      return { kind := .map, name, key := some key, value := some value }
  | .array n, [e] =>
      let element ← resolve extract env e
      return {
        kind := .array, name, element := some element,
        arrayLength := some n }
  | .sequence, [e] =>
      let element ← resolve extract env e
      return { kind := .sequence, name, element := some element }
  | .set, [e] =>
      let element ← resolve extract env e
      return { kind := .set, name, element := some element }
  | .optional, [e] =>
      let element ← resolve extract env e
      return { kind := .optional, name, element := some element }
  | _, _ => return Schema.unknown name

/- What an object takes over from its base, if it has one. -/
def inherit
    (extract : DescriptorId → List SchemaId → Extract SchemaId)
    (env : List SchemaId)
    (name : String)
    (o : ObjectShape) : Extract Schema := do
  match o.base with
  | none =>
      return {
        kind := .record, name,
        flags := { extensible := o.inheritable } }
  | some base =>
      let source ← resolve extract env base
      let pool ← pool
      let id := pool.unwrap source
      return (pool.get id).derived name id o.variant.isSome

/- The fields that each declared branch adds. -/
def branchFields
    (extract : DescriptorId → List SchemaId → ExtractT m SchemaId)
    (env : List SchemaId)
    (position : Nat) :
    List BranchDecl → ExtractT m (List (BranchSelector × List Field))
| [] => return []
| b :: bs => do
    let own ← fields extract env position b.fields
    let rest ← branchFields extract env position bs
    return (b.selector, own) :: rest

/- Add a variant part, whose types are found in turn. -/
def variant
    (extract : DescriptorId → List SchemaId → Extract SchemaId)
    (env : List SchemaId)
    (origin : Origin)
    (s : Schema)
    (v : VariantPart) : Extract Schema := do
  let schema ← resolve extract env v.discriminator.type
  let domain := (← pool).labelDomain schema v.branches
  let added ← branchFields extract env (s.fields.length + 1) v.branches
  let marker := (← get).registry.marker
  return s.withVariant origin v schema domain added marker

/- An object is a union if it has a discriminator. -/
def object
    (extract : DescriptorId → List SchemaId → Extract SchemaId)
    (env : List SchemaId)
    (name : String)
    (origin : Origin)
    (o : ObjectShape) : Extract Schema := do
  let s ← inherit extract env name o
  let own ← fields extract env s.fields.length o.fields
  let s := { s with fields := s.fields ++ own }
  let s ←
    match o.variant with
    | none => pure s
    | some v => variant extract env origin s v
  return { s with
    kind := if s.discriminator.isSome then .union else .record }

/- The schema that a shape gives under a name. -/
def ofShape
    (extract : DescriptorId → List SchemaId → Extract SchemaId)
    (env : List SchemaId)
    (id : DescriptorId)
    (d : TypeDescriptor)
    (slot : SchemaId)
    (name : String) : Extract Schema :=
  match d.shape with
  | .primitive kind => pure (Schema.ofPrimitive kind name)
  | .alias target => do
      let source ← resolve extract env target
      view .alias slot source name id
  | .reference target => do
      let source ← resolve extract env target
      view .reference slot source name id
  | .container kind args => container extract env name kind args
  | .object o => object extract env name d.origin o
  | .tuple elements => do
      let fields ← tupleFields extract env 0 elements
      pure { kind := .tuple, name, fields }
  | .enumeration members =>
      pure { kind := .enumeration, name, members }
  | .generic .. | .unknown => pure (Schema.unknown name)

/- The schema of a descriptor that has been given a slot. -/
def build
    (extract : DescriptorId → List SchemaId → Extract SchemaId)
    (env : List SchemaId)
    (id : DescriptorId)
    (d : TypeDescriptor)
    (slot : SchemaId) : Extract Schema := do
  let name ← instanceName d env
  let s ← ofShape extract env id d slot name
  return { s with descriptor := some id }

end Extract

end MatchCompiler

------------------------------------------------------------
-- Extraction
------------------------------------------------------------

namespace MatchCompiler

namespace Extract

/-
  A slot for a descriptor that has none. A generic instance
  has the slot of its template under the instance's
  arguments; any other descriptor has a slot of its own.
-/
def assign
    (extract : DescriptorId → List SchemaId → Extract SchemaId)
    (env : List SchemaId)
    (id : DescriptorId)
    (d : TypeDescriptor)
    (key : ExtractionKey) : Extract SchemaId :=
  match d.shape with
  | .generic template args => do
      let args ← args.mapM (resolve extract env)
      let slot ← extract template args
      remember key slot
      return slot
  | _ => do
      let slot ← reserve d.name
      remember key slot
      let s ← build extract env id d slot
      fill slot s
      return slot

/- The slot of a descriptor under generic arguments. -/
def step
    (table : TypeTable)
    (extract : DescriptorId → List SchemaId → Extract SchemaId)
    (id : DescriptorId)
    (env : List SchemaId) : Extract SchemaId := do
  match table.get? id with
  | none => unknown
  | some d =>
      let parametric ← isParametric table id
      let key : ExtractionKey :=
        { descriptor := id, args := if parametric then env else [] }
      match (← get).registry.cache.lookup key with
      | some slot =>
          modifyRegistry fun r => { r with hits := r.hits + 1 }
          return slot
      | none =>
          modifyRegistry fun r => { r with misses := r.misses + 1 }
          assign extract env id d key

/- Extraction through at most a number of nested descriptors. -/
def nested
    (table : TypeTable) :
    Nat → DescriptorId → List SchemaId → Extract SchemaId
| 0 => fun _ _ => failure
| n + 1 => step table (nested table n)

end Extract

namespace Registry

/-
  The slot of a descriptor and the registry that holds it, if
  no more than a number of descriptors are nested.
-/
def extract?
    (r : Registry)
    (table : TypeTable)
    (depth : Nat)
    (id : DescriptorId) : Option (Registry × SchemaId) := do
  let (slot, x) ← Extract.nested table depth id [] { registry := r }
  let pool := View.completeAll x.views x.registry.pool
  return ({ x.registry with pool }, slot)

/-
  Nesting that is allowed for a table. Each descriptor is
  entered once for each list of generic arguments, and only
  through a chain of instances in between.
-/
def depthLimit (table : TypeTable) : Nat :=
  let n := table.size + 2
  1024 * (n * n * n)

/-
  The slot of a descriptor, below which no more than a number
  of descriptors are nested. What is not in the table, or
  instantiates itself without end, has the unknown schema.
-/
def schemaWithin
    (r : Registry)
    (table : TypeTable)
    (depth : Nat)
    (id : DescriptorId) : Registry × SchemaId :=
  match r.extract? table (depth + 1) id with
  | some result => result
  | none =>
      let (pool, slot) := r.pool.unknown
      ({ r with pool }, slot)

/- The slot of a descriptor, within the limit for its table. -/
def schemaOf
    (r : Registry)
    (table : TypeTable)
    (id : DescriptorId) : Registry × SchemaId :=
  r.schemaWithin table (depthLimit table) id

end Registry

end MatchCompiler
