import MatchCompiler.Proofs.Inheritance
import MatchCompiler.Proofs.Typing

/-
  This file says what it means that a schema describes a
  type.

  Every slot of a pool stands for a type. A schema describes
  a type if all that it says holds of the values of the type:
  what its kind says about their shape, which fields can be
  read from them at which types, which types are ancestors,
  and which variant part selects the branches. A schema may
  say less than is known about the type, so that an empty
  placeholder describes every type.

  Key definitions include:
    * `SlotTypes`
    * `Field.DeclaredAt`
    * `Schema.Admits`
    * `Schema.VariesBy`
    * `Describes`

  Key theorems include:
    * `Describes.mono`
    * `Describes.placeholder`
    * `Describes.view`
    * `ObjectPart.describes`
-/

------------------------------------------------------------
-- Types Of Slots
------------------------------------------------------------

namespace MatchCompiler

/- The types that the slots of a pool stand for. -/
abbrev SlotTypes :=
  List ValueType

/- A value has the type of a slot. -/
def SlotTypes.Types
    (t : TypeTable)
    (Γ : SlotTypes)
    (slot : SchemaId)
    (v : Value) : Prop :=
  ∃ T, Γ[slot]? = some T ∧ HasType t T v

/- A value with fields. -/
def Value.IsObject (v : Value) : Prop :=
  ∃ chain values, v = .object chain values

namespace Field

/- A value has a field, at the type of its slot. -/
def ReadFrom
    (t : TypeTable)
    (Γ : SlotTypes)
    (v : Value)
    (f : Field) : Prop :=
  ∃ w, v.field? f.name = some w ∧ Γ.Types t f.schema w

/- A field has the name and the type of a declared one. -/
def Declares
    (t : TypeTable)
    (Γ : SlotTypes)
    (d : FieldDecl)
    (f : Field) : Prop :=
  f.name = d.name ∧ Γ[f.schema]? = some (t.typeOf d.type)

theorem Declares.readFrom
    {t : TypeTable}
    {Γ : SlotTypes}
    {d : FieldDecl}
    {f : Field}
    {v : Value}
    (h : f.Declares t Γ d)
    (hRead : d.ReadFrom t v) :
    f.ReadFrom t Γ v := by
  rcases hRead with ⟨w, hField, hTyped⟩
  exact ⟨w, h.1 ▸ hField, _, h.2, hTyped⟩

end Field

/- Slots that stay keep their types when slots are added. -/
theorem SlotTypes.kept
    {Γ Γ' : SlotTypes}
    (h : Γ <+: Γ')
    {slot : SchemaId}
    {T : ValueType}
    (hSlot : Γ[slot]? = some T) :
    Γ'[slot]? = some T := by
  rcases List.getElem?_eq_some_iff.mp hSlot with ⟨hLt, rfl⟩
  exact List.prefix_iff_getElem?.mp h slot hLt

theorem SlotTypes.Types.mono
    {t : TypeTable}
    {Γ Γ' : SlotTypes}
    {slot : SchemaId}
    {v : Value}
    (h : Γ <+: Γ')
    (hTypes : Γ.Types t slot v) :
    Γ'.Types t slot v := by
  rcases hTypes with ⟨T, hSlot, hTyped⟩
  exact ⟨T, SlotTypes.kept h hSlot, hTyped⟩

end MatchCompiler

------------------------------------------------------------
-- What Schemas Say
------------------------------------------------------------

namespace MatchCompiler

/- The kinds of schema that can have fields. -/
def SchemaKind.hasParts : SchemaKind → Bool
| .record | .union | .tuple | .reference => true
| _ => false

/- The shapes of the values that have fields or places. -/
def Shape.hasParts : Shape → Bool
| .object _ | .tuple _ => true
| _ => false

namespace Schema

variable (t : TypeTable)
variable (Γ : SlotTypes)

/- There are fields or a discriminator. -/
def HasParts (s : Schema) : Prop :=
  s.fields ≠ [] ∨ s.discriminator.isSome = true

/- The values of a schema have some labels. -/
def ListsMembers
    (s : Schema)
    (ms : List Member) : Prop :=
  (s.kind = .enumeration ∧ s.members = ms) ∨
  (s.kind = .primitive ∧ s.primitive = some .bool ∧ ms = boolMembers)

/- What the kind of a schema says about a value. -/
def Admits
    (s : Schema)
    (v : Value) : Prop :=
  match s.kind with
  | .unknown => True
  | .primitive => ∀ k ∈ s.primitive, k.Holds v
  | .enumeration => ∃ m ∈ s.members, v = .member m.name m.ordinal
  | .sequence | .array =>
      ∃ items, v = .seq items ∧
        (∀ n ∈ s.arrayLength, items.length = n) ∧
        ∀ slot ∈ s.element, ∀ w ∈ items, Γ.Types t slot w
  | .set =>
      ∃ items, v = .set items ∧
        ∀ slot ∈ s.element, ∀ w ∈ items, Γ.Types t slot w
  | .map =>
      ∃ entries, v = .map entries ∧
        ∀ slot ∈ s.value, ∀ e ∈ entries, Γ.Types t slot e.2
  | .optional =>
      v = .none ∨
        ∃ w, v = .some w ∧ ∀ slot ∈ s.element, Γ.Types t slot w
  | .tuple =>
      ∃ items, v = .tuple items ∧
        ∀ f ∈ s.fields, ∃ w, items[f.position]? = some w ∧
          Γ.Types t f.schema w
  | .record | .union =>
      v.IsObject ∧ ∀ f ∈ s.fields, f.ReadFrom t Γ v
  | .reference =>
      v = .nil ∨ (v.IsObject → ∀ f ∈ s.fields, f.ReadFrom t Γ v)

/-
  The branches are those of a variant part, with its labels
  if the values of its discriminator are labelled.
-/
def VariesBy
    (s : Schema)
    (part : VariantPart) : Prop :=
  ∃ slot,
    s.discriminator = some ⟨part.discriminator.name, slot⟩ ∧
    Γ[slot]? = some (t.typeOf part.discriminator.type) ∧
    (∀ n ms, t.Lists (t.typeOf part.discriminator.type) n ms →
      s.branches.map (fun b => ⟨b.label, b.ordinal⟩) = ms) ∧
    ∀ b ∈ s.branches, ∀ f ∈ b.fields,
      ∃ d ∈ part.fieldsOf b.label, f.Declares t Γ d

end Schema

/-
  A field is declared by an object or by a base of it, or it
  is a place of a tuple. Only what `varies` has a field that
  is declared as a discriminator.
-/
inductive Field.DeclaredAt
    (t : TypeTable)
    (Γ : SlotTypes)
    (id : DescriptorId)
    (varies : Prop)
    (f : Field) : Prop
| object
    {last : DescriptorId}
    {o : ObjectShape}
    {d : FieldDecl}
    (hBelow : t.Below id last)
    (hShape : t.shape? last = some (.object o))
    (hShared : d ∈ o.shared)
    (hVaries : d ∈ o.fields ∨ varies)
    (hDeclares : f.Declares t Γ d)
| place
    {last : DescriptorId}
    {elements : List TupleElement}
    {T : ValueType}
    (hBelow : t.Below id last)
    (hShape : t.shape? last = some (.tuple elements))
    (hSlot : Γ[f.schema]? = some T)

/-
  What a schema says holds of a type and its values.
-/
structure Describes
    (t : TypeTable)
    (Γ : SlotTypes)
    (T : ValueType)
    (s : Schema) : Prop where
  /- The name is that of the type or of what it is an alias of. -/
  named :
    ∃ U, t.Leads TypeTable.aliasView T U ∧
      ∀ id, U = .described id →
        ∃ d, t.get? id = some d ∧ s.name = d.name
  target :
    ∀ slot ∈ s.target, ∃ kind U, t.Shows kind T U ∧ Γ[slot]? = some U
  values : ∀ v, HasType t T v → s.Admits t Γ v
  lists : ∀ ms, s.ListsMembers ms → ∃ n, t.Lists T n ms
  ancestors :
    ∀ a ∈ s.ancestors, ∃ id U,
      t.Leads TypeTable.anyView T (.described id) ∧
      t.DerivesFrom id U ∧ Γ[a]? = some U
  /- Derived types are those of described objects. -/
  extensible :
    s.flags.extensible = true → ∀ v, HasType t T v → v ≠ .nil →
      ∃ id o, t.shape? id = some (.object o) ∧
        HasType t (.described id) v
  object :
    s.kind = .record ∨ s.kind = .union →
      ∃ id o, t.Leads TypeTable.anyView T (.described id) ∧
        t.shape? id = some (.object o)
  parts :
    s.HasParts → s.kind.hasParts = true ∧
      ∃ id shape, t.Leads TypeTable.anyView T (.described id) ∧
        t.shape? id = some shape ∧ shape.hasParts = true
  declared :
    ∀ f ∈ s.fields, ∃ id,
      t.Leads TypeTable.anyView T (.described id) ∧
      f.DeclaredAt t Γ id (s.discriminator.isSome = true)
  contents :
    ∀ slot, slot ∈ s.element ∨ slot ∈ s.value → ∃ U, Γ[slot]? = some U
  entries : s.key.isSome = true → s.kind = .map
  reference :
    s.kind = .reference →
      ∃ U V, t.Leads TypeTable.aliasView T U ∧ t.Shows .reference U V
  union : s.kind = .union → s.discriminator.isSome = true
  variant :
    s.discriminator.isSome = true →
      ∃ id last o part,
        t.Leads TypeTable.anyView T (.described id) ∧
        t.Below id last ∧ t.shape? last = some (.object o) ∧
        o.variant = some part ∧ s.VariesBy t Γ part

end MatchCompiler

------------------------------------------------------------
-- More Slots
------------------------------------------------------------

namespace MatchCompiler

variable {t : TypeTable}
variable {Γ Γ' : SlotTypes}

theorem Field.ReadFrom.mono
    (h : Γ <+: Γ')
    {v : Value}
    {f : Field}
    (hRead : f.ReadFrom t Γ v) :
    f.ReadFrom t Γ' v := by
  rcases hRead with ⟨w, hField, hTypes⟩
  exact ⟨w, hField, hTypes.mono h⟩

theorem Field.Declares.mono
    (h : Γ <+: Γ')
    {d : FieldDecl}
    {f : Field}
    (hDeclares : f.Declares t Γ d) :
    f.Declares t Γ' d :=
  ⟨hDeclares.1, SlotTypes.kept h hDeclares.2⟩

theorem Field.DeclaredAt.mono
    (h : Γ <+: Γ')
    {id : DescriptorId}
    {varies : Prop}
    {f : Field}
    (hDeclared : f.DeclaredAt t Γ id varies) :
    f.DeclaredAt t Γ' id varies := by
  cases hDeclared with
  | object hBelow hShape hShared hVaries hDeclares =>
      exact .object hBelow hShape hShared hVaries (hDeclares.mono h)
  | place hBelow hShape hSlot =>
      exact .place hBelow hShape (SlotTypes.kept h hSlot)

namespace Schema

theorem Admits.mono
    (h : Γ <+: Γ')
    {s : Schema}
    {v : Value}
    (hAdmits : s.Admits t Γ v) :
    s.Admits t Γ' v := by
  unfold Admits at hAdmits ⊢
  split at hAdmits
  · trivial
  · exact hAdmits
  · exact hAdmits
  · rcases hAdmits with ⟨items, hItems, hLength, hTypes⟩
    exact ⟨items, hItems, hLength,
      fun slot hSlot w hw => (hTypes slot hSlot w hw).mono h⟩
  · rcases hAdmits with ⟨items, hItems, hLength, hTypes⟩
    exact ⟨items, hItems, hLength,
      fun slot hSlot w hw => (hTypes slot hSlot w hw).mono h⟩
  · rcases hAdmits with ⟨items, hItems, hTypes⟩
    exact ⟨items, hItems,
      fun slot hSlot w hw => (hTypes slot hSlot w hw).mono h⟩
  · rcases hAdmits with ⟨entries, hEntries, hTypes⟩
    exact ⟨entries, hEntries,
      fun slot hSlot e he => (hTypes slot hSlot e he).mono h⟩
  · rcases hAdmits with hNone | ⟨w, hSome, hTypes⟩
    · exact Or.inl hNone
    · exact Or.inr ⟨w, hSome,
        fun slot hSlot => (hTypes slot hSlot).mono h⟩
  · rcases hAdmits with ⟨items, hItems, hFields⟩
    refine ⟨items, hItems, fun f hf => ?_⟩
    rcases hFields f hf with ⟨w, hItem, hTypes⟩
    exact ⟨w, hItem, hTypes.mono h⟩
  · exact ⟨hAdmits.1, fun f hf => (hAdmits.2 f hf).mono h⟩
  · exact ⟨hAdmits.1, fun f hf => (hAdmits.2 f hf).mono h⟩
  · rcases hAdmits with hNil | hFields
    · exact Or.inl hNil
    · exact Or.inr fun hObject f hf => (hFields hObject f hf).mono h

theorem VariesBy.mono
    (h : Γ <+: Γ')
    {s : Schema}
    {part : VariantPart}
    (hVaries : s.VariesBy t Γ part) :
    s.VariesBy t Γ' part := by
  rcases hVaries with ⟨slot, hSome, hSlot, hLabels, hFields⟩
  refine ⟨slot, hSome, SlotTypes.kept h hSlot, hLabels, fun b hb f hf => ?_⟩
  rcases hFields b hb f hf with ⟨d, hd, hDeclares⟩
  exact ⟨d, hd, hDeclares.mono h⟩

end Schema

/- A description stays one when slots are added. -/
theorem Describes.mono
    (h : Γ <+: Γ')
    {T : ValueType}
    {s : Schema}
    (hDescribes : Describes t Γ T s) :
    Describes t Γ' T s where
  named := hDescribes.named
  target := by
    intro slot hTarget
    rcases hDescribes.target slot hTarget with
      ⟨kind, U, hShows, hSlot⟩
    exact ⟨kind, U, hShows, SlotTypes.kept h hSlot⟩
  values := fun v hTyped => (hDescribes.values v hTyped).mono h
  lists := hDescribes.lists
  ancestors := by
    intro a ha
    rcases hDescribes.ancestors a ha with ⟨id, U, hLeads, hFrom, hSlot⟩
    exact ⟨id, U, hLeads, hFrom, SlotTypes.kept h hSlot⟩
  extensible := hDescribes.extensible
  object := hDescribes.object
  parts := hDescribes.parts
  declared := by
    intro f hf
    rcases hDescribes.declared f hf with ⟨id, hLeads, hDeclared⟩
    exact ⟨id, hLeads, hDeclared.mono h⟩
  contents := by
    intro slot hSlot
    rcases hDescribes.contents slot hSlot with ⟨U, hU⟩
    exact ⟨U, SlotTypes.kept h hU⟩
  entries := hDescribes.entries
  reference := hDescribes.reference
  union := hDescribes.union
  variant := by
    intro hSome
    rcases hDescribes.variant hSome with
      ⟨id, last, o, part, hLeads, hBelow, hShape, hPart, hVaries⟩
    exact ⟨id, last, o, part, hLeads, hBelow, hShape, hPart,
      hVaries.mono h⟩

end MatchCompiler

------------------------------------------------------------
-- Schemas Without Fields
------------------------------------------------------------

namespace MatchCompiler

/- A schema that says nothing beyond its kind. -/
structure Schema.IsLeaf (s : Schema) : Prop where
  fields : s.fields = []
  discriminator : s.discriminator = none
  target : s.target = none
  ancestors : s.ancestors = []
  extensible : s.flags.extensible = false
  entries : s.key.isSome = true → s.kind = .map
  reference : s.kind ≠ .reference
  record : s.kind ≠ .record
  union : s.kind ≠ .union

theorem Schema.IsLeaf.not_hasParts
    {s : Schema}
    (h : s.IsLeaf) :
    ¬ s.HasParts := by
  rintro (hFields | hDiscriminator)
  · exact hFields h.fields
  · rw [h.discriminator] at hDiscriminator
    cases hDiscriminator

namespace Describes

variable {t : TypeTable}
variable {Γ : SlotTypes}
variable {T : ValueType}

/- A leaf describes a type if its name and kind do. -/
theorem ofLeaf
    {s : Schema}
    (hLeaf : s.IsLeaf)
    (hNamed :
      ∀ id, T = .described id →
        ∃ d, t.get? id = some d ∧ s.name = d.name)
    (hContents :
      ∀ slot, slot ∈ s.element ∨ slot ∈ s.value →
        ∃ U, Γ[slot]? = some U)
    (hValues : ∀ v, HasType t T v → s.Admits t Γ v)
    (hLists : ∀ ms, s.ListsMembers ms → ∃ n, t.Lists T n ms) :
    Describes t Γ T s where
  named := ⟨T, .refl T, hNamed⟩
  target := by simp [hLeaf.target]
  values := hValues
  lists := hLists
  ancestors := by simp [hLeaf.ancestors]
  extensible := by simp [hLeaf.extensible]
  object := fun hKind => (hKind.elim hLeaf.record hLeaf.union).elim
  parts := fun hParts => absurd hParts hLeaf.not_hasParts
  declared := by simp [hLeaf.fields]
  contents := hContents
  entries := hLeaf.entries
  reference := fun hKind => absurd hKind hLeaf.reference
  union := fun hUnion => absurd hUnion hLeaf.union
  variant := by simp [hLeaf.discriminator]

/- A placeholder describes every type of its name. -/
theorem placeholder
    {name : String}
    (hNamed :
      ∀ id, T = .described id →
        ∃ d, t.get? id = some d ∧ name = d.name) :
    Describes t Γ T (Schema.unknown name) := by
  refine ofLeaf ⟨rfl, rfl, rfl, rfl, rfl, nofun, nofun, nofun, nofun⟩ hNamed
    (by simp [Schema.unknown]) ?_ ?_
  · intro v hTyped
    trivial
  · rintro ms (⟨hKind, -⟩ | ⟨hKind, -⟩) <;> cases hKind

/- A schema of one element describes what its kind admits. -/
theorem ofElement
    {kind : SchemaKind}
    {name : String}
    {element : SchemaId}
    {arrayLength : Option Nat}
    {U : ValueType}
    (hKind : kind ∈ [.sequence, .array, .set, .optional])
    (hNamed :
      ∀ id, T = .described id →
        ∃ d, t.get? id = some d ∧ name = d.name)
    (hSlot : Γ[element]? = some U)
    (hValues :
      ∀ v, HasType t T v →
        Schema.Admits t Γ
          { kind, name, element := some element, arrayLength } v) :
    Describes t Γ T
      { kind, name, element := some element, arrayLength } := by
  have hNe {other : SchemaKind}
      (hOther : other ∉ [.sequence, .array, .set, .optional]) :
      kind ≠ other := by
    rintro rfl
    exact hOther hKind
  refine ofLeaf ⟨rfl, rfl, rfl, rfl, rfl, nofun, hNe (by decide),
    hNe (by decide), hNe (by decide)⟩ hNamed ?_ hValues ?_
  · rintro slot (hMem | hMem) <;> cases hMem
    exact ⟨U, hSlot⟩
  · rintro ms (⟨hEnumeration, -⟩ | ⟨hPrimitive, -⟩)
    · exact absurd hEnumeration (hNe (by decide))
    · exact absurd hPrimitive (hNe (by decide))

/- The sequences of an element type. -/
theorem sequenceOf
    {element : SchemaId}
    {name : String}
    (hSlot : Γ[element]? = some T) :
    Describes t Γ (.sequenceOf T)
      { kind := .sequence, name, element := some element } := by
  refine ofElement (by decide) nofun hSlot fun v hTyped => ?_
  rcases hTyped.items with ⟨items, rfl, hItems⟩
  refine ⟨items, rfl, nofun, ?_⟩
  rintro slot ⟨⟩ w hw
  exact ⟨T, hSlot, hItems w hw⟩

/- The descriptor of a schema says nothing more. -/
theorem withDescriptor
    {s : Schema}
    (h : Describes t Γ T s)
    (descriptor : Option DescriptorId) :
    Describes t Γ T { s with descriptor } where
  named := h.named
  target := h.target
  values := h.values
  lists := h.lists
  ancestors := h.ancestors
  extensible := h.extensible
  object := h.object
  parts := h.parts
  declared := h.declared
  contents := h.contents
  entries := h.entries
  reference := h.reference
  union := h.union
  variant := h.variant

section

variable {id : DescriptorId}
variable {d : TypeDescriptor}
variable (hGet : t.get? id = some d)

include hGet

theorem primitive
    {kind : Primitive}
    (hShape : d.shape = .primitive kind) :
    Describes t Γ (.described id) (Schema.ofPrimitive kind d.name) := by
  have hShape' := TypeTable.shape?_of_get? hGet
  rw [hShape] at hShape'
  refine ofLeaf ⟨rfl, rfl, rfl, rfl, rfl, nofun, nofun, nofun, nofun⟩ ?_
    (by simp [Schema.ofPrimitive]) ?_ ?_
  · rintro _ ⟨⟩
    exact ⟨d, hGet, rfl⟩
  · rintro v hTyped k ⟨⟩
    exact hTyped.fits hShape'
  · rintro ms (⟨hKind, -⟩ | ⟨-, hBool, rfl⟩)
    · cases hKind
    · cases hBool
      exact ⟨0, .bool hShape'⟩

theorem enumeration
    {members : List Member}
    (hShape : d.shape = .enumeration members) :
    Describes t Γ (.described id)
      { kind := .enumeration, name := d.name, members } := by
  have hShape' := TypeTable.shape?_of_get? hGet
  rw [hShape] at hShape'
  refine ofLeaf ⟨rfl, rfl, rfl, rfl, rfl, nofun, nofun, nofun, nofun⟩ ?_
    (by simp) ?_ ?_
  · rintro _ ⟨⟩
    exact ⟨d, hGet, rfl⟩
  · intro v hTyped
    exact hTyped.fits hShape'
  · rintro ms (⟨-, rfl⟩ | ⟨hKind, -⟩)
    · exact ⟨0, .enumeration hShape'⟩
    · cases hKind

/- A container of some arguments. -/
theorem container
    {kind : Container}
    {args : List TypeRef}
    {slots : List SchemaId}
    (hShape : d.shape = .container kind args)
    (hArgs :
      slots.map (fun slot => Γ[slot]?) =
        args.map (fun r => some (t.typeOf r))) :
    Describes t Γ (.described id) (kind.schema d.name slots) := by
  have hShape' := TypeTable.shape?_of_get? hGet
  rw [hShape] at hShape'
  have hNamed :
      ∀ id', ValueType.described id = .described id' →
        ∃ d', t.get? id' = some d' ∧ d.name = d'.name := by
    rintro _ ⟨⟩
    exact ⟨d, hGet, rfl⟩
  have hLength : slots.length = args.length := by
    simpa using congrArg List.length hArgs
  unfold Container.schema
  split
  · -- A map.
    rename_i key value
    match args, hLength with
    | [k, e], _ =>
        simp only [List.map_cons, List.cons.injEq] at hArgs
        refine ofLeaf ⟨rfl, rfl, rfl, rfl, rfl, fun _ => rfl, nofun,
          nofun, nofun⟩ hNamed ?_ ?_ ?_
        · rintro slot (hMem | hMem) <;> cases hMem
          exact ⟨_, hArgs.2.1⟩
        · intro v hTyped
          rcases hTyped.fits hShape' with ⟨entries, rfl, hEntries⟩
          refine ⟨entries, rfl, ?_⟩
          rintro slot ⟨⟩ entry hEntry
          exact ⟨_, hArgs.2.1, hEntries entry hEntry⟩
        · rintro ms (⟨hKind, -⟩ | ⟨hKind, -⟩) <;> cases hKind
  · -- An array.
    rename_i n element
    match args, hLength with
    | [e], _ =>
        have hSlot := List.head_eq_of_cons_eq hArgs
        refine ofElement (by decide) hNamed hSlot fun v hTyped => ?_
        rcases hTyped.fits hShape' with ⟨items, rfl, hItems, hAll⟩
        refine ⟨items, rfl, ?_, ?_⟩
        · rintro m ⟨⟩
          exact hItems
        · rintro slot ⟨⟩ w hw
          exact ⟨_, hSlot, hAll w hw⟩
  · -- A sequence.
    rename_i element
    match args, hLength with
    | [e], _ =>
        have hSlot := List.head_eq_of_cons_eq hArgs
        refine ofElement (by decide) hNamed hSlot fun v hTyped => ?_
        rcases hTyped.fits hShape' with ⟨items, rfl, hAll⟩
        refine ⟨items, rfl, nofun, ?_⟩
        rintro slot ⟨⟩ w hw
        exact ⟨_, hSlot, hAll w hw⟩
  · -- A set.
    rename_i element
    match args, hLength with
    | [e], _ =>
        have hSlot := List.head_eq_of_cons_eq hArgs
        refine ofElement (by decide) hNamed hSlot fun v hTyped => ?_
        rcases hTyped.fits hShape' with ⟨items, rfl, hAll⟩
        refine ⟨items, rfl, ?_⟩
        rintro slot ⟨⟩ w hw
        exact ⟨_, hSlot, hAll w hw⟩
  · -- An optional.
    rename_i element
    match args, hLength with
    | [e], _ =>
        have hSlot := List.head_eq_of_cons_eq hArgs
        refine ofElement (by decide) hNamed hSlot fun v hTyped => ?_
        rcases hTyped.fits hShape' with rfl | ⟨w, rfl, hPayload⟩
        · exact Or.inl rfl
        · refine Or.inr ⟨w, rfl, ?_⟩
          rintro slot ⟨⟩
          exact ⟨_, hSlot, hPayload⟩
  · exact placeholder hNamed

end

end Describes

end MatchCompiler

------------------------------------------------------------
-- Views And Tuples
------------------------------------------------------------

namespace MatchCompiler

namespace Describes

variable {t : TypeTable}
variable {Γ : SlotTypes}
variable {T U : ValueType}

/- Fields can be read from an object of the described type. -/
theorem readFrom
    {s : Schema}
    (h : Describes t Γ T s)
    {v : Value}
    (hTyped : HasType t T v)
    (hObject : v.IsObject)
    {f : Field}
    (hField : f ∈ s.fields) :
    f.ReadFrom t Γ v := by
  rcases hObject with ⟨chain, values, rfl⟩
  have hAdmits := h.values _ hTyped
  have hKind := (h.parts (.inl (List.ne_nil_of_mem hField))).1
  unfold Schema.Admits at hAdmits
  split at hAdmits <;> rename_i hEq <;> rw [hEq] at hKind
  all_goals first | cases hKind; done | skip
  · rcases hAdmits with ⟨items, hItems, -⟩
    cases hItems
  · exact hAdmits.2 f hField
  · exact hAdmits.2 f hField
  · rcases hAdmits with hNil | hFields
    · cases hNil
    · exact hFields ⟨chain, values, rfl⟩ f hField

/- An alias describes what it stands for. -/
theorem «alias»
    {s : Schema}
    {source : SchemaId}
    (h : Describes t Γ U s)
    (hShows : t.Shows .alias T U)
    (hSource : Γ[source]? = some U)
    (name : String) :
    Describes t Γ T
      { s with
        aliasName := some name
        flags := { s.flags with aliased := true }
        target := some source } := by
  have hValue : ∀ v, HasType t T v → HasType t U v :=
    fun v hTyped => hTyped.shown hShows nofun
  refine
    { named := ?_
      target := ?_
      values := fun v hTyped => h.values v (hValue v hTyped)
      lists := ?_
      ancestors := ?_
      extensible := fun hFlag v hTyped =>
        h.extensible hFlag v (hValue v hTyped)
      object := ?_
      parts := ?_
      declared := ?_
      contents := h.contents
      entries := h.entries
      reference := ?_
      union := h.union
      variant := ?_ }
  · rcases h.named with ⟨V, hLeads, hName⟩
    exact ⟨V, .step rfl hShows hLeads, hName⟩
  · rintro slot ⟨⟩
    exact ⟨.alias, U, hShows, hSource⟩
  · intro ms hLists
    rcases h.lists ms hLists with ⟨n, hLists⟩
    exact ⟨n + 1, .alias hShows hLists⟩
  · intro a ha
    rcases h.ancestors a ha with ⟨id, V, hLeads, hFrom, hSlot⟩
    exact ⟨id, V, .step trivial hShows hLeads, hFrom, hSlot⟩
  · intro hKind
    rcases h.object hKind with ⟨id, o, hLeads, hShape⟩
    exact ⟨id, o, .step trivial hShows hLeads, hShape⟩
  · intro hParts
    rcases h.parts hParts with ⟨hKind, id, shape, hLeads, hShape⟩
    exact ⟨hKind, id, shape, .step trivial hShows hLeads, hShape⟩
  · intro f hf
    rcases h.declared f hf with ⟨id, hLeads, hDeclared⟩
    exact ⟨id, .step trivial hShows hLeads, hDeclared⟩
  · intro hKind
    rcases h.reference hKind with ⟨V, W, hLeads, hReference⟩
    exact ⟨V, W, .step rfl hShows hLeads, hReference⟩
  · intro hSome
    rcases h.variant hSome with ⟨id, last, o, part, hLeads, hRest⟩
    exact ⟨id, last, o, part, .step trivial hShows hLeads, hRest⟩

/- A reference describes nil and what it points to. -/
theorem reference_to
    {s : Schema}
    {source : SchemaId}
    (h : Describes t Γ U s)
    (hShows : t.Shows .reference T U)
    (hSource : Γ[source]? = some U)
    {name : String}
    (hNamed :
      ∀ id, T = .described id →
        ∃ d, t.get? id = some d ∧ name = d.name) :
    Describes t Γ T
      { kind := .reference
        name
        flags :=
          { extensible := s.flags.extensible
            indirect := true
            tagged := s.flags.tagged }
        fields := s.fields
        branches := s.branches
        discriminator := s.discriminator
        ancestors := s.ancestors
        target := some source } := by
  have hValue : ∀ v, HasType t T v → v ≠ .nil → HasType t U v :=
    fun v hTyped hNil => hTyped.shown hShows fun _ => hNil
  refine
    { named := ⟨T, .refl T, hNamed⟩
      target := ?_
      values := fun v hTyped => ?_
      lists := ?_
      ancestors := ?_
      extensible := fun hFlag v hTyped hNil =>
        h.extensible hFlag v (hValue v hTyped hNil) hNil
      object := by rintro (hKind | hKind) <;> cases hKind
      parts := ?_
      declared := ?_
      contents := by simp
      entries := nofun
      reference := fun _ => ⟨T, U, .refl T, hShows⟩
      union := nofun
      variant := ?_ }
  · rintro slot ⟨⟩
    exact ⟨.reference, U, hShows, hSource⟩
  · by_cases hNil : v = .nil
    · exact .inl hNil
    · refine .inr fun hObject f hField => ?_
      exact h.readFrom (hValue v hTyped hNil) hObject hField
  · rintro ms (⟨hKind, -⟩ | ⟨hKind, -⟩) <;> cases hKind
  · intro a ha
    rcases h.ancestors a ha with ⟨id, V, hLeads, hFrom, hSlot⟩
    exact ⟨id, V, .step trivial hShows hLeads, hFrom, hSlot⟩
  · intro hParts
    rcases h.parts hParts with ⟨-, id, shape, hLeads, hShape⟩
    exact ⟨rfl, id, shape, .step trivial hShows hLeads, hShape⟩
  · intro f hf
    rcases h.declared f hf with ⟨id, hLeads, hDeclared⟩
    exact ⟨id, .step trivial hShows hLeads, hDeclared⟩
  · intro hSome
    rcases h.variant hSome with
      ⟨id, last, o, part, hLeads, hBelow, hShape, hPart, hVaries⟩
    exact ⟨id, last, o, part, .step trivial hShows hLeads, hBelow, hShape,
      hPart, hVaries⟩

/- A view describes its type if its source is described. -/
theorem view
    {p : SchemaPool}
    {source : SchemaId}
    (h : Describes t Γ U (p.get source))
    {kind : ViewKind}
    (hShows : t.Shows kind T U)
    (hSource : Γ[source]? = some U)
    {name : String}
    (hNamed :
      ∀ id, T = .described id →
        ∃ d, t.get? id = some d ∧ name = d.name) :
    Describes t Γ T (p.view kind source name) := by
  cases kind with
  | «alias» => exact h.alias hShows hSource name
  | reference => exact h.reference_to hShows hSource hNamed

/- A tuple describes its elements by place. -/
theorem tuple
    {id : DescriptorId}
    {d : TypeDescriptor}
    {elements : List TupleElement}
    {fields : List Field}
    (hGet : t.get? id = some d)
    (hShape : d.shape = .tuple elements)
    (hFields :
      ∀ f ∈ fields, ∃ e, elements[f.position]? = some e ∧
        Γ[f.schema]? = some (t.typeOf e.type)) :
    Describes t Γ (.described id)
      { kind := .tuple, name := d.name, fields } := by
  have hShape' := TypeTable.shape?_of_get? hGet
  rw [hShape] at hShape'
  refine
    { named := ⟨_, .refl _, ?_⟩
      target := nofun
      values := fun v hTyped => ?_
      lists := ?_
      ancestors := nofun
      extensible := nofun
      object := by rintro (hKind | hKind) <;> cases hKind
      parts := fun _ => ⟨rfl, id, _, .refl _, hShape', rfl⟩
      declared := fun f hf => ?_
      contents := by simp
      entries := nofun
      reference := nofun
      union := nofun
      variant := nofun }
  · rintro _ ⟨⟩
    exact ⟨d, hGet, rfl⟩
  · rcases hTyped.fits hShape' with ⟨items, rfl, hLength, hItems⟩
    refine ⟨items, rfl, fun f hf => ?_⟩
    rcases hFields f hf with ⟨e, hElement, hSlot⟩
    have hLt : f.position < items.length := by
      rw [hLength]
      exact (List.getElem?_eq_some_iff.mp hElement).1
    have hItem := List.getElem?_eq_getElem hLt
    refine ⟨_, hItem, _, hSlot, hItems (e, _) ?_⟩
    refine List.mem_of_getElem? (i := f.position) ?_
    rw [List.getElem?_zip_eq_some]
    exact ⟨hElement, hItem⟩
  · rintro ms (⟨hKind, -⟩ | ⟨hKind, -⟩) <;> cases hKind
  · rcases hFields f hf with ⟨e, -, hSlot⟩
    exact ⟨id, .refl _, .place (.refl id) hShape' hSlot⟩

end Describes

end MatchCompiler

------------------------------------------------------------
-- Objects
------------------------------------------------------------

namespace MatchCompiler

variable {t : TypeTable}
variable {Γ : SlotTypes}

/- An object is of all types that its base leads to. -/
theorem HasType.of_base_leads
    {id : DescriptorId}
    {o : ObjectShape}
    {base : TypeRef}
    {T : ValueType}
    {v : Value}
    (h : HasType t (.described id) v)
    (hShape : t.shape? id = some (.object o))
    (hBase : o.base = some base)
    (hLeads : t.Leads TypeTable.anyView (t.typeOf base) T) :
    HasType t T v := by
  rcases h.exists_base hShape hBase with ⟨U, hU, hEnd, hTyped⟩
  exact hTyped.of_leads (hU.onward hEnd hLeads)

theorem HasType.isObject
    {id : DescriptorId}
    {o : ObjectShape}
    {v : Value}
    (h : HasType t (.described id) v)
    (hShape : t.shape? id = some (.object o)) :
    v.IsObject := by
  rcases h.fits hShape with ⟨chain, values, rfl, -⟩
  exact ⟨chain, values, rfl⟩

/- What all branches share is carried by every value. -/
theorem ObjectShape.shared_subset_carried
    (o : ObjectShape)
    (values : List (String × Value)) :
    o.shared ⊆ o.carried values := by
  unfold shared carried
  cases o.variant with
  | none => exact List.Subset.refl _
  | some part =>
      refine List.append_subset.mpr
        ⟨List.subset_append_left _ _, fun d hd => ?_⟩
      cases List.mem_singleton.mp hd
      simp

theorem Field.DeclaredAt.imp
    {id : DescriptorId}
    {varies varies' : Prop}
    {f : Field}
    (h : f.DeclaredAt t Γ id varies)
    (hVaries : varies → varies') :
    f.DeclaredAt t Γ id varies' := by
  cases h with
  | object hBelow hLast hShared hOwn hDeclares =>
      exact .object hBelow hLast hShared (hOwn.imp_right hVaries) hDeclares
  | place hBelow hLast hSlot => exact .place hBelow hLast hSlot

/- What a base declares is declared for the object. -/
theorem Field.DeclaredAt.derived
    {id next : DescriptorId}
    {o : ObjectShape}
    {base : TypeRef}
    {varies : Prop}
    {f : Field}
    (h : f.DeclaredAt t Γ next varies)
    (hShape : t.shape? id = some (.object o))
    (hBase : o.base = some base)
    (hLeads :
      t.Leads TypeTable.anyView (t.typeOf base) (.described next)) :
    f.DeclaredAt t Γ id varies := by
  cases h with
  | object hBelow hLast hShared hOwn hDeclares =>
      exact .object (.step hShape hBase hLeads hBelow) hLast hShared hOwn
        hDeclares
  | place hBelow hLast hSlot =>
      exact .place (.step hShape hBase hLeads hBelow) hLast hSlot

/-
  What is said about all values of an object: the fields that
  they have, the types that they are of, and the variant part
  of the object or of a base.
-/
structure ObjectPart
    (t : TypeTable)
    (Γ : SlotTypes)
    (id : DescriptorId)
    (s : Schema) : Prop where
  fields :
    ∀ v, HasType t (.described id) v → ∀ f ∈ s.fields, f.ReadFrom t Γ v
  declared :
    ∀ o, t.shape? id = some (.object o) → ∀ f ∈ s.fields,
      f.DeclaredAt t Γ id
        (o.variant.isSome = true ∨ s.discriminator.isSome = true)
  ancestors :
    ∀ a ∈ s.ancestors, ∃ U, t.DerivesFrom id U ∧ Γ[a]? = some U
  variant :
    s.discriminator.isSome = true →
      ∃ last o part, t.Below id last ∧
        t.shape? last = some (.object o) ∧ o.variant = some part ∧
        s.VariesBy t Γ part

namespace ObjectPart

variable {id : DescriptorId}
variable {o : ObjectShape}
variable (hShape : t.shape? id = some (.object o))

include hShape

/- An object starts with what its base has. -/
theorem derived
    {base : TypeRef}
    {T : ValueType}
    {p : SchemaPool}
    {slot : SchemaId}
    (hBase : o.base = some base)
    (hLeads : t.Leads TypeTable.anyView (t.typeOf base) T)
    (hSlot : Γ[slot]? = some T)
    (h : Describes t Γ T (p.get slot))
    (name : String) :
    ObjectPart t Γ id (o.start name (some (p, slot))) := by
  have hTyped :
      ∀ v, HasType t (.described id) v → HasType t T v :=
    fun v hv => hv.of_base_leads hShape hBase hLeads
  have hObject : ∀ v, HasType t (.described id) v → v.IsObject :=
    fun v hv => hv.isObject hShape
  refine ⟨fun v hv f hf => ?_, fun o' hShape' f hf => ?_, fun a ha => ?_,
    fun hSome => ?_⟩
  · exact h.readFrom (hTyped v hv) (hObject v hv) hf
  · cases hShape.symm.trans hShape'
    rcases h.declared f hf with ⟨next, hNext, hDeclared⟩
    refine (hDeclared.derived hShape hBase (hLeads.trans hNext)).imp
      fun hSome => ?_
    by_cases hOwn : o.variant.isSome = true
    · exact .inl hOwn
    · refine .inr ?_
      simpa [ObjectShape.start, hOwn] using hSome
  · rcases List.mem_cons.mp ha with rfl | ha
    · exact ⟨T, ⟨id, o, base, .refl id, hShape, hBase, hLeads⟩, hSlot⟩
    · rcases h.ancestors a ha with
        ⟨next, U, hNext, ⟨last, o', base', hBelow, hRest⟩, hSlot'⟩
      exact ⟨U, ⟨last, o', base',
        .step hShape hBase (hLeads.trans hNext) hBelow, hRest⟩, hSlot'⟩
  · by_cases hOwn : o.variant.isSome = true
    · simp [ObjectShape.start, hOwn] at hSome
    · have hBranches :
          (o.start name (some (p, slot))).branches =
              (p.get slot).branches ∧
            (o.start name (some (p, slot))).discriminator =
              (p.get slot).discriminator := by
        simp [ObjectShape.start, hOwn]
      rw [hBranches.2] at hSome
      rcases h.variant hSome with
        ⟨next, last, o', part, hNext, hBelow, hLast, hPart, hVaries⟩
      refine ⟨last, o', part,
        .step hShape hBase (hLeads.trans hNext) hBelow, hLast, hPart, ?_⟩
      unfold Schema.VariesBy at hVaries ⊢
      rw [hBranches.1, hBranches.2]
      exact hVaries

/- Declared fields are added. -/
theorem addFields
    {s : Schema}
    (h : ObjectPart t Γ id s)
    {ds : List FieldDecl}
    {fs : List Field}
    (hDeclared : ∀ f ∈ fs, ∃ d ∈ ds, f.Declares t Γ d)
    (hShared : ds ⊆ o.shared)
    (hVaries : ds ⊆ o.fields ∨ o.variant.isSome = true) :
    ObjectPart t Γ id { s with fields := s.fields ++ fs } := by
  refine ⟨fun v hv f hf => ?_, fun o' hShape' f hf => ?_, h.ancestors,
    h.variant⟩
  · rcases List.mem_append.mp hf with hf | hf
    · exact h.fields v hv f hf
    · rcases hDeclared f hf with ⟨d, hd, hDeclares⟩
      rcases hv.fits hShape with ⟨chain, values, -, hRead⟩
      refine hDeclares.readFrom (hRead d ?_)
      exact o.shared_subset_carried values (hShared hd)
  · rcases List.mem_append.mp hf with hf | hf
    · exact h.declared o' hShape' f hf
    · cases hShape.symm.trans hShape'
      rcases hDeclared f hf with ⟨d, hd, hDeclares⟩
      refine .object (.refl id) hShape (hShared hd) ?_ hDeclares
      exact hVaries.imp (fun hOwn => hOwn hd) .inl

/- A variant part is added. -/
theorem addVariant
    {s : Schema}
    {part : VariantPart}
    {slot : SchemaId}
    (h : ObjectPart t Γ id s)
    (hPart : o.variant = some part)
    (hSlot : Γ[slot]? = some (t.typeOf part.discriminator.type))
    {f : Field}
    (hName : f.name = part.discriminator.name)
    (hField : f.schema = slot)
    {branches : List Branch}
    (hLabels :
      ∀ n ms, t.Lists (t.typeOf part.discriminator.type) n ms →
        branches.map (fun b => ⟨b.label, b.ordinal⟩) = ms)
    (hBranches :
      ∀ b ∈ branches, ∀ f ∈ b.fields,
        ∃ d ∈ part.fieldsOf b.label, f.Declares t Γ d)
    (flags : SchemaFlags) :
    ObjectPart t Γ id
      { s with
        fields := s.fields ++ [f]
        branches
        discriminator := some ⟨part.discriminator.name, slot⟩
        flags } := by
  have hDeclared :
      ∀ g ∈ [f], ∃ d ∈ [part.discriminator], g.Declares t Γ d := by
    intro g hg
    cases List.mem_singleton.mp hg
    exact ⟨_, List.mem_cons_self, hName, hField ▸ hSlot⟩
  have hAdded := h.addFields hShape hDeclared ?_
    (.inr (by rw [hPart]; rfl))
  · refine ⟨hAdded.fields, fun o' hShape' f' hf' => ?_, h.ancestors,
      fun _ => ?_⟩
    · exact (hAdded.declared o' hShape' f' hf').imp fun _ => .inr rfl
    · exact ⟨id, o, part, .refl id, hShape, hPart, slot, rfl, hSlot,
        hLabels, hBranches⟩
  · intro g hg
    cases List.mem_singleton.mp hg
    simp [ObjectShape.shared, hPart]

/- What is said about an object describes it. -/
theorem describes
    {d : TypeDescriptor}
    {s : Schema}
    (h : ObjectPart t Γ id s)
    (hGet : t.get? id = some d)
    (hName : s.name = d.name)
    (hKind :
      s.kind = if s.discriminator.isSome then .union else .record)
    (hTarget : s.target = none)
    (hKey : s.key = none)
    (hContents : s.element = none ∧ s.value = none)
    (hVaries :
      o.variant.isSome = true → s.discriminator.isSome = true) :
    Describes t Γ (.described id) s := by
  have hEither : s.kind = .record ∨ s.kind = .union := by
    rw [hKind]
    cases s.discriminator.isSome
    · exact .inl rfl
    · exact .inr rfl
  refine
    { named := ⟨_, .refl _, ?_⟩
      target := by simp [hTarget]
      values := fun v hTyped => ?_
      lists := ?_
      ancestors := ?_
      extensible := fun _ v hTyped _ => ⟨id, o, hShape, hTyped⟩
      object := fun _ => ⟨id, o, .refl _, hShape⟩
      parts := fun _ => ⟨?_, id, _, .refl _, hShape, rfl⟩
      declared := ?_
      contents := by simp [hContents.1, hContents.2]
      entries := by simp [hKey]
      reference := ?_
      union := ?_
      variant := fun hSome => ?_ }
  · rintro _ ⟨⟩
    exact ⟨d, hGet, hName⟩
  · have hObject := hTyped.isObject hShape
    rcases hEither with hRecord | hUnion
    · simp only [Schema.Admits, hRecord]
      exact ⟨hObject, h.fields v hTyped⟩
    · simp only [Schema.Admits, hUnion]
      exact ⟨hObject, h.fields v hTyped⟩
  · rintro ms (⟨hOther, -⟩ | ⟨hOther, -⟩) <;>
      rcases hEither with hEq | hEq <;> rw [hEq] at hOther <;> cases hOther
  · intro a ha
    rcases h.ancestors a ha with ⟨U, hFrom, hSlot⟩
    exact ⟨id, U, .refl _, hFrom, hSlot⟩
  · rcases hEither with hEq | hEq <;> rw [hEq] <;> rfl
  · intro f hf
    exact ⟨id, .refl _, (h.declared o hShape f hf).imp
      fun hEither => hEither.elim hVaries fun hSome => hSome⟩
  · intro hOther
    rcases hEither with hEq | hEq <;> rw [hEq] at hOther <;> cases hOther
  · intro hUnion
    rw [hUnion] at hKind
    by_contra hNone
    rw [if_neg hNone] at hKind
    cases hKind
  · rcases h.variant hSome with ⟨last, o', part, hBelow, hRest⟩
    exact ⟨id, last, o', part, .refl _, hBelow, hRest⟩

end ObjectPart

end MatchCompiler
