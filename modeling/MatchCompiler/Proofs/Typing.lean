import MatchCompiler.Procedure.Execute
import MatchCompiler.Proofs.Extraction

/-
  This file says which values have a described type.

  A reference is nil or what it points to, an alias is what
  it stands for, and nothing is known about the values of a
  type that is not described. An object carries the fields of
  its type and of all bases of it, and at each of these the
  discriminator and the fields of the branch that its value
  selects. It is of each type in its line of bases.

  Key definitions include:
    * `ValueType`
    * `TypeTable.Leads`
    * `TypeTable.Lists`
    * `Lineage`
    * `HasType`

  Key theorems include:
    * `TypeTable.Leads.onward`
    * `HasType.of_leads`
    * `HasType.along`
    * `HasType.exists_tag`
    * `HasType.exists_base`
    * `HasType.of_isOfType`
-/

------------------------------------------------------------
-- Types Of Values
------------------------------------------------------------

namespace MatchCompiler

/-
  A type that values can have: anything, a primitive, a
  described type, or the sequences of a type.
-/
inductive ValueType where
| anything
| primitive (kind : Primitive)
| described (id : DescriptorId)
| sequenceOf (element : ValueType)

/-
  A shape that says nothing about its values: no shape is
  known, the shape is that of a template instance, or the
  number of arguments of a container is wrong.
-/
def Shape.isUnknown : Shape → Bool
| .unknown => true
| .generic _ _ => true
| .container kind args => args.length != kind.arity
| _ => false

namespace TypeTable

/- The shape of a descriptor. -/
def shape?
    (t : TypeTable)
    (id : DescriptorId) : Option Shape :=
  (t.get? id).map TypeDescriptor.shape

/- The type that a mention stands for. -/
def typeOf
    (t : TypeTable) : TypeRef → ValueType
| .described id =>
    match t.get? id with
    | some _ => .described id
    | none => .anything
| .parameter _ => .anything

/- Nothing is known about the values of a type. -/
inductive IsUnknown
    (t : TypeTable) : ValueType → Prop
| anything : IsUnknown t .anything
| described
    {id : DescriptorId}
    {s : Shape}
    (hShape : t.shape? id = some s)
    (hUnknown : s.isUnknown = true) :
    IsUnknown t (.described id)

/- A type is an alias of, or a reference to, another. -/
inductive Shows
    (t : TypeTable) : ViewKind → ValueType → ValueType → Prop
| view
    {kind : ViewKind}
    {id : DescriptorId}
    {target : TypeRef}
    (hShape : t.shape? id = some (kind.shape target)) :
    Shows t kind (.described id) (t.typeOf target)

/- A type leads to another through views of some kinds. -/
inductive Leads
    (t : TypeTable)
    (through : ViewKind → Prop) : ValueType → ValueType → Prop
| refl (T : ValueType) : Leads t through T T
| step
    {kind : ViewKind}
    {T U V : ValueType}
    (hKind : through kind)
    (hShows : t.Shows kind T U)
    (hLeads : Leads t through U V) :
    Leads t through T V

/- All kinds of view. -/
def anyView : ViewKind → Prop :=
  fun _ => True

/- Aliases only. -/
def aliasView : ViewKind → Prop :=
  fun kind => kind = .alias

/- A type is no view of another. -/
def IsEnd
    (t : TypeTable)
    (T : ValueType) : Prop :=
  ∀ kind U, ¬ t.Shows kind T U

/- An object is another, or derives from it. -/
inductive Below
    (t : TypeTable) : DescriptorId → DescriptorId → Prop
| refl (id : DescriptorId) : Below t id id
| step
    {id next last : DescriptorId}
    {o : ObjectShape}
    {base : TypeRef}
    (hShape : t.shape? id = some (.object o))
    (hBase : o.base = some base)
    (hLeads : t.Leads anyView (t.typeOf base) (.described next))
    (hBelow : Below t next last) :
    Below t id last

/- A base of an object, or of a base of it, leads to a type. -/
def DerivesFrom
    (t : TypeTable)
    (id : DescriptorId)
    (T : ValueType) : Prop :=
  ∃ last o base,
    t.Below id last ∧ t.shape? last = some (.object o) ∧
    o.base = some base ∧ t.Leads anyView (t.typeOf base) T

/- No two descriptors have one name. -/
def DistinctNames (t : TypeTable) : Prop :=
  ∀ i j d d', t.get? i = some d → t.get? j = some d' →
    d.name = d'.name → i = j

end TypeTable

end MatchCompiler

------------------------------------------------------------
-- Views
------------------------------------------------------------

namespace MatchCompiler

namespace ViewKind

/- A view says of what it is one, and of which kind. -/
theorem shape_inj
    {kind kind' : ViewKind}
    {target target' : TypeRef}
    (h : kind.shape target = kind'.shape target') :
    kind = kind' ∧ target = target' := by
  cases kind <;> cases kind' <;> cases h <;> exact ⟨rfl, rfl⟩

end ViewKind

namespace TypeTable

variable {t : TypeTable}
variable {through : ViewKind → Prop}
variable {T U V : ValueType}

theorem Shows.unique
    {kind kind' : ViewKind}
    (h : t.Shows kind T U)
    (h' : t.Shows kind' T V) :
    kind = kind' ∧ U = V := by
  cases h with
  | view hShape =>
      cases h' with
      | view hShape' =>
          have hSame := Option.some.inj (hShape.symm.trans hShape')
          rcases ViewKind.shape_inj hSame with ⟨rfl, rfl⟩
          exact ⟨rfl, rfl⟩

theorem Leads.single
    {kind : ViewKind}
    (hKind : through kind)
    (h : t.Shows kind T U) :
    t.Leads through T U :=
  .step hKind h (.refl U)

theorem Leads.trans
    (h : t.Leads through T U)
    (h' : t.Leads through U V) :
    t.Leads through T V := by
  induction h with
  | refl T => exact h'
  | step hKind hShows _ ih => exact .step hKind hShows (ih h')

theorem Leads.any
    (h : t.Leads through T U) :
    t.Leads anyView T U := by
  induction h with
  | refl T => exact .refl T
  | step _ hShows _ ih => exact .step trivial hShows ih

/- A type leads on to where it ends. -/
theorem Leads.onward
    {through' : ViewKind → Prop}
    (hEnd : t.IsEnd V)
    (h : t.Leads through T V)
    (h' : t.Leads through' T U) :
    t.Leads through U V := by
  induction h' with
  | refl T => exact h
  | step _ hShows _ ih =>
      cases h with
      | refl => exact absurd hShows (hEnd _ _)
      | step _ hOther hRest =>
          rcases hOther.unique hShows with ⟨-, rfl⟩
          exact ih hRest

/- There is one end. -/
theorem Leads.end_unique
    (hU : t.IsEnd U)
    (hV : t.IsEnd V)
    (h : t.Leads anyView T U)
    (h' : t.Leads anyView T V) :
    U = V := by
  cases h.onward hU h' with
  | refl => rfl
  | step _ hShows _ => exact absurd hShows (hV _ _)

/- A type that is no view ends. -/
theorem isEnd_of_shape
    {id : DescriptorId}
    {s : Shape}
    (hShape : t.shape? id = some s)
    (hView : ∀ (kind : ViewKind) target, s ≠ kind.shape target) :
    t.IsEnd (.described id) := by
  intro kind U hShows
  cases hShows with
  | view hShape' =>
      exact hView kind _ (Option.some.inj (hShape.symm.trans hShape'))

theorem isEnd_of_isUnknown
    (h : t.IsUnknown T) :
    t.IsEnd T := by
  cases h with
  | anything => exact nofun
  | described hShape hUnknown =>
      refine isEnd_of_shape hShape fun kind target hEq => ?_
      rw [hEq] at hUnknown
      cases kind <;> cases hUnknown

theorem isEnd_of_object
    {id : DescriptorId}
    {o : ObjectShape}
    (hShape : t.shape? id = some (.object o)) :
    t.IsEnd (.described id) := by
  refine isEnd_of_shape hShape fun kind target hEq => ?_
  cases kind <;> cases hEq

theorem Below.trans
    {a b c : DescriptorId}
    (h : t.Below a b)
    (h' : t.Below b c) :
    t.Below a c := by
  induction h with
  | refl a => exact h'
  | step hShape hBase hLeads _ ih =>
      exact .step hShape hBase hLeads (ih h')

/- What derives from another is no view. -/
theorem Below.isEnd
    {a b : DescriptorId}
    (h : t.Below a b)
    (hEnd : t.IsEnd (.described b)) :
    t.IsEnd (.described a) := by
  cases h with
  | refl => exact hEnd
  | step hShape => exact isEnd_of_object hShape

/- Of two bases of an object one derives from the other. -/
theorem Below.total
    {a b c : DescriptorId}
    (hB : t.IsEnd (.described b))
    (hC : t.IsEnd (.described c))
    (h : t.Below a b)
    (h' : t.Below a c) :
    t.Below b c ∨ t.Below c b := by
  induction h with
  | refl a => exact .inl h'
  | step hShape hBase hLeads hBelow ih =>
      cases h' with
      | refl => exact .inr (.step hShape hBase hLeads hBelow)
      | step hShape' hBase' hLeads' hBelow' =>
          cases hShape.symm.trans hShape'
          cases hBase.symm.trans hBase'
          cases hLeads.end_unique (hBelow.isEnd hB) (hBelow'.isEnd hC) hLeads'
          exact ih hB hBelow'

theorem distinctNames_of_nodup
    (h : (t.descriptors.toList.map TypeDescriptor.name).Nodup) :
    t.DistinctNames := by
  intro i j d d' hI hJ hName
  have hGet :
      ∀ {k d}, t.get? k = some d →
        (t.descriptors.toList.map TypeDescriptor.name)[k]? = some d.name := by
    intro k d hK
    rw [List.getElem?_map, Array.getElem?_toList]
    exact congrArg (Option.map TypeDescriptor.name) hK
  have hLt := (List.getElem?_eq_some_iff.mp (hGet hI)).1
  refine (List.getElem?_inj hLt h).mp ?_
  rw [hGet hI, hGet hJ, hName]

/- What has a shape is described. -/
theorem typeOf_described
    {id : DescriptorId}
    {d : TypeDescriptor}
    (hGet : t.get? id = some d) :
    t.typeOf (.described id) = .described id := by
  simp only [typeOf, hGet]

/- What leads to a described type is described. -/
theorem typeOf_of_leads
    {id u : DescriptorId}
    {s : Shape}
    (hLeads : t.Leads anyView (.described id) (.described u))
    (hShape : t.shape? u = some s) :
    t.typeOf (.described id) = .described id := by
  have hSome : ∃ s', t.shape? id = some s' := by
    cases hLeads with
    | refl => exact ⟨s, hShape⟩
    | step _ hShows _ =>
        cases hShows with
        | view hView => exact ⟨_, hView⟩
  rcases hSome with ⟨s', hSome⟩
  rcases Option.map_eq_some_iff.mp hSome with ⟨d, hGet, -⟩
  exact typeOf_described hGet

theorem shape?_of_get?
    {id : DescriptorId}
    {d : TypeDescriptor}
    (hGet : t.get? id = some d) :
    t.shape? id = some d.shape := by
  simp only [shape?, hGet, Option.map_some]

end TypeTable

end MatchCompiler

------------------------------------------------------------
-- Labels
------------------------------------------------------------

namespace MatchCompiler

/- The booleans as labels. -/
def boolMembers : List Member :=
  [⟨"false", 0⟩, ⟨"true", 1⟩]

/- The label and number of an enumeration member or boolean. -/
def Value.tag? : Value → Option Member
| .member name ordinal => Option.some ⟨name, ordinal⟩
| .bool b =>
    Option.some
      ⟨if b then "true" else "false", if b then 1 else 0⟩
| _ => Option.none

theorem Value.ordinal?_of_tag?
    {v : Value}
    {m : Member}
    (h : v.tag? = Option.some m) :
    v.ordinal? = Option.some m.ordinal := by
  cases v <;> cases h <;> rfl

/-
  The values of a type are labelled: it is an enumeration or
  the booleans, or an alias of these through a number of
  steps.
-/
inductive TypeTable.Lists
    (t : TypeTable) : ValueType → Nat → List Member → Prop
| enumeration
    {id : DescriptorId}
    {ms : List Member}
    (hShape : t.shape? id = some (.enumeration ms)) :
    Lists t (.described id) 0 ms
| bool
    {id : DescriptorId}
    (hShape : t.shape? id = some (.primitive .bool)) :
    Lists t (.described id) 0 boolMembers
| plainBool : Lists t (.primitive .bool) 0 boolMembers
| alias
    {T U : ValueType}
    {n : Nat}
    {ms : List Member}
    (hShows : t.Shows .alias T U)
    (h : Lists t U n ms) :
    Lists t T (n + 1) ms

/-
  The fields that a label makes readable: those of the last
  branch that it selects.
-/
def VariantPart.fieldsOf
    (v : VariantPart)
    (label : String) : List FieldDecl :=
  let named := declaredLabels v.branches
  v.branches.foldl
    (fun fs b => if b.selector.selects named label then b.fields else fs)
    []

/- A label makes the fields of one branch readable, or none. -/
theorem VariantPart.fieldsOf_eq
    (v : VariantPart)
    (label : String) :
    v.fieldsOf label = [] ∨
    ∃ b ∈ v.branches, v.fieldsOf label = b.fields := by
  unfold fieldsOf
  generalize declaredLabels v.branches = named
  suffices hFold :
      ∀ (branches : List BranchDecl) (fs : List FieldDecl),
        branches.foldl
            (fun fs b =>
              if b.selector.selects named label then b.fields else fs) fs =
          fs ∨
        ∃ b ∈ branches,
          branches.foldl
              (fun fs b =>
                if b.selector.selects named label then b.fields else fs) fs =
            b.fields from
    hFold v.branches []
  intro branches
  induction branches with
  | nil => exact fun fs => .inl rfl
  | cons b branches ih =>
      intro fs
      rw [List.foldl_cons]
      rcases ih (if b.selector.selects named label then b.fields else fs) with
        hSame | ⟨b', hb', hSame⟩
      · rw [hSame]
        split
        · exact .inr ⟨b, List.mem_cons_self, rfl⟩
        · exact .inl rfl
      · exact .inr ⟨b', List.mem_cons_of_mem b hb', hSame⟩

/-
  The declared fields that an object with some field values
  carries: its own, the discriminator, and those of the
  branch that the value of the discriminator selects.
-/
def ObjectShape.carried
    (o : ObjectShape)
    (values : List (String × Value)) : List FieldDecl :=
  o.fields ++
    match o.variant with
    | none => []
    | some v =>
        v.discriminator ::
          match (values.lookup v.discriminator.name).bind Value.tag? with
          | none => []
          | some m => v.fieldsOf m.name

end MatchCompiler

------------------------------------------------------------
-- Typed Values
------------------------------------------------------------

namespace MatchCompiler

/- The values of a primitive type. -/
def Primitive.Holds
    (p : Primitive) : Value → Prop
| .int _ => p.isInteger = true
| .float _ => p.isFloat = true
| .bool _ => p = .bool
| .char _ => p = .char
| .str _ => p = .str
| .tuple [] => p = .unit
| _ => False

/- Types of a name, if there are any, are not known. -/
def TypeTable.NamesUnknown
    (t : TypeTable)
    (name : String) : Prop :=
  ∀ id d, t.get? id = some d → d.name = name →
    d.shape.isUnknown = true

/-
  A line of objects, each the base of the one before it, with
  the names that values of the first list. The last one has
  no base, or one of which nothing is known; then more names
  can follow, but no names of known types.
-/
inductive Lineage
    (t : TypeTable) : List DescriptorId → List String → Prop
| root
    {id : DescriptorId}
    {d : TypeDescriptor}
    {o : ObjectShape}
    (hGet : t.get? id = some d)
    (hShape : d.shape = .object o)
    (hBase : o.base = none) :
    Lineage t [id] [d.name]
| outside
    {id : DescriptorId}
    {d : TypeDescriptor}
    {o : ObjectShape}
    {base : TypeRef}
    {T : ValueType}
    {rest : List String}
    (hGet : t.get? id = some d)
    (hShape : d.shape = .object o)
    (hBase : o.base = some base)
    (hLeads : t.Leads TypeTable.anyView (t.typeOf base) T)
    (hUnknown : t.IsUnknown T)
    (hRest : ∀ name ∈ rest, t.NamesUnknown name) :
    Lineage t [id] (d.name :: rest)
| derived
    {id next : DescriptorId}
    {d : TypeDescriptor}
    {o : ObjectShape}
    {base : TypeRef}
    {levels : List DescriptorId}
    {chain : List String}
    (hGet : t.get? id = some d)
    (hShape : d.shape = .object o)
    (hBase : o.base = some base)
    (hLeads :
      t.Leads TypeTable.anyView (t.typeOf base) (.described next))
    (hNext : Lineage t (next :: levels) chain) :
    Lineage t (id :: next :: levels) (d.name :: chain)

/- A value has a type. -/
inductive HasType
    (t : TypeTable) : ValueType → Value → Prop
| unknown
    {T : ValueType}
    (hUnknown : t.IsUnknown T)
    (v : Value) :
    HasType t T v
| sequenceOf
    {T : ValueType}
    {items : List Value}
    (hItems : ∀ w ∈ items, HasType t T w) :
    HasType t (.sequenceOf T) (.seq items)
| plain
    {kind : Primitive}
    {v : Value}
    (hHolds : kind.Holds v) :
    HasType t (.primitive kind) v
| primitive
    {id : DescriptorId}
    {kind : Primitive}
    {v : Value}
    (hShape : t.shape? id = some (.primitive kind))
    (hHolds : kind.Holds v) :
    HasType t (.described id) v
| enumeration
    {id : DescriptorId}
    {ms : List Member}
    {m : Member}
    (hShape : t.shape? id = some (.enumeration ms))
    (hMember : m ∈ ms) :
    HasType t (.described id) (.member m.name m.ordinal)
| nil
    {T U : ValueType}
    (hShows : t.Shows .reference T U) :
    HasType t T .nil
| view
    {kind : ViewKind}
    {T U : ValueType}
    {v : Value}
    (hShows : t.Shows kind T U)
    (hTarget : HasType t U v) :
    HasType t T v
| sequence
    {id : DescriptorId}
    {element : TypeRef}
    {items : List Value}
    (hShape : t.shape? id = some (.container .sequence [element]))
    (hItems : ∀ w ∈ items, HasType t (t.typeOf element) w) :
    HasType t (.described id) (.seq items)
| array
    {id : DescriptorId}
    {element : TypeRef}
    {items : List Value}
    (hShape :
      t.shape? id = some (.container (.array items.length) [element]))
    (hItems : ∀ w ∈ items, HasType t (t.typeOf element) w) :
    HasType t (.described id) (.seq items)
| map
    {id : DescriptorId}
    {key value : TypeRef}
    {entries : List (Value × Value)}
    (hShape : t.shape? id = some (.container .map [key, value]))
    (hKeys : ∀ e ∈ entries, HasType t (t.typeOf key) e.1)
    (hValues : ∀ e ∈ entries, HasType t (t.typeOf value) e.2) :
    HasType t (.described id) (.map entries)
| set
    {id : DescriptorId}
    {element : TypeRef}
    {items : List Value}
    (hShape : t.shape? id = some (.container .set [element]))
    (hItems : ∀ w ∈ items, HasType t (t.typeOf element) w) :
    HasType t (.described id) (.set items)
| absent
    {id : DescriptorId}
    {element : TypeRef}
    (hShape : t.shape? id = some (.container .optional [element])) :
    HasType t (.described id) .none
| present
    {id : DescriptorId}
    {element : TypeRef}
    {w : Value}
    (hShape : t.shape? id = some (.container .optional [element]))
    (hPayload : HasType t (t.typeOf element) w) :
    HasType t (.described id) (.some w)
| tuple
    {id : DescriptorId}
    {elements : List TupleElement}
    {items : List Value}
    (hShape : t.shape? id = some (.tuple elements))
    (hLength : items.length = elements.length)
    (hItems :
      ∀ e ∈ elements.zip items, HasType t (t.typeOf e.1.type) e.2) :
    HasType t (.described id) (.tuple items)
| object
    {id : DescriptorId}
    {levels : List DescriptorId}
    {chain : List String}
    {values : List (String × Value)}
    (hLineage : Lineage t levels chain)
    (hLevel : id ∈ levels)
    (hPresent :
      ∀ level ∈ levels, ∀ o, t.shape? level = some (.object o) →
        ∀ f ∈ o.carried values, (values.lookup f.name).isSome = true)
    (hTyped :
      ∀ level ∈ levels, ∀ o, t.shape? level = some (.object o) →
        ∀ f ∈ o.carried values, ∀ w, values.lookup f.name = some w →
          HasType t (t.typeOf f.type) w) :
    HasType t (.described id) (.object chain values)

/- An object is typed if every field that it carries is. -/
theorem HasType.object_of_fields
    {t : TypeTable}
    {id : DescriptorId}
    {levels : List DescriptorId}
    {chain : List String}
    {values : List (String × Value)}
    (hLineage : Lineage t levels chain)
    (hLevel : id ∈ levels)
    (hFields :
      ∀ level ∈ levels, ∀ o, t.shape? level = some (.object o) →
        ∀ f ∈ o.carried values, ∃ w, values.lookup f.name = some w ∧
          HasType t (t.typeOf f.type) w) :
    HasType t (.described id) (.object chain values) := by
  refine .object hLineage hLevel (fun level hl o hShape f hf => ?_)
    fun level hl o hShape f hf w hw => ?_
  · rcases hFields level hl o hShape f hf with ⟨w, hw, -⟩
    rw [hw]
    rfl
  · rcases hFields level hl o hShape f hf with ⟨w', hw', hTyped⟩
    cases hw.symm.trans hw'
    exact hTyped

end MatchCompiler

------------------------------------------------------------
-- Lines Of Bases
------------------------------------------------------------

namespace MatchCompiler

namespace Lineage

variable {t : TypeTable}
variable {levels : List DescriptorId}
variable {chain : List String}

/- A line starts with an object. -/
theorem head_object
    {id : DescriptorId}
    (h : Lineage t (id :: levels) chain) :
    ∃ o, t.shape? id = some (.object o) := by
  cases h with
  | root hGet hShape =>
      exact ⟨_, hShape ▸ TypeTable.shape?_of_get? hGet⟩
  | outside hGet hShape =>
      exact ⟨_, hShape ▸ TypeTable.shape?_of_get? hGet⟩
  | derived hGet hShape =>
      exact ⟨_, hShape ▸ TypeTable.shape?_of_get? hGet⟩

/- A line consists of objects. -/
theorem object_of_mem
    (h : Lineage t levels chain)
    {id : DescriptorId}
    (hMem : id ∈ levels) :
    ∃ o, t.shape? id = some (.object o) := by
  induction h with
  | root hGet hShape hBase =>
      cases List.mem_singleton.mp hMem
      exact (Lineage.root hGet hShape hBase).head_object
  | outside hGet hShape hBase hLeads hUnknown hRest =>
      cases List.mem_singleton.mp hMem
      exact (Lineage.outside hGet hShape hBase hLeads hUnknown
        hRest).head_object
  | derived hGet hShape hBase hLeads hNext ih =>
      rcases List.mem_cons.mp hMem with rfl | hMem
      · exact (Lineage.derived hGet hShape hBase hLeads
          hNext).head_object
      · exact ih hMem

/- The base of an object is in the line, or is not known. -/
theorem base_of_mem
    (h : Lineage t levels chain)
    {id : DescriptorId}
    {o : ObjectShape}
    {base : TypeRef}
    (hMem : id ∈ levels)
    (hShape : t.shape? id = some (.object o))
    (hBase : o.base = some base) :
    ∃ T, t.Leads TypeTable.anyView (t.typeOf base) T ∧
      (t.IsUnknown T ∨ ∃ next ∈ levels, T = .described next) := by
  have hOwn :
      ∀ {d : TypeDescriptor} {o' : ObjectShape},
        t.get? id = some d → d.shape = .object o' → o' = o := by
    intro d o' hGet hObject
    rw [TypeTable.shape?_of_get? hGet, hObject] at hShape
    cases hShape
    rfl
  induction h with
  | root hGet hObject hNone =>
      cases List.mem_singleton.mp hMem
      cases hOwn hGet hObject
      rw [hNone] at hBase
      cases hBase
  | outside hGet hObject hSome hLeads hUnknown hRest =>
      cases List.mem_singleton.mp hMem
      cases hOwn hGet hObject
      rw [hSome] at hBase
      cases hBase
      exact ⟨_, hLeads, Or.inl hUnknown⟩
  | @derived first next d o' b levels chain hGet hObject hSome hLeads
      hNext ih =>
      rcases List.mem_cons.mp hMem with rfl | hMem
      · cases hOwn hGet hObject
        rw [hSome] at hBase
        cases hBase
        exact ⟨_, hLeads, Or.inr
          ⟨next, List.mem_cons_of_mem _ List.mem_cons_self, rfl⟩⟩
      · rcases ih hMem with ⟨T, hT, hUnknown | ⟨next', hNext', rfl⟩⟩
        · exact ⟨T, hT, Or.inl hUnknown⟩
        · exact ⟨_, hT, Or.inr
            ⟨next', List.mem_cons_of_mem _ hNext', rfl⟩⟩

/- A listed name is that of an object in the line, or unknown. -/
theorem level_of_name
    (h : Lineage t levels chain)
    {name : String}
    (hName : name ∈ chain) :
    (∃ id ∈ levels, ∃ d, t.get? id = some d ∧ d.name = name) ∨
    t.NamesUnknown name := by
  induction h with
  | @root id d o hGet hShape hBase =>
      cases List.mem_singleton.mp hName
      exact Or.inl ⟨id, List.mem_cons_self, d, hGet, rfl⟩
  | @outside id d o base T rest hGet hShape hBase hLeads hUnknown
      hRest =>
      rcases List.mem_cons.mp hName with rfl | hName
      · exact Or.inl ⟨id, List.mem_cons_self, d, hGet, rfl⟩
      · exact Or.inr (hRest name hName)
  | @derived id next d o base levels chain hGet hShape hBase hLeads
      hNext ih =>
      rcases List.mem_cons.mp hName with rfl | hName
      · exact Or.inl ⟨id, List.mem_cons_self, d, hGet, rfl⟩
      · rcases ih hName with ⟨id', hMem, hNamed⟩ | hUnknown
        · exact Or.inl ⟨id', List.mem_cons_of_mem _ hMem, hNamed⟩
        · exact Or.inr hUnknown

end Lineage

end MatchCompiler

------------------------------------------------------------
-- What Types Say About Values
------------------------------------------------------------

namespace MatchCompiler

/- An object has declared fields, at their types. -/
def FieldDecl.ReadFrom
    (t : TypeTable)
    (v : Value)
    (f : FieldDecl) : Prop :=
  ∃ w, v.field? f.name = some w ∧ HasType t (t.typeOf f.type) w

/- What the shape of a type says about its values. -/
def Shape.Fits
    (t : TypeTable)
    (v : Value) : Shape → Prop
| .primitive kind => kind.Holds v
| .enumeration ms => ∃ m ∈ ms, v = .member m.name m.ordinal
| .alias target => HasType t (t.typeOf target) v
| .reference target => v = .nil ∨ HasType t (t.typeOf target) v
| .container .sequence [element] =>
    ∃ items, v = .seq items ∧
      ∀ w ∈ items, HasType t (t.typeOf element) w
| .container (.array n) [element] =>
    ∃ items, v = .seq items ∧ items.length = n ∧
      ∀ w ∈ items, HasType t (t.typeOf element) w
| .container .map [_, value] =>
    ∃ entries, v = .map entries ∧
      ∀ e ∈ entries, HasType t (t.typeOf value) e.2
| .container .set [element] =>
    ∃ items, v = .set items ∧
      ∀ w ∈ items, HasType t (t.typeOf element) w
| .container .optional [element] =>
    v = .none ∨ ∃ w, v = .some w ∧ HasType t (t.typeOf element) w
| .tuple elements =>
    ∃ items, v = .tuple items ∧ items.length = elements.length ∧
      ∀ e ∈ elements.zip items, HasType t (t.typeOf e.1.type) e.2
| .object o =>
    ∃ chain values, v = .object chain values ∧
      ∀ f ∈ o.carried values, f.ReadFrom t v
| _ => True

/- An unknown shape says nothing. -/
theorem Shape.fits_of_isUnknown
    {t : TypeTable}
    {s : Shape}
    (h : s.isUnknown = true)
    (v : Value) :
    s.Fits t v := by
  cases s with
  | container kind args =>
      have hArgs : args.length ≠ kind.arity := bne_iff_ne.mp h
      unfold Fits
      split <;> simp_all [Container.arity]
  | unknown => trivial
  | generic template args => trivial
  | primitive kind => cases h
  | «alias» target => cases h
  | reference target => cases h
  | object o => cases h
  | tuple elements => cases h
  | enumeration ms => cases h

namespace HasType

variable {t : TypeTable}
variable {T U : ValueType}
variable {v : Value}

/- A value fits the shape of its type. -/
theorem fits
    {id : DescriptorId}
    {s : Shape}
    (h : HasType t (.described id) v)
    (hShape : t.shape? id = some s) :
    s.Fits t v := by
  have hSame :
      ∀ {s' : Shape}, t.shape? id = some s' → s' = s :=
    fun h' => Option.some.inj (h'.symm.trans hShape)
  cases h with
  | unknown hUnknown =>
      cases hUnknown with
      | described hShape' hUnknown =>
          cases hSame hShape'
          exact Shape.fits_of_isUnknown hUnknown v
  | primitive hShape' hHolds =>
      cases hSame hShape'
      exact hHolds
  | enumeration hShape' hMember =>
      cases hSame hShape'
      exact ⟨_, hMember, rfl⟩
  | nil hShows =>
      cases hShows with
      | view hShape' =>
          cases hSame hShape'
          exact Or.inl rfl
  | @view kind _ _ _ hShows hTarget =>
      cases hShows with
      | view hShape' =>
          cases kind with
          | «alias» =>
              cases hSame hShape'
              exact hTarget
          | reference =>
              cases hSame hShape'
              exact Or.inr hTarget
  | sequence hShape' hItems =>
      cases hSame hShape'
      exact ⟨_, rfl, hItems⟩
  | array hShape' hItems =>
      cases hSame hShape'
      exact ⟨_, rfl, rfl, hItems⟩
  | map hShape' hKeys hValues =>
      cases hSame hShape'
      exact ⟨_, rfl, hValues⟩
  | set hShape' hItems =>
      cases hSame hShape'
      exact ⟨_, rfl, hItems⟩
  | absent hShape' =>
      cases hSame hShape'
      exact Or.inl rfl
  | present hShape' hPayload =>
      cases hSame hShape'
      exact Or.inr ⟨_, rfl, hPayload⟩
  | tuple hShape' hLength hItems =>
      cases hSame hShape'
      exact ⟨_, rfl, hLength, hItems⟩
  | object hLineage hLevel hPresent hTyped =>
      rcases hLineage.object_of_mem hLevel with ⟨o, hObject⟩
      cases hSame hObject
      refine ⟨_, _, rfl, fun f hf => ?_⟩
      have hSome := hPresent id hLevel o hObject f hf
      rcases Option.isSome_iff_exists.mp hSome with ⟨w, hw⟩
      exact ⟨w, hw, hTyped id hLevel o hObject f hf w hw⟩

/- The values of the sequences of a type. -/
theorem items
    (h : HasType t (.sequenceOf T) v) :
    ∃ items, v = .seq items ∧ ∀ w ∈ items, HasType t T w := by
  cases h with
  | unknown hUnknown => cases hUnknown
  | sequenceOf hItems => exact ⟨_, rfl, hItems⟩
  | nil hShows => cases hShows
  | view hShows => cases hShows

/- The values of a primitive. -/
theorem plain_holds
    {kind : Primitive}
    (h : HasType t (.primitive kind) v) :
    kind.Holds v := by
  cases h with
  | unknown hUnknown => cases hUnknown
  | plain hHolds => exact hHolds
  | nil hShows => cases hShows
  | view hShows => cases hShows

/- What a type leads to gives it values. -/
theorem of_leads
    {through : ViewKind → Prop}
    (hLeads : t.Leads through T U)
    (h : HasType t U v) :
    HasType t T v := by
  induction hLeads with
  | refl T => exact h
  | step _ hShows _ ih => exact .view hShows (ih h)

/- What is not nil is a value of what a view shows. -/
theorem shown
    {kind : ViewKind}
    (h : HasType t T v)
    (hShows : t.Shows kind T U)
    (hNil : kind = .reference → v ≠ .nil) :
    HasType t U v := by
  cases hShows with
  | view hShape =>
      have hFits := h.fits hShape
      cases kind with
      | «alias» => exact hFits
      | reference => exact hFits.resolve_left (hNil rfl)

/- What is not nil is a value of all that its type leads to. -/
theorem along
    (h : HasType t T v)
    (hNil : v ≠ .nil)
    (hLeads : t.Leads TypeTable.anyView T U) :
    HasType t U v := by
  induction hLeads with
  | refl T => exact h
  | step _ hShows _ ih => exact ih (h.shown hShows fun _ => hNil)

/- Labelled values have one of the labels. -/
theorem exists_tag
    {n : Nat}
    {ms : List Member}
    (hLists : t.Lists T n ms)
    (h : HasType t T v) :
    ∃ m ∈ ms, v.tag? = some m := by
  have hBool :
      Primitive.Holds .bool v → ∃ m ∈ boolMembers, v.tag? = some m := by
    intro hHolds
    cases v with
    | bool b =>
        cases b with
        | false => exact ⟨_, List.mem_cons_self, rfl⟩
        | true =>
            exact ⟨_, List.mem_cons_of_mem _ List.mem_cons_self, rfl⟩
    | tuple items => cases items <;> cases hHolds
    | _ => cases hHolds
  induction hLists with
  | enumeration hShape =>
      rcases h.fits hShape with ⟨m, hMem, rfl⟩
      exact ⟨m, hMem, rfl⟩
  | bool hShape => exact hBool (h.fits hShape)
  | plainBool => exact hBool h.plain_holds
  | «alias» hShows _ ih => exact ih (h.shown hShows nofun)

/-
  An object with a variant part has a label and the fields of
  the branch that the label selects.
-/
theorem exists_selected
    {id : DescriptorId}
    {o : ObjectShape}
    {part : VariantPart}
    {n : Nat}
    {ms : List Member}
    (h : HasType t (.described id) v)
    (hShape : t.shape? id = some (.object o))
    (hPart : o.variant = some part)
    (hLists : t.Lists (t.typeOf part.discriminator.type) n ms) :
    ∃ w m, v.field? part.discriminator.name = some w ∧
      HasType t (t.typeOf part.discriminator.type) w ∧
      w.tag? = some m ∧ m ∈ ms ∧
      ∀ f ∈ part.fieldsOf m.name, f.ReadFrom t v := by
  rcases h.fits hShape with ⟨chain, values, rfl, hRead⟩
  rcases hRead part.discriminator (by simp [ObjectShape.carried, hPart]) with
    ⟨w, hField, hTyped⟩
  rcases hTyped.exists_tag hLists with ⟨m, hm, hTag⟩
  refine ⟨w, m, hField, hTyped, hTag, hm, fun f hf => hRead f ?_⟩
  change values.lookup part.discriminator.name = some w at hField
  simp only [ObjectShape.carried, hPart, hField, Option.bind_some, hTag]
  exact List.mem_append_right _ (List.mem_cons_of_mem _ hf)

/- An object is of every type in its line. -/
theorem lineage
    {id : DescriptorId}
    {o : ObjectShape}
    (h : HasType t (.described id) v)
    (hShape : t.shape? id = some (.object o)) :
    ∃ levels chain values, v = .object chain values ∧
      Lineage t levels chain ∧ id ∈ levels ∧
      ∀ level ∈ levels, HasType t (.described level) v := by
  have hSame :
      ∀ {s' : Shape}, t.shape? id = some s' → s' = .object o :=
    fun h' => Option.some.inj (h'.symm.trans hShape)
  cases h with
  | unknown hUnknown =>
      cases hUnknown with
      | described hShape' hUnknown =>
          cases hSame hShape'
          cases hUnknown
  | nil hShows =>
      cases hShows with
      | view hShape' => cases hSame hShape'
  | @view kind _ _ _ hShows hTarget =>
      cases hShows with
      | view hShape' => cases kind <;> cases hSame hShape'
  | primitive hShape' => cases hSame hShape'
  | enumeration hShape' => cases hSame hShape'
  | sequence hShape' => cases hSame hShape'
  | array hShape' => cases hSame hShape'
  | map hShape' => cases hSame hShape'
  | set hShape' => cases hSame hShape'
  | absent hShape' => cases hSame hShape'
  | present hShape' => cases hSame hShape'
  | tuple hShape' => cases hSame hShape'
  | object hLineage hLevel hPresent hTyped =>
      refine ⟨_, _, _, rfl, hLineage, hLevel, fun level hMem => ?_⟩
      exact .object hLineage hMem hPresent hTyped

/- An object is of the type that its base leads to. -/
theorem exists_base
    {id : DescriptorId}
    {o : ObjectShape}
    {base : TypeRef}
    (h : HasType t (.described id) v)
    (hShape : t.shape? id = some (.object o))
    (hBase : o.base = some base) :
    ∃ T, t.Leads TypeTable.anyView (t.typeOf base) T ∧ t.IsEnd T ∧
      HasType t T v := by
  rcases h.lineage hShape with
    ⟨levels, chain, values, -, hLineage, hLevel, hAll⟩
  rcases hLineage.base_of_mem hLevel hShape hBase with
    ⟨T, hLeads, hUnknown | ⟨next, hMem, rfl⟩⟩
  · exact ⟨T, hLeads, TypeTable.isEnd_of_isUnknown hUnknown,
      .unknown hUnknown v⟩
  · rcases hLineage.object_of_mem hMem with ⟨o', hObject⟩
    exact ⟨_, hLeads, TypeTable.isEnd_of_object hObject,
      hAll next hMem⟩

/- An object is of the types that its type derives from. -/
theorem of_below
    {id last : DescriptorId}
    (hBelow : t.Below id last)
    (hLast : t.IsEnd (.described last))
    (h : HasType t (.described id) v) :
    HasType t (.described last) v := by
  induction hBelow with
  | refl id => exact h
  | step hShape hBase hLeads hBelow ih =>
      rcases h.exists_base hShape hBase with ⟨T, hT, hEnd, hTyped⟩
      rw [hT.end_unique hEnd (hBelow.isEnd hLast) hLeads] at hTyped
      exact ih hLast hTyped

/- An object that lists the name of a type is of that type. -/
theorem of_isOfType
    (hNames : t.DistinctNames)
    {id target : DescriptorId}
    {o : ObjectShape}
    {d : TypeDescriptor}
    (h : HasType t (.described id) v)
    (hShape : t.shape? id = some (.object o))
    (hTarget : t.get? target = some d)
    (hListed : v.isOfType d.name = true) :
    HasType t (.described target) v := by
  rcases h.lineage hShape with
    ⟨levels, chain, values, rfl, hLineage, -, hAll⟩
  rcases hLineage.level_of_name (List.contains_iff_mem.mp hListed) with
    ⟨level, hMem, d', hGet, hName⟩ | hUnknown
  · have hSame := hNames level target d' d hGet hTarget hName
    exact hSame ▸ hAll level hMem
  · refine .unknown (.described (TypeTable.shape?_of_get? hTarget) ?_) _
    exact hUnknown target d hTarget rfl

end HasType

end MatchCompiler
