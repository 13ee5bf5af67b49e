import MatchCompiler.Proofs.Describing
import MatchCompiler.Proofs.Inheritance

/-
  This file shows that the slots of a registry stand for
  types, if the table has no templates.

  Every slot is given a type when it is appended: that of the
  descriptor for which it is reserved, or that of a shared
  schema. What the slot is filled with describes this type,
  also if a base or a view was read too early: then less is
  said. The labels of a discriminator are never read too
  early, as a labelled type mentions no object.

  Key definitions include:
    * `TypeTable.TemplateFree`
    * `ValueType.ShownBy`
    * `SchemaPool.TypedBy`
    * `Extraction.Typed`
    * `Registry.Typed`

  Key theorems include:
    * `SchemaPool.TypedBy.comesTo_end`
    * `Built.describes`
    * `Extraction.Typed.move`
    * `Registry.Typed.schemaWithin`
    * `Registry.BuiltWith.exists_typed`
-/

------------------------------------------------------------
-- Typed Pools
------------------------------------------------------------

namespace MatchCompiler

/- A table without templates and their instances. -/
def TypeTable.TemplateFree (t : TypeTable) : Prop :=
  ∀ id d, t.get? id = some d → d.params = 0 ∧
    (∀ template args, d.shape ≠ .generic template args) ∧
    ∀ ref ∈ d.shape.refs, ∃ other, ref = .described other

/- A descriptor that is no template and mentions no parameter. -/
def TypeDescriptor.isTemplateFree (d : TypeDescriptor) : Bool :=
  d.params == 0 &&
  (match d.shape with
    | .generic _ _ => false
    | _ => true) &&
  d.shape.refs.all fun
    | .described _ => true
    | .parameter _ => false

theorem TypeTable.templateFree_of_all
    {t : TypeTable}
    (h : t.descriptors.toList.all TypeDescriptor.isTemplateFree = true) :
    t.TemplateFree := by
  intro id d hGet
  have hMem : d ∈ t.descriptors.toList :=
    Array.mem_toList_iff.mpr (Array.mem_of_getElem? hGet)
  have hFree := List.all_eq_true.mp h d hMem
  simp only [TypeDescriptor.isTemplateFree, Bool.and_eq_true,
    List.all_eq_true, beq_iff_eq] at hFree
  rcases hFree with ⟨⟨hParams, hShape⟩, hRefs⟩
  refine ⟨hParams, fun template args hEq => ?_, fun ref hRef => ?_⟩
  · rw [hEq] at hShape
    cases hShape
  · have hDescribed := hRefs ref hRef
    cases ref with
    | described other => exact ⟨other, rfl⟩
    | parameter n => cases hDescribed

/- A schema that says nothing about its values. -/
structure Schema.SaysNothing
    (s : Schema) : Prop where
  kind : s.kind = .unknown
  ancestors : s.ancestors = []
  extensible : s.flags.extensible = false

/- What the schema of a filled slot shows of its type. -/
structure ValueType.ShownBy
    (t : TypeTable)
    (T : ValueType)
    (s : Schema) : Prop where
  plain : t.IsEnd T → s.IsPlain
  view : ∀ kind U, t.Shows kind T U → ∃ source, s.Shows source
  unknown : t.IsUnknown T → s.SaysNothing
  labelled : ∀ n ms, t.Lists T n ms → s.ListsMembers ms
  constructed :
    ∀ id shape, T = .described id → t.shape? id = some shape →
      shape.hasParts = true →
      s.kind = .record ∨ s.kind = .union ∨
        s.kind = .tuple ∧ ∃ elements, shape = .tuple elements

/- A view is no end. -/
theorem TypeTable.Shows.not_isEnd
    {t : TypeTable}
    {kind : ViewKind}
    {T U : ValueType}
    (h : t.Shows kind T U) :
    ¬ t.IsEnd T :=
  fun hEnd => hEnd kind U h

/- What has labels of its own is no view. -/
theorem TypeTable.Lists.isEnd
    {t : TypeTable}
    {T : ValueType}
    {ms : List Member}
    (h : t.Lists T 0 ms) :
    t.IsEnd T := by
  cases h with
  | enumeration hShape =>
      refine TypeTable.isEnd_of_shape hShape fun kind target hEq => ?_
      cases kind <;> cases hEq
  | bool hShape =>
      refine TypeTable.isEnd_of_shape hShape fun kind target hEq => ?_
      cases kind <;> cases hEq
  | plainBool => exact nofun

namespace ValueType.ShownBy

variable {t : TypeTable}
variable {T U : ValueType}
variable {s : Schema}

/- A type that is no view. -/
theorem of_shape
    {id : DescriptorId}
    {shape : Shape}
    (hShape : t.shape? id = some shape)
    (hView : ∀ (kind : ViewKind) target, shape ≠ kind.shape target)
    (hPlain : s.IsPlain)
    (hUnknown : shape.isUnknown = true → s.SaysNothing)
    (hMembers :
      ∀ ms, shape = .enumeration ms ∨
          shape = .primitive .bool ∧ ms = boolMembers →
        s.ListsMembers ms)
    (hParts :
      shape.hasParts = true →
        s.kind = .record ∨ s.kind = .union ∨
          s.kind = .tuple ∧ ∃ elements, shape = .tuple elements) :
    ShownBy t (.described id) s := by
  have hEnd := TypeTable.isEnd_of_shape hShape hView
  have hSame :
      ∀ {shape' : Shape}, t.shape? id = some shape' → shape = shape' :=
    fun h' => Option.some.inj (hShape.symm.trans h')
  refine
    { plain := fun _ => hPlain
      view := fun kind U hShows => absurd hEnd hShows.not_isEnd
      unknown := fun h => ?_
      labelled := fun n ms h => ?_
      constructed := ?_ }
  · cases h with
    | described hShape' hIsUnknown =>
        cases hSame hShape'
        exact hUnknown hIsUnknown
  · cases h with
    | enumeration hShape' => exact hMembers ms (.inl (hSame hShape'))
    | bool hShape' => exact hMembers _ (.inr ⟨hSame hShape', rfl⟩)
    | «alias» hShows => exact absurd hEnd hShows.not_isEnd
  · rintro _ shape' ⟨⟩ hShape' hHasParts
    cases hSame hShape'
    exact hParts hHasParts

/- A view; the labels of what it stands for are copied. -/
theorem of_shows
    {kind : ViewKind}
    {source : SchemaId}
    (hShows : t.Shows kind T U)
    (hSource : s.Shows source)
    (hLabelled :
      kind = .alias → ∀ n ms, t.Lists U n ms → s.ListsMembers ms) :
    ShownBy t T s := by
  have hNot := hShows.not_isEnd
  refine
    { plain := fun hEnd => absurd hEnd hNot
      view := fun _ _ _ => ⟨source, hSource⟩
      unknown := fun h => absurd (TypeTable.isEnd_of_isUnknown h) hNot
      labelled := fun n ms h => ?_
      constructed := ?_ }
  · cases h with
    | enumeration hShape =>
        exact absurd (TypeTable.Lists.enumeration hShape).isEnd hNot
    | bool hShape =>
        exact absurd (TypeTable.Lists.bool hShape).isEnd hNot
    | plainBool => cases hShows
    | «alias» hAlias hLists =>
        rcases hShows.unique hAlias with ⟨rfl, rfl⟩
        exact hLabelled rfl _ ms hLists
  · rintro id shape rfl hShape hParts
    refine absurd (TypeTable.isEnd_of_shape hShape fun kind _ hEq => ?_) hNot
    rw [hEq] at hParts
    cases kind <;> cases hParts

/- The sequences of a type. -/
theorem sequenceOf
    (hPlain : s.IsPlain) :
    ShownBy t (.sequenceOf T) s where
  plain := fun _ => hPlain
  view := nofun
  unknown := nofun
  labelled := nofun
  constructed := nofun

/- Nothing is known about the values. -/
theorem anything
    (hPlain : s.IsPlain)
    (hNothing : s.SaysNothing) :
    ShownBy t .anything s where
  plain := fun _ => hPlain
  view := nofun
  unknown := fun _ => hNothing
  labelled := nofun
  constructed := nofun

/- A primitive that is not described. -/
theorem primitive
    (kind : Primitive)
    (name : String) :
    ShownBy t (.primitive kind) (Schema.ofPrimitive kind name) where
  plain := fun _ => ⟨rfl, rfl, nofun⟩
  view := nofun
  unknown := nofun
  labelled := by
    intro n ms h
    cases h with
    | plainBool => exact .inr ⟨rfl, rfl, rfl⟩
    | «alias» hShows => cases hShows
  constructed := nofun

/- The descriptor of a schema shows nothing more. -/
theorem withDescriptor
    (h : ShownBy t T s)
    (descriptor : Option DescriptorId) :
    ShownBy t T { s with descriptor } where
  plain := fun hEnd =>
    let hPlain := h.plain hEnd
    ⟨hPlain.target, hPlain.aliasName, hPlain.kind⟩
  view := by
    intro kind U hShows
    rcases h.view kind U hShows with ⟨source, hSource⟩
    exact ⟨source, hSource.target, hSource.marked⟩
  unknown := fun hUnknown =>
    let hNothing := h.unknown hUnknown
    ⟨hNothing.kind, hNothing.ancestors, hNothing.extensible⟩
  labelled := h.labelled
  constructed := h.constructed

end ValueType.ShownBy

/- A labelled type is an alias of one that is no view. -/
theorem TypeTable.Lists.exists_end
    {t : TypeTable}
    {T : ValueType}
    {n : Nat}
    {ms : List Member}
    (h : t.Lists T n ms) :
    ∃ E, t.Leads TypeTable.aliasView T E ∧ t.IsEnd E ∧ t.Lists E 0 ms := by
  induction h with
  | enumeration hShape =>
      have hLists := TypeTable.Lists.enumeration hShape
      exact ⟨_, .refl _, hLists.isEnd, hLists⟩
  | bool hShape =>
      have hLists := TypeTable.Lists.bool hShape
      exact ⟨_, .refl _, hLists.isEnd, hLists⟩
  | plainBool => exact ⟨_, .refl _, nofun, .plainBool⟩
  | «alias» hShows _ ih =>
      rcases ih with ⟨E, hLeads, hEnd, hLists⟩
      exact ⟨E, .step rfl hShows hLeads, hEnd, hLists⟩

/- Aliases have the labels of what they stand for. -/
theorem TypeTable.Lists.of_leads
    {t : TypeTable}
    {T U : ValueType}
    {n : Nat}
    {ms : List Member}
    (h : t.Lists U n ms)
    (hLeads : t.Leads TypeTable.aliasView T U) :
    ∃ m, t.Lists T m ms := by
  induction hLeads with
  | refl T => exact ⟨n, h⟩
  | step hKind hShows _ ih =>
      cases hKind
      rcases ih h with ⟨m, hLists⟩
      exact ⟨m + 1, .alias hShows hLists⟩

/- The labels of a type, and how far off they are. -/
theorem TypeTable.Lists.unique
    {t : TypeTable}
    {T : ValueType}
    {n m : Nat}
    {ms ms' : List Member}
    (h : t.Lists T n ms)
    (h' : t.Lists T m ms') :
    n = m ∧ ms = ms' := by
  induction h generalizing m with
  | enumeration hShape =>
      cases h' with
      | enumeration hShape' =>
          cases hShape.symm.trans hShape'
          exact ⟨rfl, rfl⟩
      | bool hShape' => cases hShape.symm.trans hShape'
      | «alias» hShows =>
          cases hShows with
          | view hShape' => cases hShape.symm.trans hShape'
  | bool hShape =>
      cases h' with
      | enumeration hShape' => cases hShape.symm.trans hShape'
      | bool => exact ⟨rfl, rfl⟩
      | «alias» hShows =>
          cases hShows with
          | view hShape' => cases hShape.symm.trans hShape'
  | plainBool =>
      cases h' with
      | plainBool => exact ⟨rfl, rfl⟩
      | «alias» hShows => cases hShows
  | «alias» hShows _ ih =>
      cases h' with
      | enumeration hShape =>
          cases hShows with
          | view hShape' => cases hShape.symm.trans hShape'
      | bool hShape =>
          cases hShows with
          | view hShape' => cases hShape.symm.trans hShape'
      | plainBool => cases hShows
      | «alias» hShows' hLists' =>
          cases (hShows.unique hShows').2
          rcases ih hLists' with ⟨rfl, rfl⟩
          exact ⟨rfl, rfl⟩

theorem TypeTable.not_lists_of_object
    {t : TypeTable}
    {id : DescriptorId}
    {o : ObjectShape}
    (hShape : t.shape? id = some (.object o))
    {n : Nat}
    {ms : List Member} :
    ¬ t.Lists (.described id) n ms := by
  intro h
  cases h with
  | enumeration hShape' => cases hShape.symm.trans hShape'
  | bool hShape' => cases hShape.symm.trans hShape'
  | «alias» hShows =>
      exact hShows.not_isEnd (TypeTable.isEnd_of_object hShape)

/- A labelled type mentions labelled types only. -/
theorem TypeTable.Lists.of_reaches
    {t : TypeTable}
    {a b : DescriptorId}
    {n : Nat}
    {ms : List Member}
    (h : t.Lists (.described a) n ms)
    (hReaches : t.Reaches a b) :
    ∃ m ≤ n, t.Lists (.described b) m ms := by
  induction hReaches with
  | refl => exact ⟨n, Nat.le_refl n, h⟩
  | @tail b c _ hMentions ih =>
      rcases ih with ⟨m, hm, hLists⟩
      rcases hMentions with ⟨d, hGet, hMem⟩
      have hShape := TypeTable.shape?_of_get? hGet
      cases hLists with
      | enumeration hShape' =>
          rw [Option.some.inj (hShape.symm.trans hShape')] at hMem
          cases hMem
      | bool hShape' =>
          rw [Option.some.inj (hShape.symm.trans hShape')] at hMem
          cases hMem
      | @«alias» _ U k _ hShows hLists =>
          cases hShows with
          | @view _ target hShape' =>
              rw [Option.some.inj (hShape.symm.trans hShape')] at hMem
              have hTarget := List.mem_singleton.mp hMem
              subst hTarget
              refine ⟨k, by omega, ?_⟩
              cases hNext : t.get? c with
              | some d' => rwa [TypeTable.typeOf_described hNext] at hLists
              | none =>
                  simp only [TypeTable.typeOf, hNext] at hLists
                  cases hLists with
                  | «alias» hShows => cases hShows

/- The slots of a pool describe types. -/
structure SchemaPool.TypedBy
    (t : TypeTable)
    (Γ : SlotTypes)
    (p : SchemaPool)
    (pending : List SchemaId) : Prop where
  size : Γ.length = p.size
  described :
    ∀ slot T, Γ[slot]? = some T → Describes t Γ T (p.get slot)
  shown :
    ∀ slot T, Γ[slot]? = some T → slot ∉ pending →
      T.ShownBy t (p.get slot)

namespace SchemaPool.TypedBy

variable {t : TypeTable}
variable {Γ : SlotTypes}
variable {p : SchemaPool}
variable {pending : List SchemaId}

theorem lt
    (h : p.TypedBy t Γ pending)
    {slot : SchemaId}
    {T : ValueType}
    (hSlot : Γ[slot]? = some T) :
    slot < p.size :=
  h.size ▸ (List.getElem?_eq_some_iff.mp hSlot).1

theorem exists_type
    (h : p.TypedBy t Γ pending)
    {slot : SchemaId}
    (hLt : slot < p.size) :
    ∃ T, Γ[slot]? = some T :=
  ⟨_, List.getElem?_eq_getElem (h.size ▸ hLt)⟩

theorem congr
    {q : SchemaPool}
    (h : p.TypedBy t Γ pending)
    (hSchemas : q.schemas = p.schemas) :
    q.TypedBy t Γ pending := by
  have hGet := get_congr hSchemas
  have hSize : q.size = p.size := congrArg Array.size hSchemas
  exact ⟨hSize ▸ h.size, hGet ▸ h.described, hGet ▸ h.shown⟩

/- A schema is appended. -/
theorem push
    (h : p.TypedBy t Γ pending)
    {s : Schema}
    {T : ValueType}
    (hDescribes : Describes t (Γ ++ [T]) T s)
    {pending' : List SchemaId}
    (hPending : pending ⊆ pending')
    (hShown : p.size ∉ pending' → T.ShownBy t s) :
    (p.push s).1.TypedBy t (Γ ++ [T]) pending' := by
  have hMore : Γ <+: Γ ++ [T] := List.prefix_append Γ [T]
  have hCases :
      ∀ slot U, (Γ ++ [T])[slot]? = some U →
        (slot = p.size ∧ U = T ∧ (p.push s).1.get slot = s) ∨
        (Γ[slot]? = some U ∧ (p.push s).1.get slot = p.get slot) := by
    intro slot U hSlot
    by_cases hLt : slot < Γ.length
    · rw [List.getElem?_append_left hLt] at hSlot
      refine .inr ⟨hSlot, get_push_of_ne (Nat.ne_of_lt ?_) s⟩
      exact h.size ▸ hLt
    · rw [List.getElem?_append_right (Nat.le_of_not_lt hLt)] at hSlot
      have hEq : slot = Γ.length := by
        have hLast := (List.getElem?_eq_some_iff.mp hSlot).1
        simp only [List.length_singleton] at hLast
        omega
      rw [hEq, Nat.sub_self] at hSlot
      rw [hEq, h.size]
      exact .inl ⟨rfl, (Option.some.inj hSlot).symm, p.get_push_self s⟩
  refine ⟨?_, fun slot U hSlot => ?_, fun slot U hSlot hFilled => ?_⟩
  · rw [List.length_append, List.length_singleton, size_push, h.size]
  · rcases hCases slot U hSlot with ⟨-, rfl, hGet⟩ | ⟨hOld, hGet⟩
    · rw [hGet]
      exact hDescribes
    · rw [hGet]
      exact (h.described slot U hOld).mono hMore
  · rcases hCases slot U hSlot with ⟨rfl, rfl, hGet⟩ | ⟨hOld, hGet⟩
    · rw [hGet]
      exact hShown hFilled
    · rw [hGet]
      exact h.shown slot U hOld fun hMem => hFilled (hPending hMem)

/- A slot is filled with what describes its type. -/
theorem fill
    (h : p.TypedBy t Γ pending)
    {slot : SchemaId}
    {T : ValueType}
    (hSlot : Γ[slot]? = some T)
    {s : Schema}
    (hDescribes : Describes t Γ T s)
    (hShown : T.ShownBy t s)
    {pending' : List SchemaId}
    (hPending : ∀ other ∈ pending, other ≠ slot → other ∈ pending') :
    (p.fill slot s).TypedBy t Γ pending' := by
  have hLt := h.lt hSlot
  refine ⟨?_, fun other U hOther => ?_, fun other U hOther hFilled => ?_⟩
  · rw [size_fill, h.size]
  · by_cases hSame : slot = other
    · subst hSame
      cases hSlot.symm.trans hOther
      rw [get_fill_self hLt]
      exact hDescribes
    · rw [get_fill_of_ne hSame]
      exact h.described other U hOther
  · by_cases hSame : slot = other
    · subst hSame
      cases hSlot.symm.trans hOther
      rw [get_fill_self hLt]
      exact hShown
    · rw [get_fill_of_ne hSame]
      exact h.shown other U hOther fun hMem =>
        hFilled (hPending other hMem (Ne.symm hSame))

/- What a slot shows is the type that its type shows. -/
theorem shows
    (h : p.TypedBy t Γ pending)
    {slot source : SchemaId}
    {T : ValueType}
    (hSlot : Γ[slot]? = some T)
    (hTarget : (p.get slot).target = some source) :
    ∃ kind U, t.Shows kind T U ∧ Γ[source]? = some U :=
  (h.described slot T hSlot).target source hTarget

/- A slot comes to the slot of the type that its type ends in. -/
theorem comesTo_end
    (h : p.TypedBy t Γ pending)
    {through : ViewKind → Prop}
    {T E : ValueType}
    (hLeads : t.Leads through T E)
    (hEnd : t.IsEnd E)
    (hFilled :
      ∀ slot U, Γ[slot]? = some U → t.Leads through U E →
        slot ∉ pending)
    {slot : SchemaId}
    (hSlot : Γ[slot]? = some T) :
    ∃ c, p.ComesTo slot c ∧ Γ[c]? = some E := by
  induction hLeads generalizing slot with
  | refl E =>
      have hShown := h.shown slot E hSlot (hFilled slot E hSlot (.refl E))
      exact ⟨slot, ⟨0, .done (hShown.plain hEnd)⟩, hSlot⟩
  | @step kind T U E hKind hShows hLeads ih =>
      have hShown := h.shown slot T hSlot
        (hFilled slot T hSlot (.step hKind hShows hLeads))
      rcases hShown.view kind U hShows with ⟨source, hSource⟩
      rcases h.shows hSlot hSource.target with
        ⟨kind', U', hShows', hSourceType⟩
      cases (hShows.unique hShows').2
      rcases ih hEnd hFilled hSourceType with ⟨c, ⟨n, hChain⟩, hEndType⟩
      exact ⟨c, ⟨n + 1, .step hSource hChain⟩, hEndType⟩

/- A labelled type comes to a slot with its labels. -/
theorem comesTo_of_lists
    (h : p.TypedBy t Γ pending)
    {T : ValueType}
    {n : Nat}
    {ms : List Member}
    (hLists : t.Lists T n ms)
    (hFilled :
      ∀ slot U m, Γ[slot]? = some U → t.Lists U m ms → slot ∉ pending)
    {slot : SchemaId}
    (hSlot : Γ[slot]? = some T) :
    ∃ c, p.ComesTo slot c ∧ (p.get c).ListsMembers ms := by
  rcases hLists.exists_end with ⟨E, hLeads, hEnd, hLabels⟩
  have hAliases :
      ∀ slot U, Γ[slot]? = some U → t.Leads TypeTable.aliasView U E →
        slot ∉ pending := by
    intro slot U hType hAlias
    rcases hLabels.of_leads hAlias with ⟨m, hOther⟩
    exact hFilled slot U m hType hOther
  rcases h.comesTo_end hLeads hEnd hAliases hSlot with
    ⟨c, hChain, hEndType⟩
  have hShown := h.shown c E hEndType (hFilled c E 0 hEndType hLabels)
  exact ⟨c, hChain, hShown.labelled 0 ms hLabels⟩

/- A view of a slot describes a type that shows the slot's. -/
theorem view
    (h : p.TypedBy t Γ pending)
    {kind : ViewKind}
    {T U : ValueType}
    {source : SchemaId}
    (hShows : t.Shows kind T U)
    (hSource : Γ[source]? = some U)
    (hFilled : ∀ n ms, t.Lists U n ms → source ∉ pending)
    {name : String}
    (hNamed :
      ∀ id, T = .described id →
        ∃ d, t.get? id = some d ∧ name = d.name) :
    Describes t Γ T (p.view kind source name) ∧
    T.ShownBy t (p.view kind source name) := by
  refine ⟨(h.described source U hSource).view hShows hSource hNamed, ?_⟩
  cases kind with
  | reference =>
      have hView : (p.view .reference source name).Shows source :=
        ⟨rfl, .inr rfl⟩
      exact .of_shows hShows hView nofun
  | «alias» =>
      have hView : (p.view .alias source name).Shows source :=
        ⟨rfl, .inl rfl⟩
      refine .of_shows hShows hView fun _ n ms hLists => ?_
      exact (h.shown source U hSource (hFilled n ms hLists)).labelled n ms
        hLists

end SchemaPool.TypedBy

end MatchCompiler

------------------------------------------------------------
-- What Is Built Describes
------------------------------------------------------------

namespace MatchCompiler

variable {t : TypeTable}
variable {Γ : SlotTypes}

/- What a registry finds has the type that is looked for. -/
def Registry.FindsTyped
    (t : TypeTable)
    (Γ : SlotTypes)
    (r : Registry)
    (env : List SchemaId) : Prop :=
  ∀ id slot, r.Finds t env (.described id) slot →
    Γ[slot]? = some (t.typeOf (.described id))

/- Declared fields become fields of their types. -/
theorem Gives.declares
    {r : Registry}
    {env : List SchemaId}
    (hFinds : r.FindsTyped t Γ env)
    {position : Nat}
    {ds : List FieldDecl}
    {fs : List Field}
    (h : Gives t r env position ds fs)
    (hRefs : ∀ ref ∈ ds.map FieldDecl.type, ∃ id, ref = .described id) :
    ∀ f ∈ fs, ∃ i d, f.position = position + i ∧ ds[i]? = some d ∧
      f.Declares t Γ d := by
  induction h with
  | nil => exact nofun
  | @cons position d slot ds fs hSlot _ ih =>
      rcases List.forall_mem_cons.mp hRefs with ⟨⟨id, hType⟩, hRest⟩
      refine List.forall_mem_cons.mpr ⟨?_, fun f hf => ?_⟩
      · rw [hType] at hSlot
        refine ⟨0, d, rfl, rfl, rfl, ?_⟩
        rw [hType]
        exact hFinds id slot hSlot
      · rcases ih hRest f hf with ⟨i, d', hPosition, hGet, hDeclares⟩
        exact ⟨i + 1, d', by omega, hGet, hDeclares⟩

theorem Gives.declares_mem
    {r : Registry}
    {env : List SchemaId}
    (hFinds : r.FindsTyped t Γ env)
    {position : Nat}
    {ds : List FieldDecl}
    {fs : List Field}
    (h : Gives t r env position ds fs)
    (hRefs : ∀ ref ∈ ds.map FieldDecl.type, ∃ id, ref = .described id) :
    ∀ f ∈ fs, ∃ d ∈ ds, f.Declares t Γ d := by
  intro f hf
  rcases h.declares hFinds hRefs f hf with ⟨i, d, -, hGet, hDeclares⟩
  exact ⟨d, List.mem_of_getElem? hGet, hDeclares⟩

/- The branch that a label selects has declared fields. -/
theorem GivesBranches.declares
    {r : Registry}
    {env : List SchemaId}
    (hFinds : r.FindsTyped t Γ env)
    {position : Nat}
    {branches : List BranchDecl}
    {added : List (BranchSelector × List Field)}
    (h : GivesBranches t r env position branches added)
    (hRefs :
      ∀ ref ∈ branches.flatMap (fun b => b.fields.map FieldDecl.type),
        ∃ id, ref = .described id)
    (named : List String)
    (label : String) :
    ∀ f ∈ added.foldl
        (fun fs (sel, own) => if sel.selects named label then own else fs)
        ([] : List Field),
      ∃ d ∈ branches.foldl
          (fun ds b =>
            if b.selector.selects named label then b.fields else ds)
          ([] : List FieldDecl),
        f.Declares t Γ d := by
  suffices
      ∀ (fs : List Field) (ds : List FieldDecl),
        (∀ f ∈ fs, ∃ d ∈ ds, f.Declares t Γ d) →
        ∀ f ∈ added.foldl
            (fun fs (sel, own) =>
              if sel.selects named label then own else fs) fs,
          ∃ d ∈ branches.foldl
              (fun ds b =>
                if b.selector.selects named label then b.fields else ds)
              ds,
            f.Declares t Γ d from
    this [] [] nofun
  induction h with
  | nil => exact fun fs ds hBefore => hBefore
  | @cons b a branches added hBranch _ ih =>
      intro fs ds hBefore
      rw [List.flatMap_cons] at hRefs
      rcases hBranch with ⟨hSelector, hOwn⟩
      refine ih (fun ref hRef => hRefs ref (List.mem_append_right _ hRef))
        _ _ ?_
      simp only [← hSelector]
      split
      · exact hOwn.declares_mem hFinds
          fun ref hRef => hRefs ref (List.mem_append_left _ hRef)
      · exact hBefore

/- The labels of a discriminator are read off its schema. -/
theorem SchemaPool.labelDomain_eq
    {p : SchemaPool}
    {slot c : SchemaId}
    (hEnd : p.ComesTo slot c)
    {ms : List Member}
    (hMembers : (p.get c).ListsMembers ms)
    (branches : List BranchDecl) :
    p.labelDomain slot branches = ms := by
  unfold labelDomain Schema.labelDomain
  rw [hEnd.unwrap_eq]
  rcases hMembers with ⟨hKind, hMembers⟩ | ⟨hKind, hBool, rfl⟩
  · simp [hKind, hMembers]
  · simp [hKind, hBool, boolMembers]

namespace Registry

variable {r : Registry}
variable {env : List SchemaId}

theorem FindsTyped.all
    (hFinds : r.FindsTyped t Γ env)
    {refs : List TypeRef}
    {slots : List SchemaId}
    (h : List.Forall₂ (r.Finds t env) refs slots)
    (hRefs : ∀ ref ∈ refs, ∃ id, ref = .described id) :
    slots.map (fun slot => Γ[slot]?) =
      refs.map (fun ref => some (t.typeOf ref)) := by
  induction h with
  | nil => rfl
  | cons hFirst _ ih =>
      rcases List.forall_mem_cons.mp hRefs with ⟨⟨id, rfl⟩, hRest⟩
      rw [List.map_cons, List.map_cons, ih hRest, hFinds id _ hFirst]

end Registry

/- The elements of a tuple as declared, by place. -/
theorem getElem?_tupleDecls
    {position i : Nat}
    {elements : List TupleElement}
    {d : FieldDecl}
    (h : (tupleDecls position elements)[i]? = some d) :
    ∃ e, elements[i]? = some e ∧ d.type = e.type := by
  induction elements generalizing position i with
  | nil => cases h
  | cons e es ih =>
      cases i with
      | zero =>
          cases h
          exact ⟨e, rfl, rfl⟩
      | succ i => exact ih h

theorem map_type_tupleDecls
    (position : Nat)
    (elements : List TupleElement) :
    (tupleDecls position elements).map FieldDecl.type =
      elements.map TupleElement.type := by
  induction elements generalizing position with
  | nil => rfl
  | cons e es ih =>
      rw [tupleDecls, List.map_cons, List.map_cons, ih (position + 1)]

/- What an object starts from holds of it. -/
theorem Starts.objectPart
    {r : Registry}
    {env : List SchemaId}
    {pending : List SchemaId}
    {id : DescriptorId}
    {name : String}
    {o : ObjectShape}
    {s : Schema}
    (hTyped : r.pool.TypedBy t Γ pending)
    (hFinds : r.FindsTyped t Γ env)
    (hShape : t.shape? id = some (.object o))
    (hRefs : ∀ ref ∈ o.refs, ∃ id, ref = .described id)
    (h : Starts t r env name o s) :
    ObjectPart t Γ id s := by
  cases h with
  | root => exact ⟨nofun, nofun, nofun, nofun⟩
  | @derived base source p hBase hSource hSeen =>
      rcases hRefs base (by simp [ObjectShape.refs, hBase]) with ⟨other, rfl⟩
      let Behind : SchemaId → Prop := fun slot =>
        slot < p.size ∧ ∃ U, Γ[slot]? = some U ∧
          t.Leads TypeTable.anyView (t.typeOf (.described other)) U
      have hEnd : Behind (p.unwrap source) := by
        refine SchemaPool.unwrap_keeps (P := Behind) ?_
          ⟨hSeen.slot_lt, _, hFinds other source hSource, .refl _⟩
        rintro a b ⟨hLt, U, hSlot, hLeads⟩ hTarget
        refine ⟨hSeen.targets a b hTarget, ?_⟩
        rw [← hSeen.grows.get_eq hLt] at hTarget
        rcases hTyped.shows hSlot hTarget with ⟨kind, V, hShows, hNext⟩
        exact ⟨V, hNext, hLeads.trans (.single trivial hShows)⟩
      rcases hEnd with ⟨hLt, U, hSlot, hLeads⟩
      refine ObjectPart.derived hShape hBase hLeads hSlot ?_ name
      rw [← hSeen.grows.get_eq hLt]
      exact hTyped.described _ U hSlot

/- A variant part that is added holds of the object. -/
theorem Varies.objectPart
    {r : Registry}
    {env : List SchemaId}
    {pending : List SchemaId}
    {id : DescriptorId}
    {origin : Origin}
    {o : ObjectShape}
    {part : VariantPart}
    {s s' : Schema}
    (hTyped : r.pool.TypedBy t Γ pending)
    (hFinds : r.FindsTyped t Γ env)
    (hListed :
      ∀ slot T n ms, Γ[slot]? = some T → t.Lists T n ms → slot ∉ pending)
    (hShape : t.shape? id = some (.object o))
    (hPart : o.variant = some part)
    (hRefs : ∀ ref ∈ part.refs, ∃ id, ref = .described id)
    (hObject : ObjectPart t Γ id s)
    (h : Varies t r env origin s part s') :
    ObjectPart t Γ id s' := by
  rcases List.forall_mem_cons.mp hRefs with ⟨⟨other, hType⟩, hFields⟩
  cases h with
  | @mk slot p tagged added hSlot hSeen hAdded hTagged =>
      rw [hType] at hSlot
      have hSlotType := hFinds other slot hSlot
      rw [← hType] at hSlotType
      refine hObject.addVariant hShape hPart hSlotType rfl rfl
        (fun n ms hLists => ?_) ?_ _
      · rcases hTyped.comesTo_of_lists hLists
            (fun slot U m => hListed slot U m ms) hSlotType with
          ⟨c, hEnd, hMembers⟩
        rcases hSeen.comesTo hEnd with ⟨hEndThen, hLt⟩
        rw [hSeen.grows.get_eq hLt] at hMembers
        rw [List.map_map, SchemaPool.labelDomain_eq hEndThen hMembers]
        exact List.map_id ms
      · intro b hb f hf
        rcases List.mem_map.mp hb with ⟨m, -, rfl⟩
        exact hAdded.declares hFinds hFields _ m.name f hf

/- An object that is built is described. -/
theorem BuiltObject.describes
    {r : Registry}
    {env : List SchemaId}
    {pending : List SchemaId}
    {id : DescriptorId}
    {d : TypeDescriptor}
    {origin : Origin}
    {o : ObjectShape}
    {s : Schema}
    (hTyped : r.pool.TypedBy t Γ pending)
    (hFinds : r.FindsTyped t Γ env)
    (hListed :
      ∀ slot T n ms, Γ[slot]? = some T → t.Lists T n ms → slot ∉ pending)
    (hGet : t.get? id = some d)
    (hShape : t.shape? id = some (.object o))
    (hRefs : ∀ ref ∈ o.refs, ∃ other, ref = .described other)
    (h : BuiltObject t r env d.name origin o s) :
    Describes t Γ (.described id) s ∧
    (s.kind = .record ∨ s.kind = .union) := by
  have hOwnRefs :
      ∀ ref ∈ o.fields.map FieldDecl.type, ∃ other,
        ref = .described other := by
    intro ref hRef
    exact hRefs ref (by simp [ObjectShape.refs, hRef])
  have hOwnShared : o.fields ⊆ o.shared :=
    List.subset_append_left _ _
  have hPlain := h.isPlain
  cases h with
  | @plain s₀ own hStarts hOwn hVariant =>
      have hPart := (hStarts.objectPart hTyped hFinds hShape
        hRefs).addFields hShape
          (hOwn.declares_mem hFinds hOwnRefs) hOwnShared
          (.inl (List.Subset.refl _))
      refine ⟨ObjectPart.describes hShape
        ⟨hPart.fields, hPart.declared, hPart.ancestors, hPart.variant⟩
        hGet ?_ rfl hPlain.target ?_ ?_ (by simp [hVariant]), ?_⟩
      · cases hStarts <;> rfl
      · cases hStarts <;> rfl
      · cases hStarts <;> exact ⟨rfl, rfl⟩
      · cases s₀.discriminator.isSome
        · exact .inl rfl
        · exact .inr rfl
  | @variant s₀ s₁ own part hStarts hOwn hVariant hVaries =>
      have hPartRefs : ∀ ref ∈ part.refs, ∃ id, ref = .described id := by
        intro ref hRef
        exact hRefs ref (by simp [ObjectShape.refs, hVariant, hRef])
      have hPart := hVaries.objectPart hTyped hFinds hListed hShape
        hVariant hPartRefs
        ((hStarts.objectPart hTyped hFinds hShape hRefs).addFields
          hShape (hOwn.declares_mem hFinds hOwnRefs) hOwnShared
          (.inl (List.Subset.refl _)))
      have hUnion : s₁.discriminator.isSome = true := by
        cases hVaries
        rfl
      refine ⟨ObjectPart.describes hShape
        ⟨hPart.fields, hPart.declared, hPart.ancestors, hPart.variant⟩
        hGet ?_ ?_ hPlain.target ?_ ?_ (fun _ => hUnion), .inr rfl⟩
      · cases hVaries
        cases hStarts <;> rfl
      · rw [if_pos hUnion]
      · cases hVaries
        cases hStarts <;> rfl
      · cases hVaries
        cases hStarts <;> exact ⟨rfl, rfl⟩

/- What is built describes the type of its descriptor. -/
theorem Built.describes
    {x : Extraction}
    {env : List SchemaId}
    {id : DescriptorId}
    {d : TypeDescriptor}
    {slot : SchemaId}
    {name : String}
    {s : Schema}
    {noted : List View}
    (hTyped : x.registry.pool.TypedBy t Γ x.pending)
    (hFinds : x.registry.FindsTyped t Γ env)
    (hPending :
      ∀ slot ∈ x.pending, ∃ other,
        Γ[slot]? = some (.described other) ∧ t.Reaches other id)
    (hGet : t.get? id = some d)
    (hName : name = d.name)
    (hRefs : ∀ ref ∈ d.shape.refs, ∃ other, ref = .described other)
    (h : Built t x env id d.origin slot name d.shape s noted) :
    Describes t Γ (.described id) s ∧
    ValueType.ShownBy t (.described id) s := by
  subst hName
  have hShape := TypeTable.shape?_of_get? hGet
  have hNamed :
      ∀ other, ValueType.described id = .described other →
        ∃ d', t.get? other = some d' ∧ d.name = d'.name := by
    rintro _ ⟨⟩
    exact ⟨d, hGet, rfl⟩
  -- The labels that this type has are those of an unfilled slot.
  have hLevel :
      ∀ {slot T n ms}, slot ∈ x.pending → Γ[slot]? = some T →
        t.Lists T n ms → ∃ m ≤ n, t.Lists (.described id) m ms := by
    intro slot T n ms hMem hSlot hLists
    rcases hPending slot hMem with ⟨other, hOther, hReaches⟩
    cases hSlot.symm.trans hOther
    exact hLists.of_reaches hReaches
  generalize hKind : d.shape = shape at h hRefs
  rw [hKind] at hShape
  have hEnd :
      (∀ (kind : ViewKind) target, shape ≠ kind.shape target) →
      s.IsPlain →
      (shape.isUnknown = true → s.SaysNothing) →
      (∀ ms, shape = .enumeration ms ∨
          shape = .primitive .bool ∧ ms = boolMembers →
        s.ListsMembers ms) →
      (shape.hasParts = true →
        s.kind = .record ∨ s.kind = .union ∨
          s.kind = .tuple ∧ ∃ elements, shape = .tuple elements) →
      ValueType.ShownBy t (.described id) s :=
    ValueType.ShownBy.of_shape hShape
  cases h with
  | primitive kind =>
      refine ⟨.primitive hGet hKind, hEnd ?_ ⟨rfl, rfl, nofun⟩ nofun ?_ nofun⟩
      · rintro ⟨⟩ target ⟨⟩
      · rintro ms (hEq | ⟨hEq, rfl⟩)
        · cases hEq
        · cases hEq
          exact .inr ⟨rfl, rfl, rfl⟩
  | enumeration members =>
      refine ⟨.enumeration hGet hKind, hEnd ?_ ⟨rfl, rfl, nofun⟩ nofun ?_
        nofun⟩
      · rintro ⟨⟩ target ⟨⟩
      · rintro ms (hEq | ⟨hEq, -⟩)
        · cases hEq
          exact .inl ⟨rfl, rfl⟩
        · cases hEq
  | unknown =>
      refine ⟨.placeholder hNamed, hEnd ?_ ⟨rfl, rfl, nofun⟩
        (fun _ => ⟨rfl, rfl, rfl⟩) ?_ nofun⟩
      · rintro ⟨⟩ target ⟨⟩
      · rintro ms (hEq | ⟨hEq, -⟩) <;> cases hEq
  | misfit =>
      refine ⟨.placeholder hNamed, hEnd ?_ ⟨rfl, rfl, nofun⟩
        (fun _ => ⟨rfl, rfl, rfl⟩) ?_ nofun⟩
      · rintro ⟨⟩ target ⟨⟩
      · rintro ms (hEq | ⟨hEq, -⟩) <;> cases hEq
  | @container kind args slots hArity hArgs =>
      refine ⟨.container hGet hKind (hFinds.all hArgs hRefs),
        hEnd ?_ (Container.isPlain_schema _ _ _) ?_ ?_ nofun⟩
      · rintro ⟨⟩ target ⟨⟩
      · intro hUnknown
        exact absurd hArity (bne_iff_ne.mp hUnknown)
      · rintro ms (hEq | ⟨hEq, -⟩) <;> cases hEq
  | @tuple elements fields hFields =>
      refine ⟨.tuple hGet hKind fun f hf => ?_,
        hEnd ?_ ⟨rfl, rfl, nofun⟩ nofun ?_ fun _ => .inr (.inr ⟨rfl, _, rfl⟩)⟩
      · have hDeclRefs :
            ∀ ref ∈ (tupleDecls 0 elements).map FieldDecl.type,
              ∃ other, ref = .described other := by
          rw [map_type_tupleDecls]
          exact hRefs
        rcases hFields.declares hFinds hDeclRefs f hf with
          ⟨i, decl, hPosition, hDecl, hDeclares⟩
        rcases getElem?_tupleDecls hDecl with ⟨e, hElement, hType⟩
        rw [Nat.zero_add] at hPosition
        exact ⟨e, hPosition ▸ hElement, hType ▸ hDeclares.2⟩
      · rintro ⟨⟩ target ⟨⟩
      · rintro ms (hEq | ⟨hEq, -⟩) <;> cases hEq
  | @object o s hObject =>
      have hListed :
          ∀ slot T n ms, Γ[slot]? = some T → t.Lists T n ms →
            slot ∉ x.pending := by
        intro slot T n ms hSlot hLists hMem
        rcases hLevel hMem hSlot hLists with ⟨m, -, hOwn⟩
        exact TypeTable.not_lists_of_object hShape hOwn
      rcases hObject.describes hTyped hFinds hListed hGet hShape hRefs with
        ⟨hDescribes, hKind'⟩
      refine ⟨hDescribes, hEnd ?_ hObject.isPlain nofun ?_ fun _ => ?_⟩
      · rintro ⟨⟩ target ⟨⟩
      · rintro ms (hEq | ⟨hEq, -⟩) <;> cases hEq
      · exact hKind'.imp_right .inl
  | @view kind target source _ _ hView hSource hNoted =>
      subst hView
      have hTarget : ∃ other, target = .described other := by
        refine hRefs target ?_
        cases kind <;> exact List.mem_singleton_self target
      rcases hTarget with ⟨other, rfl⟩
      have hSourceType := hFinds other source hSource
      have hShows :
          t.Shows kind (.described id) (t.typeOf (.described other)) :=
        .view hShape
      refine hTyped.view hShows hSourceType (fun n ms hLists hMem => ?_)
        hNamed
      -- The source would be behind itself.
      rcases hLevel hMem hSourceType hLists with ⟨m, hm, hOwn⟩
      cases hOwn with
      | enumeration hShape' =>
          exact hShows.not_isEnd (TypeTable.Lists.enumeration hShape').isEnd
      | bool hShape' =>
          exact hShows.not_isEnd (TypeTable.Lists.bool hShape').isEnd
      | «alias» hAlias hLists' =>
          cases (hShows.unique hAlias).2
          have hSame := (hLists.unique hLists').1
          omega

end MatchCompiler

------------------------------------------------------------
-- Typed Extractions
------------------------------------------------------------

namespace MatchCompiler

/- A primitive that is not described. -/
theorem Describes.plainPrimitive
    {t : TypeTable}
    {Γ : SlotTypes}
    (kind : Primitive)
    (name : String) :
    Describes t Γ (.primitive kind) (Schema.ofPrimitive kind name) := by
  refine ofLeaf ⟨rfl, rfl, rfl, rfl, rfl, nofun, nofun, nofun, nofun⟩ nofun
    (by simp [Schema.ofPrimitive]) ?_ ?_
  · rintro v hTyped k ⟨⟩
    exact hTyped.plain_holds
  · rintro ms (⟨hKind, -⟩ | ⟨-, hBool, rfl⟩)
    · cases hKind
    · cases hBool
      exact ⟨0, .plainBool⟩

/- A noted view shows one described type as another. -/
def View.Typed
    (t : TypeTable)
    (Γ : SlotTypes)
    (v : View) : Prop :=
  ∃ T U, Γ[v.slot]? = some T ∧ Γ[v.source]? = some U ∧
    t.Shows v.kind T U ∧
    ∀ id, T = .described id → ∃ d, t.get? id = some d ∧ v.name = d.name

theorem View.Typed.mono
    {t : TypeTable}
    {Γ Γ' : SlotTypes}
    {v : View}
    (hMore : Γ <+: Γ')
    (h : v.Typed t Γ) :
    v.Typed t Γ' := by
  rcases h with ⟨T, U, hSlot, hSource, hShows⟩
  exact ⟨T, U, SlotTypes.kept hMore hSlot, SlotTypes.kept hMore hSource,
    hShows⟩

/- What is noted for rebuilding is typed. -/
theorem Built.typed_of_noted
    {t : TypeTable}
    {Γ : SlotTypes}
    {x : Extraction}
    {env : List SchemaId}
    {id : DescriptorId}
    {d : TypeDescriptor}
    {slot : SchemaId}
    {name : String}
    {s : Schema}
    {noted : List View}
    (hFinds : x.registry.FindsTyped t Γ env)
    (hGet : t.get? id = some d)
    (hName : name = d.name)
    (hRefs : ∀ ref ∈ d.shape.refs, ∃ other, ref = .described other)
    (hSlot : Γ[slot]? = some (.described id))
    (h : Built t x env id d.origin slot name d.shape s noted)
    {v : View}
    (hNoted : v ∈ noted) :
    v.Typed t Γ := by
  have hShape := TypeTable.shape?_of_get? hGet
  generalize d.shape = shape at h hRefs hShape
  cases h with
  | @view kind target source _ _ hView hSource hIf =>
      subst hView
      rw [hIf] at hNoted
      split at hNoted
      · cases List.mem_singleton.mp hNoted
        have hTarget : ∃ other, target = .described other := by
          refine hRefs target ?_
          cases kind <;> exact List.mem_singleton_self target
        rcases hTarget with ⟨other, rfl⟩
        refine ⟨_, _, hSlot, hFinds other source hSource, .view hShape, ?_⟩
        rintro _ ⟨⟩
        exact ⟨d, hGet, hName⟩
      · cases hNoted
  | _ => cases hNoted

/-
  The slots of an extraction stand for types: the slot of a
  key for the type of its descriptor.
-/
structure Extraction.Typed
    (t : TypeTable)
    (Γ : SlotTypes)
    (x : Extraction) : Prop where
  bounded : x.Bounded
  noting : Noting x.registry.pool x.pending x.views
  pool : x.registry.pool.TypedBy t Γ x.pending
  cache :
    ∀ key slot, x.registry.cache.lookup key = some slot →
      Γ[slot]? = some (.described key.descriptor)
  unknown :
    ∀ slot, x.registry.pool.synthetic.lookup .unknown = some slot →
      Γ[slot]? = some .anything
  sequences :
    ∀ element slot,
      x.registry.pool.synthetic.lookup (.sequenceOf element) = some slot →
      ∃ T, Γ[element]? = some T ∧ Γ[slot]? = some (.sequenceOf T)
  views : ∀ v ∈ x.views, v.Typed t Γ

namespace Extraction.Typed

variable {t : TypeTable}
variable {Γ : SlotTypes}
variable {x y : Extraction}

/- What is found has the type that is looked for. -/
theorem finds
    (h : x.Typed t Γ)
    (env : List SchemaId) :
    x.registry.FindsTyped t Γ env := by
  intro id slot hFinds
  cases hFinds with
  | known hGet _ hCache =>
      rw [TypeTable.typeOf_described hGet]
      exact h.cache _ slot hCache
  | dangling hGet hUnknown =>
      simp only [TypeTable.typeOf, hGet]
      exact h.unknown slot hUnknown

/- A schema is shared under a key. -/
theorem share
    (h : x.Typed t Γ)
    (key : SyntheticKey)
    {s : Schema}
    {T : ValueType}
    (hDescribes : Describes t (Γ ++ [T]) T s)
    (hShown : T.ShownBy t s)
    (hPlain : s.IsPlain)
    (hUnknown : key = .unknown → T = .anything)
    (hSequence :
      ∀ element, key = .sequenceOf element →
        ∃ U, Γ[element]? = some U ∧ T = .sequenceOf U) :
    ∃ Γ', Γ <+: Γ' ∧
      Extraction.Typed t Γ'
        { x with
          registry :=
            { x.registry with
              pool := (x.registry.pool.share key s).1 } } := by
  have hBounded :
      Extraction.Bounded
        { x with
          registry :=
            { x.registry with pool := (x.registry.pool.share key s).1 } } :=
    ⟨h.bounded.registry.share key hPlain.target, fun v hv =>
      Nat.lt_of_lt_of_le (h.bounded.views v hv)
        (x.registry.pool.grows_share key s).size_le⟩
  have hNoting := h.noting.share key hPlain
  unfold SchemaPool.share at hBounded hNoting ⊢
  cases hFound : x.registry.pool.synthetic.lookup key with
  | some slot => exact ⟨Γ, List.prefix_refl Γ, h⟩
  | none =>
      have hMore : Γ <+: Γ ++ [T] := List.prefix_append Γ [T]
      have hNew : (Γ ++ [T])[x.registry.pool.size]? = some T := by
        rw [← h.pool.size]
        exact List.getElem?_concat_length
      rw [hFound] at hBounded hNoting
      refine ⟨Γ ++ [T], hMore,
        { bounded := hBounded
          noting := hNoting
          pool :=
            (h.pool.push hDescribes (List.Subset.refl _)
              fun _ => hShown).congr rfl
          cache := fun key' slot hKey =>
            SlotTypes.kept hMore (h.cache key' slot hKey)
          unknown := fun slot hKey => ?_
          sequences := fun element slot hKey => ?_
          views := fun v hv => (h.views v hv).mono hMore }⟩
      · simp only [SchemaPool.push, List.lookup_cons] at hKey
        split at hKey
        · rename_i hEq
          cases hKey
          rw [hNew, hUnknown (beq_iff_eq.mp hEq).symm]
        · exact SlotTypes.kept hMore (h.unknown slot hKey)
      · simp only [SchemaPool.push, List.lookup_cons] at hKey
        split at hKey
        · rename_i hEq
          cases hKey
          rcases hSequence element (beq_iff_eq.mp hEq).symm with
            ⟨U, hElement, rfl⟩
          exact ⟨U, SlotTypes.kept hMore hElement, hNew⟩
        · rcases h.sequences element slot hKey with ⟨U, hElement, hSlot⟩
          exact ⟨U, SlotTypes.kept hMore hElement,
            SlotTypes.kept hMore hSlot⟩

/- The schema of what cannot be resolved is shared. -/
theorem share_unknown
    (h : x.Typed t Γ) :
    ∃ Γ', Γ <+: Γ' ∧
      Extraction.Typed t Γ'
        { x with
          registry :=
            { x.registry with pool := x.registry.pool.unknown.1 } } := by
  refine h.share .unknown (T := .anything) (.placeholder nofun)
    (.anything ⟨rfl, rfl, nofun⟩ ⟨rfl, rfl, rfl⟩) ⟨rfl, rfl, nofun⟩
    (fun _ => rfl) nofun

/- A slot is reserved for a descriptor. -/
theorem reserve
    (h : x.Typed t Γ)
    {id : DescriptorId}
    {d : TypeDescriptor}
    {env : List SchemaId}
    {key : ExtractionKey}
    (hGet : t.get? id = some d)
    (hGeneric : ∀ template args, d.shape ≠ .generic template args)
    (hKey : x.registry.IsKey id env key)
    (hNone : x.registry.cache.lookup key = none)
    (hEnv : ∀ s ∈ env, s < x.registry.pool.size) :
    (x.reserved key d.name).Typed t (Γ ++ [.described id]) := by
  have hMove : Move t x (x.reserved key d.name) :=
    .reserve hGet hGeneric hKey hNone hEnv
  have hMore : Γ <+: Γ ++ [.described id] := List.prefix_append _ _
  refine
    { bounded := hMove.bounded h.bounded
      noting := h.noting.reserve d.name
      pool := ?_
      cache := fun key' slot hFound => ?_
      unknown := fun slot hFound =>
        SlotTypes.kept hMore (h.unknown slot hFound)
      sequences := fun element slot hFound => ?_
      views := fun v hv => (h.views v hv).mono hMore }
  · refine h.pool.push (.placeholder ?_) (List.subset_cons_self _ _) ?_
    · rintro _ ⟨⟩
      exact ⟨d, hGet, rfl⟩
    · exact fun hFilled => absurd List.mem_cons_self hFilled
  · simp only [Extraction.reserved, List.lookup_cons] at hFound
    split at hFound
    · rename_i hEq
      cases hFound
      rw [beq_iff_eq.mp hEq, hKey.descriptor_eq, ← h.pool.size]
      exact List.getElem?_concat_length
    · exact SlotTypes.kept hMore (h.cache key' slot hFound)
  · rcases h.sequences element slot hFound with ⟨U, hElement, hSlot⟩
    exact ⟨U, SlotTypes.kept hMore hElement, SlotTypes.kept hMore hSlot⟩

/- The slot that was reserved last is filled. -/
theorem fill
    (hFree : t.TemplateFree)
    (h : x.Typed t Γ)
    {id : DescriptorId}
    {d : TypeDescriptor}
    {env : List SchemaId}
    {key : ExtractionKey}
    {slot : SchemaId}
    {name : String}
    {s : Schema}
    {noted : List View}
    (hGet : t.get? id = some d)
    (hKey : x.registry.IsKey id env key)
    (hSlot : x.registry.cache.lookup key = some slot)
    (hStacked : x.Stacked t id)
    (hName : d.params = 0 → name = d.name)
    (hBuilt : Built t x env id d.origin slot name d.shape s noted)
    (hMove :
      Move t x (x.filled slot { s with descriptor := some id } noted)) :
    (x.filled slot { s with descriptor := some id } noted).Typed t Γ := by
  rcases hFree id d hGet with ⟨hParams, -, hRefs⟩
  have hOwn : Γ[slot]? = some (.described id) :=
    hKey.descriptor_eq ▸ h.cache key slot hSlot
  have hWaiting :
      ∀ slot ∈ x.pending, ∃ other,
        Γ[slot]? = some (.described other) ∧ t.Reaches other id := by
    intro slot hMem
    rcases hStacked slot hMem with ⟨key', hFound, -, hReaches⟩
    exact ⟨key'.descriptor, h.cache key' slot hFound, hReaches⟩
  rcases hBuilt.describes h.pool (h.finds env) hWaiting hGet
      (hName hParams) hRefs with ⟨hDescribes, hShown⟩
  refine
    { bounded := hMove.bounded h.bounded
      noting := h.noting.move hMove h.bounded
      pool := ?_
      cache := h.cache
      unknown := h.unknown
      sequences := h.sequences
      views := fun v hv => ?_ }
  · refine h.pool.fill hOwn (hDescribes.withDescriptor _)
      (hShown.withDescriptor _) fun other hMem hNe => ?_
    exact (List.mem_erase_of_ne hNe).mpr hMem
  · rcases List.mem_append.mp hv with hv | hv
    · exact h.views v hv
    · exact hBuilt.typed_of_noted (h.finds env) hGet (hName hParams) hRefs
        hOwn hv

/- Every move keeps the slots typed. -/
theorem move
    (hFree : t.TemplateFree)
    (hMove : Move t x y)
    (h : x.Typed t Γ) :
    ∃ Γ', Γ <+: Γ' ∧ y.Typed t Γ' := by
  have hSame := hMove
  have hBounded := hMove.bounded h.bounded
  cases hMove with
  | memo =>
      exact ⟨Γ, List.prefix_refl Γ, hBounded, h.noting, h.pool, h.cache,
        h.unknown, h.sequences, h.views⟩
  | hit =>
      exact ⟨Γ, List.prefix_refl Γ, hBounded, h.noting, h.pool, h.cache,
        h.unknown, h.sequences, h.views⟩
  | miss =>
      exact ⟨Γ, List.prefix_refl Γ, hBounded, h.noting, h.pool, h.cache,
        h.unknown, h.sequences, h.views⟩
  | unknown => exact h.share_unknown
  | reserve hGet hGeneric hKey hNone hEnv =>
      exact ⟨_, List.prefix_append _ _,
        h.reserve hGet hGeneric hKey hNone hEnv⟩
  | remember hGet hGeneric =>
      exact absurd hGeneric ((hFree _ _ hGet).2.1 _ _)
  | fill hGet hKey hSlot hPending hStacked hEnv hName hBuilt =>
      exact ⟨Γ, List.prefix_refl Γ,
        h.fill hFree hGet hKey hSlot hStacked hName hBuilt hSame⟩

/- Rebuilding the views keeps the slots typed. -/
theorem completeAll
    (h : x.Typed t Γ)
    (hPending : x.pending = []) :
    Extraction.Typed t Γ
      { registry :=
          { x.registry with
            pool := View.completeAll x.views x.registry.pool } } := by
  have hNoting := h.noting
  have hPool := h.pool
  rw [hPending] at hNoting hPool
  have hSynthetic := View.synthetic_completeAll x.views x.registry.pool
  refine
    { bounded :=
        ⟨h.bounded.registry.completeAll h.bounded.views, nofun⟩
      noting := View.noting_completeAll hNoting
      pool := ?_
      cache := h.cache
      unknown := fun slot hFound => h.unknown slot (hSynthetic ▸ hFound)
      sequences := fun element slot hFound =>
        h.sequences element slot (hSynthetic ▸ hFound)
      views := nofun }
  refine View.completeAll_keeps (P := fun p => p.TypedBy t Γ [])
    (fun p v hv hTyped => ?_) hPool
  rcases h.views v hv with ⟨T, U, hSlot, hSource, hShows, hNamed⟩
  rcases hTyped.view hShows hSource (fun _ _ _ => List.not_mem_nil) hNamed
    with ⟨hDescribes, hShown⟩
  exact hTyped.fill hSlot (hDescribes.withDescriptor _)
    (hShown.withDescriptor _) nofun

end Extraction.Typed

end MatchCompiler

------------------------------------------------------------
-- Typed Registries
------------------------------------------------------------

namespace MatchCompiler

namespace Registry

/- The slots of a registry stand for types. -/
def Typed
    (t : TypeTable)
    (Γ : SlotTypes)
    (r : Registry) : Prop :=
  Extraction.Typed t Γ { registry := r }

/- A registry grows, and its new slots are given types. -/
structure GrowsTyped
    (t : TypeTable)
    (Γ : SlotTypes)
    (r : Registry)
    (Γ' : SlotTypes)
    (r' : Registry) : Prop where
  types : Γ <+: Γ'
  registry : r.Grows r'
  typed : r'.Typed t Γ'

variable {t : TypeTable}
variable {Γ Γ' Γ'' : SlotTypes}
variable {r r' r'' : Registry}

theorem GrowsTyped.refl
    (h : r.Typed t Γ) :
    GrowsTyped t Γ r Γ r :=
  ⟨List.prefix_refl Γ, .refl r, h⟩

theorem GrowsTyped.trans
    (h : GrowsTyped t Γ r Γ' r')
    (h' : GrowsTyped t Γ' r' Γ'' r'') :
    GrowsTyped t Γ r Γ'' r'' :=
  ⟨h.types.trans h'.types, h.registry.trans h'.registry, h'.typed⟩

/- An extraction that ends gives the slot of its type. -/
theorem Extracts.growsTyped
    (hFree : t.TemplateFree)
    (h : r.Typed t Γ)
    {id : DescriptorId}
    {slot : SchemaId}
    (hExtracts : r.Extracts t id r' slot) :
    ∃ Γ', GrowsTyped t Γ r Γ' r' ∧
      Γ'[slot]? = some (t.typeOf (.described id)) := by
  have hBounded := h.bounded.registry
  have hGrows := hExtracts.grows hBounded
  rcases hExtracts.exists_runs hBounded with ⟨x, hRuns, hFinds, rfl⟩
  have hX : ∃ Γ', Γ <+: Γ' ∧ x.Typed t Γ' := by
    refine hRuns.invariant
      (P := fun y => ∃ Γ', Γ <+: Γ' ∧ y.Typed t Γ') ?_
      ⟨Γ, List.prefix_refl Γ, h⟩
    rintro y z hMove ⟨Γ', hMore, hTyped⟩
    rcases hTyped.move hFree hMove with ⟨Γ'', hMore', hTyped'⟩
    exact ⟨Γ'', hMore.trans hMore', hTyped'⟩
  rcases hX with ⟨Γ', hMore, hTyped⟩
  exact ⟨Γ', ⟨hMore, hGrows, hTyped.completeAll hRuns.grows.pending⟩,
    hTyped.finds [] id slot hFinds⟩

/-
  The slot of a descriptor has its type, or nothing is said
  about its values.
-/
theorem Typed.schemaWithin
    (hFree : t.TemplateFree)
    (h : r.Typed t Γ)
    (depth : Nat)
    (id : DescriptorId) :
    ∃ Γ' T, GrowsTyped t Γ r Γ' (r.schemaWithin t depth id).1 ∧
      Γ'[(r.schemaWithin t depth id).2]? = some T ∧
      (T = t.typeOf (.described id) ∨ T = .anything) := by
  unfold Registry.schemaWithin
  cases hEnds : r.extract? t (depth + 1) id with
  | some result =>
      rcases result with ⟨r', slot⟩
      have hExtracts : r.Extracts t id r' slot := ⟨_, hEnds⟩
      rcases hExtracts.growsTyped hFree h with ⟨Γ', hGrows, hSlot⟩
      exact ⟨Γ', _, hGrows, hSlot, .inl rfl⟩
  | none =>
      rcases Extraction.Typed.share_unknown h with ⟨Γ', hMore, hTyped⟩
      refine ⟨Γ', .anything, ⟨hMore, r.grows_share _ _, hTyped⟩, ?_, .inr rfl⟩
      exact hTyped.unknown _ (r.pool.lookup_share _ _)

/- The sequences of an element type are given a slot. -/
theorem Typed.sequenceOf
    (h : r.Typed t Γ)
    {element : SchemaId}
    {T : ValueType}
    (hElement : Γ[element]? = some T) :
    ∃ Γ',
      GrowsTyped t Γ r Γ'
        { r with pool := (r.pool.sequenceOf element).1 } ∧
      Γ'[(r.pool.sequenceOf element).2]? = some (.sequenceOf T) := by
  have hPlain :
      ∀ name, Schema.IsPlain
        { kind := .sequence, name, element := some element } :=
    fun _ => ⟨rfl, rfl, nofun⟩
  have hMore : Γ <+: Γ ++ [.sequenceOf T] := List.prefix_append _ _
  have hKey :
      ∀ other, SyntheticKey.sequenceOf element = .sequenceOf other →
        ∃ U, Γ[other]? = some U ∧
          ValueType.sequenceOf T = .sequenceOf U := by
    rintro _ ⟨⟩
    exact ⟨T, hElement, rfl⟩
  rcases Extraction.Typed.share h (.sequenceOf element)
      (.sequenceOf (SlotTypes.kept hMore hElement))
      (.sequenceOf (hPlain s!"seq[{r.pool.nameOf element}]"))
      (hPlain _) nofun hKey with ⟨Γ', hMore', hTyped⟩
  refine ⟨Γ', ⟨hMore', r.grows_share _ _, hTyped⟩, ?_⟩
  rcases hTyped.sequences element _ (r.pool.lookup_share _ _) with
    ⟨U, hSame, hSlot⟩
  cases (SlotTypes.kept hMore' hElement).symm.trans hSame
  exact hSlot

/- The slots of every registry that is built stand for types. -/
theorem BuiltWith.exists_typed
    (hFree : t.TemplateFree)
    (h : r.BuiltWith t) :
    ∃ Γ, r.Typed t Γ := by
  induction h with
  | fresh marker =>
      refine ⟨[], ⟨bounded_fresh marker, nofun⟩, .empty rfl,
        ⟨rfl, nofun, nofun⟩, nofun, nofun, nofun, nofun⟩
  | extract _ hExtracts ih =>
      rcases ih with ⟨Γ, hTyped⟩
      rcases hExtracts.growsTyped hFree hTyped with ⟨Γ', hGrows, -⟩
      exact ⟨Γ', hGrows.typed⟩
  | primitive _ kind ih =>
      rcases ih with ⟨Γ, hTyped⟩
      rcases Extraction.Typed.share hTyped (.primitive kind)
          (.plainPrimitive kind kind.name) (.primitive kind kind.name)
          ⟨rfl, rfl, nofun⟩ nofun nofun with ⟨Γ', -, hTyped'⟩
      exact ⟨Γ', hTyped'⟩
  | sequenceOf _ hElement ih =>
      rcases ih with ⟨Γ, hTyped⟩
      rcases hTyped.pool.exists_type hElement with ⟨T, hType⟩
      rcases hTyped.sequenceOf hType with ⟨Γ', hGrows, -⟩
      exact ⟨Γ', hGrows.typed⟩
  | unknown _ ih =>
      rcases ih with ⟨Γ, hTyped⟩
      rcases Extraction.Typed.share_unknown hTyped with ⟨Γ', -, hTyped'⟩
      exact ⟨Γ', hTyped'⟩

end Registry

end MatchCompiler
