import MatchCompiler.Proofs.FaultFreedom
import MatchCompiler.Proofs.HeadTyping
import MatchCompiler.Proofs.PlainCoverage

/-
  This file shows that an object has the parts that a pattern
  reads of it.

  A part is a shared field, or a field of all branches that
  the pattern has pinned. If the tests for a pinned branch
  and for the discriminator might hold of an object, the
  branch that it is in is a pinned one, as long as labels
  have different numbers; so it carries the field, and at the
  type that is expected if fields of one name have one type.

  Key definitions include:
    * `TypeTable.RefersToObjects`
    * `TypeTable.VariesWell`
    * `Schema.InBranch`

  Key theorems include:
    * `Describes.exists_inBranch`
    * `AcceptedAt.exists_label_of_might`
    * `Schema.InBranch.exists_pinned`
    * `Schema.InBranch.readFrom`
    * `HeadMeans.exists_meets`
-/

------------------------------------------------------------
-- Tables
------------------------------------------------------------

namespace MatchCompiler

namespace TypeTable

/-
  Every reference leads to an object, or to a type of which
  nothing is known.
-/
def RefersToObjects (t : TypeTable) : Prop :=
  ∀ T U, t.Shows .reference T U →
    ∃ E, t.Leads anyView U E ∧
      (t.IsUnknown E ∨
        ∃ id o, E = .described id ∧ t.shape? id = some (.object o))

/-
  Every discriminator is an enumeration or boolean with
  different numbers, and fields of one name in different
  branches have one type.
-/
structure VariesWell (t : TypeTable) : Prop where
  labelled :
    ∀ id o part, t.shape? id = some (.object o) →
      o.variant = some part →
      ∃ n ms, t.Lists (t.typeOf part.discriminator.type) n ms ∧
        (ms.map Member.ordinal).Nodup
  alike :
    ∀ id o part, t.shape? id = some (.object o) →
      o.variant = some part →
      ∀ b ∈ part.branches, ∀ b' ∈ part.branches, b ≠ b' →
        ∀ f ∈ b.fields, ∀ f' ∈ b'.fields, f.name = f'.name →
          f.type = f'.type

end TypeTable

end MatchCompiler

------------------------------------------------------------
-- The Branch Of An Object
------------------------------------------------------------

namespace MatchCompiler

/-
  An object is in a branch of a schema: its discriminator has
  a label, and it carries the fields that the label selects.
-/
structure Schema.InBranch
    (t : TypeTable)
    (Γ : SlotTypes)
    (s : Schema)
    (part : VariantPart)
    (ms : List Member)
    (v w : Value)
    (m : Member) : Prop where
  varies : s.VariesBy t Γ part
  field : v.field? part.discriminator.name = some w
  tag : HasTag t (t.typeOf part.discriminator.type) ms w m
  fields : ∀ f ∈ part.fieldsOf m.name, f.ReadFrom t v
  alike :
    ∀ label, ∀ f ∈ part.fieldsOf label, ∀ f' ∈ part.fieldsOf m.name,
      f.name = f'.name → f.ReadFrom t v

theorem Value.IsObject.ne_nil
    {v : Value}
    (h : v.IsObject) :
    v ≠ .nil := by
  rcases h with ⟨chain, values, rfl⟩
  exact nofun

/- A typed object is in a branch of a schema that varies. -/
theorem Describes.exists_inBranch
    {t : TypeTable}
    {Γ : SlotTypes}
    {T : ValueType}
    {s : Schema}
    (hVaries : t.VariesWell)
    (h : Describes t Γ T s)
    {v : Value}
    (hTyped : HasType t T v)
    (hObject : v.IsObject)
    (hSome : s.discriminator.isSome = true) :
    ∃ part ms w m, s.InBranch t Γ part ms v w m := by
  rcases h.variant hSome with
    ⟨id, last, o, part, hLeads, hBelow, hShape, hPart, hSchema⟩
  rcases hVaries.labelled last o part hShape hPart with
    ⟨n, ms, hLists, hOrdinals⟩
  have hLast := (hTyped.along hObject.ne_nil hLeads).of_below hBelow
    (TypeTable.isEnd_of_object hShape)
  rcases hLast.exists_selected hShape hPart hLists with
    ⟨w, m, hField, hValue, hTag, hm, hFields⟩
  refine ⟨part, ms, w, m, hSchema, hField,
    ⟨⟨n, hLists⟩, hOrdinals, hValue, hTag, hm⟩, hFields, ?_⟩
  intro label f hf f' hf' hName
  rcases part.fieldsOf_eq label with hNone | ⟨b, hb, hSame⟩
  · rw [hNone] at hf
    cases hf
  rcases part.fieldsOf_eq m.name with hNone' | ⟨b', hb', hSame'⟩
  · rw [hNone'] at hf'
    cases hf'
  by_cases hBranch : b = b'
  · -- The two labels select one branch.
    subst hBranch
    exact hFields f (hSame' ▸ hSame ▸ hf)
  · have hType := hVaries.alike last o part hShape hPart b hb b' hb' hBranch
      f (hSame ▸ hf) f' (hSame' ▸ hf') hName
    rcases hFields f' hf' with ⟨x, hx, hTypedField⟩
    exact ⟨x, hName ▸ hx, hType ▸ hTypedField⟩

namespace Schema.InBranch

variable {t : TypeTable}
variable {Γ : SlotTypes}
variable {s : Schema}
variable {part : VariantPart}
variable {ms : List Member}
variable {v w : Value}
variable {m : Member}

theorem discriminates
    (h : s.InBranch t Γ part ms v w m) :
    s.Discriminates part.discriminator.name ms := by
  rcases h.varies with ⟨slot, hDisc, -, hLabels, -⟩
  rcases h.tag.lists with ⟨n, hLists⟩
  exact ⟨⟨slot, hDisc⟩, hLabels n ms hLists⟩

/- The object carries a field of all branches that are pinned. -/
theorem readFrom
    (h : s.InBranch t Γ part ms v w m)
    {labels : List Member}
    (hPinned : m.name ∈ labels.map Member.name)
    {label : String}
    {b : Branch}
    {f : Field}
    (hBranch : s.branch? label = some b)
    (hField : f ∈ b.fields)
    (hOwners : ∀ l ∈ labels, l.name ∈ s.owners f.name) :
    f.ReadFrom t Γ v := by
  rcases h.varies with ⟨-, -, -, -, hFields⟩
  rcases hFields b (List.mem_of_find?_eq_some hBranch) f hField with
    ⟨d, hd, hDeclares⟩
  -- The branch of the object declares a field of the name too.
  rcases List.mem_map.mp hPinned with ⟨l, hl, hName⟩
  rcases List.mem_map.mp (hOwners l hl) with ⟨b', hb', hLabel⟩
  rcases List.mem_filter.mp hb' with ⟨hMem, hSome⟩
  rcases Option.isSome_iff_exists.mp hSome with ⟨f', hf'⟩
  rcases hFields b' hMem f' (List.mem_of_find?_eq_some hf') with
    ⟨d', hd', hDeclares'⟩
  rw [hLabel, hName] at hd'
  have hFound : (f'.name == f.name) = true :=
    List.find?_some (p := fun g : Field => g.name == f.name) hf'
  have hSame : d.name = d'.name := by
    rw [← hDeclares.1, ← hDeclares'.1, beq_iff_eq.mp hFound]
  exact hDeclares.readFrom (h.alike b.label d hd d' hd' hSame)

end Schema.InBranch

end MatchCompiler

------------------------------------------------------------
-- Pinned Labels
------------------------------------------------------------

namespace MatchCompiler

namespace Checked

variable {s : Schema}
variable {name : String}

/- Labels that are known stay, and others are added. -/
theorem mem_names_addLabels
    {known ls : List Member}
    (h : name ∈ known.map Member.name ∨ name ∈ ls.map Member.name) :
    name ∈ (addLabels known ls).map Member.name := by
  induction ls generalizing known with
  | nil => exact h.resolve_right nofun
  | cons l ls ih =>
      refine ih ?_
      dsimp only
      split
      · rename_i hThere
        rcases List.any_eq_true.mp hThere with ⟨k, hk, hSame⟩
        rcases h with hKnown | hNew
        · exact .inl hKnown
        · rcases List.mem_cons.mp hNew with rfl | hNew
          · rw [← beq_iff_eq.mp hSame]
            exact .inl (List.mem_map_of_mem hk)
          · exact .inr hNew
      · rw [List.map_append, List.mem_append]
        rcases h with hKnown | hNew
        · exact .inl (.inl hKnown)
        · rcases List.mem_cons.mp hNew with rfl | hNew
          · exact .inl (.inr List.mem_cons_self)
          · exact .inr hNew

/- An alternation allows the labels of its branches. -/
theorem mem_names_labelsOfAll
    {qs : List Checked}
    {known ls : List Member}
    (h : labelsOfAll s known qs = Option.some ls)
    (hName :
      name ∈ known.map Member.name ∨
        ∃ q ∈ qs, ∀ own, q.labels s = Option.some own →
          name ∈ own.map Member.name) :
    name ∈ ls.map Member.name := by
  induction qs generalizing known with
  | nil =>
      cases h
      exact hName.resolve_right nofun
  | cons q qs ih =>
      rw [labelsOfAll] at h
      split at h
      · cases h
      · rename_i own hOwn
        refine ih h ?_
        rcases hName with hKnown | ⟨q', hq', hLabels⟩
        · exact .inl (mem_names_addLabels (.inl hKnown))
        · rcases List.mem_cons.mp hq' with rfl | hq'
          · exact .inl (mem_names_addLabels (.inr (hLabels own hOwn)))
          · exact .inr ⟨q', hq', hLabels⟩

/- A pattern that might match allows a label. -/
def AllowsLabel
    (s : Schema)
    (o : LoweringOptions)
    (root : Value)
    (a : Access)
    (name : String)
    (q : Checked) : Prop :=
  ∀ ls, q.labels s = Option.some ls →
    ∀ inside, (q.plan o inside a).Might root true →
      name ∈ ls.map Member.name

/- What nodes allow, patterns made of them allow. -/
theorem MadeOf.allowsLabel
    {o : LoweringOptions}
    {root : Value}
    {a : Access}
    {q : Checked}
    (h : q.MadeOf (AllowsLabel s o root a name)) :
    q.AllowsLabel s o root a name := by
  induction h with
  | node h => exact h
  | bind span x _ ih =>
      exact fun ls hLabels inside hMight =>
        ih ls hLabels inside (Plan.might_bind_iff.mp hMight)
  | guarded span id _ ih =>
      intro ls hLabels inside hMight
      cases inside with
      | false => exact ih ls hLabels false hMight
      | true =>
          exact ih ls hLabels true
            (Plan.might_all_true.mp hMight _ List.mem_cons_self)
  | alt span _ ih =>
      intro ls hLabels inside hMight
      rcases Plan.might_alt_true.mp hMight with ⟨p, hp, hMight⟩
      rw [planBranches_eq] at hp
      rcases List.mem_map.mp hp with ⟨q, hq, rfl⟩
      exact mem_names_labelsOfAll hLabels
        (.inr ⟨q, hq, fun own hOwn => ih q hq own hOwn true hMight⟩)

end Checked

/- A literal allows the label that it stands for only. -/
theorem CheckedLiteral.mem_names_labels
    {s : Schema}
    {span : Span}
    {meaning : CheckedLiteral}
    {label : String}
    {ls : List Member}
    (hLabel : meaning.label? = some label)
    (hLabels : (Checked.literal span meaning).labels s = some ls) :
    label ∈ ls.map Member.name := by
  cases meaning with
  | member k =>
      cases hLabel
      cases hLabels
      exact List.mem_cons_self
  | value l =>
      cases l with
      | bool b =>
          cases hLabel
          rcases Option.map_eq_some_iff.mp hLabels with ⟨k, hk, rfl⟩
          rcases Option.map_eq_some_iff.mp hk with ⟨branch, -, rfl⟩
          exact List.mem_cons_self
      | _ => cases hLabel
  | _ => cases hLabel

/- Only its own label passes a literal at a labelled type. -/
theorem SchemaPool.exists_label_of_holds
    {p : SchemaPool}
    {slot : SchemaId}
    {ms : List Member}
    (hMembers : (p.get slot).ListsMembers ms)
    (hOrdinals : (ms.map Member.ordinal).Nodup)
    {w : Value}
    {m : Member}
    (hTag : w.tag? = some m)
    (hListed : m ∈ ms)
    {marker : Char}
    {l : Literal}
    {meaning : CheckedLiteral}
    (hMeaning : p.checkLiteral marker slot l = .ok meaning) :
    ∃ label, meaning.label? = some label ∧
      ∃ b, meaning.holds w = .ok b ∧ (b = true → m.name = label) := by
  rcases meaning_of_listsMembers hMembers hMeaning with
    ⟨k, hk, rfl⟩ | ⟨-, -, b, rfl⟩
  · refine ⟨k.name, rfl, m.ordinal == k.ordinal, ?_, fun hSame => ?_⟩
    · unfold CheckedLiteral.holds
      rw [Value.readOrdinal_of_tag? hTag]
      rfl
    · rw [eq_of_ordinals_nodup hOrdinals hListed hk (beq_iff_eq.mp hSame)]
  · refine ⟨_, rfl, w.equals (.bool b), rfl, fun hSame => ?_⟩
    cases w with
    | bool b' =>
        cases hTag
        rw [beq_iff_eq.mp hSame]
    | _ => cases hTag <;> cases hSame

/-
  A node that is accepted at a labelled type, and that might
  match a value, allows the label of the value.
-/
theorem Accepts.allowsLabel
    {ctx : CheckContext}
    {p : Pattern}
    {slot : SchemaId}
    {s₁ s₂ : Progress}
    {q : Checked}
    (h : Accepts ctx p slot s₁ q s₂)
    (hNode : p.IsNode)
    {ms : List Member}
    (hMembers : (s₁.pool.get slot).ListsMembers ms)
    (hOrdinals : (ms.map Member.ordinal).Nodup)
    {w : Value}
    {m : Member}
    (hTag : w.tag? = Option.some m)
    (hListed : m ∈ ms)
    {o : LoweringOptions}
    {root : Value}
    {a : Access}
    (hRead : a.Reads root w)
    (s : Schema) :
    q.AllowsLabel s o root a m.name := by
  intro ls hLabels inside hMight
  -- Of single nodes only literals are asked for labels.
  cases h with
  | @literal span _ _ l meaning hMeaning =>
      rcases SchemaPool.exists_label_of_holds hMembers hOrdinals hTag
        hListed hMeaning with ⟨label, hLabel, b, hHolds, hOnly⟩
      have hLeaf : ((Lowered.literal a meaning).test).IsLeaf := by
        cases meaning <;> trivial
      have hTrue := Test.eq_of_might hLeaf
        (fun c => (Lowered.reading_literal (hRead c) meaning).trans hHolds)
        (Plan.might_test_iff.mp hMight)
      rw [hOnly hTrue.symm]
      exact CheckedLiteral.mem_names_labels hLabel hLabels
  | typeTest hTested => cases hTested <;> cases hLabels
  | bind | named | alt | guarded | narrow => exact hNode.elim
  | wildcard | none | some | someUnknown | object | seq | tuple | set | map =>
      cases hLabels

/-
  A discriminator pattern that might match a value allows the
  label of the value.
-/
theorem AcceptedAt.allowsLabel
    {ctx : CheckContext}
    {Γ : SlotTypes}
    {r : Registry}
    (hFree : ctx.table.TemplateFree)
    {D : ValueType}
    {ms : List Member}
    {w : Value}
    {m : Member}
    (hTyped : r.Typed ctx.table Γ)
    (hTag : HasTag ctx.table D ms w m)
    {slot : SchemaId}
    (hSlot : Γ[slot]? = some D)
    {o : LoweringOptions}
    {root : Value}
    {a : Access}
    (hRead : a.Reads root w)
    {p : Pattern}
    {q : Checked}
    (h : AcceptedAt ctx Γ r p slot q)
    (s : Schema) :
    q.AllowsLabel s o root a m.name := by
  refine Checked.MadeOf.allowsLabel ?_
  refine h.madeOf hFree hSlot fun p' q' hAccepted hNode _ => ?_
  rcases hAccepted with ⟨s₁, s₂, Γ₁, hGrows, hAccepts⟩
  rcases hGrows.slot hTyped hSlot with ⟨hSlot₁, -⟩
  rcases hTag.lists with ⟨n, hLists⟩
  have hMembers :=
    (hGrows.typed.pool.shown slot D hSlot₁ nofun).labelled n ms hLists
  exact hAccepts.allowsLabel hNode hMembers hTag.ordinals hTag.tag
    hTag.listed hRead s

/-
  A label that the case name and the discriminator's pattern
  both allow is a pinned one.
-/
theorem Schema.mem_pinnedBy
    {s : Schema}
    {name : String}
    {fromCase : Option (List Member)}
    {disc : List (FieldRead × Checked)}
    (hNamed :
      ∀ named, fromCase = some named → name ∈ named.map Member.name)
    (hAllowed :
      ∀ f ∈ disc, ∀ own, f.2.labels s = some own →
        name ∈ own.map Member.name)
    {labels : List Member}
    (hPinned : s.pinnedBy fromCase disc = some labels) :
    name ∈ labels.map Member.name := by
  cases disc with
  | nil => exact hNamed labels hPinned
  | cons f disc =>
      have hFirst := hAllowed f List.mem_cons_self
      unfold pinnedBy at hPinned
      dsimp only at hPinned
      split at hPinned
      · exact hNamed labels hPinned
      · rename_i own hOwn
        cases hPinned
        exact hFirst _ hOwn
      · rename_i own named hOwn
        cases hPinned
        rcases List.mem_map.mp (hFirst _ hOwn) with ⟨l, hl, hName⟩
        rcases List.mem_map.mp (hNamed named rfl) with ⟨k, hk, hSame⟩
        refine List.mem_map.mpr ⟨l, List.mem_filter.mpr ⟨hl, ?_⟩, hName⟩
        refine List.any_eq_true.mpr ⟨k, hk, ?_⟩
        rw [beq_iff_eq, hSame, hName]

namespace Schema.InBranch

variable {ctx : CheckContext}
variable {Γ : SlotTypes}
variable {s : Schema}
variable {part : VariantPart}
variable {ms : List Member}
variable {v w : Value}
variable {m : Member}
variable {root : Value}
variable {a : Access}

/- The test for a pinned branch answers if it is that of the object. -/
theorem pin_holds
    (h : s.InBranch ctx.table Γ part ms v w m)
    {marker : Char}
    {span : Span}
    {caseName : Option String}
    {labels : List Member}
    (hCase :
      caseName.mapM (fun c => s.pinCase marker c span) =
        .ok (some labels)) :
    ∃ k ∈ ms, labels = [k] ∧
      Pin.holds { discriminator := s.discriminatorName, labels } v =
        .ok (k.ordinal == m.ordinal) := by
  rcases h.discriminates.of_pinCase hCase with ⟨k, hk, rfl⟩
  exact ⟨k, hk, rfl, Pin.holds_of_tag? h.field h.tag.tag
    h.discriminates.discriminatorName_eq rfl⟩

/- A discriminator pattern is accepted at the type of the label. -/
theorem exists_acceptedAt
    (hFree : ctx.table.TemplateFree)
    (h : s.InBranch ctx.table Γ part ms v w m)
    {p p' : Progress}
    (hTyped : p.registry.Typed ctx.table Γ)
    {fields : List (FieldName × Pattern)}
    {disc : List (FieldRead × Checked)}
    (hDisc : AcceptsAll ctx (s.discriminatorParts fields) p disc p')
    {f : FieldRead × Checked}
    (hf : f ∈ disc) :
    f.1.name = part.discriminator.name ∧
    ∃ slot, ∃ given ∈ fields,
      Γ[slot]? = some (ctx.table.typeOf part.discriminator.type) ∧
      AcceptedAt ctx Γ p.registry given.2 slot f.2 := by
  rcases h.varies with ⟨slot, hField, hSlot, -, -⟩
  have hGiven :
      ∀ given ∈ s.discriminatorParts fields,
        given.1.name = part.discriminator.name ∧ given.2.1 = slot := by
    intro given hMem
    rcases Schema.exists_discriminator_of_mem hMem with
      ⟨d, hd, hName, hSchema⟩
    cases hd.symm.trans hField
    exact ⟨hName, hSchema⟩
  rcases hDisc.exists_acceptedAt hFree hTyped
      (fun given hMem => ⟨_, (hGiven given hMem).2 ▸ hSlot⟩) hf with
    ⟨slot', p', hMem, hAccepted⟩
  rcases hGiven _ hMem with ⟨hName, hSame⟩
  rcases Schema.exists_of_mem_discriminatorParts hMem with
    ⟨given, hFields, hPattern, -⟩
  refine ⟨hName, slot, given, hFields, hSlot, ?_⟩
  cases hSame
  rw [hPattern]
  exact hAccepted

/-
  If the test for a pinned branch and the discriminator
  pattern might hold of an object, the label of the object is
  among the pinned ones.
-/
theorem mem_pinned
    (hFree : ctx.table.TemplateFree)
    (h : s.InBranch ctx.table Γ part ms v w m)
    {p p' : Progress}
    (hTyped : p.registry.Typed ctx.table Γ)
    (hRead : a.Reads root v)
    {marker : Char}
    {span : Span}
    {caseName : Option String}
    {fromCase : Option (List Member)}
    (hCase :
      caseName.mapM (fun c => s.pinCase marker c span) = .ok fromCase)
    {fields : List (FieldName × Pattern)}
    {disc : List (FieldRead × Checked)}
    (hDisc : AcceptsAll ctx (s.discriminatorParts fields) p disc p')
    {o : LoweringOptions}
    {inside : Bool}
    (hPin :
      ∀ labels, fromCase = some labels →
        (Plan.test (Lowered.pin a
          { discriminator := s.discriminatorName, labels })).Might root true)
    (hParts :
      ∀ f ∈ disc,
        (f.2.plan o inside (.field a f.1.name)).Might root true)
    {labels : List Member}
    (hPinned : s.pinnedBy fromCase disc = some labels) :
    m.name ∈ labels.map Member.name := by
  have hNamed :
      ∀ named, fromCase = some named → m.name ∈ named.map Member.name := by
    rintro named rfl
    rcases h.pin_holds hCase with ⟨k, hk, rfl, hHolds⟩
    have hTrue := Test.eq_of_might (Lowered.isLeaf_pin a _)
      (fun c => (Lowered.reading_pin (hRead c) _).trans hHolds)
      (Plan.might_test_iff.mp (hPin _ rfl))
    rw [eq_of_ordinals_nodup h.tag.ordinals hk h.tag.listed
      (beq_iff_eq.mp hTrue.symm)]
    exact List.mem_cons_self
  have hAllowed :
      ∀ f ∈ disc, ∀ own, f.2.labels s = some own →
        m.name ∈ own.map Member.name := by
    intro f hf own hOwn
    rcases h.exists_acceptedAt hFree hTyped hDisc hf with
      ⟨hName, slot, given, -, hSlot, hAccepted⟩
    have hField : (Access.field a f.1.name).Reads root w :=
      hRead.field (hName ▸ h.field)
    exact hAccepted.allowsLabel hFree hTyped h.tag hSlot hField s own hOwn
      inside (hParts f hf)
  exact Schema.mem_pinnedBy hNamed hAllowed hPinned

end Schema.InBranch

end MatchCompiler

------------------------------------------------------------
-- What Object Patterns Meet
------------------------------------------------------------

namespace MatchCompiler

open Registry (GrowsTyped)

theorem Schema.Admits.isObject
    {t : TypeTable}
    {Γ : SlotTypes}
    {s : Schema}
    {v : Value}
    (h : s.Admits t Γ v)
    (hKind : s.kind = .record ∨ s.kind = .union) :
    v.IsObject := by
  unfold Admits at h
  rcases hKind with hKind | hKind <;>
  · rw [hKind] at h
    exact h.1

/- What is not known is no type with parts. -/
theorem TypeTable.IsUnknown.not_hasParts
    {t : TypeTable}
    {id : DescriptorId}
    {shape : Shape}
    (h : t.IsUnknown (.described id))
    (hShape : t.shape? id = some shape) :
    shape.hasParts = false := by
  cases h with
  | described hOther hUnknown =>
      cases hShape.symm.trans hOther
      cases shape with
      | object o => cases hUnknown
      | tuple elements => cases hUnknown
      | _ => rfl

/-
  A type that goes together with one of which nothing is
  known has no parts.
-/
theorem SchemaPool.TypedBy.not_hasParts
    {t : TypeTable}
    {Γ : SlotTypes}
    {p : SchemaPool}
    (h : p.TypedBy t Γ [])
    {slot target : SchemaId}
    {T T' E : ValueType}
    (hSlot : Γ[slot]? = some T)
    (hLeads : t.Leads TypeTable.anyView T E)
    (hUnknown : t.IsUnknown E)
    (hTarget : Γ[target]? = some T')
    (hCompat : p.compat target slot ≠ .incompatible) :
    ¬ (p.get target).HasParts := by
  intro hParts
  rcases (h.described target T' hTarget).parts hParts with
    ⟨-, id, shape, hId, hShape, hHas⟩
  have hEnd : t.IsEnd (.described id) := by
    refine TypeTable.isEnd_of_shape hShape fun kind view hEq => ?_
    rw [hEq] at hHas
    cases kind <;> cases hHas
  have hOther := h.unwrap_end hTarget hId hEnd
  have hOwn := h.unwrap_end hSlot hLeads
    (TypeTable.isEnd_of_isUnknown hUnknown)
  have hNothing := (h.shown _ _ hOwn nofun).unknown hUnknown
  have hKind :=
    (h.shown _ _ hOther nofun).constructed id shape rfl hShape hHas
  refine hCompat ?_
  rw [SchemaPool.compat_of_nominal (by rw [hNothing.kind]; decide),
    if_neg]
  · unfold SchemaPool.compatNominal
    dsimp only
    rw [if_neg, if_neg, if_neg]
    · simp [Schema.isExtensible, hNothing.extensible]
    · simp [hNothing.ancestors]
    · rw [hNothing.kind]
      rcases hKind with hKind | hKind | ⟨hKind, -⟩ <;> simp [hKind]
  · intro hSame
    rw [beq_iff_eq.mp hSame, hOwn] at hOther
    cases hOther
    rw [hUnknown.not_hasParts hShape] at hHas
    cases hHas

/-
  What is read as a record or union leads to an object, or
  to a type of which nothing is known.
-/
theorem Describes.exists_object_or_unknown
    {t : TypeTable}
    {Γ : SlotTypes}
    {T : ValueType}
    {s : Schema}
    (hRefers : t.RefersToObjects)
    (h : Describes t Γ T s)
    (hKind : s.structuralKind = .record ∨ s.structuralKind = .union) :
    ∃ E, t.Leads TypeTable.anyView T E ∧
      (t.IsUnknown E ∨
        ∃ id o, E = .described id ∧ t.shape? id = some (.object o)) := by
  cases hReference : s.isReference with
  | true =>
      rcases h.reference (beq_iff_eq.mp hReference) with
        ⟨U, V, hAlias, hShows⟩
      rcases hRefers U V hShows with ⟨E, hLeads, hEnd⟩
      exact ⟨E, hAlias.any.trans (.step trivial hShows hLeads), hEnd⟩
  | false =>
      rw [Schema.structuralKind_of_isReference hReference] at hKind
      rcases h.object hKind with ⟨id, o, hLeads, hShape⟩
      exact ⟨_, hLeads, .inr ⟨id, o, rfl, hShape⟩⟩

/-
  An object pattern reads parts only of objects that are of
  the type it names.
-/
theorem HeadMeans.exists_meets
    {ctx : CheckContext}
    {Γ : SlotTypes}
    {s s₁ : Progress}
    {slot : SchemaId}
    {head : ConstructorHead}
    {resolved : ResolvedHead}
    {T : ValueType}
    (hFree : ctx.table.TemplateFree)
    (hNames : ctx.table.DistinctNames)
    (hRefers : ctx.table.RefersToObjects)
    (h : HeadMeans ctx slot head s resolved s₁)
    (hTyped : s.registry.Typed ctx.table Γ)
    (hSlot : Γ[slot]? = some T)
    (hKind :
      (s.pool.get slot).structuralKind = .record ∨
        (s.pool.get slot).structuralKind = .union)
    {v : Value}
    (hValue : HasType ctx.table T v)
    (hTested : ∀ name ∈ resolved.runtimeType, v.isOfType name = true)
    (hNil : (s.pool.get slot).isReference = true → v ≠ .nil) :
    ∃ Γ₁ T', GrowsTyped ctx.table Γ s.registry Γ₁ s₁.registry ∧
      Γ₁[resolved.target]? = some T' ∧
      ((s₁.pool.get resolved.target).HasParts →
        HasType ctx.table T' v ∧ v.IsObject) := by
  have hDescribes := hTyped.pool.described slot T hSlot
  rcases hDescribes.exists_object_or_unknown hRefers hKind with
    ⟨E, hLeads, hUnknown | ⟨u, o, rfl, hShape⟩⟩
  · rcases h.growsTyped hFree hTyped hSlot with ⟨Γ₁, T', hGrows, hTarget⟩
    rcases hGrows.slot hTyped hSlot with ⟨hSlot₁, -⟩
    refine ⟨Γ₁, T', hGrows, hTarget, fun hParts => ?_⟩
    refine absurd hParts (hGrows.typed.pool.not_hasParts hSlot₁ hLeads
      hUnknown hTarget ?_)
    cases h with
    | own => simp [SchemaPool.compat, SchemaPool.compatDepth,
        SchemaPool.compatWithin]
    | base _ hCompat => exact ne_of_eq_of_ne hCompat (by decide)
    | derived _ hCompat => exact ne_of_eq_of_ne hCompat (by decide)
  · have hSome : v ≠ .nil := by
      cases hReference : (s.pool.get slot).isReference with
      | true => exact hNil hReference
      | false =>
          rw [Schema.structuralKind_of_isReference hReference] at hKind
          exact ((hDescribes.values v hValue).isObject hKind).ne_nil
    have hObject := hValue.along hSome hLeads
    rcases h.exists_types hFree hNames hTyped hSlot hLeads hShape hObject
        hTested with ⟨Γ₁, T', hGrows, hTarget, hTypes⟩
    exact ⟨Γ₁, T', hGrows, hTarget,
      fun _ => ⟨hTypes, hObject.isObject hShape⟩⟩

end MatchCompiler
