import MatchCompiler.Proofs.CompileVerdict
import MatchCompiler.Proofs.CoverageSoundness

/-
  This file shows that coverage is sound for matches on plain
  closed types.

  Key definitions include:
    * `TypeTable.TellsApart`
    * `TypeTable.PlainlyClosed`

  Key theorems include:
    * `Describes.discriminates`
    * `AcceptedAt.boundBy_union`
    * `coverage_sound_of_plainlyClosed`
-/

------------------------------------------------------------
-- Unions
------------------------------------------------------------

namespace MatchCompiler

/-
  The values of a discriminator are told apart by name and by
  number, and no field of a branch bears its name.
-/
structure TypeTable.TellsApart
    (t : TypeTable)
    (part : VariantPart)
    (ms : List Member) : Prop where
  lists : ∃ n, t.Lists (t.typeOf part.discriminator.type) n ms
  names : (ms.map Member.name).Nodup
  ordinals : (ms.map Member.ordinal).Nodup
  apart :
    ∀ b ∈ part.branches, ∀ f ∈ b.fields,
      f.name ≠ part.discriminator.name

/-
  A type leads to an object whose only variant part, its own
  or that of a base, is a given one.
-/
structure TypeTable.VariesOnlyBy
    (t : TypeTable)
    (T : ValueType)
    (u top : DescriptorId)
    (part : VariantPart) : Prop where
  leads : t.Leads TypeTable.anyView T (.described u)
  object : ∃ o, t.shape? u = some (.object o)
  below : t.Below u top
  variant : ∃ o, t.shape? top = some (.object o) ∧ o.variant = some part
  only :
    ∀ last o part', t.Below u last → t.shape? last = some (.object o) →
      o.variant = some part' → part' = part

theorem VariantPart.fieldsOf_subset
    (part : VariantPart)
    (label : String) :
    ∀ f ∈ part.fieldsOf label, ∃ b ∈ part.branches, f ∈ b.fields := by
  intro f hf
  rcases part.fieldsOf_eq label with hNone | ⟨b, hb, hSame⟩
  · rw [hNone] at hf
    cases hf
  · exact ⟨b, hb, hSame ▸ hf⟩

/- What is below an object is an object, or the same. -/
theorem TypeTable.Below.isObject
    {t : TypeTable}
    {id last : DescriptorId}
    {o : ObjectShape}
    (h : t.Below id last)
    (hLast : t.shape? last = some (.object o)) :
    ∃ o', t.shape? id = some (.object o') := by
  cases h with
  | refl => exact ⟨o, hLast⟩
  | step hShape => exact ⟨_, hShape⟩

namespace TypeTable.VariesOnlyBy

variable {t : TypeTable}
variable {Γ : SlotTypes}
variable {T : ValueType}
variable {u top : DescriptorId}
variable {part : VariantPart}
variable {s : Schema}

/- A described object that the type leads to is the union. -/
theorem eq_of_leads
    (h : t.VariesOnlyBy T u top part)
    {id : DescriptorId}
    {o : ObjectShape}
    (hLeads : t.Leads TypeTable.anyView T (.described id))
    (hShape : t.shape? id = some (.object o)) :
    id = u := by
  rcases h.object with ⟨o', hObject⟩
  cases Leads.end_unique (isEnd_of_object hShape) (isEnd_of_object hObject)
    hLeads h.leads
  rfl

/- What is read as a union varies by the given part. -/
theorem variesBy
    (h : t.VariesOnlyBy T u top part)
    (hDescribes : Describes t Γ T s)
    (hSome : s.discriminator.isSome = true) :
    s.VariesBy t Γ part := by
  rcases hDescribes.variant hSome with
    ⟨id, last, o, part', hLeads, hBelow, hShape, hPart, hVaries⟩
  rcases hBelow.isObject hShape with ⟨o', hObject⟩
  cases h.eq_of_leads hLeads hObject
  cases h.only last o part' hBelow hShape hPart
  exact hVaries

/- A schema of the type that is closed is read as a union. -/
theorem structuralKind_eq
    (h : t.VariesOnlyBy T u top part)
    (hDescribes : Describes t Γ T s)
    {v : Value}
    (hTyped : HasType t T v)
    (hClosed : s.structuralKind.isClosed = true) :
    s.structuralKind = .union := by
  rcases h.object with ⟨o, hObject⟩
  have hValue : v ≠ .nil → v.IsObject := fun hNil =>
    (hTyped.along hNil h.leads).isObject hObject
  have hKind : s.structuralKind ≠ .union → s.kind = s.structuralKind := by
    unfold Schema.structuralKind at hClosed ⊢
    split at hClosed
    · split at hClosed
      · rename_i hReference hSome
        simp [hReference, hSome]
      · cases hClosed
    · rename_i hOther
      simp [hOther]
  by_contra hUnion
  have hAdmits := hDescribes.values v hTyped
  cases hSame : s.structuralKind with
  | union => exact hUnion hSame
  | enumeration =>
      have hEnumeration := (hKind hUnion).trans hSame
      rcases hDescribes.lists s.members (.inl ⟨hEnumeration, rfl⟩) with
        ⟨n, hLists⟩
      rcases hLists.exists_end with ⟨E, hLeads, hEnd, hLists⟩
      cases Leads.end_unique hEnd (isEnd_of_object hObject) hLeads.any h.leads
      exact not_lists_of_object hObject hLists
  | optional =>
      have hOptional := (hKind hUnion).trans hSame
      simp only [Schema.Admits, hOptional] at hAdmits
      rcases hAdmits with rfl | ⟨w, rfl, -⟩
      · rcases hValue (by rintro ⟨⟩) with ⟨chain, values, hEq⟩
        cases hEq
      · rcases hValue (by rintro ⟨⟩) with ⟨chain, values, hEq⟩
        cases hEq
  | _ =>
      rw [hSame] at hClosed
      cases hClosed

/- An object of the type has a label. -/
theorem exists_label
    (h : t.VariesOnlyBy T u top part)
    {ms : List Member}
    (hApart : t.TellsApart part ms)
    {v : Value}
    (hTyped : HasType t T v)
    (hNil : v ≠ .nil) :
    ∃ w m, v.field? part.discriminator.name = some w ∧
      HasLabel t (t.typeOf part.discriminator.type) ms w m := by
  rcases h.variant with ⟨o, hShape, hPart⟩
  have hTop := (hTyped.along hNil h.leads).of_below h.below
    (TypeTable.isEnd_of_object hShape)
  rcases hApart.lists with ⟨n, hLists⟩
  rcases hTop.exists_selected hShape hPart hLists with
    ⟨w, m, hField, hValue, hTag, hm, -⟩
  exact ⟨w, m, hField,
    ⟨⟨⟨n, hLists⟩, hApart.ordinals, hValue, hTag, hm⟩, hApart.names⟩⟩

end TypeTable.VariesOnlyBy

/- A schema that varies by a part has its labels. -/
theorem Schema.VariesBy.discriminates
    {t : TypeTable}
    {Γ : SlotTypes}
    {s : Schema}
    {part : VariantPart}
    {ms : List Member}
    (h : s.VariesBy t Γ part)
    (hApart : t.TellsApart part ms) :
    s.Discriminates part.discriminator.name ms ∧
    ∀ d, s.discriminator = some d →
      Γ[d.schema]? = some (t.typeOf part.discriminator.type) := by
  rcases h with ⟨slot, hDisc, hSlot, hLabels, -⟩
  rcases hApart.lists with ⟨n, hLists⟩
  refine ⟨⟨⟨slot, hDisc⟩, hLabels n ms hLists⟩, fun d hd => ?_⟩
  cases hDisc.symm.trans hd
  exact hSlot

/- No field of a branch bears the name of the discriminator. -/
theorem Schema.VariesBy.name_ne
    {t : TypeTable}
    {Γ : SlotTypes}
    {s : Schema}
    {part : VariantPart}
    {ms : List Member}
    (h : s.VariesBy t Γ part)
    (hApart : t.TellsApart part ms)
    {pinned : Option (List Member)}
    {f : Field}
    (hPart : s.PartField pinned f) :
    f.name ≠ part.discriminator.name := by
  cases hPart with
  | shared _ hOther =>
      intro hName
      have hDisc := (h.discriminates hApart).1
      rw [(hDisc.isDiscriminator_iff f.name).mpr hName] at hOther
      cases hOther
  | branch _ _ hBranch hField =>
      rcases h with ⟨slot, -, -, -, hFields⟩
      rcases hFields _ (List.mem_of_find?_eq_some hBranch) f hField with
        ⟨d, hd, hDeclares⟩
      rcases part.fieldsOf_subset _ d hd with ⟨b, hb, hd⟩
      rw [hDeclares.1]
      exact hApart.apart b hb d hd

end MatchCompiler

------------------------------------------------------------
-- Patterns At Unions
------------------------------------------------------------

namespace MatchCompiler

theorem Checked.mem_branchLabels_of_objectLabels
    {s : Schema}
    {whole : Bool}
    {head : ObjectHead}
    {fields : List (FieldRead × Checked)}
    {label : String}
    (h : label ∈ objectLabels s whole head fields) :
    label ∈ s.branchLabels := by
  unfold objectLabels at h
  dsimp only at h
  split at h
  · exact (List.mem_filter.mp h).1
  · exact (List.mem_filter.mp (List.mem_filter.mp h).1).1

/- The label of a value that is matched as a union. -/
inductive UnionLabel
    (t : TypeTable)
    (s : Schema)
    (name : String)
    (D : ValueType)
    (ms : List Member) : Value → String → Prop
| nil
    (hReference : s.isReference = true) :
    UnionLabel t s name D ms .nil "nil"
| object
    {v w : Value}
    {m : Member}
    (hField : v.field? name = some w)
    (hLabel : HasLabel t D ms w m) :
    UnionLabel t s name D ms v m.name

namespace UnionLabel

variable {t : TypeTable}
variable {s : Schema}
variable {name : String}
variable {D : ValueType}
variable {ms : List Member}
variable {v : Value}
variable {label : String}

theorem mem_coverLabels
    (h : UnionLabel t s name D ms v label)
    (hKind : s.structuralKind = .union)
    (hDisc : s.Discriminates name ms) :
    label ∈ s.coverLabels := by
  unfold Schema.coverLabels Schema.caseLabels
  rw [hKind]
  change label ∈ s.branchLabels ++ _
  cases h with
  | nil hReference =>
      rw [if_pos hReference]
      exact List.mem_append_right _ (List.mem_singleton_self _)
  | object _ hLabel =>
      refine List.mem_append_left _ ?_
      rw [hDisc.branchLabels_eq]
      exact List.mem_map_of_mem hLabel.listed

/- Nil is what the label of nil stands for. -/
theorem isNil_iff
    (h : UnionLabel t s name D ms v label)
    (hNil : "nil" ∉ ms.map Member.name) :
    v.isNil = true ↔ label = "nil" := by
  cases h with
  | nil => exact ⟨fun _ => rfl, fun _ => rfl⟩
  | @object v w m hField hLabel =>
      constructor
      · intro hIs
        cases v with
        | nil => cases hField
        | _ => cases hIs
      · intro hEq
        exact (hNil (hEq ▸ List.mem_map_of_mem hLabel.listed)).elim

variable {o : LoweringOptions}

/- The literal for nil is bound at a union. -/
theorem boundBy_nil
    (h : UnionLabel t s name D ms v label)
    (hNil : "nil" ∉ ms.map Member.name)
    (span : Span) :
    (Checked.literal span .nil).BoundBy (Checked.cover s)
      (Checked.footprint s) o v .scrutinee label := by
  have hIff := h.isNil_iff hNil
  exact Checked.boundBy_of_answer (t := .isNil .scrutinee)
    (fun _ => rfl) rfl (Test.eq_of_might trivial fun _ => rfl)
    (fun hIn => hIff.mpr (List.mem_singleton.mp hIn))
    (fun hIs => List.mem_singleton.mpr (hIff.mp hIs))

/- An object pattern is bound, if it tests a reference for nil. -/
theorem boundBy_object
    (h : UnionLabel t s name D ms v label)
    (hDisc : s.Discriminates name ms)
    (hNil : s.isReference = true → "nil" ∉ ms.map Member.name)
    {head : ObjectHead}
    {fields : List (FieldRead × Checked)}
    (hCheck : head.nilCheck = s.isReference)
    (hReads :
      ∀ w m, v.field? name = some w → HasLabel t D ms w m →
        ObjectReads name ms
          (Checked.BoundBy (Checked.discriminatorLabels s true)
            (Checked.discriminatorLabels s false) o v
            (.field .scrutinee name) m.name)
          head fields)
    (span : Span) :
    (Checked.object span head fields).BoundBy (Checked.cover s)
      (Checked.footprint s) o v .scrutinee label := by
  cases h with
  | object hField hLabel =>
      exact (hReads _ _ hField hLabel).boundBy hDisc hLabel
        (fun _ => rfl) hField span
  | nil hReference =>
      constructor
      · intro hIn
        unfold Checked.cover at hIn
        split at hIn
        · have hBranch := Checked.mem_branchLabels_of_objectLabels hIn
          rw [hDisc.branchLabels_eq] at hBranch
          exact (hNil hReference hBranch).elim
        · cases hIn
      · intro inside hMight
        rw [hReference] at hCheck
        have hTest := Plan.might_all_true.mp hMight
          (.test (.isNotNil .scrutinee))
          (List.mem_append_left _ (List.mem_map_of_mem
            (Lowered.mem_objectTests.mpr (.inr (.inl ⟨hCheck, rfl⟩)))))
        cases Test.eq_of_might (t := .isNotNil .scrutinee) (b := false)
          trivial (fun _ => rfl) (Plan.might_test_iff.mp hTest)

end UnionLabel

/-
  Patterns at a union are bound, if its object patterns read
  the discriminator as they should.
-/
theorem AcceptedAt.boundBy_union
    {ctx : CheckContext}
    {Γ : SlotTypes}
    {r : Registry}
    (hFree : ctx.table.TemplateFree)
    (hTyped : r.Typed ctx.table Γ)
    {slot : SchemaId}
    {T D : ValueType}
    (hSlot : Γ[slot]? = some T)
    (hKind : (r.pool.get slot).structuralKind = .union)
    {name : String}
    {ms : List Member}
    (hDisc : (r.pool.get slot).Discriminates name ms)
    (hNil :
      (r.pool.get slot).isReference = true →
        "nil" ∉ ms.map Member.name)
    {v : Value}
    {label : String}
    (hLabel : UnionLabel ctx.table (r.pool.get slot) name D ms v label)
    {o : LoweringOptions}
    {p : Pattern}
    {q : Checked}
    (h : AcceptedAt ctx Γ r p slot q)
    (hObjects :
      ∀ p' span head fields, p'.outerHeads ⊆ p.outerHeads →
        head ∈ q.outerObjects →
        AcceptedAt ctx Γ r p' slot (.object span head fields) →
        head.nilCheck = (r.pool.get slot).isReference ∧
        ∀ w m, v.field? name = some w → HasLabel ctx.table D ms w m →
          ObjectReads name ms
            (Checked.BoundBy
              (Checked.discriminatorLabels (r.pool.get slot) true)
              (Checked.discriminatorLabels (r.pool.get slot) false) o v
              (.field .scrutinee name) m.name)
            head fields) :
    q.BoundBy (Checked.cover (r.pool.get slot))
      (Checked.footprint (r.pool.get slot)) o v .scrutinee label := by
  have hCovered := hLabel.mem_coverLabels hKind hDisc
  refine Checked.MadeOf.boundBy (Checked.labelBound_cover _) ?_
  refine (h.madeOf hFree hSlot fun p' q' hAccepted hNode hHeads =>
    (⟨p', hAccepted, hNode, hHeads⟩ : ∃ p', AcceptedAt ctx Γ r p' slot q' ∧
      p'.IsNode ∧ p'.outerHeads ⊆ p.outerHeads)).within.mono ?_
  rintro q' ⟨⟨p', hAccepted, hNode, hHeads⟩, hObject⟩
  have hAll := hAccepted
  rcases hAccepted with ⟨s₁, s₂, Γ₁, hGrows, hAccepts⟩
  rcases hGrows.slot hTyped hSlot with ⟨-, hSame⟩
  cases hAccepts with
  | wildcard => exact Checked.boundBy_wildcard hCovered
  | @literal span _ _ l meaning hMeaning =>
      have hIs :
          meaning = .nil ∧ (r.pool.get slot).isReference = true := by
        have hCases := SchemaPool.cases_of_checkLiteral hMeaning
        rw [Progress.pool, hSame, hKind] at hCases
        simpa using hCases
      rcases hIs with ⟨rfl, hReference⟩
      exact hLabel.boundBy_nil (hNil hReference) span
  | typeTest hTested =>
      cases hTested with
      | holds => exact Checked.boundBy_wildcard hCovered
      | tested => exact ⟨nofun, fun _ _ => hCovered⟩
  | @object span head fields args _ resolved target fromCase disc rest _ _
      _ _ _ _ _ _ _ _ =>
      rcases hObjects _ span _ _ hHeads
        (hObject (List.mem_singleton_self _)) hAll with ⟨hCheck, hReads⟩
      exact hLabel.boundBy_object hDisc hNil hCheck hReads span
  | bind => exact hNode.elim
  | named => exact hNode.elim
  | alt => exact hNode.elim
  | guarded => exact hNode.elim
  | narrow => exact hNode.elim
  | some | someUnknown | none | seq | tuple | set | map =>
      exact (hAll.false_of_kind hTyped hSlot hKind rfl rfl).elim

end MatchCompiler

------------------------------------------------------------
-- Object Patterns
------------------------------------------------------------

namespace MatchCompiler

/- There is at most one part for the discriminator. -/
theorem Schema.eq_of_mem_discriminatorParts
    {s : Schema}
    {fields : List (FieldName × Pattern)}
    {ctx : CheckContext}
    {p p' : Progress}
    {disc : List (FieldRead × Checked)}
    (h : AcceptsAll ctx (s.discriminatorParts fields) p disc p')
    {f g : FieldRead × Checked}
    (hf : f ∈ disc)
    (hg : g ∈ disc) :
    f = g := by
  have hLength := h.length_eq
  have hOne : (s.discriminatorParts fields).length ≤ 1 := by
    unfold discriminatorParts
    split
    · exact Nat.zero_le 1
    · split
      · exact Nat.zero_le 1
      · exact Nat.le_refl 1
  match disc, hf, hg with
  | [only], hf, hg =>
      rw [List.mem_singleton.mp hf, List.mem_singleton.mp hg]
  | _ :: _ :: rest, _, _ =>
      rw [List.length_cons, List.length_cons] at hLength
      omega

/- The labels that a case name pins are among the branches. -/
theorem Schema.Discriminates.of_pinCase
    {s : Schema}
    {name : String}
    {ms : List Member}
    (h : s.Discriminates name ms)
    {marker : Char}
    {span : Span}
    {caseName : Option String}
    {labels : List Member}
    (hCase :
      caseName.mapM (fun c => s.pinCase marker c span) =
        .ok (some labels)) :
    ∃ m ∈ ms, labels = [m] := by
  rcases exists_pinCase hCase with ⟨c, hPin⟩
  rcases eq_of_pinCase hPin with ⟨b, hb, rfl⟩
  exact ⟨_, h.mem_of_branch? hb, rfl⟩

theorem Schema.Discriminates.discriminatorName_eq
    {s : Schema}
    {name : String}
    {ms : List Member}
    (h : s.Discriminates name ms) :
    s.discriminatorName = name := by
  rcases h.field with ⟨slot, hDisc⟩
  unfold discriminatorName
  rw [hDisc]
  rfl

/-
  An object pattern whose fields belong to a schema that
  varies by a part reads the discriminator of that part.
-/
theorem Schema.VariesBy.objectReads
    {ctx : CheckContext}
    {Γ : SlotTypes}
    (hFree : ctx.table.TemplateFree)
    {s₁ s₂ s₃ : Progress}
    (hTyped : s₁.registry.Typed ctx.table Γ)
    {target s : Schema}
    {part : VariantPart}
    {ms : List Member}
    (hVaries : target.VariesBy ctx.table Γ part)
    (hApart : ctx.table.TellsApart part ms)
    {fields : List (FieldName × Pattern)}
    {args : List Pattern}
    {span : Span}
    {caseName : Option String}
    {fromCase pinned : Option (List Member)}
    {disc rest : List (FieldRead × Checked)}
    (hCase :
      caseName.mapM (fun c => target.pinCase ctx.marker c span) =
        .ok fromCase)
    (hDisc :
      AcceptsAll ctx (target.discriminatorParts fields) s₁ disc s₂)
    (hRest :
      AcceptsAll ctx
        (target.namedParts pinned fields ++ target.unnamedParts pinned args)
        s₂ rest s₃)
    {v w : Value}
    {m : Member}
    (hField : v.field? part.discriminator.name = some w)
    (hLabel :
      HasLabel ctx.table (ctx.table.typeOf part.discriminator.type) ms w m)
    (hBranch : m.name ∈ s.branchLabels)
    {o : LoweringOptions}
    {head : ObjectHead}
    (hPin :
      head.pin = fromCase.map fun labels =>
        { discriminator := target.discriminatorName, labels }) :
    ObjectReads part.discriminator.name ms
      (Checked.BoundBy (Checked.discriminatorLabels s true)
        (Checked.discriminatorLabels s false) o v
        (.field .scrutinee part.discriminator.name) m.name)
      head (disc ++ rest) := by
  rcases hVaries.discriminates hApart with ⟨hTarget, hSlot⟩
  have hRead : (Access.field .scrutinee part.discriminator.name).Reads v w :=
    Access.Reads.field (fun _ => rfl) hField
  have hSlots :
      ∀ given ∈ target.discriminatorParts fields,
        Γ[given.2.1]? =
          some (ctx.table.typeOf part.discriminator.type) := by
    intro given hGiven
    rcases Schema.exists_discriminator_of_mem hGiven with ⟨d, hd, -, hEq⟩
    rw [hEq]
    exact hSlot d hd
  -- The other parts read other fields.
  have hInside :
      ∀ f ∈ disc ++ rest, f.1.name = part.discriminator.name → f ∈ disc := by
    intro f hf hName
    rcases List.mem_append.mp hf with hf | hf
    · exact hf
    · have hLabelled := List.mem_map_of_mem hf (f := Prod.fst)
      rw [hRest.labels] at hLabelled
      rcases List.mem_map.mp hLabelled with ⟨given, hGiven, hEq⟩
      rcases Schema.partField_of_mem hGiven with ⟨g, hRead, -, hPart⟩
      refine (hVaries.name_ne hApart hPart ?_).elim
      rw [← hName, ← hEq, hRead]
      rfl
  refine ⟨fun p hp => ?_, fun f hf hName => ?_, fun _ f hf g hg hF hG => ?_⟩
  · rw [hPin] at hp
    rcases Option.map_eq_some_iff.mp hp with ⟨labels, hLabels, rfl⟩
    rw [hLabels] at hCase
    exact ⟨hTarget.discriminatorName_eq, hTarget.of_pinCase hCase⟩
  · rcases hDisc.exists_acceptedAt hFree hTyped
        (fun given hGiven => ⟨_, hSlots given hGiven⟩)
        (hInside f hf hName) with ⟨id, p, hGiven, hAccepted⟩
    exact hAccepted.boundBy_discriminator hFree hTyped hLabel
      (hSlots _ hGiven) hBranch hRead
  · exact Schema.eq_of_mem_discriminatorParts hDisc (hInside f hf hF)
      (hInside g hg hG)

end MatchCompiler

------------------------------------------------------------
-- Lists Of Arms
------------------------------------------------------------

namespace MatchCompiler

open Registry (GrowsTyped)

/- Arms that are all accepted are accepted one after the other. -/
theorem Registry.of_checkArms_cons
    {ctx : CheckContext}
    {r r' : Registry}
    {slot : SchemaId}
    {p : Pattern}
    {ps : List Pattern}
    {arms : List CheckedArm}
    (h : r.checkArms ctx slot (p :: ps) = (r', arms.map .ok)) :
    ∃ r₁ arm rest, arms = arm :: rest ∧
      r.checkArm ctx slot p = (r₁, .ok arm) ∧
      r₁.checkArms ctx slot ps = (r', rest.map .ok) := by
  unfold checkArms at h
  cases hArm : r.checkArm ctx slot p with
  | mk r₁ result =>
      rw [hArm] at h
      dsimp only at h
      cases hRest : r₁.checkArms ctx slot ps with
      | mk r₂ results =>
          rw [hRest] at h
          cases arms with
          | nil => cases h
          | cons arm arms =>
              simp only [List.map_cons, Prod.mk.injEq,
                List.cons.injEq] at h
              rcases h with ⟨rfl, rfl, rfl⟩
              exact ⟨r₁, arm, arms, rfl, rfl, hRest⟩

/- The arms of a match come from accepted patterns. -/
theorem Registry.exists_of_checkArms
    {ctx : CheckContext}
    {Γ : SlotTypes}
    {r r' : Registry}
    (hFree : ctx.table.TemplateFree)
    (hTyped : r.Typed ctx.table Γ)
    {slot : SchemaId}
    {T : ValueType}
    (hSlot : Γ[slot]? = some T)
    {ps : List Pattern}
    {arms : List CheckedArm}
    (h : r.checkArms ctx slot ps = (r', arms.map .ok)) :
    (∃ Γ', GrowsTyped ctx.table Γ r Γ' r') ∧
    ∀ arm ∈ arms, ∃ p ∈ ps, arm.AcceptedFrom p ∧
      AcceptedAt ctx Γ r p slot arm.pattern := by
  induction ps generalizing r Γ arms with
  | nil =>
      cases arms with
      | nil =>
          cases h
          exact ⟨⟨Γ, .refl hTyped⟩, nofun⟩
      | cons arm arms => cases h
  | cons p ps ih =>
      rcases of_checkArms_cons h with ⟨r₁, arm, rest, rfl, hArm, hRest⟩
      have hAccepts := accepts_of_checkArm hArm
      have hFrom : arm.AcceptedFrom p :=
        ⟨r, ctx, slot, congrArg Prod.snd hArm⟩
      rcases hAccepts.growsTyped hFree hTyped hSlot with ⟨Γ₁, hGrows⟩
      rcases ih hGrows.typed (SlotTypes.kept hGrows.types hSlot) hRest with
        ⟨⟨Γ₂, hGrows₂⟩, hArms⟩
      refine ⟨⟨Γ₂, hGrows.trans hGrows₂⟩,
        List.forall_mem_cons.mpr ⟨?_, fun arm' harm' => ?_⟩⟩
      · exact ⟨p, List.mem_cons_self, hFrom, _, _, Γ, .refl hTyped,
          hAccepts⟩
      · rcases hArms arm' harm' with ⟨p', hp', hFrom', hAt⟩
        exact ⟨p', List.mem_cons_of_mem p hp', hFrom',
          hAt.of_grows hGrows⟩

/-
  The patterns of a match on a descriptor are all accepted,
  in a registry that was used with the table only.
-/
inductive CheckContext.AcceptsMatch
    (ctx : CheckContext)
    (id : DescriptorId)
    (ps : List Pattern) :
    SchemaId → Registry → List CheckedArm → Prop
| checked
    {r r' : Registry}
    {arms : List CheckedArm}
    (hBuilt : r.BuiltWith ctx.table)
    (hChecked :
      (r.schemaWithin ctx.table ctx.depth id).1.checkArms ctx
        (r.schemaWithin ctx.table ctx.depth id).2 ps =
          (r', arms.map .ok)) :
    AcceptsMatch ctx id ps (r.schemaWithin ctx.table ctx.depth id).2 r'
      arms

/-
  The slots of such a registry stand for types, that of the
  match for the described one if anything is said of it.
-/
theorem CheckContext.AcceptsMatch.exists_typed
    {ctx : CheckContext}
    (hFree : ctx.table.TemplateFree)
    {id : DescriptorId}
    {ps : List Pattern}
    {slot : SchemaId}
    {r : Registry}
    {arms : List CheckedArm}
    (h : ctx.AcceptsMatch id ps slot r arms) :
    ∃ Γ r₀ T, r₀.Typed ctx.table Γ ∧ Γ[slot]? = some T ∧
      (T = ctx.table.typeOf (.described id) ∨ T = .anything) ∧
      r.pool.get slot = r₀.pool.get slot ∧
      ∀ arm ∈ arms, ∃ p ∈ ps, arm.AcceptedFrom p ∧
        AcceptedAt ctx Γ r₀ p slot arm.pattern := by
  rcases h with ⟨hBuilt, hChecked⟩
  rcases hBuilt.exists_typed hFree with ⟨Γ, hTyped⟩
  rcases hTyped.schemaWithin hFree _ id with ⟨Γ', T, hGrows, hSlot, hType⟩
  rcases Registry.exists_of_checkArms hFree hGrows.typed hSlot hChecked with
    ⟨⟨Γ'', hMore⟩, hArms⟩
  exact ⟨Γ', _, T, hGrows.typed, hSlot, hType,
    (hMore.slot hGrows.typed hSlot).2, hArms⟩

/-
  Coverage is sound for a match on a described type if the
  patterns that are accepted at its slot are bound by a label
  of the value, for every closed schema that it may have.
-/
theorem CheckContext.AcceptsMatch.coverage_sound
    {ctx : CheckContext}
    (hFree : ctx.table.TemplateFree)
    {id : DescriptorId}
    (hDescribed : ctx.table.typeOf (.described id) = .described id)
    {ps : List Pattern}
    {slot : SchemaId}
    {r : Registry}
    {arms : List CheckedArm}
    (h : ctx.AcceptsMatch id ps slot r arms)
    {o : LoweringOptions}
    {v : Value}
    (hLabel :
      ∀ Γ r₀, r₀.Typed ctx.table Γ → Γ[slot]? = some (.described id) →
        (r₀.pool.get slot).structuralKind.isClosed = true →
        ∃ label, label ∈ (r₀.pool.get slot).coverLabels ∧
          ∀ p ∈ ps, ∀ arm ∈ arms,
            AcceptedAt ctx Γ r₀ p slot arm.pattern →
            arm.pattern.BoundBy (Checked.cover (r₀.pool.get slot))
              (Checked.footprint (r₀.pool.get slot)) o v .scrutinee label)
    (span : Span)
    (exhaustive : Bool)
    {σ : Type}
    (host : GuardHost σ)
    (state : σ) :
    ((r.pool.coverage slot arms span).exhaustive = true →
      ((Procedure.ofArms o arms slot exhaustive).execute host v
        state).1 ≠ .error .noMatch) ∧
    ∀ found,
      ((Procedure.ofArms o arms slot exhaustive).execute host v
        state).1 = .ok found →
      found.arm ∉ (r.pool.coverage slot arms span).redundant := by
  rcases h.exists_typed hFree with
    ⟨Γ, r₀, T, hTyped, hSlot, hType, hSame, hArms⟩
  have hBound :
      ∃ label,
        ((r.pool.get slot).structuralKind.isClosed = true →
          label ∈ (r.pool.get slot).coverLabels) ∧
        ∀ arm ∈ arms, arm.BoundFor (r.pool.get slot) o v label := by
    rw [hSame]
    by_cases hKind : (r₀.pool.get slot).structuralKind.isClosed = true
    · have hEq : T = .described id := by
        rcases hType with rfl | rfl
        · exact hDescribed
        · -- Nothing is known about the values: the schema is not closed.
          have hUnknown := ((hTyped.pool.shown slot _ hSlot nofun).unknown
            .anything).kind
          rw [Schema.structuralKind, hUnknown] at hKind
          cases hKind
      subst hEq
      rcases hLabel Γ r₀ hTyped hSlot hKind with ⟨label, hCovered, hBound⟩
      refine ⟨label, fun _ => hCovered, fun arm hArm => ?_⟩
      rcases hArms arm hArm with ⟨p, hp, hFrom, hAccepted⟩
      exact ⟨⟨p, hFrom⟩, fun _ => hBound p hp arm hArm hAccepted⟩
    · refine ⟨"", fun hIs => absurd hIs hKind, fun arm hArm => ?_⟩
      rcases hArms arm hArm with ⟨p, hp, hFrom, -⟩
      exact ⟨⟨p, hFrom⟩, fun hIs => absurd hIs hKind⟩
  rcases hBound with ⟨label, hCovered, hBound⟩
  exact SchemaPool.coverage_sound_of_bound hBound hCovered span exhaustive
    host state

/- Whether a run fails in a given way can be decided. -/
instance
    (r : Except Fault MatchOutcome)
    (f : Fault) :
    Decidable (r = .error f) :=
  match r with
  | .error f' =>
      decidable_of_iff (f' = f) ⟨congrArg Except.error, Except.error.inj⟩
  | .ok _ => .isFalse nofun

/- The check of a match in a fresh registry. -/
def CheckContext.checkMatch
    (ctx : CheckContext)
    (id : DescriptorId)
    (ps : List Pattern) :
    Registry × List (Except (List Problem) CheckedArm) :=
  let fresh : Registry := { marker := ctx.marker }
  let (r, slot) := fresh.schemaWithin ctx.table ctx.depth id
  r.checkArms ctx slot ps

/- A match whose arms are all checked is accepted. -/
theorem CheckContext.acceptsMatch_of_checkArms
    {ctx : CheckContext}
    {r : Registry}
    (hBuilt : r.BuiltWith ctx.table)
    {id : DescriptorId}
    {ps : List Pattern}
    (h :
      ((r.schemaWithin ctx.table ctx.depth id).1.checkArms ctx
        (r.schemaWithin ctx.table ctx.depth id).2 ps).2.all
          Except.isOk = true) :
    ctx.AcceptsMatch id ps (r.schemaWithin ctx.table ctx.depth id).2
      ((r.schemaWithin ctx.table ctx.depth id).1.checkArms ctx
        (r.schemaWithin ctx.table ctx.depth id).2 ps).1
      (acceptedArms
        ((r.schemaWithin ctx.table ctx.depth id).1.checkArms ctx
          (r.schemaWithin ctx.table ctx.depth id).2 ps).2) :=
  .checked hBuilt (Prod.ext rfl (eq_map_acceptedArms h))

theorem CheckContext.acceptsMatch_of_checkMatch
    {ctx : CheckContext}
    {id : DescriptorId}
    {ps : List Pattern}
    (h : (ctx.checkMatch id ps).2.all Except.isOk = true) :
    ctx.AcceptsMatch id ps
      (Registry.schemaWithin { marker := ctx.marker } ctx.table ctx.depth
        id).2
      (ctx.checkMatch id ps).1 (acceptedArms (ctx.checkMatch id ps).2) :=
  acceptsMatch_of_checkArms (.fresh ctx.marker) h

end MatchCompiler

------------------------------------------------------------
-- Enumerations And Optionals
------------------------------------------------------------

namespace MatchCompiler

/- Patterns at an enumeration are bound by its members. -/
theorem AcceptedAt.boundBy_enumeration
    {ctx : CheckContext}
    {Γ : SlotTypes}
    {r : Registry}
    (hFree : ctx.table.TemplateFree)
    (hTyped : r.Typed ctx.table Γ)
    {slot : SchemaId}
    {T : ValueType}
    (hSlot : Γ[slot]? = some T)
    (hKind : (r.pool.get slot).kind = .enumeration)
    {ms : List Member}
    {v : Value}
    {m : Member}
    (hLabel : HasLabel ctx.table T ms v m)
    (hCovered : m.name ∈ (r.pool.get slot).coverLabels)
    {o : LoweringOptions}
    {p : Pattern}
    {q : Checked}
    (h : AcceptedAt ctx Γ r p slot q) :
    q.BoundBy (Checked.cover (r.pool.get slot))
      (Checked.footprint (r.pool.get slot)) o v .scrutinee m.name := by
  refine Checked.MadeOf.boundBy (Checked.labelBound_cover _) ?_
  refine h.madeOf hFree hSlot fun p' q' hAccepted hNode _ => ?_
  refine hAccepted.boundBy_labelled hTyped hLabel hSlot (fun _ => hCovered)
    (fun _ _ _ => rfl) (fun span meaning label hMeans hMember => ?_)
    (fun _ => rfl) hNode
  rcases hMember hKind with ⟨k, rfl⟩
  cases hMeans
  exact ⟨rfl, rfl⟩

/- The label of an optional value. -/
inductive OptionalLabel : Value → String → Prop
| absent : OptionalLabel .none "None"
| present (w : Value) : OptionalLabel (.some w) "Some"

namespace OptionalLabel

variable {v : Value}
variable {label : String}
variable {o : LoweringOptions}

theorem eq_of_might_isSome
    (h : OptionalLabel v label)
    {b : Bool}
    (hMight : (Test.isSome .scrutinee).Might v b) :
    b = (label == "Some") := by
  cases h with
  | absent =>
      exact Test.eq_of_might (t := .isSome .scrutinee) trivial
        (fun _ => rfl) hMight
  | present =>
      exact Test.eq_of_might (t := .isSome .scrutinee) trivial
        (fun _ => rfl) hMight

theorem eq_of_might_isNone
    (h : OptionalLabel v label)
    {b : Bool}
    (hMight : (Test.isNone .scrutinee).Might v b) :
    b = (label == "None") := by
  cases h with
  | absent =>
      exact Test.eq_of_might (t := .isNone .scrutinee) trivial
        (fun _ => rfl) hMight
  | present =>
      exact Test.eq_of_might (t := .isNone .scrutinee) trivial
        (fun _ => rfl) hMight

/- The literal for absence is bound. -/
theorem boundBy_none
    (h : OptionalLabel v label)
    (s : Schema)
    (span : Span) :
    (Checked.literal span .none).BoundBy (Checked.cover s)
      (Checked.footprint s) o v .scrutinee label :=
  Checked.boundBy_of_answer (fun _ => rfl) rfl h.eq_of_might_isNone
    (fun hIn => beq_iff_eq.mpr (List.mem_singleton.mp hIn))
    (fun hIs => List.mem_singleton.mpr (beq_iff_eq.mp hIs))

/- A pattern for presence covers it if its payload is ignored. -/
theorem boundBy_some
    (h : OptionalLabel v label)
    (s : Schema)
    (span : Span)
    (q : Checked) :
    (Checked.some span q).BoundBy (Checked.cover s)
      (Checked.footprint s) o v .scrutinee label := by
  constructor
  · intro hIn
    unfold Checked.cover at hIn
    split at hIn
    · rename_i hAll
      have hGuards : q.outerGuards = [] :=
        Checked.outerGuards_of_isCatchAll hAll
      refine ⟨fun inside hMight => ?_, hGuards⟩
      rcases Plan.might_all_false.mp hMight with ⟨plan, hPlan, hMight⟩
      rcases List.mem_cons.mp hPlan with rfl | hPlan
      · have hAbsent := h.eq_of_might_isSome (Plan.might_test_iff.mp hMight)
        rw [List.mem_singleton.mp hIn] at hAbsent
        cases hAbsent
      · cases List.mem_singleton.mp hPlan
        exact Checked.not_might_of_isCatchAll hAll inside _ hMight
    · cases hIn
  · intro inside hMight
    have hTest := Plan.might_all_true.mp hMight _ List.mem_cons_self
    have hPresent := h.eq_of_might_isSome (Plan.might_test_iff.mp hTest)
    exact List.mem_singleton.mpr (beq_iff_eq.mp hPresent.symm)

end OptionalLabel

/- Patterns at an optional are bound by presence. -/
theorem AcceptedAt.boundBy_optional
    {ctx : CheckContext}
    {Γ : SlotTypes}
    {r : Registry}
    (hFree : ctx.table.TemplateFree)
    (hTyped : r.Typed ctx.table Γ)
    {slot : SchemaId}
    {T : ValueType}
    (hSlot : Γ[slot]? = some T)
    (hKind : (r.pool.get slot).kind = .optional)
    {v : Value}
    {label : String}
    (hLabel : OptionalLabel v label)
    (hCovered : label ∈ (r.pool.get slot).coverLabels)
    {o : LoweringOptions}
    {p : Pattern}
    {q : Checked}
    (h : AcceptedAt ctx Γ r p slot q) :
    q.BoundBy (Checked.cover (r.pool.get slot))
      (Checked.footprint (r.pool.get slot)) o v .scrutinee label := by
  refine Checked.MadeOf.boundBy (Checked.labelBound_cover _) ?_
  refine h.madeOf hFree hSlot fun p' q' hAccepted hNode _ => ?_
  have hAll := hAccepted
  have hStructural : (r.pool.get slot).structuralKind = .optional := by
    unfold Schema.structuralKind
    rw [hKind]
    rfl
  rcases hAccepted with ⟨s₁, s₂, Γ₁, hGrows, hAccepts⟩
  rcases hGrows.slot hTyped hSlot with ⟨-, hSame⟩
  cases hAccepts with
  | wildcard => exact Checked.boundBy_wildcard hCovered
  | @literal span _ _ l meaning hMeaning =>
      have hIs : meaning = .none := by
        have hCases := SchemaPool.cases_of_checkLiteral hMeaning
        rw [Progress.pool, hSame, hStructural, Schema.isReference, hKind]
          at hCases
        simpa using hCases
      subst hIs
      exact hLabel.boundBy_none _ span
  | some => exact hLabel.boundBy_some _ _ _
  | someUnknown => exact hLabel.boundBy_some _ _ _
  | none => exact hLabel.boundBy_none _ _
  | typeTest hTested =>
      cases hTested with
      | holds => exact Checked.boundBy_wildcard hCovered
      | tested => exact ⟨fun hIn => absurd hIn List.not_mem_nil,
          fun _ _ => hCovered⟩
  | bind => exact hNode.elim
  | named => exact hNode.elim
  | alt => exact hNode.elim
  | guarded => exact hNode.elim
  | narrow => exact hNode.elim
  | object | seq | tuple | set | map =>
      exact (hAll.false_of_kind hTyped hSlot hStructural rfl rfl).elim

end MatchCompiler

------------------------------------------------------------
-- Plain Closed Types
------------------------------------------------------------

namespace MatchCompiler

/-
  A type whose values have labels: an enumeration, an
  optional, or a union without a base that may be reached
  through aliases and references.
-/
inductive TypeTable.PlainlyClosed
    (t : TypeTable)
    (id : DescriptorId) : Prop
| enumeration
    {ms : List Member}
    (hShape : t.shape? id = some (.enumeration ms))
    (hNames : (ms.map Member.name).Nodup)
    (hOrdinals : (ms.map Member.ordinal).Nodup)
| optional
    {element : TypeRef}
    (hShape : t.shape? id = some (.container .optional [element]))
| union
    {u : DescriptorId}
    {o : ObjectShape}
    {part : VariantPart}
    {ms : List Member}
    (hLeads : t.Leads TypeTable.anyView (.described id) (.described u))
    (hShape : t.shape? u = some (.object o))
    (hBase : o.base = none)
    (hVariant : o.variant = some part)
    (hApart : t.TellsApart part ms)
    (hNil : "nil" ∉ ms.map Member.name)

/- No constructor pattern names a derived type. -/
def Pattern.Untargeted (p : Pattern) : Prop :=
  ∀ head ∈ p.outerHeads, head.target = none

/- The constructor patterns of a union read its own fields. -/
theorem AcceptedAt.objectReads_own
    {ctx : CheckContext}
    {Γ : SlotTypes}
    {r : Registry}
    (hFree : ctx.table.TemplateFree)
    (hTyped : r.Typed ctx.table Γ)
    {slot : SchemaId}
    {T : ValueType}
    (hSlot : Γ[slot]? = some T)
    {part : VariantPart}
    {ms : List Member}
    (hVaries : (r.pool.get slot).VariesBy ctx.table Γ part)
    (hApart : ctx.table.TellsApart part ms)
    {p : Pattern}
    (hTarget : p.Untargeted)
    {span : Span}
    {head : ObjectHead}
    {fields : List (FieldRead × Checked)}
    (h : AcceptedAt ctx Γ r p slot (.object span head fields))
    {v : Value}
    {o : LoweringOptions} :
    head.nilCheck = (r.pool.get slot).isReference ∧
    ∀ w m, v.field? part.discriminator.name = some w →
      HasLabel ctx.table (ctx.table.typeOf part.discriminator.type) ms w m →
      ObjectReads part.discriminator.name ms
        (Checked.BoundBy
          (Checked.discriminatorLabels (r.pool.get slot) true)
          (Checked.discriminatorLabels (r.pool.get slot) false) o v
          (.field .scrutinee part.discriminator.name) m.name)
        head fields := by
  rcases h with ⟨s₁, s₂, Γ₁, hGrows, hAccepts⟩
  rcases hGrows.slot hTyped hSlot with ⟨hSlot₁, hSame⟩
  have hDisc := (hVaries.discriminates hApart).1
  cases hAccepts with
  | object hKind hHead hSchema hCase hDiscParts hRest =>
      have hNone := hTarget _ (List.mem_singleton_self _)
      cases hHead with
      | base hSome => cases hNone.symm.trans hSome
      | derived hSome => cases hNone.symm.trans hSome
      | own caseName =>
          rw [Progress.pool, hSame] at hSchema
          subst hSchema
          refine ⟨by rw [Progress.pool, hSame], fun w m hField hLabel => ?_⟩
          refine (hVaries.mono hGrows.types).objectReads hFree hGrows.typed
            hApart hCase hDiscParts hRest hField hLabel ?_ rfl
          rw [hDisc.branchLabels_eq]
          exact List.mem_map_of_mem hLabel.listed
  | typeTest hTested => cases hTested

/- The schema of an optional is one, if it is closed. -/
theorem Describes.kind_eq_optional
    {t : TypeTable}
    {Γ : SlotTypes}
    {T : ValueType}
    {s : Schema}
    (h : Describes t Γ T s)
    (hEnd : t.IsEnd T)
    {v : Value}
    {label : String}
    (hTyped : HasType t T v)
    (hLabel : OptionalLabel v label)
    (hClosed : s.structuralKind.isClosed = true) :
    s.kind = .optional := by
  have hPlain : s.kind ≠ .reference := by
    intro hKind
    rcases h.reference hKind with ⟨U, V, hLeads, hShows⟩
    cases hLeads with
    | refl => exact hEnd _ _ hShows
    | step _ hFirst _ => exact hEnd _ _ hFirst
  rw [Schema.structuralKind, if_neg (by simpa using hPlain)] at hClosed
  have hAdmits := h.values v hTyped
  cases hKind : s.kind with
  | optional => rfl
  | enumeration =>
      simp only [Schema.Admits, hKind] at hAdmits
      rcases hAdmits with ⟨m, -, rfl⟩
      cases hLabel
  | union =>
      simp only [Schema.Admits, hKind] at hAdmits
      rcases hAdmits with ⟨⟨chain, values, rfl⟩, -⟩
      cases hLabel
  | _ =>
      rw [hKind] at hClosed
      cases hClosed

/- Only a reference to a union can be nil. -/
theorem Describes.isReference_of_nil
    {t : TypeTable}
    {Γ : SlotTypes}
    {T : ValueType}
    {s : Schema}
    (h : Describes t Γ T s)
    (hKind : s.structuralKind = .union)
    (hTyped : HasType t T .nil) :
    s.isReference = true := by
  by_contra hNot
  rw [Schema.structuralKind, ← Schema.isReference, if_neg hNot] at hKind
  have hAdmits := h.values .nil hTyped
  simp only [Schema.Admits, hKind] at hAdmits
  rcases hAdmits with ⟨⟨chain, values, hEq⟩, -⟩
  cases hEq

/- Every value of a union has a label. -/
theorem TypeTable.VariesOnlyBy.exists_unionLabel
    {t : TypeTable}
    {Γ : SlotTypes}
    {T : ValueType}
    {u top : DescriptorId}
    {part : VariantPart}
    {ms : List Member}
    {s : Schema}
    {v : Value}
    (h : t.VariesOnlyBy T u top part)
    (hDescribes : Describes t Γ T s)
    (hKind : s.structuralKind = .union)
    (hApart : t.TellsApart part ms)
    (hValue : HasType t T v) :
    ∃ label, UnionLabel t s part.discriminator.name
      (t.typeOf part.discriminator.type) ms v label := by
  by_cases hNil : v = .nil
  · subst hNil
    exact ⟨_, .nil (hDescribes.isReference_of_nil hKind hValue)⟩
  · rcases h.exists_label hApart hValue hNil with ⟨w, m, hField, hLabel⟩
    exact ⟨_, .object hField hLabel⟩

/-
  The values of a plain closed type have labels that bound
  the patterns accepted at its slot.
-/
theorem TypeTable.PlainlyClosed.exists_label
    {ctx : CheckContext}
    {Γ : SlotTypes}
    {r : Registry}
    (hFree : ctx.table.TemplateFree)
    (hTyped : r.Typed ctx.table Γ)
    {slot : SchemaId}
    {id : DescriptorId}
    (hSlot : Γ[slot]? = some (.described id))
    (hClosed : ctx.table.PlainlyClosed id)
    {v : Value}
    (hValue : HasType ctx.table (.described id) v)
    (o : LoweringOptions)
    (hKind : (r.pool.get slot).structuralKind.isClosed = true) :
    ∃ label, label ∈ (r.pool.get slot).coverLabels ∧
      ∀ p q, p.Untargeted → AcceptedAt ctx Γ r p slot q →
        q.BoundBy (Checked.cover (r.pool.get slot))
          (Checked.footprint (r.pool.get slot)) o v .scrutinee label := by
  have hDescribes := hTyped.pool.described slot _ hSlot
  have hShown := hTyped.pool.shown slot _ hSlot (by rintro ⟨⟩)
  cases hClosed with
  | @enumeration ms hShape hNames hOrdinals =>
      rcases hValue.fits hShape with ⟨m, hm, rfl⟩
      have hEnumeration :
          (r.pool.get slot).kind = .enumeration ∧
            (r.pool.get slot).members = ms := by
        rcases hShown.labelled 0 ms (.enumeration hShape) with
          hMembers | ⟨hPrimitive, -⟩
        · exact hMembers
        · rw [Schema.structuralKind, hPrimitive] at hKind
          cases hKind
      have hCovered : m.name ∈ (r.pool.get slot).coverLabels := by
        unfold Schema.coverLabels Schema.caseLabels Schema.structuralKind
        simp only [hEnumeration.1, hEnumeration.2]
        exact List.mem_append_left _ (List.mem_map_of_mem hm)
      exact ⟨m.name, hCovered, fun p q _ hAccepted =>
        hAccepted.boundBy_enumeration hFree hTyped hSlot hEnumeration.1
          ⟨⟨⟨0, .enumeration hShape⟩, hOrdinals, hValue, rfl, hm⟩, hNames⟩
          hCovered⟩
  | @optional element hShape =>
      have hLabel : ∃ label, OptionalLabel v label := by
        rcases hValue.fits hShape with rfl | ⟨w, rfl, -⟩
        · exact ⟨_, .absent⟩
        · exact ⟨_, .present w⟩
      rcases hLabel with ⟨label, hLabel⟩
      have hOptional : (r.pool.get slot).kind = .optional := by
        refine hDescribes.kind_eq_optional ?_ hValue hLabel hKind
        refine isEnd_of_shape hShape fun kind target => ?_
        cases kind <;> rintro ⟨⟩
      have hCovered : label ∈ (r.pool.get slot).coverLabels := by
        unfold Schema.coverLabels Schema.caseLabels Schema.structuralKind
        rw [hOptional]
        refine List.mem_append_left _ ?_
        cases hLabel with
        | absent => exact List.mem_cons_of_mem _ (List.mem_singleton_self _)
        | present => exact List.mem_cons_self
      exact ⟨label, hCovered, fun p q _ hAccepted =>
        hAccepted.boundBy_optional hFree hTyped hSlot hOptional hLabel
          hCovered⟩
  | @union u object part ms hLeads hShape hBase hVariant hApart hNil =>
      have hOnly : ctx.table.VariesOnlyBy (.described id) u u part := by
        refine ⟨hLeads, ⟨object, hShape⟩, .refl u, ⟨object, hShape, hVariant⟩,
          fun last o part' hBelow hLast hPart => ?_⟩
        cases hBelow with
        | refl =>
            cases hShape.symm.trans hLast
            exact Option.some.inj (hPart.symm.trans hVariant)
        | step hShape' hBase' =>
            cases hShape.symm.trans hShape'
            cases hBase.symm.trans hBase'
      have hUnion := hOnly.structuralKind_eq hDescribes hValue hKind
      have hVaries := hOnly.variesBy hDescribes
        (hDescribes.isSome_discriminator hUnion)
      have hDisc := (hVaries.discriminates hApart).1
      have hLabel := hOnly.exists_unionLabel hDescribes hUnion hApart hValue
      rcases hLabel with ⟨label, hLabel⟩
      refine ⟨label, hLabel.mem_coverLabels hUnion hDisc,
        fun p q hTarget hAccepted => ?_⟩
      refine hAccepted.boundBy_union hFree hTyped hSlot hUnion hDisc
        (fun _ => hNil) hLabel fun p' span head fields hHeads _ hObject => ?_
      exact hObject.objectReads_own hFree hTyped hSlot hVaries hApart
        (fun head hHead => hTarget head (hHeads hHead))

/- A plain closed type is described. -/
theorem TypeTable.PlainlyClosed.typeOf_eq
    {t : TypeTable}
    {id : DescriptorId}
    (h : t.PlainlyClosed id) :
    t.typeOf (.described id) = .described id := by
  cases h with
  | enumeration hShape => exact TypeTable.typeOf_of_leads (.refl _) hShape
  | optional hShape => exact TypeTable.typeOf_of_leads (.refl _) hShape
  | union hLeads hShape => exact TypeTable.typeOf_of_leads hLeads hShape

/-
  Coverage is sound for a match on a plain closed type whose
  patterns name no derived type: a match that is exhaustive
  by it does not run out of clauses, and no arm that it calls
  redundant is chosen.
-/
theorem coverage_sound_of_plainlyClosed
    {ctx : CheckContext}
    (hFree : ctx.table.TemplateFree)
    {id : DescriptorId}
    (hClosed : ctx.table.PlainlyClosed id)
    {ps : List Pattern}
    (hTargets : ∀ p ∈ ps, p.Untargeted)
    {slot : SchemaId}
    {r : Registry}
    {arms : List CheckedArm}
    (hMatch : ctx.AcceptsMatch id ps slot r arms)
    {v : Value}
    (hValue : HasType ctx.table (.described id) v)
    (o : LoweringOptions)
    (span : Span)
    (exhaustive : Bool)
    {σ : Type}
    (host : GuardHost σ)
    (state : σ) :
    ((r.pool.coverage slot arms span).exhaustive = true →
      ((Procedure.ofArms o arms slot exhaustive).execute host v
        state).1 ≠ .error .noMatch) ∧
    ∀ found,
      ((Procedure.ofArms o arms slot exhaustive).execute host v
        state).1 = .ok found →
      found.arm ∉ (r.pool.coverage slot arms span).redundant := by
  refine hMatch.coverage_sound hFree hClosed.typeOf_eq
    (fun Γ r₀ hTyped hSlot hKind => ?_) span exhaustive host state
  rcases hClosed.exists_label hFree hTyped hSlot hValue o hKind with
    ⟨label, hCovered, hBound⟩
  exact ⟨label, hCovered, fun p hp arm _ hAccepted =>
    hBound p _ (hTargets p hp) hAccepted⟩

/- A node that varies by its kind, and references to nodes. -/
def referredNode : TypeTable :=
  { descriptors :=
      #[{ name := "Kind",
          shape := .enumeration [⟨"nkLeaf", 0⟩, ⟨"nkPair", 1⟩] },
        { name := "int", shape := .primitive .i64 },
        { name := "Node",
          shape := .object
            { variant := some
                { discriminator := ⟨"kind", .described 0, false⟩,
                  branches :=
                    [⟨.labels ["nkLeaf"],
                      [⟨"size", .described 1, false⟩]⟩] } } },
        { name := "NodeRef", shape := .reference (.described 2) }] }

/- A match on a reference whose last arm repeats the second. -/
def referredNodePatterns : List Pattern :=
  [.literal {} .nil,
    .constructor {} { typeName := some "Node", caseName := some "Leaf" }
      [(⟨"size", {}⟩, .bind {} "size")] [],
    .constructor {} { typeName := some "Node" }
      [(⟨"kind", {}⟩,
        .alt {} [.literal {} (.sym "nkPair"), .literal {} (.sym "nkLeaf")])]
      [],
    .constructor {} { typeName := some "Node", caseName := some "Leaf" }
      [(⟨"size", {}⟩, .literal {} (.int 5 none))] []]

/- A leaf of size five. -/
def leafNode : Value :=
  .object ["Node"] [("kind", .member "nkLeaf" 0), ("size", .int 5)]

theorem referredNode_shows :
    referredNode.Shows .reference (.described 3)
      (referredNode.typeOf (.described 2)) :=
  .view rfl

theorem leafNode_hasType :
    HasType referredNode (.described 3) leafNode := by
  refine .view referredNode_shows ?_
  have hLineage : Lineage referredNode [2] ["Node"] :=
    @Lineage.root referredNode 2 _ _ rfl rfl rfl
  refine .object_of_fields hLineage (List.mem_singleton_self 2) ?_
  intro level hLevel o hShape
  cases List.mem_singleton.mp hLevel
  cases hShape
  refine List.forall_mem_cons.mpr ⟨⟨_, rfl, ?_⟩, ?_⟩
  · exact .enumeration (m := ⟨"nkLeaf", 0⟩) rfl (by decide)
  · refine List.forall_mem_singleton.mpr ⟨_, rfl, ?_⟩
    exact .primitive rfl rfl

/- The match is exhaustive, and its last arm is redundant. -/
theorem referredNode_covered :
    let ctx : CheckContext := { table := referredNode, marker := 'k' }
    let m := ctx.checkMatch 3 referredNodePatterns
    let arms := acceptedArms m.2
    (m.1.pool.coverage 0 arms {}).exhaustive = true ∧
    (m.1.pool.coverage 0 arms {}).redundant = [3] ∧
    HasType referredNode (.described 3) leafNode ∧
    ∀ {σ : Type} (host : GuardHost σ) (state : σ),
      ((Procedure.ofArms {} arms 0 true).execute host leafNode state).1 ≠
        .error .noMatch ∧
      ∀ found,
        ((Procedure.ofArms {} arms 0 true).execute host leafNode state).1 =
          .ok found →
        found.arm ≠ 3 := by
  intro ctx m arms
  have hFree : ctx.table.TemplateFree :=
    TypeTable.templateFree_of_all (by decide +kernel)
  have hClosed : ctx.table.PlainlyClosed 3 := by
    refine .union (.single trivial referredNode_shows) rfl rfl rfl
      ⟨⟨0, .enumeration rfl⟩, ?_, ?_, ?_⟩ ?_
    all_goals decide
  have hMatch : ctx.AcceptsMatch 3 referredNodePatterns 0 m.1 arms :=
    CheckContext.acceptsMatch_of_checkMatch (by decide +kernel)
  have hTargets : ∀ p ∈ referredNodePatterns, p.Untargeted := by
    unfold Pattern.Untargeted
    decide +kernel
  have hExhaustive : (m.1.pool.coverage 0 arms {}).exhaustive = true := by
    decide +kernel
  have hRedundant : (m.1.pool.coverage 0 arms {}).redundant = [3] := by
    decide +kernel
  refine ⟨hExhaustive, hRedundant, leafNode_hasType, fun host state => ?_⟩
  rcases coverage_sound_of_plainlyClosed hFree hClosed hTargets hMatch
    leafNode_hasType {} {} true host state with ⟨hSome, hChosen⟩
  refine ⟨hSome hExhaustive, fun found hFound hEq => ?_⟩
  refine hChosen found hFound ?_
  rw [hRedundant, hEq]
  exact List.mem_singleton_self 3

/- A switch with a field in a branch that is named like it. -/
def namesakeSwitch : TypeTable :=
  { descriptors :=
      #[{ name := "bool", shape := .primitive .bool },
        { name := "Any", shape := .unknown },
        { name := "Switch",
          shape := .object
            { variant := some
                { discriminator := ⟨"flag", .described 0, false⟩,
                  branches :=
                    [⟨.labels ["true"],
                      [⟨"flag", .described 1, false⟩]⟩] } } }] }

/- The first arm reads the field of the branch by position. -/
def namesakeSwitchPatterns : List Pattern :=
  [.constructor {} { typeName := some "Switch" }
      [(⟨"flag", {}⟩, .literal {} (.bool true))]
      [.literal {} (.int 5 none)],
    .constructor {} { typeName := some "Switch" }
      [(⟨"flag", {}⟩, .literal {} (.bool false))] []]

/-
  A field of a branch that bears the name of the
  discriminator is not apart from it: the match is
  exhaustive by its labels, and a value fits no arm.
-/
theorem namesakeSwitch_uncovered :
    let ctx : CheckContext := { table := namesakeSwitch, marker := 'k' }
    let m := ctx.checkMatch 2 namesakeSwitchPatterns
    let arms := acceptedArms m.2
    let v := Value.object ["Switch"]
      [("flag", .bool true), ("flag", .int 5)]
    ctx.table.TemplateFree ∧
    ctx.AcceptsMatch 2 namesakeSwitchPatterns 0 m.1 arms ∧
    (∀ p ∈ namesakeSwitchPatterns, p.Untargeted) ∧
    HasType namesakeSwitch (.described 2) v ∧
    (m.1.pool.coverage 0 arms {}).exhaustive = true ∧
    ((Procedure.ofArms {} arms 0 true).execute
      (fun _ _ => (pure true : StateM Unit Bool)) v ()).1 =
        .error .noMatch := by
  have hLineage : Lineage namesakeSwitch [2] ["Switch"] :=
    @Lineage.root namesakeSwitch 2 _ _ rfl rfl rfl
  refine ⟨TypeTable.templateFree_of_all (by decide +kernel),
    CheckContext.acceptsMatch_of_checkMatch (by decide +kernel), ?_, ?_,
    by decide +kernel, by decide +kernel⟩
  · unfold Pattern.Untargeted
    decide +kernel
  · refine .object_of_fields hLineage (List.mem_singleton_self 2) ?_
    intro level hLevel o hShape
    cases List.mem_singleton.mp hLevel
    cases hShape
    refine List.forall_mem_cons.mpr ⟨⟨_, rfl, .primitive rfl rfl⟩, ?_⟩
    refine List.forall_mem_singleton.mpr ⟨_, rfl, ?_⟩
    exact .unknown (.described rfl rfl) _

end MatchCompiler
