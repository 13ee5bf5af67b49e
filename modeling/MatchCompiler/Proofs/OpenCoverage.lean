import MatchCompiler.Proofs.HeadTyping
import MatchCompiler.Proofs.PlainCoverage

/-
  This file shows when coverage is sound for matches on
  unions that other types derive from.

  A derived type may declare a variant part of its own. The
  labels of a pattern are compared by name with those of the
  union that is matched, whichever discriminator they belong
  to; coverage is sound if every case that is named pins the
  discriminator of the union.

  Key definitions include:
    * `TypeTable.NamedOnce`
    * `CheckedArm.PinsOnly`

  Key theorems include:
    * `AcceptedAt.objectReads_inLine`
    * `coverage_sound_of_pinsOnly`
    * `derivedMode_redundant_chosen`
-/

------------------------------------------------------------
-- One Discriminator Among Objects In Line
------------------------------------------------------------

namespace MatchCompiler

/-
  Among the objects in line with one, only one declares a
  discriminator with the name of a given one, and no other
  field bears this name.
-/
structure TypeTable.NamedOnce
    (t : TypeTable)
    (u : DescriptorId)
    (part : VariantPart) : Prop where
  fields :
    ∀ id o, t.InLine id u → t.shape? id = some (.object o) →
      ∀ f ∈ o.fields, f.name ≠ part.discriminator.name
  discriminators :
    ∀ id o other, t.InLine id u → t.shape? id = some (.object o) →
      o.variant = some other →
      other.discriminator.name = part.discriminator.name → other = part
  branches :
    ∀ id o other, t.InLine id u → t.shape? id = some (.object o) →
      o.variant = some other →
      ∀ b ∈ other.branches, ∀ f ∈ b.fields,
        f.name ≠ part.discriminator.name

/- What an object in line derives from is in line. -/
theorem TypeTable.InLine.onward
    {t : TypeTable}
    {id u last : DescriptorId}
    (h : t.InLine id u)
    (hU : t.IsEnd (.described u))
    (hLast : t.IsEnd (.described last))
    (hBelow : t.Below id last) :
    t.InLine last u := by
  rcases h with hDerives | hBase
  · exact (hDerives.total hU hLast hBelow).symm
  · exact .inr (hBase.trans hBelow)

/- No object derives from a tuple. -/
theorem TypeTable.InLine.not_tuple
    {t : TypeTable}
    {id u : DescriptorId}
    {o : ObjectShape}
    {elements : List TupleElement}
    {v : Value}
    (h : t.InLine id u)
    (hShape : t.shape? u = some (.object o))
    (hValue : HasType t (.described u) v) :
    t.shape? id ≠ some (.tuple elements) := by
  intro hTuple
  have hEnd : t.IsEnd (.described id) := by
    refine isEnd_of_shape hTuple fun kind target hEq => ?_
    cases kind <;> cases hEq
  rcases h with hBelow | hBelow
  · cases hBelow with
    | refl => cases hTuple.symm.trans hShape
    | step hObject => cases hTuple.symm.trans hObject
  · rcases hValue.isObject hShape with ⟨chain, values, rfl⟩
    rcases (hValue.of_below hBelow hEnd).fits hTuple with ⟨items, hEq, -⟩
    cases hEq

section

variable {t : TypeTable}
variable {Γ : SlotTypes}
variable {T : ValueType}
variable {s : Schema}
variable {u : DescriptorId}
variable {o : ObjectShape}
variable {part : VariantPart}
variable {v : Value}

/-
  A field of an object in line that bears the name of the
  discriminator is the discriminator.
-/
theorem Describes.slot_of_name
    (h : Describes t Γ T s)
    (hLine :
      ∀ id, t.Leads TypeTable.anyView T (.described id) →
        t.IsEnd (.described id) → t.InLine id u)
    (hShape : t.shape? u = some (.object o))
    (hOnce : t.NamedOnce u part)
    (hValue : HasType t (.described u) v)
    {f : Field}
    (hField : f ∈ s.fields)
    (hName : f.name = part.discriminator.name) :
    s.discriminator.isSome = true ∧
    Γ[f.schema]? = some (t.typeOf part.discriminator.type) := by
  have hU := TypeTable.isEnd_of_object hShape
  rcases h.declared f hField with ⟨id, hLeads, hDeclared⟩
  cases hDeclared with
  | @place last elements _ hBelow hTuple =>
      have hEnd : t.IsEnd (.described last) := by
        refine TypeTable.isEnd_of_shape hTuple fun kind target hEq => ?_
        cases kind <;> cases hEq
      have hIn := hLine id hLeads (hBelow.isEnd hEnd)
      exact ((hIn.onward hU hEnd hBelow).not_tuple hShape hValue hTuple).elim
  | @object last o' d hBelow hObject hShared hVaries hDeclares =>
      have hEnd := TypeTable.isEnd_of_object hObject
      have hIn :=
        (hLine id hLeads (hBelow.isEnd hEnd)).onward hU hEnd hBelow
      have hOther : d ∉ o'.fields := fun hd =>
        hOnce.fields last o' hIn hObject d hd (hDeclares.1.symm.trans hName)
      refine ⟨hVaries.resolve_left hOther, ?_⟩
      rcases List.mem_append.mp hShared with hd | hd
      · exact (hOther hd).elim
      · cases hPart : o'.variant with
        | none =>
            rw [hPart] at hd
            cases hd
        | some other =>
            rw [hPart] at hd
            cases List.mem_singleton.mp hd
            have hSame := hOnce.discriminators last o' other hIn hObject
              hPart (hDeclares.1.symm.trans hName)
            subst hSame
            exact hDeclares.2

/-
  The variant part of an object in line is the given one, or
  it has another name and the object is a derived one.
-/
theorem Describes.variesBy_or
    (h : Describes t Γ T s)
    {top : DescriptorId}
    {V : ValueType}
    (hUnion : t.VariesOnlyBy V u top part)
    (hLine :
      ∀ id, t.Leads TypeTable.anyView T (.described id) →
        t.IsEnd (.described id) → t.InLine id u)
    (hOnce : t.NamedOnce u part)
    {d : Discriminator}
    (hDisc : s.discriminator = some d) :
    s.VariesBy t Γ part ∨
    d.field ≠ part.discriminator.name ∧
    (∃ id, t.Leads TypeTable.anyView T (.described id) ∧
      t.IsEnd (.described id) ∧ ¬ t.Below u id) ∧
    ∀ b ∈ s.branches, ∀ f ∈ b.fields,
      f.name ≠ part.discriminator.name := by
  rcases hUnion.object with ⟨o, hShape⟩
  rcases h.variant (by rw [hDisc]; rfl) with
    ⟨id, last, o', other, hLeads, hBelow, hLast, hPart, hVaries⟩
  have hEnd := TypeTable.isEnd_of_object hLast
  have hIn := (hLine id hLeads (hBelow.isEnd hEnd)).onward
    (TypeTable.isEnd_of_object hShape) hEnd hBelow
  by_cases hSame : other = part
  · subst hSame
    exact .inl hVaries
  · rcases hVaries with ⟨slot, hField, -, -, hFields⟩
    cases hDisc.symm.trans hField
    refine .inr ⟨fun hName => ?_, ⟨id, hLeads, hBelow.isEnd hEnd, ?_⟩, ?_⟩
    · exact hSame (hOnce.discriminators last o' other hIn hLast hPart hName)
    · intro hBase
      exact hSame (hUnion.only last o' other (hBase.trans hBelow) hLast hPart)
    · intro b hb f hf
      rcases hFields b hb f hf with ⟨d, hd, hDeclares⟩
      rcases other.fieldsOf_subset _ d hd with ⟨b', hb', hd⟩
      rw [hDeclares.1]
      exact hOnce.branches last o' other hIn hLast hPart b' hb' d hd

end

end MatchCompiler

------------------------------------------------------------
-- Object Patterns In Line
------------------------------------------------------------

namespace MatchCompiler

/- Parts that read the discriminator are bound by its labels. -/
theorem AcceptsAll.boundBy_of_name
    {ctx : CheckContext}
    {Γ : SlotTypes}
    (hFree : ctx.table.TemplateFree)
    {parts : List (FieldRead × SchemaId × Pattern)}
    {qs : List (FieldRead × Checked)}
    {s s' : Progress}
    (h : AcceptsAll ctx parts s qs s')
    (hTyped : s.registry.Typed ctx.table Γ)
    (hSlots : ∀ given ∈ parts, ∃ U, Γ[given.2.1]? = some U)
    {name : String}
    {D : ValueType}
    {ms : List Member}
    {v w : Value}
    {m : Member}
    (hNamed :
      ∀ given ∈ parts, given.1.name = name → Γ[given.2.1]? = some D)
    (hField : v.field? name = some w)
    (hLabel : HasLabel ctx.table D ms w m)
    {schema : Schema}
    (hBranch : m.name ∈ schema.branchLabels)
    {o : LoweringOptions}
    {f : FieldRead × Checked}
    (hf : f ∈ qs)
    (hName : f.1.name = name) :
    f.2.BoundBy (Checked.discriminatorLabels schema true)
      (Checked.discriminatorLabels schema false) o v
      (.field .scrutinee name) m.name := by
  rcases h.exists_acceptedAt hFree hTyped hSlots hf with
    ⟨slot, p, hGiven, hAccepted⟩
  exact hAccepted.boundBy_discriminator hFree hTyped hLabel
    (hNamed _ hGiven hName) hBranch
    (Access.Reads.field (fun _ => rfl) hField)

/-
  A pattern at a type whose discriminator is another one reads
  that of the union in shared fields only.
-/
theorem Describes.objectReads_of_other
    {ctx : CheckContext}
    {Γ : SlotTypes}
    (hFree : ctx.table.TemplateFree)
    {s₁ s₂ s₃ : Progress}
    (hTyped : s₁.registry.Typed ctx.table Γ)
    {T : ValueType}
    {target s : Schema}
    (hDescribes : Describes ctx.table Γ T target)
    {part : VariantPart}
    {ms : List Member}
    {head : ObjectHead}
    (hOther :
      ∀ d, target.discriminator = some d →
        d.field ≠ part.discriminator.name ∧
        head.runtimeType ≠ none ∧
        ∀ b ∈ target.branches, ∀ f ∈ b.fields,
          f.name ≠ part.discriminator.name)
    (hShared :
      ∀ f ∈ target.fields, f.name = part.discriminator.name →
        target.discriminator.isSome = true ∧
        Γ[f.schema]? = some (ctx.table.typeOf part.discriminator.type))
    {fields : List (FieldName × Pattern)}
    {args : List Pattern}
    {span : Span}
    {caseName : Option String}
    {fromCase : Option (List Member)}
    {disc rest : List (FieldRead × Checked)}
    (hCase :
      caseName.mapM (fun c => target.pinCase ctx.marker c span) =
        .ok fromCase)
    (hDisc :
      AcceptsAll ctx (target.discriminatorParts fields) s₁ disc s₂)
    (hRest :
      AcceptsAll ctx
        (target.namedParts (target.pinnedBy fromCase disc) fields ++
          target.unnamedParts (target.pinnedBy fromCase disc) args)
        s₂ rest s₃)
    {v w : Value}
    {m : Member}
    (hField : v.field? part.discriminator.name = some w)
    (hLabel :
      HasLabel ctx.table (ctx.table.typeOf part.discriminator.type) ms w m)
    (hBranch : m.name ∈ s.branchLabels)
    {o : LoweringOptions}
    (hPin :
      head.pin = fromCase.map fun labels =>
        { discriminator := target.discriminatorName, labels })
    (hPins :
      ∀ pin ∈ head.pin, pin.discriminator = part.discriminator.name) :
    ObjectReads part.discriminator.name ms
      (Checked.BoundBy (Checked.discriminatorLabels s true)
        (Checked.discriminatorLabels s false) o v
        (.field .scrutinee part.discriminator.name) m.name)
      head (disc ++ rest) := by
  have hPinned :
      ∀ labels, target.pinnedBy fromCase disc = some labels →
        target.discriminator.isSome = true :=
    hDescribes.isSome_discriminator_of_pinned hCase hDisc
  have hNotDisc :
      ∀ f ∈ disc, f.1.name ≠ part.discriminator.name := by
    intro f hf
    have hLabelled := List.mem_map_of_mem hf (f := Prod.fst)
    rw [hDisc.labels] at hLabelled
    rcases List.mem_map.mp hLabelled with ⟨given, hGiven, hEq⟩
    rcases Schema.exists_discriminator_of_mem hGiven with ⟨d, hd, hName, -⟩
    rw [← hEq, hName]
    exact (hOther d hd).1
  have hSlots :
      ∀ given ∈ target.namedParts (target.pinnedBy fromCase disc) fields ++
          target.unnamedParts (target.pinnedBy fromCase disc) args,
        given.1.name = part.discriminator.name →
          target.discriminator.isSome = true ∧
          Γ[given.2.1]? =
            some (ctx.table.typeOf part.discriminator.type) := by
    intro given hGiven hName
    rcases Schema.partField_of_mem hGiven with ⟨f, hRead, hSchema, hPart⟩
    rw [hRead] at hName
    rw [hSchema]
    cases hPart with
    | shared hMemField _ => exact hShared f hMemField hName
    | branch hLabels _ hFound hMemField =>
        rcases Option.isSome_iff_exists.mp (hPinned _ hLabels) with
          ⟨d, hd⟩
        exact ((hOther d hd).2.2 _ (List.mem_of_find?_eq_some hFound) f
          hMemField hName).elim
  refine ⟨fun pin hHead => ?_, fun f hf hName => ?_,
    fun hNone f hf _ _ hName _ => ?_⟩
  · have hName := hPins pin hHead
    rw [hPin] at hHead
    rcases Option.map_eq_some_iff.mp hHead with ⟨labels, rfl, rfl⟩
    rcases Schema.exists_pinCase hCase with ⟨c, hCase⟩
    have hSome := hDescribes.isSome_discriminator
      (Schema.structuralKind_of_pinCase hCase)
    rcases Option.isSome_iff_exists.mp hSome with ⟨d, hd⟩
    refine ((hOther d hd).1 ?_).elim
    rw [← hName]
    unfold Schema.discriminatorName
    rw [hd]
    rfl
  · rcases List.mem_append.mp hf with hf | hf
    · exact (hNotDisc f hf hName).elim
    · rcases hDisc.growsTyped hFree hTyped
        (fun _ => hDescribes.exists_type_of_discriminatorPart) with
        ⟨Γ', hGrows⟩
      refine hRest.boundBy_of_name hFree hGrows.typed
        (fun given hGiven => SlotTypes.exists_kept hGrows.types
          (hDescribes.exists_type_of_part hPinned hGiven))
        (fun given hGiven hRead => SlotTypes.kept hGrows.types
          (hSlots given hGiven hRead).2) hField hLabel hBranch hf hName
  · -- Without a test at run time nothing reads it.
    have hSome : target.discriminator.isSome = true := by
      rcases List.mem_append.mp hf with hf | hf
      · exact (hNotDisc f hf hName).elim
      · have hLabelled := List.mem_map_of_mem hf (f := Prod.fst)
        rw [hRest.labels] at hLabelled
        rcases List.mem_map.mp hLabelled with ⟨given, hGiven, hEq⟩
        exact (hSlots given hGiven (by rw [hEq, hName])).1
    rcases Option.isSome_iff_exists.mp hSome with ⟨d, hd⟩
    exact ((hOther d hd).2.1 hNone).elim

/-
  An object pattern reads the discriminator of the union as
  it should, if a case that it names pins this discriminator.
-/
theorem AcceptedAt.objectReads_inLine
    {ctx : CheckContext}
    {Γ : SlotTypes}
    {r : Registry}
    (hFree : ctx.table.TemplateFree)
    (hNames : ctx.table.DistinctNames)
    (hTyped : r.Typed ctx.table Γ)
    {slot : SchemaId}
    {T : ValueType}
    (hSlot : Γ[slot]? = some T)
    {u top : DescriptorId}
    {part : VariantPart}
    {ms : List Member}
    (hUnion : ctx.table.VariesOnlyBy T u top part)
    (hApart : ctx.table.TellsApart part ms)
    (hOnce : ctx.table.NamedOnce u part)
    (hDisc :
      (r.pool.get slot).Discriminates part.discriminator.name ms)
    {p : Pattern}
    {span : Span}
    {head : ObjectHead}
    {fields : List (FieldRead × Checked)}
    (h : AcceptedAt ctx Γ r p slot (.object span head fields))
    (hPins :
      ∀ pin ∈ head.pin, pin.discriminator = part.discriminator.name)
    {v : Value}
    (hValue : v ≠ .nil → HasType ctx.table (.described u) v)
    {o : LoweringOptions} :
    head.nilCheck = (r.pool.get slot).isReference ∧
    ∀ w m, v.field? part.discriminator.name = some w →
      HasLabel ctx.table (ctx.table.typeOf part.discriminator.type) ms w m →
      ObjectReads part.discriminator.name ms
        (Checked.BoundBy
          (Checked.discriminatorLabels (r.pool.get slot) true)
          (Checked.discriminatorLabels (r.pool.get slot) false) o v
          (.field .scrutinee part.discriminator.name) m.name)
        head fields := by
  rcases h with ⟨s₁, s₂, Γ₁, hGrows, hAccepts⟩
  rcases hGrows.slot hTyped hSlot with ⟨hSlot₁, hSame⟩
  rcases hUnion.object with ⟨object, hShape⟩
  cases hAccepts with
  | typeTest hTested => cases hTested
  | @object _ _ given args _ resolved target fromCase disc rest _ s' s'' _
      hKind hHead hSchema hCase hDiscParts hRest =>
      refine ⟨by rw [Progress.pool, hSame], fun w m hField hLabel => ?_⟩
      have hBranch : m.name ∈ (r.pool.get slot).branchLabels := by
        rw [hDisc.branchLabels_eq]
        exact List.mem_map_of_mem hLabel.listed
      have hTypedValue : HasType ctx.table (.described u) v := by
        refine hValue ?_
        rintro rfl
        cases hField
      rcases hHead.exists_inLine hFree hNames hGrows.typed hSlot₁
          hUnion.leads hShape with ⟨Γ₂, T', hGrows₂, hTarget, hLine⟩
      have hDescribes := hGrows₂.typed.pool.described _ _ hTarget
      rw [← Progress.pool, hSchema] at hDescribes
      have hIn := fun id hLeads hEnd => (hLine id hLeads hEnd).1
      by_cases hVaries : target.VariesBy ctx.table Γ₂ part
      · exact hVaries.objectReads hFree hGrows₂.typed hApart hCase hDiscParts
          hRest hField hLabel hBranch rfl
      -- The discriminator of the union is no discriminator of the type.
      refine hDescribes.objectReads_of_other hFree hGrows₂.typed
        (fun d hd => ?_) (fun f hf hName => hDescribes.slot_of_name hIn
          hShape hOnce hTypedValue hf hName)
        hCase hDiscParts hRest hField hLabel hBranch rfl hPins
      rcases hDescribes.variesBy_or hUnion hIn hOnce hd with
        hSome | ⟨hNe, ⟨id, hLeads, hEnd, hNot⟩, hBranches⟩
      · exact (hVaries hSome).elim
      · exact ⟨hNe, fun hNone => hNot ((hLine id hLeads hEnd).2 hNone),
          hBranches⟩

end MatchCompiler

------------------------------------------------------------
-- Matches On Open Unions
------------------------------------------------------------

namespace MatchCompiler

/-
  The cases that an arm names for the whole value pin one
  discriminator.
-/
def CheckedArm.PinsOnly
    (name : String)
    (arm : CheckedArm) : Prop :=
  ∀ head ∈ arm.pattern.outerObjects, ∀ pin ∈ head.pin,
    pin.discriminator = name

/- Of a reference to an object it is not the type itself. -/
theorem Describes.ne_of_isReference
    {t : TypeTable}
    {Γ : SlotTypes}
    {id u : DescriptorId}
    {o : ObjectShape}
    {s : Schema}
    (h : Describes t Γ (.described id) s)
    (hShape : t.shape? u = some (.object o))
    (hReference : s.isReference = true) :
    id ≠ u := by
  rintro rfl
  have hEnd := TypeTable.isEnd_of_object hShape
  rcases h.reference (beq_iff_eq.mp hReference) with ⟨U, V, hLeads, hShows⟩
  cases hLeads with
  | refl => exact hEnd _ _ hShows
  | step _ hFirst _ => exact hEnd _ _ hFirst

/-
  Coverage is sound for a match on a union that other types
  derive from, if the cases that the arms name pin the
  discriminator of the union. Patterns may name bases and
  derived types, and these may have other discriminators.
-/
theorem coverage_sound_of_pinsOnly
    {ctx : CheckContext}
    (hFree : ctx.table.TemplateFree)
    (hNames : ctx.table.DistinctNames)
    {id u top : DescriptorId}
    {part : VariantPart}
    {ms : List Member}
    (hUnion : ctx.table.VariesOnlyBy (.described id) u top part)
    (hApart : ctx.table.TellsApart part ms)
    (hOnce : ctx.table.NamedOnce u part)
    (hNil : id ≠ u → "nil" ∉ ms.map Member.name)
    {ps : List Pattern}
    {slot : SchemaId}
    {r : Registry}
    {arms : List CheckedArm}
    (hMatch : ctx.AcceptsMatch id ps slot r arms)
    (hPins : ∀ arm ∈ arms, arm.PinsOnly part.discriminator.name)
    {v : Value}
    (hValue : HasType ctx.table (.described id) v)
    (o : LoweringOptions)
    (span : Span)
    (exhaustive : Bool)
    {σ : Type}
    (host : GuardHost σ)
    (state : σ) :
    ((r.pool.coverage slot arms span).exhaustive = true →
      ((Procedure.ofArms o arms slot exhaustive).execute host v
        state).1 ≠ .error .noMatch) ∧
    ∀ found,
      ((Procedure.ofArms o arms slot exhaustive).execute host v
        state).1 = .ok found →
      found.arm ∉ (r.pool.coverage slot arms span).redundant := by
  rcases hUnion.object with ⟨object, hShape⟩
  have hDescribed := TypeTable.typeOf_of_leads hUnion.leads hShape
  refine hMatch.coverage_sound hFree hDescribed
    (fun Γ r₀ hTyped hSlot hKind => ?_) span exhaustive host state
  have hDescribes := hTyped.pool.described slot _ hSlot
  have hStructural := hUnion.structuralKind_eq hDescribes hValue hKind
  have hVaries := hUnion.variesBy hDescribes
    (hDescribes.isSome_discriminator hStructural)
  have hDisc := (hVaries.discriminates hApart).1
  rcases hUnion.exists_unionLabel hDescribes hStructural hApart hValue with
    ⟨label, hLabel⟩
  refine ⟨label, hLabel.mem_coverLabels hStructural hDisc,
    fun p _ arm hArm hAccepted => ?_⟩
  refine hAccepted.boundBy_union hFree hTyped hSlot hStructural hDisc
    (fun hReference => hNil (hDescribes.ne_of_isReference hShape hReference))
    hLabel fun p' span head fields _ hHead hObject => ?_
  exact hObject.objectReads_inLine hFree hNames hTyped hSlot hUnion hApart
    hOnce hDisc (hPins arm hArm head hHead)
    (fun hNil => hValue.along hNil hUnion.leads)

/-
  A node with a kind, and a node derived from it that has a
  mode besides.
-/
def derivedMode : TypeTable :=
  { descriptors :=
      #[{ name := "Kind", shape := .enumeration [⟨"A", 0⟩, ⟨"B", 1⟩] },
        { name := "Node",
          shape := .object
            { inheritable := true,
              variant := some
                { discriminator := ⟨"kind", .described 0, false⟩,
                  branches := [] } } },
        { name := "Moded",
          shape := .object
            { base := some (.described 1),
              variant := some
                { discriminator := ⟨"mode", .described 0, false⟩,
                  branches := [] } } }] }

/- A derived node of the second kind in the first mode. -/
def modedNode : Value :=
  .object ["Moded", "Node"]
    [("kind", .member "B" 1), ("mode", .member "A" 0)]

theorem modedNode_hasType :
    HasType derivedMode (.described 1) modedNode := by
  have hLineage : Lineage derivedMode [2, 1] ["Moded", "Node"] :=
    @Lineage.derived derivedMode 2 1 _ _ _ _ _ rfl rfl rfl (.refl _)
      (@Lineage.root derivedMode 1 _ _ rfl rfl rfl)
  refine .object_of_fields hLineage (by decide) ?_
  intro level hLevel o hShape
  have hKind :
      ∀ m ∈ [(⟨"A", 0⟩ : Member), ⟨"B", 1⟩],
        HasType derivedMode (.described 0) (.member m.name m.ordinal) :=
    fun m hm => .enumeration rfl hm
  rcases List.mem_cons.mp hLevel with rfl | hLevel
  · cases hShape
    exact List.forall_mem_singleton.mpr
      ⟨_, rfl, hKind ⟨"A", 0⟩ (by decide)⟩
  · cases List.mem_singleton.mp hLevel
    cases hShape
    exact List.forall_mem_singleton.mpr
      ⟨_, rfl, hKind ⟨"B", 1⟩ (by decide)⟩

/- The part that the node varies by. -/
def nodeKindPart : VariantPart :=
  { discriminator := ⟨"kind", .described 0, false⟩, branches := [] }

theorem derivedMode_varies :
    derivedMode.VariesOnlyBy (.described 1) 1 1 nodeKindPart where
  leads := .refl _
  object := ⟨_, rfl⟩
  below := .refl 1
  variant := ⟨_, rfl, rfl⟩
  only := by
    intro last o part hBelow hShape hPart
    cases hBelow with
    | refl =>
        cases hShape
        cases hPart
        rfl
    | step hShape hBase =>
        cases hShape
        cases hBase

theorem derivedMode_namedOnce :
    derivedMode.NamedOnce 1 nodeKindPart := by
  have hObjects :
      ∀ id o, derivedMode.shape? id = some (.object o) →
        o.fields = [] ∧
        ∀ part ∈ o.variant, part.branches = [] ∧
          (part = nodeKindPart ∨ part.discriminator.name = "mode") := by
    intro id o hShape
    match id, hShape with
    | 1, rfl =>
        refine ⟨rfl, ?_⟩
        rintro part ⟨⟩
        exact ⟨rfl, .inl rfl⟩
    | 2, rfl =>
        refine ⟨rfl, ?_⟩
        rintro part ⟨⟩
        exact ⟨rfl, .inr rfl⟩
  refine ⟨fun id o _ hShape f hf => ?_,
    fun id o other _ hShape hPart hName => ?_,
    fun id o other _ hShape hPart b hb => ?_⟩
  · rw [(hObjects id o hShape).1] at hf
    cases hf
  · rcases ((hObjects id o hShape).2 other hPart).2 with hSame | hMode
    · exact hSame
    · exact absurd (hMode.symm.trans hName) (by decide)
  · rw [((hObjects id o hShape).2 other hPart).1] at hb
    cases hb

/- Patterns that read the kind of a derived node. -/
def derivedKindPatterns : List Pattern :=
  [.constructor {} { typeName := some "Node", caseName := some "A" } [] [],
    .constructor {} { typeName := some "Moded", target := some 2 }
      [(⟨"kind", {}⟩, .literal {} (.sym "B"))] [],
    .constructor {} { typeName := some "Moded", target := some 2 }
      [(⟨"mode", {}⟩, .literal {} (.sym "B")),
        (⟨"kind", {}⟩, .literal {} (.sym "A"))] [],
    .constructor {} { typeName := some "Node" }
      [(⟨"kind", {}⟩, .literal {} (.sym "B"))] []]

/- The third arm is redundant, and it is not chosen. -/
theorem derivedMode_covered :
    let ctx : CheckContext := { table := derivedMode, marker := 'k' }
    let m := ctx.checkMatch 1 derivedKindPatterns
    let arms := acceptedArms m.2
    (m.1.pool.coverage 0 arms {}).exhaustive = true ∧
    (m.1.pool.coverage 0 arms {}).redundant = [2] ∧
    HasType derivedMode (.described 1) modedNode ∧
    (∀ arm ∈ arms, arm.PinsOnly "kind") ∧
    ∀ {σ : Type} (host : GuardHost σ) (state : σ),
      ((Procedure.ofArms {} arms 0 true).execute host modedNode state).1 ≠
        .error .noMatch ∧
      ∀ found,
        ((Procedure.ofArms {} arms 0 true).execute host modedNode
          state).1 = .ok found →
        found.arm ≠ 2 := by
  intro ctx m arms
  have hFree : ctx.table.TemplateFree :=
    TypeTable.templateFree_of_all (by decide +kernel)
  have hNames : ctx.table.DistinctNames :=
    TypeTable.distinctNames_of_nodup (by decide +kernel)
  have hApart :
      ctx.table.TellsApart nodeKindPart [⟨"A", 0⟩, ⟨"B", 1⟩] := by
    refine ⟨⟨0, .enumeration rfl⟩, ?_, ?_, ?_⟩ <;> decide
  have hMatch : ctx.AcceptsMatch 1 derivedKindPatterns 0 m.1 arms :=
    CheckContext.acceptsMatch_of_checkMatch (by decide +kernel)
  have hPins : ∀ arm ∈ arms, arm.PinsOnly "kind" := by
    unfold CheckedArm.PinsOnly
    decide +kernel
  have hExhaustive : (m.1.pool.coverage 0 arms {}).exhaustive = true := by
    decide +kernel
  have hRedundant : (m.1.pool.coverage 0 arms {}).redundant = [2] := by
    decide +kernel
  refine ⟨hExhaustive, hRedundant, modedNode_hasType, hPins,
    fun host state => ?_⟩
  rcases coverage_sound_of_pinsOnly hFree hNames derivedMode_varies hApart
    derivedMode_namedOnce (fun hNe => (hNe rfl).elim) hMatch hPins
    modedNode_hasType {} {} true host state with ⟨hSome, hChosen⟩
  refine ⟨hSome hExhaustive, fun found hFound hEq => ?_⟩
  refine hChosen found hFound ?_
  rw [hRedundant, hEq]
  exact List.mem_singleton_self 2

/- The case of the second arm is a mode. -/
def derivedModePatterns : List Pattern :=
  [.constructor {} { typeName := some "Node", caseName := some "A" } [] [],
    .constructor {}
      { typeName := some "Moded", caseName := some "A", target := some 2 }
      [] []]

/-
  A case of another discriminator counts as one of the union:
  the second arm is redundant, and it is chosen.
-/
theorem derivedMode_redundant_chosen :
    let ctx : CheckContext := { table := derivedMode, marker := 'k' }
    let m := ctx.checkMatch 1 derivedModePatterns
    let arms := acceptedArms m.2
    ctx.AcceptsMatch 1 derivedModePatterns 0 m.1 arms ∧
    HasType derivedMode (.described 1) modedNode ∧
    (m.1.pool.coverage 0 arms {}).redundant = [1] ∧
    ((Procedure.ofArms {} arms 0 false).execute
      (fun _ _ => (pure true : StateM Unit Bool)) modedNode ()).1.map
        MatchOutcome.arm = .ok 1 := by
  refine ⟨CheckContext.acceptsMatch_of_checkMatch (by decide +kernel),
    modedNode_hasType, by decide +kernel, by decide +kernel⟩

end MatchCompiler
