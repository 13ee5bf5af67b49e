import MatchCompiler.Proofs.Scope
import MatchCompiler.Proofs.SlotTyping

/-
  This file shows that the parts of accepted patterns are
  checked against slots that stand for types.

  Checking a pattern extracts schemas on the way. The types
  of slots only grow with them, so that every part is checked
  in a registry whose slots are typed.

  Key definitions include:
    * `Schema.PartField`
    * `AcceptedAt`
    * `Pattern.outerHeads`
    * `Checked.MadeOf`

  Key theorems include:
    * `Schema.partField_of_mem`
    * `Accepts.growsTyped`
    * `AcceptsAll.exists_acceptedAt`
    * `AcceptedAt.madeOf`
-/

------------------------------------------------------------
-- Fields That Parts Read
------------------------------------------------------------

namespace MatchCompiler

namespace Schema

/-
  A field that a part besides the discriminator reads: one
  that all branches share, or one of the first branch that is
  pinned, if all of these have it.
-/
inductive PartField
    (s : Schema)
    (pinned : Option (List Member))
    (f : Field) : Prop
| shared
    (hField : f ∈ s.fields)
    (hOther : s.isDiscriminator f.name = false)
| branch
    {labels : List Member}
    {first : Member}
    {b : Branch}
    (hPinned : pinned = some labels)
    (hFirst : first ∈ labels)
    (hBranch : s.branch? first.name = some b)
    (hField : f ∈ b.fields)
    (hOwners : ∀ l ∈ labels, l.name ∈ s.owners f.name)

variable {s : Schema}
variable {pinned : Option (List Member)}

/- A branch with a field is an owner of it. -/
theorem mem_owners
    {label : String}
    {b : Branch}
    {f : Field}
    (hBranch : s.branch? label = some b)
    (hField : f ∈ b.fields) :
    label ∈ s.owners f.name := by
  have hLabel : b.label = label := by
    simpa using List.find?_some hBranch
  have hFound : (b.field? f.name).isSome = true := by
    rw [Branch.field?, List.find?_isSome]
    exact ⟨f, hField, beq_self_eq_true _⟩
  refine List.mem_map.mpr ⟨b, ?_, hLabel⟩
  exact List.mem_filter.mpr ⟨List.mem_of_find?_eq_some hBranch, hFound⟩

theorem partField_of_readable
    {name : String}
    {span : Span}
    {f : Field}
    (hOther : s.isDiscriminator name = false)
    (h : s.readable pinned name span = .ok (some f)) :
    s.PartField pinned f := by
  rcases cases_of_readable h with
    ⟨g, hField, hSame⟩ | ⟨-, labels, rfl, hPinned, hOwners⟩
  · cases hSame
    have hName : f.name = name := by
      simpa using List.find?_some hField
    exact .shared (List.mem_of_find?_eq_some hField) (hName ▸ hOther)
  · rw [pinnedField?, eq_comm, Option.bind_eq_bind,
      Option.bind_eq_some_iff] at hPinned
    rcases hPinned with ⟨first, hFirst, hPinned⟩
    rcases Option.bind_eq_some_iff.mp hPinned with ⟨b, hBranch, hField⟩
    have hName : f.name = name := by
      simpa using List.find?_some hField
    exact .branch rfl (List.mem_of_head? hFirst) hBranch
      (List.mem_of_find?_eq_some hField) (hName ▸ hOwners)

theorem partField_of_positional
    {f : Field}
    (h : f ∈ s.positionalFields pinned) :
    s.PartField pinned f := by
  have hShared :
      f ∈ s.fields.filter (fun f => !s.isDiscriminator f.name) →
        s.PartField pinned f := by
    intro hf
    rcases List.mem_filter.mp hf with ⟨hField, hOther⟩
    exact .shared hField (by simpa using hOther)
  unfold positionalFields at h
  dsimp only at h
  split at h
  · rename_i only
    split at h
    · rename_i b hBranch
      refine .branch rfl (List.mem_singleton_self only) hBranch h
        fun l hl => ?_
      cases List.mem_singleton.mp hl
      exact mem_owners hBranch h
    · exact hShared h
  · exact hShared h

/- Parts besides the discriminator read such fields. -/
theorem partField_of_mem
    {fields : List (FieldName × Pattern)}
    {args : List Pattern}
    {part : FieldRead × SchemaId × Pattern}
    (h : part ∈ s.namedParts pinned fields ++ s.unnamedParts pinned args) :
    ∃ f, part.1 = f.read ∧ part.2.1 = f.schema ∧ s.PartField pinned f := by
  rcases List.mem_append.mp h with h | h
  · rcases List.mem_filterMap.mp h with ⟨given, -, hPart⟩
    unfold namedPart? at hPart
    split at hPart
    · cases hPart
    · rename_i hOther
      split at hPart
      · rename_i f hReadable
        cases hPart
        refine ⟨f, rfl, rfl, partField_of_readable ?_ hReadable⟩
        exact Bool.eq_false_of_not_eq_true hOther
      · cases hPart
  · unfold unnamedParts at h
    rw [← List.map_uncurry_zip_eq_zipWith] at h
    rcases List.mem_map.mp h with ⟨⟨p, f⟩, hMem, rfl⟩
    exact ⟨f, rfl, rfl, partField_of_positional (List.of_mem_zip hMem).2⟩

/- The part of the discriminator reads it at its slot. -/
theorem exists_discriminator_of_mem
    {fields : List (FieldName × Pattern)}
    {part : FieldRead × SchemaId × Pattern}
    (h : part ∈ s.discriminatorParts fields) :
    ∃ d, s.discriminator = some d ∧ part.1.name = d.field ∧
      part.2.1 = d.schema := by
  unfold discriminatorParts at h
  split at h
  · cases h
  · rename_i d hDisc
    split at h
    · cases h
    · rename_i name p hFind
      cases List.mem_singleton.mp h
      refine ⟨d, hDisc, ?_, rfl⟩
      simpa using List.find?_some hFind

/- Only the cases of a union can be pinned. -/
theorem exists_pinCase
    {marker : Char}
    {span : Span}
    {caseName : Option String}
    {labels : List Member}
    (h :
      caseName.mapM (fun c => s.pinCase marker c span) =
        .ok (some labels)) :
    ∃ c, s.pinCase marker c span = .ok labels := by
  cases caseName with
  | none => cases h
  | some c =>
      rw [Option.mapM_some] at h
      cases hPin : s.pinCase marker c span with
      | error problem =>
          rw [hPin] at h
          cases h
      | ok found =>
          rw [hPin] at h
          cases h
          exact ⟨c, hPin⟩

theorem structuralKind_of_pinCase
    {marker : Char}
    {caseName : String}
    {span : Span}
    {labels : List Member}
    (h : s.pinCase marker caseName span = .ok labels) :
    s.structuralKind = .union := by
  unfold pinCase at h
  dsimp only at h
  split at h
  · cases h
  · rename_i hKind
    simpa using hKind

/- A case name pins one branch with its number. -/
theorem eq_of_pinCase
    {marker : Char}
    {caseName : String}
    {span : Span}
    {labels : List Member}
    (h : s.pinCase marker caseName span = .ok labels) :
    ∃ b, s.branch? b.label = some b ∧ labels = [⟨b.label, b.ordinal⟩] := by
  unfold pinCase at h
  dsimp only at h
  split at h
  · cases h
  · have hFound :
        ∀ label, label ∈ s.branches.map Branch.label →
          ∃ b, s.branch? label = some b ∧ b.label = label := by
      intro label hLabel
      rcases List.mem_map.mp hLabel with ⟨c, hc, rfl⟩
      have hSome : (s.branch? c.label).isSome = true := by
        rw [branch?, List.find?_isSome]
        exact ⟨c, hc, beq_self_eq_true _⟩
      rcases Option.isSome_iff_exists.mp hSome with ⟨b, hb⟩
      exact ⟨b, hb, by simpa using List.find?_some hb⟩
    have hMeans :
        ∀ label, (resolveCase (s.branches.map Branch.label) caseName
            marker).label? = some label →
          [⟨label, ((s.branch? label).map Branch.ordinal).getD 0⟩] =
            labels →
          ∃ b, s.branch? b.label = some b ∧
            labels = [⟨b.label, b.ordinal⟩] := by
      rintro label hLabel rfl
      rcases hFound label (mem_of_label?_resolveCase hLabel) with
        ⟨b, hb, rfl⟩
      exact ⟨b, hb, by rw [hb]; rfl⟩
    split at h
    · rename_i label hCase
      exact hMeans label (by rw [hCase]; rfl) (Except.ok.inj h)
    · rename_i label hCase
      exact hMeans label (by rw [hCase]; rfl) (Except.ok.inj h)
    · cases h
    · cases h

end Schema

/- The part of a tuple reads a field at its place. -/
theorem SeqElement.exists_field_of_mem_tupleParts
    {es : List (SeqElement Pattern)}
    {fields : List Field}
    {part : Nat × SchemaId × Pattern}
    (h : part ∈ tupleParts es fields) :
    ∃ f ∈ fields, part.1 = f.position ∧ part.2.1 = f.schema := by
  rcases List.mem_filterMap.mp h with ⟨⟨e, f⟩, he, hPart⟩
  have hMem := (List.of_mem_zip he).2
  cases e with
  | item p d =>
      cases hPart
      exact ⟨f, hMem, rfl, rfl⟩
  | spread p span => cases hPart

end MatchCompiler

------------------------------------------------------------
-- Slots Of Parts
------------------------------------------------------------

namespace MatchCompiler

theorem SlotTypes.exists_kept
    {Γ Γ' : SlotTypes}
    (h : Γ <+: Γ')
    {slot : SchemaId}
    (hSlot : ∃ T, Γ[slot]? = some T) :
    ∃ T, Γ'[slot]? = some T := by
  rcases hSlot with ⟨T, hSlot⟩
  exact ⟨T, SlotTypes.kept h hSlot⟩

/- A field that is declared has a slot that stands for a type. -/
theorem Field.DeclaredAt.exists_type
    {t : TypeTable}
    {Γ : SlotTypes}
    {id : DescriptorId}
    {f : Field}
    {varies : Prop}
    (h : f.DeclaredAt t Γ id varies) :
    ∃ T, Γ[f.schema]? = some T := by
  cases h with
  | object _ _ _ _ hDeclares => exact ⟨_, hDeclares.2⟩
  | place _ _ hSlot => exact ⟨_, hSlot⟩

namespace Describes

variable {t : TypeTable}
variable {Γ : SlotTypes}
variable {T : ValueType}
variable {s : Schema}

/- What is read as a union has a discriminator. -/
theorem isSome_discriminator
    (h : Describes t Γ T s)
    (hKind : s.structuralKind = .union) :
    s.discriminator.isSome = true := by
  unfold Schema.structuralKind at hKind
  split at hKind
  · split at hKind
    · assumption
    · cases hKind
  · exact h.union hKind

/- Branches are pinned in unions only. -/
theorem isSome_discriminator_of_pinned
    (h : Describes t Γ T s)
    {marker : Char}
    {span : Span}
    {caseName : Option String}
    {fromCase : Option (List Member)}
    (hCase :
      caseName.mapM (fun c => s.pinCase marker c span) = .ok fromCase)
    {ctx : CheckContext}
    {fields : List (FieldName × Pattern)}
    {disc : List (FieldRead × Checked)}
    {p p' : Progress}
    (hDisc : AcceptsAll ctx (s.discriminatorParts fields) p disc p')
    (labels : List Member)
    (hPinned : s.pinnedBy fromCase disc = some labels) :
    s.discriminator.isSome = true := by
  cases disc with
  | nil =>
      cases hPinned
      rcases Schema.exists_pinCase hCase with ⟨c, hPin⟩
      exact h.isSome_discriminator (Schema.structuralKind_of_pinCase hPin)
  | cons part rest =>
      cases hParts : s.discriminatorParts fields with
      | nil =>
          rw [hParts] at hDisc
          cases hDisc
      | cons first others =>
          have hMem : first ∈ s.discriminatorParts fields := by
            rw [hParts]
            exact List.mem_cons_self
          rcases Schema.exists_discriminator_of_mem hMem with ⟨d, hd, -⟩
          rw [hd]
          rfl

/- The parts of a constructor pattern have typed slots. -/
theorem exists_type_of_discriminatorPart
    (h : Describes t Γ T s)
    {fields : List (FieldName × Pattern)}
    {part : FieldRead × SchemaId × Pattern}
    (hPart : part ∈ s.discriminatorParts fields) :
    ∃ U, Γ[part.2.1]? = some U := by
  rcases Schema.exists_discriminator_of_mem hPart with
    ⟨d, hDisc, -, hSlot⟩
  rcases h.variant (by rw [hDisc]; rfl) with
    ⟨id, last, o, variant, -, -, -, -, slot, hSame, hType, -⟩
  cases hDisc.symm.trans hSame
  rw [hSlot]
  exact ⟨_, hType⟩

theorem exists_type_of_partField
    (h : Describes t Γ T s)
    {pinned : Option (List Member)}
    {f : Field}
    (hUnion : ∀ labels, pinned = some labels → s.discriminator.isSome = true)
    (hPart : s.PartField pinned f) :
    ∃ U, Γ[f.schema]? = some U := by
  cases hPart with
  | shared hField =>
      rcases h.declared f hField with ⟨id, -, hDeclared⟩
      exact hDeclared.exists_type
  | branch hPinned _ hBranch hField =>
      rcases h.variant (hUnion _ hPinned) with
        ⟨id, last, o, part, -, -, -, -, slot, -, -, -, hFields⟩
      rcases hFields _ (List.mem_of_find?_eq_some hBranch) f hField with
        ⟨d, -, hDeclares⟩
      exact ⟨_, hDeclares.2⟩

theorem exists_type_of_part
    (h : Describes t Γ T s)
    {pinned : Option (List Member)}
    (hUnion : ∀ labels, pinned = some labels → s.discriminator.isSome = true)
    {fields : List (FieldName × Pattern)}
    {args : List Pattern}
    {part : FieldRead × SchemaId × Pattern}
    (hPart :
      part ∈ s.namedParts pinned fields ++ s.unnamedParts pinned args) :
    ∃ U, Γ[part.2.1]? = some U := by
  rcases Schema.partField_of_mem hPart with ⟨f, -, hSlot, hField⟩
  rw [hSlot]
  exact h.exists_type_of_partField hUnion hField

end Describes

end MatchCompiler

------------------------------------------------------------
-- Growing Registries
------------------------------------------------------------

namespace MatchCompiler

open Registry (GrowsTyped)

variable {ctx : CheckContext}
variable {Γ Γ' : SlotTypes}
variable {T : ValueType}

/- A slot keeps its type and its schema. -/
theorem Registry.GrowsTyped.slot
    {t : TypeTable}
    {r r' : Registry}
    (h : GrowsTyped t Γ r Γ' r')
    (hTyped : r.Typed t Γ)
    {slot : SchemaId}
    (hSlot : Γ[slot]? = some T) :
    Γ'[slot]? = some T ∧ r'.pool.get slot = r.pool.get slot :=
  ⟨SlotTypes.kept h.types hSlot,
    h.registry.pool.get_eq (hTyped.pool.lt hSlot)⟩

/- The head of a constructor pattern names a typed slot. -/
theorem HeadMeans.growsTyped
    (hFree : ctx.table.TemplateFree)
    {scrutinee : SchemaId}
    {head : ConstructorHead}
    {s s' : Progress}
    {resolved : ResolvedHead}
    (h : HeadMeans ctx scrutinee head s resolved s')
    (hTyped : s.registry.Typed ctx.table Γ)
    (hSlot : Γ[scrutinee]? = some T) :
    ∃ Γ' U, GrowsTyped ctx.table Γ s.registry Γ' s'.registry ∧
      Γ'[resolved.target]? = some U := by
  have hExtracted :
      ∀ id, ∃ Γ' U,
        GrowsTyped ctx.table Γ s.registry Γ'
          (s.extract ctx id).1.registry ∧
        Γ'[(s.extract ctx id).2]? = some U := by
    intro id
    rcases hTyped.schemaWithin hFree _ id with ⟨Γ', U, hGrows, hU, -⟩
    exact ⟨Γ', U, hGrows, hU⟩
  cases h with
  | own => exact ⟨Γ, T, .refl hTyped, hSlot⟩
  | base => exact hExtracted _
  | derived => exact hExtracted _

mutual

/- Checking a pattern keeps the slots typed. -/
theorem Accepts.growsTyped
    (hFree : ctx.table.TemplateFree)
    {p : Pattern}
    {id : SchemaId}
    {s s' : Progress}
    {q : Checked}
    {Γ : SlotTypes}
    {T : ValueType}
    (h : Accepts ctx p id s q s')
    (hTyped : s.registry.Typed ctx.table Γ)
    (hSlot : Γ[id]? = some T) :
    ∃ Γ', GrowsTyped ctx.table Γ s.registry Γ' s'.registry := by
  have hDescribed := hTyped.pool.described id T hSlot
  match h with
  | .wildcard _ _ _ => exact ⟨Γ, .refl hTyped⟩
  | .bind _ _ _ => exact ⟨Γ, .refl hTyped⟩
  | .named hInner _ => exact hInner.growsTyped hFree hTyped hSlot
  | .literal _ => exact ⟨Γ, .refl hTyped⟩
  | .alt hBranches _ => exact hBranches.growsTyped hFree hTyped hSlot
  | .guarded hInner _ => exact hInner.growsTyped hFree hTyped hSlot
  | .some _ hElement hInner =>
      rcases hDescribed.contents _ (.inl hElement) with ⟨U, hU⟩
      exact hInner.growsTyped hFree hTyped hU
  | .someUnknown _ => exact ⟨Γ, .refl hTyped⟩
  | .none _ => exact ⟨Γ, .refl hTyped⟩
  | .object _ hHead hSchema hCase hDisc hRest =>
      rcases hHead.growsTyped hFree hTyped hSlot with ⟨Γ₁, U, hGrows, hU⟩
      have hTarget := hGrows.typed.pool.described _ U hU
      rw [← Progress.pool, hSchema] at hTarget
      rcases hDisc.growsTyped hFree hGrows.typed
          (fun part hPart => hTarget.exists_type_of_discriminatorPart hPart)
        with ⟨Γ₂, hGrows₂⟩
      have hUnion := hTarget.isSome_discriminator_of_pinned hCase hDisc
      rcases hRest.growsTyped hFree hGrows₂.typed
          (fun part hPart => SlotTypes.exists_kept hGrows₂.types
            (hTarget.exists_type_of_part hUnion hPart)) with ⟨Γ₃, hGrows₃⟩
      exact ⟨Γ₃, hGrows.trans (hGrows₂.trans hGrows₃)⟩
  | .seq _ _ hElement _ _ hItems hSpread =>
      rcases hDescribed.contents _ (.inl hElement) with ⟨U, hU⟩
      rcases hItems.growsTyped hFree hTyped
          (fun part hPart =>
            ⟨U, (SeqElement.exists_of_mem_itemParts hPart).2 ▸ hU⟩) with
        ⟨Γ₁, hGrows₁⟩
      rcases hSpread.growsTyped hFree hGrows₁.typed
          (SlotTypes.kept hGrows₁.types hU) with ⟨Γ₂, hGrows₂⟩
      exact ⟨Γ₂, hGrows₁.trans hGrows₂⟩
  | .tuple _ hItems =>
      refine hItems.growsTyped hFree hTyped fun part hPart => ?_
      rcases SeqElement.exists_field_of_mem_tupleParts hPart with
        ⟨f, hField, -, hSlot⟩
      rcases hDescribed.declared f hField with ⟨id, -, hDeclared⟩
      exact hSlot ▸ hDeclared.exists_type
  | .typeTest _ =>
      rcases hTyped.schemaWithin hFree _ _ with ⟨Γ', -, hGrows, -⟩
      exact ⟨Γ', hGrows⟩
  | .narrow _ _ =>
      rcases hTyped.schemaWithin hFree _ _ with ⟨Γ', -, hGrows, -⟩
      exact ⟨Γ', hGrows⟩
  | .map _ hValue hEntries =>
      rcases hDescribed.contents _ (.inr hValue) with ⟨U, hU⟩
      refine hEntries.growsTyped hFree hTyped fun part hPart => ?_
      rcases List.mem_map.mp hPart with ⟨entry, -, rfl⟩
      exact ⟨U, hU⟩
  | .set _ _ _ => exact ⟨Γ, .refl hTyped⟩
termination_by structural h

theorem AcceptsAll.growsTyped
    (hFree : ctx.table.TemplateFree)
    {α : Type}
    {parts : List (α × SchemaId × Pattern)}
    {qs : List (α × Checked)}
    {s s' : Progress}
    {Γ : SlotTypes}
    (h : AcceptsAll ctx parts s qs s')
    (hTyped : s.registry.Typed ctx.table Γ)
    (hSlots : ∀ part ∈ parts, ∃ T, Γ[part.2.1]? = some T) :
    ∃ Γ', GrowsTyped ctx.table Γ s.registry Γ' s'.registry := by
  match h with
  | .nil _ => exact ⟨Γ, .refl hTyped⟩
  | .cons hHead hTail =>
      rcases List.forall_mem_cons.mp hSlots with ⟨⟨T, hSlot⟩, hSlots⟩
      rcases hHead.growsTyped hFree hTyped hSlot with ⟨Γ₁, hGrows₁⟩
      rcases hTail.growsTyped hFree hGrows₁.typed
          (fun part hPart =>
            SlotTypes.exists_kept hGrows₁.types (hSlots part hPart)) with
        ⟨Γ₂, hGrows₂⟩
      exact ⟨Γ₂, hGrows₁.trans hGrows₂⟩
termination_by structural h

theorem AcceptsBranches.growsTyped
    (hFree : ctx.table.TemplateFree)
    {id : SchemaId}
    {before : List Binding}
    {ps : List Pattern}
    {branches : List (Checked × List Binding)}
    {r r' : Registry}
    {Γ : SlotTypes}
    {T : ValueType}
    (h : AcceptsBranches ctx id before ps r branches r')
    (hTyped : r.Typed ctx.table Γ)
    (hSlot : Γ[id]? = some T) :
    ∃ Γ', GrowsTyped ctx.table Γ r Γ' r' := by
  match h with
  | .nil _ _ _ => exact ⟨Γ, .refl hTyped⟩
  | .cons hHead hTail =>
      rcases hHead.growsTyped hFree hTyped hSlot with ⟨Γ₁, hGrows₁⟩
      rcases hTail.growsTyped hFree hGrows₁.typed
          (SlotTypes.kept hGrows₁.types hSlot) with ⟨Γ₂, hGrows₂⟩
      exact ⟨Γ₂, hGrows₁.trans hGrows₂⟩
termination_by structural h

theorem AcceptsSpread.growsTyped
    (hFree : ctx.table.TemplateFree)
    {element : SchemaId}
    {p : Option Pattern}
    {s s' : Progress}
    {q : Option Checked}
    {Γ : SlotTypes}
    {T : ValueType}
    (h : AcceptsSpread ctx element p s q s')
    (hTyped : s.registry.Typed ctx.table Γ)
    (hSlot : Γ[element]? = some T) :
    ∃ Γ', GrowsTyped ctx.table Γ s.registry Γ' s'.registry := by
  match h with
  | .none _ _ => exact ⟨Γ, .refl hTyped⟩
  | .some hInner =>
      rcases hTyped.sequenceOf hSlot with ⟨Γ₁, hGrows₁, hSequence⟩
      rcases hInner.growsTyped hFree hGrows₁.typed hSequence with
        ⟨Γ₂, hGrows₂⟩
      exact ⟨Γ₂, hGrows₁.trans hGrows₂⟩
termination_by structural h

end

end MatchCompiler

------------------------------------------------------------
-- Parts And Branches
------------------------------------------------------------

namespace MatchCompiler

open Registry (GrowsTyped)

/-
  A pattern is accepted at a slot by a registry that has
  grown from a given one.
-/
def AcceptedAt
    (ctx : CheckContext)
    (Γ : SlotTypes)
    (r : Registry)
    (p : Pattern)
    (id : SchemaId)
    (q : Checked) : Prop :=
  ∃ s s' Γ', GrowsTyped ctx.table Γ r Γ' s.registry ∧
    Accepts ctx p id s q s'

variable {ctx : CheckContext}
variable {Γ Γ' : SlotTypes}
variable {r r' : Registry}

theorem AcceptedAt.of_grows
    {p : Pattern}
    {id : SchemaId}
    {q : Checked}
    (h : AcceptedAt ctx Γ' r' p id q)
    (hGrows : GrowsTyped ctx.table Γ r Γ' r') :
    AcceptedAt ctx Γ r p id q := by
  rcases h with ⟨s, s', Γ'', hMore, hAccepts⟩
  exact ⟨s, s', Γ'', hGrows.trans hMore, hAccepts⟩

/- Every part is accepted at its slot. -/
theorem AcceptsAll.exists_acceptedAt
    (hFree : ctx.table.TemplateFree)
    {α : Type}
    {parts : List (α × SchemaId × Pattern)}
    {qs : List (α × Checked)}
    {s s' : Progress}
    (h : AcceptsAll ctx parts s qs s')
    (hTyped : s.registry.Typed ctx.table Γ)
    (hSlots : ∀ part ∈ parts, ∃ T, Γ[part.2.1]? = some T)
    {label : α}
    {q : Checked}
    (hMem : (label, q) ∈ qs) :
    ∃ id p, (label, id, p) ∈ parts ∧
      AcceptedAt ctx Γ s.registry p id q := by
  induction parts generalizing s qs Γ with
  | nil =>
      cases h
      cases hMem
  | cons part parts ih =>
      cases h with
      | @cons _ first id p q₁ _ qs _ s₁ _ hHead hTail =>
          rcases List.forall_mem_cons.mp hSlots with ⟨⟨T, hSlot⟩, hSlots⟩
          rcases List.mem_cons.mp hMem with hEq | hMem
          · cases hEq
            exact ⟨id, p, List.mem_cons_self, s, s₁, Γ, .refl hTyped, hHead⟩
          · rcases hHead.growsTyped hFree hTyped hSlot with ⟨Γ₁, hGrows⟩
            rcases ih hTail hGrows.typed
                (fun part hPart =>
                  SlotTypes.exists_kept hGrows.types (hSlots part hPart))
                hMem with ⟨id', p', hPart, hAccepted⟩
            exact ⟨id', p', List.mem_cons_of_mem _ hPart,
              hAccepted.of_grows hGrows⟩

/- Every branch is accepted at the slot of the alternation. -/
theorem AcceptsBranches.exists_acceptedAt
    (hFree : ctx.table.TemplateFree)
    {id : SchemaId}
    {before : List Binding}
    {ps : List Pattern}
    {branches : List (Checked × List Binding)}
    (h : AcceptsBranches ctx id before ps r branches r')
    (hTyped : r.Typed ctx.table Γ)
    {T : ValueType}
    (hSlot : Γ[id]? = some T)
    {b : Checked × List Binding}
    (hMem : b ∈ branches) :
    ∃ p ∈ ps, AcceptedAt ctx Γ r p id b.1 := by
  induction ps generalizing r branches Γ with
  | nil =>
      cases h
      cases hMem
  | cons p ps ih =>
      cases h with
      | cons hHead hTail =>
          rcases List.mem_cons.mp hMem with rfl | hMem
          · exact ⟨p, List.mem_cons_self, _, _, Γ, .refl hTyped, hHead⟩
          · rcases hHead.growsTyped hFree hTyped hSlot with ⟨Γ₁, hGrows⟩
            rcases ih hTail hGrows.typed
                (SlotTypes.kept hGrows.types hSlot) hMem with
              ⟨p', hp', hAccepted⟩
            exact ⟨p', List.mem_cons_of_mem _ hp',
              hAccepted.of_grows hGrows⟩

end MatchCompiler

------------------------------------------------------------
-- Nodes At One Place
------------------------------------------------------------

namespace MatchCompiler

namespace Pattern

mutual

/-
  The heads of the constructor patterns that the whole value
  is compared with.
-/
def outerHeads : Pattern → List ConstructorHead
| .alt _ branches => outerHeadsOfAll branches
| .guarded _ inner _ => inner.outerHeads
| .named _ _ inner => inner.outerHeads
| .constructor _ head _ _ => [head]
| _ => []
termination_by structural p => p

/- The heads of several patterns. -/
def outerHeadsOfAll : List Pattern → List ConstructorHead
| [] => []
| p :: ps => p.outerHeads ++ outerHeadsOfAll ps
termination_by structural ps => ps

end

theorem outerHeads_subset
    {ps : List Pattern}
    {p : Pattern}
    (h : p ∈ ps) :
    p.outerHeads ⊆ outerHeadsOfAll ps := by
  induction ps with
  | nil => cases h
  | cons first ps ih =>
      rcases List.mem_cons.mp h with rfl | h
      · exact List.subset_append_left _ _
      · exact List.Subset.trans (ih h) (List.subset_append_right _ _)

end Pattern

namespace Checked

mutual

/- The heads of the object patterns that meet the whole value. -/
def outerObjects : Checked → List ObjectHead
| .bind _ _ inner => inner.outerObjects
| .guarded _ inner _ => inner.outerObjects
| .alt _ branches => outerObjectsOfAll branches
| .object _ head _ => [head]
| _ => []
termination_by structural q => q

/- The heads of the object patterns of several patterns. -/
def outerObjectsOfAll : List Checked → List ObjectHead
| [] => []
| q :: qs => q.outerObjects ++ outerObjectsOfAll qs
termination_by structural qs => qs

end

theorem outerObjects_subset
    {qs : List Checked}
    {q : Checked}
    (h : q ∈ qs) :
    q.outerObjects ⊆ outerObjectsOfAll qs := by
  induction qs with
  | nil => cases h
  | cons first qs ih =>
      rcases List.mem_cons.mp h with rfl | h
      · exact List.subset_append_left _ _
      · exact List.Subset.trans (ih h) (List.subset_append_right _ _)

/- The kinds of schema that take a node, if not all do. -/
def nodeKinds : Checked → Option (List SchemaKind)
| .object _ _ _ => Option.some [.record, .union]
| .some _ _ => Option.some [.optional]
| .literal _ .none => Option.some [.optional]
| .tuple _ _ => Option.some [.tuple]
| .seq _ _ _ _ _ => Option.some [.sequence, .array]
| .map _ _ => Option.some [.map]
| .set _ _ => Option.some [.set]
| _ => none

end Checked

/- A node is accepted at a schema that takes it. -/
theorem AcceptedAt.structuralKind_mem
    {ctx : CheckContext}
    {Γ : SlotTypes}
    {r : Registry}
    (hTyped : r.Typed ctx.table Γ)
    {p : Pattern}
    {slot : SchemaId}
    {q : Checked}
    {T : ValueType}
    (hSlot : Γ[slot]? = some T)
    (h : AcceptedAt ctx Γ r p slot q)
    {kinds : List SchemaKind}
    (hKinds : q.nodeKinds = some kinds) :
    (r.pool.get slot).structuralKind ∈ kinds := by
  rcases h with ⟨s₁, s₂, Γ₁, hGrows, hAccepts⟩
  rcases hGrows.slot hTyped hSlot with ⟨hSlot₁, hSame⟩
  rw [← hSame]
  cases hAccepts with
  | literal hMeaning =>
      rcases SchemaPool.cases_of_checkLiteral hMeaning with
        ⟨rfl, -⟩ | ⟨rfl, hOptional⟩ | ⟨rfl, -⟩ | ⟨⟨l, rfl⟩, -⟩ |
          ⟨⟨m, -, rfl⟩, -⟩
      · cases hKinds
      · cases hKinds
        exact List.mem_singleton.mpr hOptional
      · cases hKinds
      · cases hKinds
      · cases hKinds
  | some hOptional =>
      cases hKinds
      exact List.mem_singleton.mpr hOptional
  | someUnknown hOptional =>
      cases hKinds
      exact List.mem_singleton.mpr hOptional
  | none hOptional =>
      cases hKinds
      exact List.mem_singleton.mpr hOptional
  | object hObject =>
      cases hKinds
      simpa [Progress.pool] using hObject
  | seq _ hSeq =>
      cases hKinds
      simpa [Progress.pool] using hSeq
  | tuple hTuple =>
      cases hKinds
      exact List.mem_singleton.mpr hTuple
  | set hSet =>
      cases hKinds
      exact List.mem_singleton.mpr hSet
  | map hKey =>
      cases hKinds
      have hDescribes := hGrows.typed.pool.described slot T hSlot₁
      have hMap := hDescribes.entries (by
        rw [← Progress.pool, hKey]
        rfl)
      rw [Schema.structuralKind, hMap]
      exact List.mem_singleton_self _
  | typeTest hTested =>
      cases hTested with
      | holds => cases hKinds
      | tested => cases hKinds
  | _ => cases hKinds

theorem AcceptedAt.false_of_kind
    {ctx : CheckContext}
    {Γ : SlotTypes}
    {r : Registry}
    (hTyped : r.Typed ctx.table Γ)
    {p : Pattern}
    {slot : SchemaId}
    {q : Checked}
    {T : ValueType}
    (hSlot : Γ[slot]? = some T)
    (h : AcceptedAt ctx Γ r p slot q)
    {kind : SchemaKind}
    (hKind : (r.pool.get slot).structuralKind = kind)
    {kinds : List SchemaKind}
    (hKinds : q.nodeKinds = some kinds)
    (hOther : kinds.contains kind = false) :
    False := by
  have hMem := List.contains_iff_mem.mpr
    (h.structuralKind_mem hTyped hSlot hKinds)
  rw [hKind, hOther] at hMem
  cases hMem

/-
  A pattern is made of nodes that are all compared with one
  value.
-/
inductive Checked.MadeOf
    (N : Checked → Prop) : Checked → Prop
| node
    {q : Checked}
    (h : N q) :
    MadeOf N q
| bind
    {q : Checked}
    (span : Span)
    (x : String)
    (h : MadeOf N q) :
    MadeOf N (.bind span x q)
| guarded
    {q : Checked}
    (span : Span)
    (id : GuardId)
    (h : MadeOf N q) :
    MadeOf N (.guarded span q id)
| alt
    {qs : List Checked}
    (span : Span)
    (h : ∀ q ∈ qs, MadeOf N q) :
    MadeOf N (.alt span qs)

theorem Checked.MadeOf.mono
    {N M : Checked → Prop}
    {q : Checked}
    (h : q.MadeOf N)
    (hImp : ∀ node, N node → M node) :
    q.MadeOf M := by
  induction h with
  | node hNode => exact .node (hImp _ hNode)
  | bind span x _ ih => exact .bind span x ih
  | guarded span id _ ih => exact .guarded span id ih
  | alt span _ ih => exact .alt span ih

/- The object patterns of the nodes are those of the pattern. -/
theorem Checked.MadeOf.within
    {N : Checked → Prop}
    {q : Checked}
    (h : q.MadeOf N) :
    q.MadeOf fun node =>
      N node ∧ node.outerObjects ⊆ q.outerObjects := by
  induction h with
  | node hNode => exact .node ⟨hNode, List.Subset.refl _⟩
  | bind span x _ ih => exact .bind span x ih
  | guarded span id _ ih => exact .guarded span id ih
  | alt span _ ih =>
      refine .alt span fun q hq => (ih q hq).mono fun node hNode => ?_
      exact ⟨hNode.1, List.Subset.trans hNode.2 (outerObjects_subset hq)⟩

/- A pattern that is a node itself. -/
def Pattern.IsNode : Pattern → Prop
| .alt _ _ | .guarded _ _ _ | .named _ _ _ | .bind _ _ | .narrow _ _ _ =>
    False
| _ => True

/-
  An accepted pattern is made of accepted nodes, whose heads
  are among those of the pattern.
-/
theorem AcceptedAt.madeOf
    {ctx : CheckContext}
    {Γ : SlotTypes}
    {r : Registry}
    (hFree : ctx.table.TemplateFree)
    {p : Pattern}
    {id : SchemaId}
    {q : Checked}
    {T : ValueType}
    {N : Checked → Prop}
    (hSlot : Γ[id]? = some T)
    (h : AcceptedAt ctx Γ r p id q)
    (hNodes :
      ∀ p' q', AcceptedAt ctx Γ r p' id q' → p'.IsNode →
        p'.outerHeads ⊆ p.outerHeads → N q') :
    q.MadeOf N := by
  induction p using Pattern.partInduction generalizing q with
  | bind span x =>
      rcases h with ⟨s, s', Γ', hGrows, hAccepts⟩
      cases hAccepts with
      | bind =>
          exact .bind span x (.node (hNodes (.wildcard span) _
            ⟨s, s, Γ', hGrows, .wildcard span id s⟩ trivial
            (List.Subset.refl _)))
  | narrow span x target =>
      rcases h with ⟨s, s', Γ', hGrows, hAccepts⟩
      cases hAccepts with
      | narrow hTested =>
          exact .bind span x (.node (hNodes (.typeTest span target) _
            ⟨s, _, Γ', hGrows, .typeTest hTested⟩ trivial
            (List.Subset.refl _)))
  | named span x p ih =>
      rcases h with ⟨s, s', Γ', hGrows, hAccepts⟩
      cases hAccepts with
      | named hInner =>
          exact .bind span x (ih ⟨s, _, Γ', hGrows, hInner⟩ hNodes)
  | guarded span p g ih =>
      rcases h with ⟨s, s', Γ', hGrows, hAccepts⟩
      cases hAccepts with
      | guarded hInner =>
          exact .guarded span g.id (ih ⟨s, _, Γ', hGrows, hInner⟩ hNodes)
  | alt span ps ih =>
      rcases h with ⟨s, s', Γ', hGrows, hAccepts⟩
      cases hAccepts with
      | alt hBranches =>
          refine .alt span fun q hq => ?_
          rcases List.mem_map.mp hq with ⟨b, hb, rfl⟩
          rcases hBranches.exists_acceptedAt hFree hGrows.typed
              (SlotTypes.kept hGrows.types hSlot) hb with
            ⟨p, hp, hAccepted⟩
          refine ih p hp (hAccepted.of_grows hGrows)
            fun p' q' hNode hIs hHeads => ?_
          exact hNodes p' q' hNode hIs
            (List.Subset.trans hHeads (Pattern.outerHeads_subset hp))
  | wildcard span =>
      exact .node (hNodes _ q h trivial (List.Subset.refl _))
  | literal span l =>
      exact .node (hNodes _ q h trivial (List.Subset.refl _))
  | constructor span head fs ps =>
      exact .node (hNodes _ q h trivial (List.Subset.refl _))
  | seq span es =>
      exact .node (hNodes _ q h trivial (List.Subset.refl _))
  | typeTest span target =>
      exact .node (hNodes _ q h trivial (List.Subset.refl _))
  | map span es =>
      exact .node (hNodes _ q h trivial (List.Subset.refl _))
  | set span ls exact =>
      exact .node (hNodes _ q h trivial (List.Subset.refl _))

end MatchCompiler
