import MatchCompiler.Proofs.FlatPatterns

/-
  This file shows that coverage raises no false alarm about
  patterns that ask for cases only.

  A case is reported as missing if no arm covers it. If all
  arms are flat, then a value of such a case fits none of
  them: every arm rejects it when guards answer no. This
  holds also of arms that were found redundant, as what they
  cover was covered before.

  Key definitions include:
    * `SchemaPool.Cases`
    * `Schema.InCase`
    * `CheckContext.Calm`

  Key theorems include:
    * `ObjectAccepted.rejects`
    * `SchemaPool.Cases.rejects`
    * `SchemaPool.of_mem_missing`
    * `missing_unmatched`
-/

------------------------------------------------------------
-- Object Patterns That Are Flat
------------------------------------------------------------

namespace MatchCompiler

/- What matches every value selects all branches. -/
theorem Checked.branchLabels_subset_of_isCatchAll
    {q : Checked}
    (h : q.isCatchAll = true)
    (s : Schema)
    (whole : Bool) :
    s.branchLabels ⊆ q.discriminatorLabels s whole := by
  induction q using partInduction with
  | wildcard span => exact List.Subset.refl _
  | bind span x q ih => exact ih h
  | alt span qs ih =>
      rcases exists_of_anyCatchAll h with ⟨q, hq, hAll⟩
      exact fun label hLabel =>
        mem_discriminatorLabelsOfAll.mpr ⟨q, hq, ih q hq hAll hLabel⟩
  | literal => cases h
  | set => cases h
  | typeIs => cases h
  | guarded => cases h
  | some => cases h
  | object => cases h
  | tuple => cases h
  | seq => cases h
  | map => cases h

namespace ObjectAccepted

variable {ctx : CheckContext}
variable {r : Registry}
variable {s : Schema}
variable {span : Span}
variable {fields : List (FieldName × Pattern)}
variable {args : List Pattern}
variable {head : ObjectHead}
variable {fromCase : Option (List Member)}
variable {disc rest : List (FieldRead × Checked)}
variable {d : Discriminator}
variable {ms : List Member}
variable {part : Pattern → Prop}
variable {exact calm : Prop}
variable {o : LoweringOptions}
variable {root v : Value}
variable {a : Access}
variable {b : Branch}

/-
  A branch that is not selected lies outside of the case that
  is named, or the discriminator's pattern lacks it.
-/
theorem excludes
    (h : ObjectAccepted ctx r s span fields args head fromCase disc rest)
    (hRest : ∀ f ∈ rest, f.2.isCatchAll = true)
    {label : String}
    (hBranch : label ∈ s.branchLabels)
    (hLacks : label ∉ Checked.objectLabels s true head (disc ++ rest)) :
    (∃ p, head.pin = some p ∧ label ∉ p.labels.map Member.name) ∨
    ∃ f later, disc = f :: later ∧
      label ∉ f.2.discriminatorLabels s true := by
  by_cases hPin :
      head.pin.all (fun p => p.labels.any (fun m => m.name == label)) = true
  · right
    have hPinned :
        label ∈ s.branchLabels.filter fun l =>
          head.pin.all (fun p => p.labels.any (fun m => m.name == l)) :=
      List.mem_filter.mpr ⟨hBranch, hPin⟩
    unfold Checked.objectLabels at hLacks
    cases disc with
    | nil =>
        dsimp only [List.nil_append] at hLacks
        split at hLacks
        · exact absurd hPinned hLacks
        · rename_i f q hFind
          have hAll := hRest _ (List.mem_of_find?_eq_some hFind)
          have hSelected :=
            Checked.branchLabels_subset_of_isCatchAll hAll s true hBranch
          exact absurd (List.mem_filter.mpr
            ⟨hPinned, List.contains_iff_mem.mpr hSelected⟩) hLacks
    | cons f later =>
        rcases h.exists_discriminator List.mem_cons_self with
          ⟨d, -, hField, hName, -⟩
        have hReads : Checked.readsDiscriminator s f = true := by
          unfold Checked.readsDiscriminator
          rw [hField, hName, Option.any_some, beq_self_eq_true]
        rw [List.cons_append, List.find?_cons, hReads] at hLacks
        refine ⟨f, later, rfl, fun hSelected => hLacks ?_⟩
        exact List.mem_filter.mpr
          ⟨hPinned, List.contains_iff_mem.mpr hSelected⟩
  · left
    cases hHead : head.pin with
    | none =>
        rw [hHead] at hPin
        exact absurd rfl hPin
    | some p =>
        refine ⟨p, rfl, fun hNamed => hPin ?_⟩
        rcases List.mem_map.mp hNamed with ⟨m, hm, hName⟩
        rw [hHead, Option.all_some]
        exact List.any_eq_true.mpr ⟨m, hm, beq_iff_eq.mpr hName⟩

/- The tests of an object pattern have answers for an object. -/
theorem answers
    (h : ObjectAccepted ctx r s span fields args head fromCase disc rest)
    (hOwn : head.runtimeType = none)
    (hLabels : r.pool.Labels s d ms)
    {m : Member}
    (hLabelled : v.IsLabelled d m)
    (hRead : a.Reads root v) :
    ∀ t ∈ Lowered.objectTests a head,
      t.IsLeaf ∧ ∃ b, t.reading root .empty = .ok b := by
  intro t ht
  rcases Lowered.mem_objectTests.mp ht with
    ⟨name, hName, -⟩ | ⟨-, rfl⟩ | ⟨p, hPin, rfl⟩
  · cases hOwn.symm.trans hName
  · exact ⟨trivial, _, hRead.answer (t := .isNotNil a) rfl rfl .empty⟩
  · rcases h.pin_holds hLabels hLabelled hPin with ⟨k, -, -, -, hHolds⟩
    exact ⟨Lowered.isLeaf_pin a p, _,
      (Lowered.reading_pin (hRead .empty) p).trans hHolds⟩

/- The discriminator's pattern rejects the branches it lacks. -/
theorem rejects_discriminator
    (h : ObjectAccepted ctx r s span fields args head fromCase disc rest)
    (hLabels : r.pool.Labels s d ms)
    (hBranch : b ∈ s.branches)
    (hLabelled : v.IsLabelled d ⟨b.label, b.ordinal⟩)
    (hRead : a.Reads root v)
    (hFlat :
      ∀ f ∈ fields, s.isDiscriminator f.1.name = true → f.2.Flat s part)
    (hExact : exact → ∀ f ∈ fields, f.2.guards = [])
    {f : FieldRead × Checked}
    (hf : f ∈ disc) :
    f.2.Rejects (Checked.discriminatorLabels s true) exact calm o root
      (.field a f.1.name) b.label := by
  rcases exists_counterpart h.discParts hf with
    ⟨given, hGiven, hSame, hAccepted⟩
  rcases Schema.exists_discriminator_of_mem hGiven with
    ⟨d', hd', hName, hSlot⟩
  rcases Schema.exists_of_mem_discriminatorParts hGiven with
    ⟨field, hField, hPattern, hIs⟩
  cases hLabels.field.symm.trans hd'
  rcases hLabelled with ⟨w, hw, hTag⟩
  have hFieldRead : (Access.field a f.1.name).Reads root w :=
    hRead.field (by rw [hSame, hName, hw])
  rw [hSlot, ← hPattern] at hAccepted
  exact (hFlat field hField hIs).rejects_labelled
    h.settled (h.within.discriminator d hLabels.field) hLabels.members
    hLabels.ordinals hTag (hLabels.branches b hBranch) hFieldRead
    (Checked.gathers_discriminatorLabels s true)
    (fun _ => List.mem_map_of_mem hBranch)
    (fun _ _ => List.mem_singleton_self _)
    (fun _ _ _ => List.mem_singleton_self _)
    (fun hIs => hExact hIs field hField) hAccepted

/- All other parts are accepted as patterns of their kind. -/
theorem exists_accepts_part
    (h : ObjectAccepted ctx r s span fields args head fromCase disc rest)
    (hFields :
      ∀ f ∈ fields, s.isDiscriminator f.1.name = false → part f.2)
    (hArgs : ∀ p ∈ args, part p)
    {f : FieldRead × Checked}
    (hf : f ∈ rest) :
    ∃ p id s₁ s₂, part p ∧ Accepts ctx p id s₁ f.2 s₂ := by
  rcases exists_counterpart h.restParts hf with
    ⟨given, hGiven, -, s₁, s₂, -, hAccepts⟩
  refine ⟨_, _, s₁, s₂, ?_, hAccepts⟩
  rcases List.mem_append.mp hGiven with hGiven | hGiven
  · rcases Schema.exists_of_mem_namedParts hGiven with
      ⟨field, hField, hPattern, hOther⟩
    rw [← hPattern]
    exact hFields field hField hOther
  · exact hArgs _ (Schema.mem_of_mem_unnamedParts hGiven)

/-
  A flat object pattern rejects the objects in branches that
  it lacks: the test for the named case fails, or else the
  pattern of the discriminator does. If its other parts do
  not look at values, nothing in it faults, as they are read
  only of objects that have them.
-/
theorem rejects
    (h : ObjectAccepted ctx r s span fields args head fromCase disc rest)
    (hOwn : head.runtimeType = none)
    (hLabels : r.pool.Labels s d ms)
    (hBranch : b ∈ s.branches)
    (hLabelled : v.IsLabelled d ⟨b.label, b.ordinal⟩)
    (hCarries : v.Carries s b.label)
    (hRead : a.Reads root v)
    (hPart :
      ∀ p, part p → p.isIrrefutable = true ∧ (calm → p.Unasking))
    (hDisc :
      ∀ f ∈ fields, s.isDiscriminator f.1.name = true → f.2.Flat s part)
    (hFields :
      ∀ f ∈ fields, s.isDiscriminator f.1.name = false → part f.2)
    (hArgs : ∀ p ∈ args, part p)
    (hExact : exact → ∀ f ∈ fields, f.2.guards = [])
    (place : Span) :
    (Checked.object place head (disc ++ rest)).Rejects (Checked.cover s)
      exact calm o root a b.label := by
  have hAnswers := h.answers hOwn hLabels hLabelled hRead
  have hSelects :
      ∀ f ∈ disc, f.2.Rejects (Checked.discriminatorLabels s true) exact
        calm o root (.field a f.1.name) b.label := fun f hf =>
    h.rejects_discriminator hLabels hBranch hLabelled hRead hDisc hExact hf
  have hAll : ∀ f ∈ rest, f.2.isCatchAll = true := by
    intro f hf
    rcases h.exists_accepts_part hFields hArgs hf with
      ⟨p, id, s₁, s₂, hIs, hAccepts⟩
    exact hAccepts.isCatchAll (hPart p hIs).1
  constructor
  · intro hLacks inside hOuter
    refine Plan.misses_all ?_
    have hAsks : Checked.asksBranchOnly s head (disc ++ rest) = true := by
      unfold Checked.asksBranchOnly
      rw [hOwn, Option.isNone_none, Bool.true_and, List.all_eq_true]
      intro f hf
      rw [Bool.or_eq_true]
      rcases List.mem_append.mp hf with hf | hf
      · rcases h.exists_discriminator hf with ⟨d', -, hField, hName, -⟩
        unfold Checked.readsDiscriminator
        rw [hField, hName, Option.any_some, beq_self_eq_true]
        exact .inl rfl
      · exact .inr (hAll f hf)
    unfold Checked.cover at hLacks
    rw [if_pos hAsks] at hLacks
    rcases h.excludes hAll (List.mem_map_of_mem hBranch) hLacks with
      ⟨p, hPin, hNamed⟩ | ⟨f, later, rfl, hSelected⟩
    · rcases h.pin_holds hLabels hLabelled hPin with
        ⟨k, hk, -, hOne, hHolds⟩
      have hOther : (k.ordinal == b.ordinal) = false := by
        refine beq_eq_false_iff_ne.mpr fun hSame => hNamed ?_
        rw [hOne, eq_of_ordinals_nodup hLabels.ordinals hk
          (hLabels.branches b hBranch) hSame]
        exact List.mem_cons_self
      refine Plan.missesInTurn_of_leaf hAnswers
        (Lowered.mem_objectTests.mpr (.inr (.inr ⟨p, hPin, rfl⟩))) ?_ _
      rw [Lowered.reading_pin (hRead .empty) p, hHolds, hOther]
    · have hFirst := (hSelects f List.mem_cons_self).misses hSelected inside
        (hOuter.imp_right fun hNone => (List.append_eq_nil_iff.mp hNone).1)
      exact (hFirst.cons _).append_leaves hAnswers
  · intro hCalm inside
    refine Plan.faultFree_all (Plan.FaultFreeInTurn.append ?_
      fun hTests => ?_)
    · refine Plan.faultFreeInTurn_of_forall fun p hp => ?_
      rcases List.mem_map.mp hp with ⟨t, ht, rfl⟩
      rcases hAnswers t ht with ⟨hLeaf, b, hReading⟩
      exact Plan.faultFree_leaf hLeaf hReading
    · rw [Checked.planFields_append]
      refine Plan.FaultFreeInTurn.append (Checked.faultFree_fields
        fun f hf => (hSelects f hf).faultFree hCalm inside) fun hMight =>
          Checked.faultFree_fields fun f hf => ?_
      have hReads := h.reads_of_might hLabels hLabelled
        (hLabels.branches b hBranch) hRead
        (fun p hPin => Plan.might_test_iff.mp (hTests _
          (List.mem_map_of_mem
            (Lowered.mem_objectTests.mpr (.inr (.inr ⟨p, hPin, rfl⟩))))))
        (fun f hf => hMight _ (Checked.mem_planFields.mpr ⟨f, hf, rfl⟩)) hf
      have hField : (v.field? f.1.name).isSome = true := by
        rcases hReads with hShared | hOwner
        · rcases List.mem_map.mp hShared with ⟨g, hg, hName⟩
          rw [← hName]
          exact hCarries.shared g hg
        · exact hCarries.of_owners hOwner
      rcases Option.isSome_iff_exists.mp hField with ⟨w, hw⟩
      rcases h.exists_accepts_part hFields hArgs hf with
        ⟨p, id, s₁, s₂, hIs, hAccepts⟩
      exact ((hPart p hIs).2 hCalm).faultFree hAccepts (hRead.field hw)
        inside

end ObjectAccepted

end MatchCompiler

------------------------------------------------------------
-- Cases
------------------------------------------------------------

namespace MatchCompiler

/-
  A schema has cases that values can be told apart by: the
  members of an enumeration, presence, or the branches of a
  union and, of a reference to one, nil.
-/
inductive SchemaPool.Cases
    (p : SchemaPool)
    (s : Schema) : Prop
| enumeration
    (hKind : s.structuralKind = .enumeration)
    (hNames : (s.members.map Member.name).Nodup)
    (hOrdinals : (s.members.map Member.ordinal).Nodup)
| optional
    (hKind : s.structuralKind = .optional)
| union
    {d : Discriminator}
    {ms : List Member}
    (hKind : s.structuralKind = .union)
    (hLabels : p.Labels s d ms)
    (hBranches : s.branchLabels.Nodup)
    (hNil : s.isReference = true → "nil" ∉ s.branchLabels)

/-
  A value belongs to a case of a schema. An object carries
  the fields that its branch has.
-/
inductive Schema.InCase
    (s : Schema) : Value → String → Prop
| member
    {v : Value}
    {m : Member}
    (hKind : s.structuralKind = .enumeration)
    (hTag : v.tag? = some m)
    (hListed : m ∈ s.members) :
    InCase s v m.name
| presence
    {v : Value}
    {label : String}
    (hKind : s.structuralKind = .optional)
    (hLabel : OptionalLabel v label) :
    InCase s v label
| nil
    (hKind : s.structuralKind = .union)
    (hReference : s.isReference = true) :
    InCase s .nil "nil"
| branch
    {v : Value}
    {d : Discriminator}
    {b : Branch}
    (hKind : s.structuralKind = .union)
    (hField : s.discriminator = some d)
    (hBranch : b ∈ s.branches)
    (hLabelled : v.IsLabelled d ⟨b.label, b.ordinal⟩)
    (hCarries : v.Carries s b.label) :
    InCase s v b.label

namespace Schema.InCase

variable {s : Schema}
variable {v : Value}
variable {label : String}

/- The case of a value is a case of the schema. -/
theorem mem_coverLabels
    (h : s.InCase v label) :
    label ∈ s.coverLabels := by
  unfold coverLabels caseLabels
  cases h with
  | member hKind _ hListed =>
      rw [hKind]
      exact List.mem_append_left _ (List.mem_map_of_mem hListed)
  | presence hKind hLabel =>
      rw [hKind]
      cases hLabel <;> simp
  | nil hKind hReference =>
      rw [if_pos hReference]
      exact List.mem_append_right _ (List.mem_singleton_self _)
  | branch hKind _ hBranch =>
      rw [hKind]
      exact List.mem_append_left _ (List.mem_map_of_mem hBranch)

/- At an enumeration the case is a member. -/
theorem exists_member
    (h : s.InCase v label)
    (hKind : s.structuralKind = .enumeration) :
    ∃ m ∈ s.members, v.tag? = some m ∧ m.name = label := by
  cases h with
  | member _ hTag hListed => exact ⟨_, hListed, hTag, rfl⟩
  | presence hOther | nil hOther | branch hOther =>
      cases hKind.symm.trans hOther

/- At an optional it is presence or absence. -/
theorem optionalLabel
    (h : s.InCase v label)
    (hKind : s.structuralKind = .optional) :
    OptionalLabel v label := by
  cases h with
  | presence _ hLabel => exact hLabel
  | member hOther | nil hOther | branch hOther =>
      cases hKind.symm.trans hOther

/- At a union it is nil or a branch. -/
theorem nil_or_branch
    (h : s.InCase v label)
    (hKind : s.structuralKind = .union) :
    (s.isReference = true ∧ v = .nil ∧ label = "nil") ∨
    ∃ d, ∃ b ∈ s.branches, s.discriminator = some d ∧
      v.IsLabelled d ⟨b.label, b.ordinal⟩ ∧ v.Carries s b.label ∧
      b.label = label := by
  cases h with
  | nil _ hReference => exact .inl ⟨hReference, rfl, rfl⟩
  | branch _ hField hBranch hLabelled hCarries =>
      exact .inr ⟨_, _, hBranch, hField, hLabelled, hCarries, rfl⟩
  | member hOther | presence hOther => cases hKind.symm.trans hOther

end Schema.InCase

/- What has a discriminator is not nil. -/
theorem Value.IsLabelled.isNil_eq_false
    {v : Value}
    {d : Discriminator}
    {m : Member}
    (h : v.IsLabelled d m) :
    v.isNil = false := by
  rcases h with ⟨w, hField, -⟩
  cases v with
  | nil => cases hField
  | _ => rfl

/- The cases of such a schema are different. -/
theorem SchemaPool.Cases.nodup_coverLabels
    {p : SchemaPool}
    {s : Schema}
    (h : p.Cases s) :
    s.coverLabels.Nodup := by
  unfold Schema.coverLabels Schema.caseLabels
  cases h with
  | enumeration hKind hNames _ =>
      rw [hKind, Schema.isReference_of_structuralKind hKind (by decide)]
      simpa using hNames
  | optional hKind =>
      rw [hKind, Schema.isReference_of_structuralKind hKind (by decide)]
      simp
  | union hKind _ hBranches hNil =>
      rw [hKind]
      refine List.nodup_append.mpr ⟨hBranches, ?_, ?_⟩
      · split <;> simp
      · intro l hl l' hl' hSame
        split at hl'
        · rename_i hReference
          cases List.mem_singleton.mp hl'
          exact hNil hReference (hSame ▸ hl)
        · cases hl'

end MatchCompiler

------------------------------------------------------------
-- Patterns At Cases
------------------------------------------------------------

namespace MatchCompiler

variable {ctx : CheckContext}
variable {r : Registry}
variable {part : Pattern → Prop}
variable {exact calm : Prop}
variable {o : LoweringOptions}
variable {v : Value}
variable {id : SchemaId}

/-
  A constructor pattern without a target is accepted at a
  union as an object pattern for the union itself.
-/
theorem Accepts.exists_objectAccepted
    {span : Span}
    {chead : ConstructorHead}
    {fields : List (FieldName × Pattern)}
    {args : List Pattern}
    {s s' : Progress}
    {q : Checked}
    (h : Accepts ctx (.constructor span chead fields args) id s q s')
    (hs : s.registry.Settled)
    (hKind : (s.pool.get id).structuralKind = .union)
    (hTarget : chead.target = Option.none) :
    ∃ head fromCase disc rest,
      q = .object span head (disc ++ rest) ∧
      head.nilCheck = (s.pool.get id).isReference ∧
      head.runtimeType = Option.none ∧
      ObjectAccepted ctx s.registry (s.pool.get id) span fields args head
        fromCase disc rest := by
  cases h with
  | some hOther | someUnknown hOther | none hOther =>
      cases hKind.symm.trans hOther
  | object _ hHead hSchema hCase hDisc hRest =>
      cases hHead with
      | base hOther => cases hTarget.symm.trans hOther
      | derived hOther => cases hTarget.symm.trans hOther
      | own caseName =>
          cases hSchema
          exact ⟨_, _, _, _, rfl, rfl, rfl,
            .of_accepts hs (hs.closed.pool.slots id) hCase rfl hDisc hRest⟩

/- Where nil is excluded, an object pattern rejects it. -/
theorem Checked.rejects_nil
    {labels : Checked → List String}
    {label : String}
    {head : ObjectHead}
    {fields : List (FieldRead × Checked)}
    (hOwn : head.runtimeType = none)
    (hNil : head.nilCheck = true)
    (span : Span) :
    (Checked.object span head fields).Rejects labels exact calm o .nil
      .scrutinee label where
  misses := by
    intro _ inside _
    have hTests :
        Lowered.objectTests .scrutinee head =
          .isNotNil .scrutinee ::
            (head.pin.map (Lowered.pin .scrutinee)).toList := by
      unfold Lowered.objectTests
      rw [hOwn, hNil]
      rfl
    have hFails : (Plan.test (.isNotNil .scrutinee)).Misses exact .nil :=
      Plan.misses_leaf trivial rfl
    refine Plan.misses_all ?_
    rw [hTests]
    exact hFails.cons _
  faultFree := fun _ _ =>
    Checked.faultFree_object (fun _ => rfl)
      (fun _ hSome => absurd rfl (hSome hNil)) span

/- At a union, what lacks the case of a value rejects it. -/
theorem Pattern.Flat.rejects_union
    {d : Discriminator}
    {ms : List Member}
    (hs : r.Settled)
    (hId : id < r.pool.size)
    (hKind : (r.pool.get id).structuralKind = .union)
    (hLabels : r.pool.Labels (r.pool.get id) d ms)
    {label : String}
    (hIn : (r.pool.get id).InCase v label)
    (hPart :
      ∀ p, part p → p.isIrrefutable = true ∧ (calm → p.Unasking))
    {p : Pattern}
    (h : p.Flat (r.pool.get id) part)
    (hExact : exact → p.guards = [])
    {q : Checked}
    (hAccepted : AcceptedSince ctx r p id q) :
    q.Rejects (Checked.cover (r.pool.get id)) exact calm o v .scrutinee
      label := by
  have hRead : Access.Reads v .scrutinee v := fun _ => rfl
  refine h.rejects hs hId (Checked.gathers_cover _) hRead
    (fun p q hFlat hNode hExact hAt => ?_) hExact hAccepted
  rcases hAt with ⟨s₁, s₂, hLater, hAccepts⟩
  have hs₁ := (hLater.settled hs).1
  have hSame : s₁.pool.get id = r.pool.get id :=
    (hLater.settled hs).2.pool.get_eq hId
  cases hFlat with
  | wildcard span =>
      cases hAccepts
      exact Checked.rejects_wildcard hIn.mem_coverLabels
  | literal span l =>
      cases hAccepts with
      | @literal _ _ _ _ meaning hMeaning =>
          have hCases := SchemaPool.cases_of_checkLiteral hMeaning
          rw [hSame, hKind] at hCases
          have hIs : meaning = .nil :=
            (by simpa using hCases : meaning = .nil ∧ _).1
          rw [hIs]
          refine Checked.rejects_literal hRead rfl fun hNil => ?_
          rcases hIn.nil_or_branch hKind with
            ⟨-, -, rfl⟩ | ⟨d, b, -, -, hLabelled, -⟩
          · exact List.mem_singleton_self _
          · cases hLabelled.isNil_eq_false.symm.trans hNil
  | constructor span hTarget hDisc hFields hArgs =>
      rcases hAccepts.exists_objectAccepted hs₁ (hSame ▸ hKind) hTarget with
        ⟨head, fromCase, disc, rest, rfl, hNil, hOwn, hObject⟩
      rw [hSame] at hNil hObject
      rcases hIn.nil_or_branch hKind with
        ⟨hReference, rfl, -⟩ |
        ⟨d, b, hBranch, hField, hLabelled, hCarries, rfl⟩
      · exact Checked.rejects_nil hOwn (hNil.trans hReference) span
      · cases hLabels.field.symm.trans hField
        have hLabels₁ := (hLater.labels_iff hs
          (hs.closed.pool.slots id)).mpr hLabels
        refine hObject.rejects hOwn hLabels₁ hBranch hLabelled hCarries
          hRead hPart hDisc hFields hArgs (fun hIs f hf => ?_) span
        refine List.eq_nil_of_subset_nil fun g hg => ?_
        rw [← hExact hIs]
        exact List.mem_append_left _ (Pattern.mem_guardsOfFields hf hg)
  | bind | named | alt | guarded => exact hNode.elim

/- What lacks the case of a value rejects it. -/
theorem SchemaPool.Cases.rejects
    (hs : r.Settled)
    (hId : id < r.pool.size)
    (hCases : r.pool.Cases (r.pool.get id))
    {label : String}
    (hIn : (r.pool.get id).InCase v label)
    (hPart :
      ∀ p, part p → p.isIrrefutable = true ∧ (calm → p.Unasking))
    {p : Pattern}
    (h : p.Flat (r.pool.get id) part)
    (hExact : exact → p.guards = [])
    {q : Checked}
    (hAccepted : AcceptedSince ctx r p id q) :
    q.Rejects (Checked.cover (r.pool.get id)) exact calm o v .scrutinee
      label := by
  cases hCases with
  | union hKind hLabels =>
      exact h.rejects_union hs hId hKind hLabels hIn hPart hExact hAccepted
  | optional hKind =>
      exact h.rejects_optional hs hId hKind (hIn.optionalLabel hKind) hPart
        hExact hAccepted
  | enumeration hKind hNames hOrdinals =>
      have hOwn := Schema.kind_of_structuralKind hKind (by decide)
      rcases hIn.exists_member hKind with ⟨m, hListed, hTag, rfl⟩
      refine h.rejects_labelled hs hId (.inl ⟨hOwn, rfl⟩) hOrdinals hTag
        hListed (fun _ => rfl) (Checked.gathers_cover _)
        (fun _ => hIn.mem_coverLabels) (fun _ _ => List.mem_singleton_self _)
        (fun hOther => ?_) hExact hAccepted
      cases hOwn.symm.trans hOther

end MatchCompiler

------------------------------------------------------------
-- Missing Labels
------------------------------------------------------------

namespace MatchCompiler

namespace Checked

variable {s : Schema}

/- Whole branches are among those that are selected at all. -/
theorem discriminatorLabels_subset
    (q : Checked) :
    q.discriminatorLabels s true ⊆ q.discriminatorLabels s false := by
  induction q using partInduction with
  | bind span x q ih => exact ih
  | alt span qs ih =>
      intro label hLabel
      rcases mem_discriminatorLabelsOfAll.mp hLabel with ⟨q, hq, hLabel⟩
      exact mem_discriminatorLabelsOfAll.mpr ⟨q, hq, ih q hq hLabel⟩
  | guarded => exact List.nil_subset _
  | literal span meaning =>
      cases meaning with
      | value l => cases l <;> exact List.Subset.refl _
      | _ => exact List.Subset.refl _
  | _ => exact List.Subset.refl _

theorem objectLabels_subset
    (head : ObjectHead)
    (fields : List (FieldRead × Checked)) :
    objectLabels s true head fields ⊆ objectLabels s false head fields := by
  unfold objectLabels
  dsimp only
  split
  · exact List.Subset.refl _
  · intro label hLabel
    rcases List.mem_filter.mp hLabel with ⟨hPinned, hSelected⟩
    exact List.mem_filter.mpr ⟨hPinned, List.contains_iff_mem.mpr
      (discriminatorLabels_subset _ (List.contains_iff_mem.mp hSelected))⟩

/- A pattern may match what it covers. -/
theorem cover_subset_footprint
    (q : Checked) :
    q.cover s ⊆ q.footprint s := by
  induction q using partInduction with
  | bind span x q ih => exact ih
  | alt span qs ih =>
      intro label hLabel
      rcases mem_coverOfAll.mp hLabel with ⟨q, hq, hLabel⟩
      exact mem_footprintOfAll.mpr ⟨q, hq, ih q hq hLabel⟩
  | wildcard | literal => exact List.Subset.refl _
  | some span q =>
      unfold cover
      split
      · exact List.Subset.refl _
      · exact List.nil_subset _
  | object span head fields =>
      unfold cover
      split
      · exact objectLabels_subset head fields
      · exact List.nil_subset _
  | _ => exact List.nil_subset _

end Checked

namespace Coverage.Walk

variable {s : Schema}
variable {w : Walk}
variable {arm : CheckedArm}

/-
  After an arm that may be left open, what was covered still
  is, and what the arm covers is as well: an arm that is not
  added is redundant, so that others cover it.
-/
theorem covered_next
    {i : Nat}
    (hOpen : (next s w (arm, i)).catchAll = none) :
    w.catchAll = none ∧
      w.covered ++ arm.pattern.cover s ⊆ (next s w (arm, i)).covered := by
  unfold next at hOpen ⊢
  dsimp only at hOpen ⊢
  split at hOpen
  · rename_i finding hRedundant
    unfold redundancy? at hRedundant
    rw [hOpen] at hRedundant
    dsimp only at hRedundant
    split at hRedundant
    · rename_i hCovered
      refine ⟨hOpen, List.append_subset.mpr
        ⟨List.Subset.refl _, fun label hLabel => ?_⟩⟩
      have hAll := List.all_eq_true.mp (Bool.and_eq_true_iff.mp hCovered).2
        label (Checked.cover_subset_footprint _ hLabel)
      exact List.contains_iff_mem.mp hAll
    · cases hRedundant
  · rename_i hNew
    refine ⟨?_, List.Subset.refl _⟩
    unfold redundancy? at hNew
    split at hNew
    · cases hNew
    · assumption

/- What arms cover is covered after them, if they leave it open. -/
theorem covered_foldl
    {arms : List CheckedArm}
    {k : Nat}
    (hOpen : ((arms.zipIdx k).foldl (next s) w).catchAll = none) :
    w.catchAll = none ∧
      w.covered ⊆ ((arms.zipIdx k).foldl (next s) w).covered ∧
      ∀ arm ∈ arms, arm.pattern.cover s ⊆
        ((arms.zipIdx k).foldl (next s) w).covered := by
  induction arms generalizing k w with
  | nil => exact ⟨hOpen, List.Subset.refl _, nofun⟩
  | cons arm arms ih =>
      rw [List.zipIdx_cons, List.foldl_cons] at hOpen ⊢
      rcases ih hOpen with ⟨hFirst, hKept, hRest⟩
      rcases covered_next hFirst with ⟨hBefore, hAdded⟩
      rcases List.append_subset.mp (List.Subset.trans hAdded hKept) with
        ⟨hOld, hOwn⟩
      exact ⟨hBefore, hOld, List.forall_mem_cons.mpr ⟨hOwn, hRest⟩⟩

end Coverage.Walk

namespace SchemaPool

variable {p : SchemaPool}
variable {slot : SchemaId}
variable {arms : List CheckedArm}
variable {span : Span}

/- Missing labels come in the order of the cases. -/
theorem missing_sublist :
    (p.coverage slot arms span).missing.Sublist (p.get slot).coverLabels := by
  unfold coverage Schema.coverage
  dsimp only
  split
  · exact List.filter_sublist
  · exact List.nil_sublist _

/- A label that is missing is covered by no arm. -/
theorem of_mem_missing
    {label : String}
    (h : label ∈ (p.coverage slot arms span).missing) :
    ∀ arm ∈ arms, label ∉ arm.pattern.cover (p.get slot) := by
  unfold coverage Schema.coverage at h
  dsimp only at h
  split at h
  · rename_i hOpen
    rw [Bool.and_eq_true, Option.isNone_iff_eq_none] at hOpen
    have hCovered := (Coverage.Walk.covered_foldl hOpen.1).2.2
    have hLacks := (List.mem_filter.mp h).2
    intro arm hArm hLabel
    rw [List.contains_iff_mem.mpr (hCovered arm hArm hLabel)] at hLacks
    cases hLacks
  · cases h

end SchemaPool

end MatchCompiler

------------------------------------------------------------
-- No False Alarm
------------------------------------------------------------

namespace MatchCompiler

variable {ctx : CheckContext}
variable {r r' : Registry}

/- A pattern without guards puts none off. -/
theorem Accepts.outerGuards_eq_nil
    {p : Pattern}
    {id : SchemaId}
    {s s' : Progress}
    {q : Checked}
    (h : Accepts ctx p id s q s')
    (hNone : p.guards = []) :
    q.outerGuards = [] := by
  have hKnown :=
    (h.scoped (fun g hg => hg) {} false Access.plain_scrutinee).2
  refine List.eq_nil_iff_forall_not_mem.mpr fun id hId => ?_
  rcases hKnown id hId with ⟨g, hg, -⟩
  rw [hNone] at hg
  cases hg

/- An arm misses by its pattern or by a guard that is put off. -/
theorem CheckedArm.misses_plan
    {arm : CheckedArm}
    {labels : Checked → List String}
    {exact calm : Prop}
    {o : LoweringOptions}
    {v : Value}
    {label : String}
    (h :
      arm.pattern.Rejects labels exact calm o v .scrutinee label)
    (hLacks : label ∉ labels arm.pattern)
    (hOuter : exact → arm.pattern.outerGuards = []) :
    (arm.plan o).Misses exact v := by
  refine Plan.misses_all ?_
  by_cases hNone : arm.pattern.outerGuards = []
  · exact (h.misses hLacks false (.inr hNone)).cons _
  · rcases List.exists_mem_of_ne_nil _ hNone with ⟨id, hId⟩
    refine Plan.MissesInTurn.of_mem (fun hIs => hNone (hOuter hIs)) ?_
      (Plan.misses_guard id)
    exact List.mem_cons_of_mem _
      (List.mem_map_of_mem (List.mem_map_of_mem hId))

/- The arms of a match are accepted since its check began. -/
theorem Registry.exists_acceptedSince_of_checkArms
    {slot : SchemaId}
    (hs : r.Settled)
    (hSlot : slot < r.pool.size)
    {ps : List Pattern}
    {arms : List CheckedArm}
    (h : r.checkArms ctx slot ps = (r', arms.map .ok)) :
    r.Later r' ∧
    ∀ arm ∈ arms, ∃ p ∈ ps, arm.AcceptedFrom p ∧
      AcceptedSince ctx r p slot arm.pattern := by
  induction ps generalizing r arms with
  | nil =>
      cases arms with
      | nil =>
          cases h
          exact ⟨.refl, nofun⟩
      | cons arm arms => cases h
  | cons p ps ih =>
      rcases of_checkArms_cons h with ⟨r₁, arm, rest, rfl, hArm, hRest⟩
      have hAccepts := accepts_of_checkArm hArm
      have hLater := hAccepts.later hs hSlot
      rcases hLater.settled hs with ⟨hs₁, hGrows⟩
      rcases ih hs₁ (hSlot.trans_le hGrows.pool.size_le) hRest with
        ⟨hMore, hArms⟩
      refine ⟨hLater.trans hMore,
        List.forall_mem_cons.mpr ⟨?_, fun arm' hArm' => ?_⟩⟩
      · exact ⟨p, List.mem_cons_self,
          ⟨r, ctx, slot, congrArg Prod.snd hArm⟩, ⟨r, []⟩, _, .refl,
          hAccepts⟩
      · rcases hArms arm' hArm' with ⟨p', hp', hFrom, hSince⟩
        exact ⟨p', List.mem_cons_of_mem p hp', hFrom,
          hSince.of_later hLater⟩

/- So it is with a match on a described type. -/
theorem CheckContext.AcceptsMatch.exists_acceptedSince
    {id : DescriptorId}
    {ps : List Pattern}
    {slot : SchemaId}
    {arms : List CheckedArm}
    (h : ctx.AcceptsMatch id ps slot r arms) :
    ∃ r₀, r₀.Settled ∧ slot < r₀.pool.size ∧ r₀.Later r ∧
      ∀ arm ∈ arms, ∃ p ∈ ps, arm.AcceptedFrom p ∧
        AcceptedSince ctx r₀ p slot arm.pattern := by
  rcases h with @⟨r₁, _, _, hBuilt, hChecked⟩
  have hUse := r₁.use_schemaWithin ctx.table ctx.depth id
  rcases hUse.settled hBuilt.settled with ⟨hs, hSlot⟩
  rcases Registry.exists_acceptedSince_of_checkArms hs hSlot hChecked with
    ⟨hLater, hArms⟩
  exact ⟨_, hs, hSlot, hLater, hArms⟩

/- The cases of a schema were there before. -/
theorem SchemaPool.Cases.of_later
    (hLater : r.Later r')
    (hs : r.Settled)
    {s : Schema}
    (hSlots : s.Within r.pool.size)
    (h : r'.pool.Cases s) :
    r.pool.Cases s := by
  cases h with
  | enumeration hKind hNames hOrdinals =>
      exact .enumeration hKind hNames hOrdinals
  | optional hKind => exact .optional hKind
  | union hKind hLabels hBranches hNil =>
      exact .union hKind ((hLater.labels_iff hs hSlots).mp hLabels)
        hBranches hNil

/-
  Nothing that is tried before a guard faults on a value: the
  patterns with guards do not look at what they bind, or the
  value has the described type in a table that is fit.
-/
inductive CheckContext.Calm
    (ctx : CheckContext)
    (id : DescriptorId)
    (ps : List Pattern)
    (s : Schema)
    (v : Value) : Prop
| unasking
    (h : ∀ p ∈ ps, p.guards = [] ∨ p.Flat s Pattern.Unasking)
| typed
    (hFit : ctx.table.FitForMatching)
    (hPlain : ∀ p ∈ ps, p.PlainDefaults)
    (hValue : HasType ctx.table (ctx.table.typeOf (.described id)) v)

/- Patterns do not fault on the values of their type. -/
theorem CheckContext.AcceptsMatch.faultFree
    {id : DescriptorId}
    {ps : List Pattern}
    {slot : SchemaId}
    {arms : List CheckedArm}
    (h : ctx.AcceptsMatch id ps slot r arms)
    (hFit : ctx.table.FitForMatching)
    (hPlain : ∀ p ∈ ps, p.PlainDefaults)
    {v : Value}
    (hValue : HasType ctx.table (ctx.table.typeOf (.described id)) v)
    (o : LoweringOptions)
    {arm : CheckedArm}
    (hArm : arm ∈ arms) :
    (arm.pattern.plan o false .scrutinee).FaultFree v := by
  rcases h.exists_typed hFit.free with
    ⟨Γ, r₀, T, hTyped, hSlot, hType, -, hArms⟩
  have hMeets : r₀.pool.MayMeet ctx.table slot T v := by
    rcases hType with rfl | rfl
    · exact .inl hValue
    · exact .inl (.unknown .anything v)
  rcases hArms arm hArm with ⟨p, hp, -, hAccepted⟩
  exact (Pattern.readSafely hFit (hPlain p hp)).acceptedAt hAccepted hTyped
    hSlot hMeets (fun _ => rfl) false

/-
  If all patterns are flat and the cases are told apart, then
  missing labels are listed once and in order, and a value of
  such a case is matched by no arm as long as guards answer
  no.
-/
theorem missing_unmatched
    {id : DescriptorId}
    {ps : List Pattern}
    {slot : SchemaId}
    {arms : List CheckedArm}
    (hMatch : ctx.AcceptsMatch id ps slot r arms)
    (hCases : r.pool.Cases (r.pool.get slot))
    (hFlat :
      ∀ p ∈ ps, p.Flat (r.pool.get slot) fun q => q.isIrrefutable = true)
    (span : Span) :
    (r.pool.coverage slot arms span).missing.Sublist
      (r.pool.get slot).coverLabels ∧
    (r.pool.coverage slot arms span).missing.Nodup ∧
    ∀ label ∈ (r.pool.coverage slot arms span).missing,
      ∀ v, (r.pool.get slot).InCase v label →
        ctx.Calm id ps (r.pool.get slot) v →
        ∀ (o : LoweringOptions) (exhaustive : Bool) {σ : Type}
          (host : GuardHost σ), host.AnsweredBy (fun _ _ => false) →
          ∀ state,
            ((Procedure.ofArms o arms slot exhaustive).execute host v
              state).1 = .error .noMatch := by
  refine ⟨SchemaPool.missing_sublist,
    hCases.nodup_coverLabels.sublist SchemaPool.missing_sublist, ?_⟩
  intro label hMissing v hIn hCalm o exhaustive σ host hHost state
  rcases hMatch.exists_acceptedSince with
    ⟨r₀, hs, hSlot, hLater, hArms⟩
  have hSame : r.pool.get slot = r₀.pool.get slot :=
    (hLater.settled hs).2.pool.get_eq hSlot
  have hLacks := SchemaPool.of_mem_missing hMissing
  rw [hSame] at hCases hFlat hIn hCalm hLacks
  have hCases₀ := hCases.of_later hLater hs (hs.closed.pool.slots slot)
  refine Procedure.execute_eq_noMatch hHost (fun arm hArm => ?_) slot
    exhaustive state
  rcases hArms arm hArm with ⟨p, hp, hFrom, hSince⟩
  refine ⟨⟨p, hFrom⟩, ?_⟩
  -- An arm without guards misses exactly; others must not fault.
  have hRejects :
      ∀ {calm : Prop},
        (calm → p.Flat (r₀.pool.get slot) Pattern.Unasking) →
        arm.pattern.Rejects (Checked.cover (r₀.pool.get slot))
          (p.guards = []) calm o v .scrutinee label := by
    intro calm hUnasking
    have hParts :
        p.Flat (r₀.pool.get slot) fun q =>
          q.isIrrefutable = true ∧ (calm → q.Unasking) := by
      by_cases hIs : calm
      · exact (hFlat p hp).combine (hUnasking hIs) fun _ hAll hNot =>
          ⟨hAll, fun _ => hNot⟩
      · exact (hFlat p hp).combine (hFlat p hp) fun _ hAll _ =>
          ⟨hAll, fun h => absurd h hIs⟩
    exact hCases₀.rejects hs hSlot hIn (fun _ hPart => hPart) hParts
      (fun hNone => hNone) hSince
  have hOuter : p.guards = [] → arm.pattern.outerGuards = [] := by
    rcases hSince with ⟨s₁, s₂, -, hAccepts⟩
    exact hAccepts.outerGuards_eq_nil
  have hMisses := CheckedArm.misses_plan (hRejects False.elim)
    (hLacks arm hArm) hOuter
  cases hCalm with
  | unasking h =>
      rcases h p hp with hNone | hUnasking
      · exact hMisses.exactly hNone
      · exact hMisses.exact_of_faultFree (CheckedArm.faultFree_plan
          ((hRejects fun _ : True => hUnasking).faultFree trivial false))
  | typed hFit hPlain hValue =>
      exact hMisses.exact_of_faultFree (CheckedArm.faultFree_plan
        (hMatch.faultFree hFit hPlain hValue o hArm))

/- Only an arm with a guard covers leaves, and nothing nil. -/
def guardedLeafPatterns : List Pattern :=
  [.guarded {}
      (.constructor {} { typeName := some "Node", caseName := some "Leaf" }
        [(⟨"size", {}⟩, .bind {} "size")] [])
      { id := 0, text := "size > 5", uses := ["size"] },
    .named {} "node"
      (.constructor {} { typeName := some "Node" }
        [(⟨"kind", {}⟩, .alt {} [.literal {} (.sym "nkPair")])] [])]

/- A leaf fits no arm when the guard answers no. -/
theorem guardedLeaf_unmatched :
    let ctx : CheckContext := { table := referredNode, marker := 'k' }
    let m := ctx.checkMatch 3 guardedLeafPatterns
    let arms := acceptedArms m.2
    (m.1.pool.coverage 0 arms {}).missing = ["nkLeaf", "nil"] ∧
    ((Procedure.ofArms {} arms 0 true).execute
      (fun _ _ => (pure false : StateM Unit Bool)) leafNode ()).1 =
        .error .noMatch := by
  intro ctx m arms
  have hSlot : (Registry.schemaOf {} referredNode 3).2 = 0 := by
    decide +kernel
  have hMatch : ctx.AcceptsMatch 3 guardedLeafPatterns 0 m.1 arms := by
    rw [← hSlot]
    exact CheckContext.acceptsMatch_of_checkMatch (by decide +kernel)
  have hKind : (m.1.pool.get 0).structuralKind = .union := by
    decide +kernel
  have hField : (m.1.pool.get 0).discriminator = some ⟨"kind", 2⟩ := by
    decide +kernel
  have hLabels :
      m.1.pool.Labels (m.1.pool.get 0) ⟨"kind", 2⟩
        [⟨"nkLeaf", 0⟩, ⟨"nkPair", 1⟩] :=
    ⟨hField, .inl (by decide +kernel), by decide, by decide +kernel⟩
  have hCases : m.1.pool.Cases (m.1.pool.get 0) :=
    .union hKind hLabels (by decide +kernel) (by decide +kernel)
  have hIsKind : (m.1.pool.get 0).isDiscriminator "kind" = true := by
    decide +kernel
  have hIsSize : (m.1.pool.get 0).isDiscriminator "size" = false := by
    decide +kernel
  have hGuarded :
      ∀ {part : Pattern → Prop}, part (.bind {} "size") →
        Pattern.Flat (m.1.pool.get 0) part guardedLeafPatterns[0] := by
    intro part hPart
    refine .guarded {} _ (.constructor {} rfl ?_ ?_ nofun)
    · exact List.forall_mem_singleton.mpr fun _ => .bind {} "size"
    · exact List.forall_mem_singleton.mpr fun _ => hPart
  have hNamed :
      ∀ {part : Pattern → Prop},
        Pattern.Flat (m.1.pool.get 0) part guardedLeafPatterns[1] := by
    intro part
    refine .named {} "node" (.constructor {} rfl ?_ ?_ nofun)
    · exact List.forall_mem_singleton.mpr fun _ =>
        .alt {} (List.forall_mem_singleton.mpr (.literal {} _))
    · exact List.forall_mem_singleton.mpr fun hOther =>
        nomatch hIsKind.symm.trans hOther
  have hFlat :
      ∀ p ∈ guardedLeafPatterns,
        p.Flat (m.1.pool.get 0) fun q => q.isIrrefutable = true :=
    List.forall_mem_cons.mpr
      ⟨hGuarded rfl, List.forall_mem_singleton.mpr hNamed⟩
  have hMissing :
      (m.1.pool.coverage 0 arms {}).missing = ["nkLeaf", "nil"] := by
    decide +kernel
  have hIn : (m.1.pool.get 0).InCase leafNode "nkLeaf" := by
    have hBranch :
        ∃ b ∈ (m.1.pool.get 0).branches,
          b.label = "nkLeaf" ∧ b.ordinal = 0 := by
      decide +kernel
    have hCarries : leafNode.Carries (m.1.pool.get 0) "nkLeaf" :=
      ⟨by decide +kernel, by decide +kernel⟩
    rcases hBranch with ⟨⟨label, ordinal, fields⟩, hMem, rfl, rfl⟩
    exact .branch hKind hField hMem ⟨.member "nkLeaf" 0, rfl, rfl⟩ hCarries
  have hCalm :
      ctx.Calm 3 guardedLeafPatterns (m.1.pool.get 0) leafNode :=
    .unasking (List.forall_mem_cons.mpr
      ⟨.inr (hGuarded (.bind {} "size")),
        List.forall_mem_singleton.mpr (.inl rfl)⟩)
  rcases missing_unmatched hMatch hCases hFlat {} with ⟨-, -, hNone⟩
  refine ⟨hMissing, ?_⟩
  exact hNone "nkLeaf" (hMissing ▸ List.mem_cons_self) leafNode hIn hCalm
    {} true (fun _ _ => (pure false : StateM Unit Bool))
    (fun _ _ _ => rfl) ()

/- The type of the discriminator is asked for first. -/
def circularKindFirst : Registry :=
  ((Registry.extract? {} circularNodes 5 2).map Prod.fst).getD {}

/- A value of the second branch. -/
def circularNodeA : Value :=
  .object ["Node"] [("kind", .member "A" 0)]

theorem circularNodeA_hasType :
    HasType circularNodes (.described 4) circularNodeA := by
  have hLineage : Lineage circularNodes [4] ["Node"] :=
    @Lineage.root circularNodes 4 _ _ rfl rfl rfl
  have hShows :
      circularNodes.Shows .alias (.described 2)
        (circularNodes.typeOf (.described 3)) :=
    .view rfl
  refine .object_of_fields hLineage (List.mem_singleton_self 4) ?_
  intro level hLevel o hShape
  cases List.mem_singleton.mp hLevel
  cases hShape
  refine List.forall_mem_singleton.mpr ⟨_, rfl, ?_⟩
  exact .view hShows (.unknown (.described rfl rfl) _)

/-
  The branches do not have the numbers that the discriminator
  gives to their labels: a value whose case is missing fits
  an arm for the other case.
-/
theorem circularNode_falseAlarm :
    let ctx : CheckContext := { table := circularNodes, marker := 'k' }
    let arm : Pattern := .constructor {} { caseName := some "B" } [] []
    let r := circularKindFirst.schemaOf circularNodes 4
    let m := r.1.checkArms ctx r.2 [arm]
    let arms := acceptedArms m.2
    let s := m.1.pool.get r.2
    ctx.AcceptsMatch 4 [arm] r.2 m.1 arms ∧
    arm.Flat s (fun q => q.isIrrefutable = true) ∧
    HasType circularNodes (.described 4) circularNodeA ∧
    s.discriminator = some ⟨"kind", 0⟩ ∧
    (m.1.pool.get 0).members = [⟨"A", 0⟩, ⟨"B", 1⟩] ∧
    circularNodeA.IsLabelled ⟨"kind", 0⟩ ⟨"A", 0⟩ ∧
    circularNodeA.Carries s "A" ∧
    (m.1.pool.coverage r.2 arms {}).missing = ["A"] ∧
    ((Procedure.ofArms {} arms r.2 false).execute
      (fun _ _ => (pure false : StateM Unit Bool)) circularNodeA
      ()).1.map MatchOutcome.arm = .ok 0 := by
  intro ctx arm r m arms s
  have hExtracts :
      Registry.Extracts {} circularNodes 2 circularKindFirst 0 :=
    Registry.extracts_of_map_snd (by decide +kernel)
  have hMatch : ctx.AcceptsMatch 4 [arm] r.2 m.1 arms :=
    CheckContext.acceptsMatch_of_checkArms
      (.extract (.fresh 'k') hExtracts) (by decide +kernel)
  have hFlat : ∀ s part, arm.Flat s part :=
    fun _ _ => .constructor {} rfl nofun nofun nofun
  have hCarries : circularNodeA.Carries s "A" :=
    ⟨by decide +kernel, by decide +kernel⟩
  exact ⟨hMatch, hFlat s _, circularNodeA_hasType, by decide +kernel,
    by decide +kernel, ⟨.member "A" 0, rfl, rfl⟩, hCarries,
    by decide +kernel, by decide +kernel⟩

/- A union whose branches have a field of one name, two types. -/
def chainedNode : TypeTable :=
  { descriptors :=
      #[{ name := "Kind"
          shape := .enumeration [⟨"A", 0⟩, ⟨"B", 1⟩] },
        { name := "int", shape := .primitive .i64 },
        { name := "Chain"
          shape := .container .optional [.described 2] },
        { name := "Node"
          shape := .object
            { variant := some
                { discriminator := { name := "kind", type := .described 0 }
                  branches :=
                    [{ selector := .labels ["A"]
                       fields := [{ name := "x", type := .described 2 }] },
                     { selector := .labels ["B"]
                       fields :=
                         [{ name := "x", type := .described 1 }] }] } } }] }

/- What is asked of the field matches all values of one type. -/
def chainedNodePattern : Pattern :=
  .guarded {}
    (.constructor {} { typeName := some "Node" }
      [(⟨"kind", {}⟩,
          .alt {} [.literal {} (.sym "A"), .literal {} (.sym "B")]),
       (⟨"x", {}⟩,
          .alt {}
            [.constructor {} { typeName := some "Some" } []
                [.bind {} "n"],
             .bind {} "n"])] [])
    { id := 0, text := "ok", uses := ["n"] }

/- A value of the second branch. -/
def chainedNodeB : Value :=
  .object ["Node"] [("kind", .member "B" 1), ("x", .int 5)]

theorem chainedNodeB_hasType :
    HasType chainedNode (.described 3) chainedNodeB := by
  have hLineage : Lineage chainedNode [3] ["Node"] :=
    @Lineage.root chainedNode 3 _ _ rfl rfl rfl
  refine .object_of_fields hLineage (List.mem_singleton_self 3) ?_
  intro level hLevel o hShape
  cases List.mem_singleton.mp hLevel
  cases hShape
  refine List.forall_mem_cons.mpr ⟨⟨_, rfl, ?_⟩, ?_⟩
  · exact .enumeration (m := ⟨"B", 1⟩) rfl (by decide)
  · exact List.forall_mem_singleton.mpr ⟨_, rfl, .primitive rfl rfl⟩

/-
  What a guard stands behind looks at a field at the type of
  the first branch, and faults before the guard is asked.
-/
theorem chainedNode_faults :
    let ctx : CheckContext := { table := chainedNode, marker := 'k' }
    let m := ctx.checkMatch 3 [chainedNodePattern]
    let arms := acceptedArms m.2
    let s := m.1.pool.get 0
    ctx.AcceptsMatch 3 [chainedNodePattern] 0 m.1 arms ∧
    m.1.pool.Cases s ∧
    chainedNodePattern.Flat s (fun q => q.isIrrefutable = true) ∧
    HasType chainedNode (.described 3) chainedNodeB ∧
    s.InCase chainedNodeB "B" ∧
    (m.1.pool.coverage 0 arms {}).missing = ["A", "B"] ∧
    ((Procedure.ofArms {} arms 0 false).execute
      (fun _ _ => (pure false : StateM Unit Bool)) chainedNodeB ()).1 =
        .error (.shapeMismatch (.presenceOf "integer")) := by
  intro ctx m arms s
  have hKind : s.structuralKind = .union := by
    decide +kernel
  have hField : s.discriminator = some ⟨"kind", 1⟩ := by
    decide +kernel
  have hLabels : m.1.pool.Labels s ⟨"kind", 1⟩ [⟨"A", 0⟩, ⟨"B", 1⟩] :=
    ⟨hField, .inl (by decide +kernel), by decide, by decide +kernel⟩
  have hIsKind : s.isDiscriminator "kind" = true := by
    decide +kernel
  have hIsX : s.isDiscriminator "x" = false := by
    decide +kernel
  have hFlat :
      chainedNodePattern.Flat s fun q => q.isIrrefutable = true := by
    refine .guarded {} _ (.constructor {} rfl ?_ ?_ nofun)
    · refine List.forall_mem_cons.mpr
        ⟨fun _ => .alt {} ?_, List.forall_mem_singleton.mpr fun hOther => ?_⟩
      · exact List.forall_mem_cons.mpr ⟨.literal {} _,
          List.forall_mem_singleton.mpr (.literal {} _)⟩
      · exact nomatch hIsX.symm.trans hOther
    · refine List.forall_mem_cons.mpr
        ⟨fun hOther => ?_, List.forall_mem_singleton.mpr fun _ => rfl⟩
      exact nomatch hIsKind.symm.trans hOther
  have hIn : s.InCase chainedNodeB "B" := by
    have hBranch : ∃ b ∈ s.branches, b.label = "B" ∧ b.ordinal = 1 := by
      decide +kernel
    have hCarries : chainedNodeB.Carries s "B" :=
      ⟨by decide +kernel, by decide +kernel⟩
    rcases hBranch with ⟨⟨label, ordinal, fields⟩, hMem, rfl, rfl⟩
    exact .branch hKind hField hMem ⟨.member "B" 1, rfl, rfl⟩ hCarries
  have hSlot : (Registry.schemaOf {} chainedNode 3).2 = 0 := by
    decide +kernel
  have hMatch : ctx.AcceptsMatch 3 [chainedNodePattern] 0 m.1 arms := by
    rw [← hSlot]
    exact CheckContext.acceptsMatch_of_checkMatch (by decide +kernel)
  have hCases : m.1.pool.Cases s :=
    .union hKind hLabels (by decide +kernel) (by decide +kernel)
  exact ⟨hMatch, hCases, hFlat, chainedNodeB_hasType, hIn,
    by decide +kernel, by decide +kernel⟩

end MatchCompiler
