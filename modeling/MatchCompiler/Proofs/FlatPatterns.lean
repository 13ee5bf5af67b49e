import MatchCompiler.Proofs.BranchReading
import MatchCompiler.Proofs.ShapeSafety
import MatchCompiler.Proofs.SilentGuards

/-
  This file describes patterns that ask for cases only, and
  what becomes of them on a value of a case that they do not
  cover.

  Such a pattern is made of names, alternations and guards
  around wildcards, literals and constructors, and what the
  constructors ask for beside the case matches every value.
  If it lacks the label of a value, it misses the value when
  guards answer no. A guard also hides what it guards from
  the labels; the pattern then misses the value only if what
  is guarded does not fault.

  Key definitions include:
    * `Pattern.Flat`
    * `Pattern.Unasking`
    * `Checked.Gathers`
    * `Checked.Rejects`

  Key theorems include:
    * `Accepts.isCatchAll`
    * `Pattern.Unasking.faultFree`
    * `Pattern.Flat.rejects`
    * `Pattern.Flat.rejects_labelled`
    * `Pattern.Flat.rejects_optional`
-/

------------------------------------------------------------
-- Flat Patterns
------------------------------------------------------------

namespace MatchCompiler

namespace Pattern

/-
  A pattern asks for nothing but cases of a schema. What a
  constructor is given for the discriminator asks for cases
  again; all else that it is given is of some kind.
-/
inductive Flat
    (s : Schema)
    (part : Pattern → Prop) : Pattern → Prop
| wildcard (span : Span) : Flat s part (.wildcard span)
| bind (span : Span) (x : String) : Flat s part (.bind span x)
| literal (span : Span) (l : Literal) : Flat s part (.literal span l)
| alt
    (span : Span)
    {ps : List Pattern}
    (h : ∀ p ∈ ps, Flat s part p) :
    Flat s part (.alt span ps)
| guarded
    (span : Span)
    {p : Pattern}
    (g : Guard)
    (h : Flat s part p) :
    Flat s part (.guarded span p g)
| named
    (span : Span)
    (x : String)
    {p : Pattern}
    (h : Flat s part p) :
    Flat s part (.named span x p)
| constructor
    (span : Span)
    {head : ConstructorHead}
    {fields : List (FieldName × Pattern)}
    {args : List Pattern}
    (hTarget : head.target = none)
    (hDisc :
      ∀ f ∈ fields, s.isDiscriminator f.1.name = true →
        Flat s part f.2)
    (hFields :
      ∀ f ∈ fields, s.isDiscriminator f.1.name = false → part f.2)
    (hArgs : ∀ p ∈ args, part p) :
    Flat s part (.constructor span head fields args)

/- What two kinds have in common, parts of both kinds have. -/
theorem Flat.combine
    {s : Schema}
    {P Q R : Pattern → Prop}
    {p : Pattern}
    (h : p.Flat s P)
    (h' : p.Flat s Q)
    (hImp : ∀ q, P q → Q q → R q) :
    p.Flat s R := by
  induction h with
  | wildcard span => exact .wildcard span
  | bind span x => exact .bind span x
  | literal span l => exact .literal span l
  | alt span _ ih =>
      cases h' with
      | alt _ h' => exact .alt span fun p hp => ih p hp (h' p hp)
  | guarded span g _ ih =>
      cases h' with
      | guarded _ _ h' => exact .guarded span g (ih h')
  | named span x _ ih =>
      cases h' with
      | named _ _ h' => exact .named span x (ih h')
  | constructor span hTarget _ hFields hArgs ih =>
      cases h' with
      | constructor _ _ hDisc' hFields' hArgs' =>
          exact .constructor span hTarget
            (fun f hf hIs => ih f hf hIs (hDisc' f hf hIs))
            (fun f hf hNot => hImp _ (hFields f hf hNot)
              (hFields' f hf hNot))
            (fun p hp => hImp p (hArgs p hp) (hArgs' p hp))

/- A pattern never looks at the value that it is given. -/
inductive Unasking : Pattern → Prop
| wildcard (span : Span) : Unasking (.wildcard span)
| bind (span : Span) (x : String) : Unasking (.bind span x)
| alt
    (span : Span)
    {ps : List Pattern}
    (h : ∀ p ∈ ps, Unasking p) :
    Unasking (.alt span ps)
| guarded
    (span : Span)
    {p : Pattern}
    (g : Guard)
    (h : Unasking p) :
    Unasking (.guarded span p g)
| named
    (span : Span)
    (x : String)
    {p : Pattern}
    (h : Unasking p) :
    Unasking (.named span x p)

end Pattern

variable {ctx : CheckContext}

/- One of several irrefutable branches becomes one. -/
theorem AcceptsBranches.anyCatchAll
    {id : SchemaId}
    {before : List Binding}
    {ps : List Pattern}
    {branches : List (Checked × List Binding)}
    {r r' : Registry}
    (h : AcceptsBranches ctx id before ps r branches r')
    (hEach :
      ∀ p ∈ ps, ∀ s q s', Accepts ctx p id s q s' →
        p.isIrrefutable = true → q.isCatchAll = true)
    (hAny : Pattern.anyIrrefutable ps = true) :
    Checked.anyCatchAll (branches.map Prod.fst) = true := by
  induction ps generalizing r branches with
  | nil => cases hAny
  | cons p ps ih =>
      cases h with
      | cons hHead hTail =>
          rcases List.forall_mem_cons.mp hEach with ⟨hFirst, hRest⟩
          refine (Bool.or_eq_true _ _).mpr ?_
          rcases (Bool.or_eq_true _ _).mp hAny with hAny | hAny
          · exact .inl (hFirst _ _ _ hHead hAny)
          · exact .inr (ih hTail hRest hAny)

/- A pattern that visibly matches every value does so. -/
theorem Accepts.isCatchAll
    {p : Pattern}
    {id : SchemaId}
    {s s' : Progress}
    {q : Checked}
    (h : Accepts ctx p id s q s')
    (hAll : p.isIrrefutable = true) :
    q.isCatchAll = true := by
  induction p using Pattern.partInduction generalizing s q s' with
  | wildcard span =>
      cases h
      rfl
  | bind span x =>
      cases h
      rfl
  | named span x p ih =>
      cases h with
      | named hInner _ =>
          have hInnerAll := ih hInner hAll
          exact hInnerAll
  | alt span ps ih =>
      cases h with
      | alt hBranches _ =>
          exact hBranches.anyCatchAll
            (fun p hp s q s' hAccepts => ih p hp hAccepts) hAll
  | literal => cases hAll
  | guarded => cases hAll
  | constructor => cases hAll
  | seq => cases hAll
  | typeTest => cases hAll
  | narrow => cases hAll
  | map => cases hAll
  | set => cases hAll

/- Every branch is accepted, from some progress. -/
theorem AcceptsBranches.exists_accepts
    {id : SchemaId}
    {before : List Binding}
    {ps : List Pattern}
    {branches : List (Checked × List Binding)}
    {r r' : Registry}
    (h : AcceptsBranches ctx id before ps r branches r')
    {b : Checked × List Binding}
    (hMem : b ∈ branches) :
    ∃ p ∈ ps, ∃ s s', Accepts ctx p id s b.1 s' := by
  induction ps generalizing r branches with
  | nil =>
      cases h
      cases hMem
  | cons p ps ih =>
      cases h with
      | cons hHead hTail =>
          rcases List.mem_cons.mp hMem with rfl | hMem
          · exact ⟨p, List.mem_cons_self, _, _, hHead⟩
          · rcases ih hTail hMem with ⟨p', hp', hAccepts⟩
            exact ⟨p', List.mem_cons_of_mem p hp', hAccepts⟩

/- A pattern that never looks does not fault. -/
theorem Pattern.Unasking.faultFree
    {p : Pattern}
    (h : p.Unasking)
    {id : SchemaId}
    {s s' : Progress}
    {q : Checked}
    (hAccepts : Accepts ctx p id s q s')
    {o : LoweringOptions}
    {root v : Value}
    {a : Access}
    (hRead : a.Reads root v)
    (inside : Bool) :
    (q.plan o inside a).FaultFree root := by
  induction h generalizing s q s' inside with
  | wildcard span =>
      cases hAccepts
      exact Plan.faultFree_always
  | bind span x =>
      cases hAccepts
      exact Plan.faultFree_always.bind x (hRead .empty)
  | named span x _ ih =>
      cases hAccepts with
      | named hInner _ => exact (ih hInner inside).bind x (hRead .empty)
  | guarded span g _ ih =>
      cases hAccepts with
      | guarded hInner _ =>
          cases inside with
          | false => exact ih hInner false
          | true =>
              exact Plan.faultFree_all ((ih hInner true).cons fun _ =>
                (Plan.faultFree_guard g.id).cons fun _ =>
                  Plan.faultFreeInTurn_nil)
  | alt span _ ih =>
      cases hAccepts with
      | alt hBranches _ =>
          refine Checked.faultFree_branches fun q hq => ?_
          rcases List.mem_map.mp hq with ⟨b, hb, rfl⟩
          rcases hBranches.exists_accepts hb with ⟨p, hp, s₁, s₂, hInner⟩
          exact ih p hp hInner true

end MatchCompiler

------------------------------------------------------------
-- Labels That Are Lacking
------------------------------------------------------------

namespace MatchCompiler

namespace Checked

/- Labels of patterns go through names and alternations. -/
structure Gathers (labels : Checked → List String) : Prop where
  bind : ∀ span x q, labels (.bind span x q) = labels q
  alt : ∀ span qs, ∀ q ∈ qs, labels q ⊆ labels (.alt span qs)

theorem gathers_cover
    (s : Schema) :
    Gathers (cover s) where
  bind := fun _ _ _ => rfl
  alt := fun _ _ q hq _ hLabel => mem_coverOfAll.mpr ⟨q, hq, hLabel⟩

theorem gathers_discriminatorLabels
    (s : Schema)
    (whole : Bool) :
    Gathers (discriminatorLabels s whole) where
  bind := fun _ _ _ => rfl
  alt := fun _ _ q hq _ hLabel =>
    mem_discriminatorLabelsOfAll.mpr ⟨q, hq, hLabel⟩

/-
  If a pattern lacks the label of a value, its plan misses
  the value, unless guards are put off. If its parts are
  calm, its plan does not fault on the value.
-/
structure Rejects
    (labels : Checked → List String)
    (exact calm : Prop)
    (o : LoweringOptions)
    (root : Value)
    (a : Access)
    (label : String)
    (q : Checked) : Prop where
  misses :
    label ∉ labels q →
      ∀ inside, (inside = true ∨ q.outerGuards = []) →
        (q.plan o inside a).Misses exact root
  faultFree : calm → ∀ inside, (q.plan o inside a).FaultFree root

variable {labels : Checked → List String}
variable {exact calm : Prop}
variable {o : LoweringOptions}
variable {root v : Value}
variable {a : Access}
variable {label : String}
variable {q : Checked}

theorem rejects_wildcard
    {span : Span}
    (hLabel : label ∈ labels (.wildcard span)) :
    (Checked.wildcard span).Rejects labels exact calm o root a label where
  misses := fun hLacks => absurd hLabel hLacks
  faultFree := fun _ _ => Plan.faultFree_always

/- A literal misses what it does not hold of. -/
theorem rejects_literal
    {span : Span}
    {meaning : CheckedLiteral}
    (hRead : a.Reads root v)
    {b : Bool}
    (hHolds : meaning.holds v = .ok b)
    (hLabel : b = true → label ∈ labels (.literal span meaning)) :
    (Checked.literal span meaning).Rejects labels exact calm o root a
      label := by
  have hLeaf : ((Lowered.literal a meaning).test).IsLeaf := by
    cases meaning <;> trivial
  have hReading := (Lowered.reading_literal (hRead .empty) meaning).trans
    hHolds
  refine ⟨fun hLacks _ _ => Plan.misses_leaf hLeaf ?_,
    fun _ _ => Plan.faultFree_leaf hLeaf hReading⟩
  cases b with
  | false => exact hReading
  | true => exact absurd (hLabel rfl) hLacks

namespace Rejects

theorem bind
    (hGathers : Gathers labels)
    (hRead : a.Reads root v)
    (h : q.Rejects labels exact calm o root a label)
    (span : Span)
    (x : String) :
    (Checked.bind span x q).Rejects labels exact calm o root a label where
  misses := by
    rw [hGathers.bind]
    exact fun hLacks inside hOuter =>
      (h.misses hLacks inside hOuter).bind x a
  faultFree := fun hCalm inside =>
    (h.faultFree hCalm inside).bind x (hRead .empty)

/- What comes before a guard may match, but must not fault. -/
theorem guarded
    (hLoose : ¬ exact)
    (h : q.Rejects labels exact calm o root a label)
    (span : Span)
    (id : GuardId) :
    (Checked.guarded span q id).Rejects labels exact calm o root a
      label where
  misses := by
    rintro - inside (rfl | hNone)
    · exact Plan.misses_all (Plan.MissesInTurn.of_mem hLoose
        (List.mem_cons_of_mem _ List.mem_cons_self) (Plan.misses_guard id))
    · exact absurd hNone (List.concat_ne_nil id q.outerGuards)
  faultFree := by
    intro hCalm inside
    have hInner := h.faultFree hCalm inside
    cases inside with
    | false => exact hInner
    | true =>
        exact Plan.faultFree_all (hInner.cons fun _ =>
          (Plan.faultFree_guard id).cons fun _ => Plan.faultFreeInTurn_nil)

theorem alt
    (hGathers : Gathers labels)
    {qs : List Checked}
    (h : ∀ q ∈ qs, q.Rejects labels exact calm o root a label)
    (span : Span) :
    (Checked.alt span qs).Rejects labels exact calm o root a label where
  misses := by
    intro hLacks inside _
    refine Plan.misses_alt fun p hp => ?_
    rw [planBranches_eq] at hp
    rcases List.mem_map.mp hp with ⟨q, hq, rfl⟩
    exact (h q hq).misses (fun hLabel =>
      hLacks (hGathers.alt span qs q hq hLabel)) true (.inl rfl)
  faultFree := fun hCalm _ =>
    faultFree_branches fun q hq => (h q hq).faultFree hCalm true

end Rejects

end Checked

variable {ctx : CheckContext}
variable {r : Registry}
variable {s : Schema}
variable {part : Pattern → Prop}
variable {exact calm : Prop}

/-
  What its nodes reject, a flat pattern rejects. Only a
  pattern without guards has to miss exactly.
-/
theorem Pattern.Flat.rejects
    {labels : Checked → List String}
    {o : LoweringOptions}
    {root v : Value}
    {a : Access}
    {label : String}
    {id : SchemaId}
    (hs : r.Settled)
    (hId : id < r.pool.size)
    (hGathers : Checked.Gathers labels)
    (hRead : a.Reads root v)
    (hNodes :
      ∀ p q, p.Flat s part → p.IsNode → (exact → p.guards = []) →
        AcceptedSince ctx r p id q →
        q.Rejects labels exact calm o root a label)
    {p : Pattern}
    (h : p.Flat s part)
    (hExact : exact → p.guards = [])
    {q : Checked}
    (hAccepted : AcceptedSince ctx r p id q) :
    q.Rejects labels exact calm o root a label := by
  induction h generalizing q with
  | wildcard span =>
      exact hNodes _ q (.wildcard span) trivial hExact hAccepted
  | literal span l =>
      exact hNodes _ q (.literal span l) trivial hExact hAccepted
  | constructor span hTarget hDisc hFields hArgs =>
      exact hNodes _ q (.constructor span hTarget hDisc hFields hArgs)
        trivial hExact hAccepted
  | bind span x =>
      rcases hAccepted with ⟨s₁, s₂, hLater, hAccepts⟩
      cases hAccepts with
      | bind =>
          refine (hNodes _ _ (.wildcard span) trivial (fun _ => rfl)
            ⟨s₁, s₁, hLater, .wildcard span id s₁⟩).bind hGathers hRead
              span x
  | named span x _ ih =>
      rcases hAccepted with ⟨s₁, s₂, hLater, hAccepts⟩
      cases hAccepts with
      | named hInner _ =>
          exact (ih hExact ⟨s₁, _, hLater, hInner⟩).bind hGathers hRead
            span x
  | guarded span g _ ih =>
      rcases hAccepted with ⟨s₁, s₂, hLater, hAccepts⟩
      have hLoose : ¬ exact := fun hIs =>
        List.cons_ne_nil _ _ (hExact hIs)
      cases hAccepts with
      | guarded hInner _ =>
          exact (ih (fun hIs => absurd hIs hLoose)
            ⟨s₁, _, hLater, hInner⟩).guarded hLoose span g.id
  | @alt span ps _ ih =>
      rcases hAccepted with ⟨s₁, s₂, hLater, hAccepts⟩
      cases hAccepts with
      | alt hBranches _ =>
          refine Checked.Rejects.alt hGathers (fun q hq => ?_) span
          rcases List.mem_map.mp hq with ⟨b, hb, rfl⟩
          rcases hLater.settled hs with ⟨hs', hGrows⟩
          rcases hBranches.exists_acceptedSince hs'
              (hId.trans_le hGrows.pool.size_le) hb with
            ⟨p, hp, hBranch⟩
          refine ih p hp (fun hIs => ?_) (hBranch.of_later hLater)
          refine List.eq_nil_of_subset_nil fun g hg => ?_
          rw [← hExact hIs]
          exact Pattern.mem_guardsOfList hp hg

end MatchCompiler

------------------------------------------------------------
-- Labelled Types And Optionals
------------------------------------------------------------

namespace MatchCompiler

variable {ctx : CheckContext}
variable {r : Registry}
variable {s : Schema}
variable {part : Pattern → Prop}
variable {exact calm : Prop}
variable {o : LoweringOptions}
variable {root v : Value}
variable {a : Access}

/-
  A flat pattern at a labelled type rejects the values whose
  label it lacks, if it has the labels that its literals
  stand for.
-/
theorem Pattern.Flat.rejects_labelled
    {labels : Checked → List String}
    {slot : SchemaId}
    (hs : r.Settled)
    (hSlot : slot < r.pool.size)
    {ms : List Member}
    (hMembers : (r.pool.get slot).ListsMembers ms)
    (hOrdinals : (ms.map Member.ordinal).Nodup)
    {m : Member}
    (hTag : v.tag? = some m)
    (hListed : m ∈ ms)
    (hRead : a.Reads root v)
    (hGathers : Checked.Gathers labels)
    (hWildcard : ∀ span, m.name ∈ labels (.wildcard span))
    (hMember : ∀ span k, k.name ∈ labels (.literal span (.member k)))
    (hBool :
      (r.pool.get slot).kind = .primitive →
        ∀ span b, (if b then "true" else "false") ∈
          labels (.literal span (.value (.bool b))))
    {p : Pattern}
    (h : p.Flat s part)
    (hExact : exact → p.guards = [])
    {q : Checked}
    (hAccepted : AcceptedSince ctx r p slot q) :
    q.Rejects labels exact calm o root a m.name := by
  refine h.rejects hs hSlot hGathers hRead (fun p q hFlat hNode _ hAt => ?_)
    hExact hAccepted
  rcases hAt with ⟨s₁, s₂, hLater, hAccepts⟩
  have hSame : s₁.pool.get slot = r.pool.get slot :=
    (hLater.settled hs).2.pool.get_eq hSlot
  rw [← hSame] at hMembers hBool
  cases hFlat with
  | wildcard span =>
      cases hAccepts
      exact Checked.rejects_wildcard (hWildcard span)
  | literal span l =>
      cases hAccepts with
      | @literal _ _ _ _ meaning hMeaning =>
          have hStandsFor :
              ∀ label, meaning.label? = some label →
                label ∈ labels (.literal span meaning) := by
            rcases SchemaPool.meaning_of_listsMembers hMembers hMeaning with
              ⟨k, -, rfl⟩ | ⟨-, hPrimitive, b, rfl⟩
            · rintro label ⟨⟩
              exact hMember span k
            · rintro label ⟨⟩
              exact hBool hPrimitive span b
          rcases SchemaPool.exists_label_of_holds hMembers hOrdinals hTag
            hListed hMeaning with ⟨label, hLabel, b, hHolds, hOnly⟩
          refine Checked.rejects_literal hRead hHolds fun hTrue => ?_
          rw [hOnly hTrue]
          exact hStandsFor label hLabel
  | constructor =>
      -- A labelled type has no parts.
      rcases structuralKind_of_listsMembers hMembers with hKind | hKind <;>
        cases hAccepts with
        | object hObject =>
            rcases hObject with hObject | hObject <;>
              cases hKind.symm.trans hObject
        | some hOptional | someUnknown hOptional | none hOptional =>
            cases hKind.symm.trans hOptional
  | bind | named | alt | guarded => exact hNode.elim

/- Present values lack none, and absent ones lack some. -/
theorem Checked.rejects_some
    {label : String}
    (hLabel : OptionalLabel v label)
    {id : SchemaId}
    {q : Checked}
    (hAll : q.isCatchAll = true)
    (hCalm :
      calm → ∀ w, v = .some w → ∀ inside,
        (q.plan o inside (.payload .scrutinee)).FaultFree v)
    (span : Span) :
    (Checked.some span q).Rejects (Checked.cover (r.pool.get id)) exact
      calm o v .scrutinee label where
  misses := by
    intro hLacks inside _
    unfold Checked.cover at hLacks
    rw [if_pos hAll] at hLacks
    cases hLabel with
    | absent =>
        have hAbsent : (Plan.test (.isSome .scrutinee)).Misses exact .none :=
          Plan.misses_leaf trivial rfl
        exact Plan.misses_all (hAbsent.cons _)
    | present w => exact absurd (List.mem_singleton_self _) hLacks
  faultFree := by
    intro hIs inside
    refine Plan.faultFree_some ?_ (fun _ => rfl) fun w hw _ =>
      hCalm hIs w hw inside
    cases hLabel with
    | absent => exact .inl rfl
    | present w => exact .inr ⟨w, rfl⟩

/-
  At an optional, what lacks the label of a value is absent
  where the value is present, or the other way round.
-/
theorem Pattern.Flat.rejects_optional
    {id : SchemaId}
    (hs : r.Settled)
    (hId : id < r.pool.size)
    (hKind : (r.pool.get id).structuralKind = .optional)
    {label : String}
    (hLabel : OptionalLabel v label)
    (hPart :
      ∀ p, part p → p.isIrrefutable = true ∧ (calm → p.Unasking))
    {p : Pattern}
    (h : p.Flat s part)
    (hExact : exact → p.guards = [])
    {q : Checked}
    (hAccepted : AcceptedSince ctx r p id q) :
    q.Rejects (Checked.cover (r.pool.get id)) exact calm o v .scrutinee
      label := by
  have hReference : (r.pool.get id).isReference = false :=
    Schema.isReference_of_structuralKind hKind (by decide)
  have hCovered : label ∈ (r.pool.get id).coverLabels := by
    unfold Schema.coverLabels Schema.caseLabels
    rw [hKind]
    cases hLabel <;> simp
  have hNone :
      ∀ span, (Checked.literal span .none).Rejects
        (Checked.cover (r.pool.get id)) exact calm o v .scrutinee label := by
    intro span
    cases hLabel with
    | absent =>
        exact Checked.rejects_literal (fun _ => rfl) rfl
          fun _ => List.mem_singleton_self _
    | present w =>
        exact Checked.rejects_literal (fun _ => rfl) rfl nofun
  refine h.rejects hs hId (Checked.gathers_cover _) (fun _ => rfl)
    (fun p q hFlat hNode _ hAt => ?_) hExact hAccepted
  rcases hAt with ⟨s₁, s₂, hLater, hAccepts⟩
  have hSame : s₁.pool.get id = r.pool.get id :=
    (hLater.settled hs).2.pool.get_eq hId
  cases hFlat with
  | wildcard span =>
      cases hAccepts
      exact Checked.rejects_wildcard hCovered
  | literal span l =>
      cases hAccepts with
      | @literal _ _ _ _ meaning hMeaning =>
          have hCases := SchemaPool.cases_of_checkLiteral hMeaning
          rw [hSame, hKind, hReference] at hCases
          have hIs : meaning = .none := by simpa using hCases
          rw [hIs]
          exact hNone span
  | constructor span hTarget hDisc hFields hArgs =>
      cases hAccepts with
      | some _ _ hInner =>
          rcases hPart _ (hArgs _ List.mem_cons_self) with
            ⟨hAll, hUnasking⟩
          refine Checked.rejects_some hLabel (hInner.isCatchAll hAll) ?_ span
          rintro hIs w rfl inside
          exact (hUnasking hIs).faultFree hInner
            (Access.Reads.payload fun _ => rfl) inside
      | someUnknown =>
          exact Checked.rejects_some hLabel rfl
            (fun _ _ _ _ => Plan.faultFree_always) span
      | none => exact hNone span
      | object hObject =>
          rw [hSame, hKind] at hObject
          rcases hObject with hObject | hObject <;> cases hObject
  | bind | named | alt | guarded => exact hNode.elim

end MatchCompiler
