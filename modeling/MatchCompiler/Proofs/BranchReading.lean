import MatchCompiler.Proofs.AcceptedUses
import MatchCompiler.Proofs.PartReading

/-
  This file shows which fields the parts of an object pattern
  read.

  A part reads the discriminator, a field that all branches
  share, or a field that every pinned branch declares. The
  tests before it hold only of objects in a pinned branch, if
  the branches have the numbers that the discriminator's type
  gives to their labels; so the field is there to be read.

  Key definitions include:
    * `ObjectChecked`
    * `ObjectAccepted`
    * `SchemaPool.Labels`
    * `Value.IsLabelled`
    * `Value.Carries`

  Key theorems include:
    * `Pattern.exists_objectChecked`
    * `ObjectAccepted.mem_pinned`
    * `objectParts_read`
-/

------------------------------------------------------------
-- Checked Object Patterns
------------------------------------------------------------

namespace MatchCompiler

/- A part is accepted at its slot, from a registry on. -/
def AcceptedPart
    (ctx : CheckContext)
    (r : Registry)
    (t : Progress)
    {α : Type}
    (part : α × SchemaId × Pattern)
    (q : α × Checked) : Prop :=
  q.1 = part.1 ∧ AcceptedBetween ctx r t part.2.2 part.2.1 q.2

/-
  What is known of an object pattern that has been checked
  without a problem. Its head was understood with a settled
  registry, and its parts were accepted from there on, that
  for the discriminator first.
-/
structure ObjectChecked
    (ctx : CheckContext)
    (r : Registry)
    (t : Progress)
    (target : Schema)
    (span : Span)
    (fields : List (FieldName × Pattern))
    (args : List Pattern)
    (head : ObjectHead)
    (fromCase : Option (List Member))
    (disc rest : List (FieldRead × Checked)) : Prop where
  settled : r.Settled
  later : r.Later t.registry
  slot_lt : head.schema < r.pool.size
  schema : r.pool.get head.schema = target
  named :
    ∃ caseName : Option String,
      caseName.mapM (fun c => target.pinCase ctx.marker c span) =
        .ok fromCase
  pin :
    head.pin = fromCase.map fun labels =>
      { discriminator := target.discriminatorName, labels }
  discParts :
    List.Forall₂ (AcceptedPart ctx r t)
      (target.discriminatorParts fields) disc
  restParts :
    List.Forall₂ (AcceptedPart ctx r t)
      (target.namedParts (target.pinnedBy fromCase disc) fields ++
        target.unnamedParts (target.pinnedBy fromCase disc) args) rest
  readable :
    ∀ f ∈ fields, target.isDiscriminator f.1.name = false →
      ∃ g, target.readable (target.pinnedBy fromCase disc) f.1.name
        f.1.span = .ok g

/- An object pattern that is checked without a problem. -/
theorem Pattern.exists_objectChecked
    {ctx : CheckContext}
    {span span' : Span}
    {h : ConstructorHead}
    {fields : List (FieldName × Pattern)}
    {args : List Pattern}
    {id : SchemaId}
    {s s' : CheckState}
    {head : ObjectHead}
    {parts : List (FieldRead × Checked)}
    (hCheck :
      ((Pattern.constructor span h fields args).check ctx id).run s =
        (.object span' head parts, s'))
    (hProblems : s'.problems = s.problems)
    (hSettled : s.registry.Settled)
    (hSlot : id < s.registry.pool.size) :
    ∃ r target fromCase disc rest,
      s.registry.Later r ∧
      parts = disc ++ rest ∧
      ObjectChecked ctx r s'.progress target span fields args head fromCase
        disc rest := by
  have hOutcome :=
    (Pattern.sound_constructor span h (R := AcceptedOutcome ctx)
      (fun f _ => f.2.sound_check) (fun p _ => p.sound_check) id).of_run
      hCheck hProblems
  cases hOutcome with
  | @object _ _ resolved target fromCase disc rest s₁ s₂ s₃ _ hHead hSchema
      hCase hDisc hRest hReadable hArgs =>
      have hs₁ := (hHead.later.settled hSettled).1
      have hTarget := hHead.target_within hSettled
      rw [hSchema] at hTarget
      have hDiscSlots := hTarget.discriminatorParts fields
      have hLater₂ := hDisc.accepts.1.later hs₁ hDiscSlots
      rcases hLater₂.settled hs₁ with ⟨hs₂, hGrows⟩
      have hRestSlots :=
        (hTarget.mono hGrows.pool.size_le).otherParts
          (target.pinnedBy fromCase disc) fields args
      have hLater₃ := hRest.accepts.1.later hs₂ hRestSlots
      refine ⟨s₁.registry, target, fromCase, disc, rest, hHead.later, rfl,
        hs₁, hLater₂.trans hLater₃, hHead.target_lt hSettled hSlot,
        hSchema, ⟨_, hCase⟩, rfl, ?_, ?_, hReadable⟩
      · exact hDisc.acceptedBetween hs₁ hDiscSlots hRest.accepts.2
      · have hParts := hRest.acceptedBetween hs₂ hRestSlots
          s'.progress.grows_refl
        refine hParts.imp fun part q hPart => ⟨hPart.1, ?_⟩
        exact hPart.2.of_later hLater₂

end MatchCompiler

------------------------------------------------------------
-- The Label Of An Object
------------------------------------------------------------

namespace MatchCompiler

/-
  The branches of a schema have labels of the discriminator's
  type, with the numbers that they have there, and different
  labels have different numbers.
-/
structure SchemaPool.Labels
    (p : SchemaPool)
    (s : Schema)
    (d : Discriminator)
    (ms : List Member) : Prop where
  field : s.discriminator = some d
  members : (p.get d.schema).ListsMembers ms
  ordinals : (ms.map Member.ordinal).Nodup
  branches : ∀ b ∈ s.branches, ⟨b.label, b.ordinal⟩ ∈ ms

/- Labels are there later if they were there before. -/
theorem Registry.Later.labels_iff
    {r r' : Registry}
    (hLater : r.Later r')
    (hs : r.Settled)
    {s : Schema}
    (hSlots : s.Within r.pool.size)
    {d : Discriminator}
    {ms : List Member} :
    r'.pool.Labels s d ms ↔ r.pool.Labels s d ms := by
  have hSame : s.discriminator = some d →
      r'.pool.get d.schema = r.pool.get d.schema := fun hField =>
    (hLater.settled hs).2.pool.get_eq (hSlots.discriminator d hField)
  exact ⟨fun h => { h with members := hSame h.field ▸ h.members },
    fun h => { h with members := (hSame h.field).symm ▸ h.members }⟩

/- The discriminator of an object has a label. -/
def Value.IsLabelled
    (v : Value)
    (d : Discriminator)
    (m : Member) : Prop :=
  ∃ w, v.field? d.field = Option.some w ∧ w.tag? = Option.some m

/-
  An object has the fields that all branches share, and those
  of the branches with a label.
-/
structure Value.Carries
    (v : Value)
    (s : Schema)
    (label : String) : Prop where
  shared : ∀ f ∈ s.fields, (v.field? f.name).isSome = true
  branch :
    ∀ b ∈ s.branches, b.label = label →
      ∀ f ∈ b.fields, (v.field? f.name).isSome = true

/- A field of an owner is carried. -/
theorem Value.Carries.of_owners
    {v : Value}
    {s : Schema}
    {label name : String}
    (h : v.Carries s label)
    (hOwner : label ∈ s.owners name) :
    (v.field? name).isSome = true := by
  rcases List.mem_map.mp hOwner with ⟨b, hb, hLabel⟩
  rcases List.mem_filter.mp hb with ⟨hMem, hField⟩
  rcases Option.isSome_iff_exists.mp hField with ⟨f, hf⟩
  have hName : f.name = name := by
    simpa using List.find?_some hf
  rw [← hName]
  exact h.branch b hMem hLabel f (List.mem_of_find?_eq_some hf)

/-
  A pattern that is accepted at a labelled type, and that
  might match a value, allows the label of the value.
-/
theorem AcceptedSince.allowsLabel
    {ctx : CheckContext}
    {r : Registry}
    (hs : r.Settled)
    {slot : SchemaId}
    (hSlot : slot < r.pool.size)
    {ms : List Member}
    (hMembers : (r.pool.get slot).ListsMembers ms)
    (hOrdinals : (ms.map Member.ordinal).Nodup)
    {w : Value}
    {m : Member}
    (hTag : w.tag? = some m)
    (hListed : m ∈ ms)
    {o : LoweringOptions}
    {root : Value}
    {a : Access}
    (hRead : a.Reads root w)
    {p : Pattern}
    {q : Checked}
    (h : AcceptedSince ctx r p slot q)
    (s : Schema) :
    q.AllowsLabel s o root a m.name := by
  apply Checked.MadeOf.allowsLabel
  refine h.madeOf hs hSlot fun p' q' hAccepted hNode => ?_
  rcases hAccepted with ⟨s₁, s₂, hLater, hAccepts⟩
  have hSame : s₁.pool.get slot = r.pool.get slot :=
    (hLater.settled hs).2.pool.get_eq hSlot
  rw [← hSame] at hMembers
  exact hAccepts.allowsLabel hNode hMembers hOrdinals hTag hListed hRead s

/-
  What is known of an accepted object pattern from the moment
  on when its head has been understood.
-/
structure ObjectAccepted
    (ctx : CheckContext)
    (r : Registry)
    (target : Schema)
    (span : Span)
    (fields : List (FieldName × Pattern))
    (args : List Pattern)
    (head : ObjectHead)
    (fromCase : Option (List Member))
    (disc rest : List (FieldRead × Checked)) : Prop where
  settled : r.Settled
  within : target.Within r.pool.size
  named :
    ∃ caseName : Option String,
      caseName.mapM (fun c => target.pinCase ctx.marker c span) =
        .ok fromCase
  pin :
    head.pin = fromCase.map fun labels =>
      { discriminator := target.discriminatorName, labels }
  discParts :
    List.Forall₂
      (fun part q => q.1 = part.1 ∧
        AcceptedSince ctx r part.2.2 part.2.1 q.2)
      (target.discriminatorParts fields) disc
  restParts :
    List.Forall₂
      (fun part q => q.1 = part.1 ∧
        AcceptedSince ctx r part.2.2 part.2.1 q.2)
      (target.namedParts (target.pinnedBy fromCase disc) fields ++
        target.unnamedParts (target.pinnedBy fromCase disc) args) rest

namespace ObjectAccepted

variable {ctx : CheckContext}
variable {r : Registry}
variable {target : Schema}
variable {span : Span}
variable {fields : List (FieldName × Pattern)}
variable {args : List Pattern}
variable {head : ObjectHead}
variable {fromCase : Option (List Member)}
variable {disc rest : List (FieldRead × Checked)}
variable {d : Discriminator}
variable {ms : List Member}

/- An accepted object pattern is one, once its head is understood. -/
theorem of_accepts
    {s s₁ s₂ : Progress}
    (hs : s.registry.Settled)
    (hTarget : target.Within s.pool.size)
    {caseName : Option String}
    (hCase :
      caseName.mapM (fun c => target.pinCase ctx.marker c span) =
        .ok fromCase)
    (hPin :
      head.pin = fromCase.map fun labels =>
        { discriminator := target.discriminatorName, labels })
    (hDisc : AcceptsAll ctx (target.discriminatorParts fields) s disc s₁)
    (hRest :
      AcceptsAll ctx
        (target.namedParts (target.pinnedBy fromCase disc) fields ++
          target.unnamedParts (target.pinnedBy fromCase disc) args)
        s₁ rest s₂) :
    ObjectAccepted ctx s.registry target span fields args head fromCase
      disc rest where
  settled := hs
  within := hTarget
  named := ⟨caseName, hCase⟩
  pin := hPin
  discParts := hDisc.acceptedSince hs (hTarget.discriminatorParts fields)
  restParts := by
    have hLater := hDisc.later hs (hTarget.discriminatorParts fields)
    rcases hLater.settled hs with ⟨hs₁, hGrows⟩
    have hParts := hRest.acceptedSince hs₁
      ((hTarget.mono hGrows.pool.size_le).otherParts
        (target.pinnedBy fromCase disc) fields args)
    exact hParts.imp fun part q hPart =>
      ⟨hPart.1, hPart.2.of_later hLater⟩

/- The first parts read the discriminator, at its type. -/
theorem exists_discriminator
    (h : ObjectAccepted ctx r target span fields args head fromCase disc
      rest)
    {f : FieldRead × Checked}
    (hf : f ∈ disc) :
    ∃ d p, target.discriminator = some d ∧ f.1.name = d.field ∧
      AcceptedSince ctx r p d.schema f.2 := by
  rcases exists_counterpart h.discParts hf with
    ⟨part, hPart, hRead, hAccepted⟩
  rcases Schema.exists_discriminator_of_mem hPart with
    ⟨d, hd, hName, hSlot⟩
  rw [hSlot] at hAccepted
  exact ⟨d, _, hd, by rw [hRead, hName], hAccepted⟩

/- The others read fields that are shared or pinned. -/
theorem exists_partField
    (h : ObjectAccepted ctx r target span fields args head fromCase disc
      rest)
    {f : FieldRead × Checked}
    (hf : f ∈ rest) :
    ∃ g, f.1 = g.read ∧
      target.PartField (target.pinnedBy fromCase disc) g := by
  rcases exists_counterpart h.restParts hf with ⟨part, hPart, hRead, -⟩
  rcases Schema.partField_of_mem hPart with ⟨g, hSame, -, hField⟩
  exact ⟨g, by rw [hRead, hSame], hField⟩

/-
  A case name pins one branch, and the test for it compares
  its number with that of the object.
-/
theorem pin_holds
    (h : ObjectAccepted ctx r target span fields args head fromCase disc
      rest)
    (hLabels : r.pool.Labels target d ms)
    {v : Value}
    {m : Member}
    (hLabelled : v.IsLabelled d m)
    {p : Pin}
    (hPin : head.pin = some p) :
    ∃ k ∈ ms, fromCase = some [k] ∧ p.labels = [k] ∧
      p.holds v = .ok (k.ordinal == m.ordinal) := by
  rcases hLabelled with ⟨w, hField, hTag⟩
  rw [h.pin] at hPin
  rcases Option.map_eq_some_iff.mp hPin with ⟨labels, rfl, rfl⟩
  rcases h.named with ⟨caseName, hCase⟩
  rcases Schema.exists_pinCase hCase with ⟨c, hOne⟩
  rcases Schema.eq_of_pinCase hOne with ⟨b, hb, rfl⟩
  have hName : target.discriminatorName = d.field := by
    unfold Schema.discriminatorName
    rw [hLabels.field]
    rfl
  exact ⟨_, hLabels.branches b (List.mem_of_find?_eq_some hb), rfl, rfl,
    Pin.holds_of_tag? hField hTag hName rfl⟩

/-
  If the test for a pinned branch and the discriminator
  pattern might hold of an object, the label of the object is
  among the pinned ones.
-/
theorem mem_pinned
    (h : ObjectAccepted ctx r target span fields args head fromCase disc
      rest)
    (hLabels : r.pool.Labels target d ms)
    {v : Value}
    {m : Member}
    (hLabelled : v.IsLabelled d m)
    (hListed : m ∈ ms)
    {o : LoweringOptions}
    {root : Value}
    {a : Access}
    (hRead : a.Reads root v)
    {inside : Bool}
    (hPin :
      ∀ p, head.pin = some p → (Lowered.pin a p).Might root true)
    (hParts :
      ∀ f ∈ disc,
        (f.2.plan o inside (.field a f.1.name)).Might root true)
    {labels : List Member}
    (hPinned : target.pinnedBy fromCase disc = some labels) :
    m.name ∈ labels.map Member.name := by
  have hSlot : d.schema < r.pool.size :=
    h.within.discriminator d hLabels.field
  apply Schema.mem_pinnedBy _ _ hPinned
  · rintro named rfl
    rcases h.pin_holds hLabels hLabelled h.pin with
      ⟨k, hk, hOne, -, hHolds⟩
    cases hOne
    have hTrue := Test.eq_of_might (Lowered.isLeaf_pin a _)
      (fun c => (Lowered.reading_pin (hRead c) _).trans hHolds)
      (hPin _ h.pin)
    rw [eq_of_ordinals_nodup hLabels.ordinals hListed hk
      (beq_iff_eq.mp hTrue.symm).symm]
    exact List.mem_cons_self
  · intro f hf own hOwn
    rcases hLabelled with ⟨w, hField, hTag⟩
    rcases h.exists_discriminator hf with ⟨d', p, hd', hReads, hAccepted⟩
    cases hLabels.field.symm.trans hd'
    have hFieldRead : (Access.field a f.1.name).Reads root w :=
      hRead.field (hReads ▸ hField)
    exact hAccepted.allowsLabel h.settled hSlot hLabels.members
      hLabels.ordinals hTag hListed hFieldRead target own hOwn inside
      (hParts f hf)

/-
  If the tests for the branch might hold of an object, the
  parts after them read what its branch has.
-/
theorem reads_of_might
    (h : ObjectAccepted ctx r target span fields args head fromCase disc
      rest)
    (hLabels : r.pool.Labels target d ms)
    {v : Value}
    {m : Member}
    (hLabelled : v.IsLabelled d m)
    (hListed : m ∈ ms)
    {o : LoweringOptions}
    {root : Value}
    {a : Access}
    (hRead : a.Reads root v)
    {inside : Bool}
    (hPin :
      ∀ p, head.pin = some p → (Lowered.pin a p).Might root true)
    (hParts :
      ∀ f ∈ disc,
        (f.2.plan o inside (.field a f.1.name)).Might root true)
    {f : FieldRead × Checked}
    (hf : f ∈ rest) :
    f.1.name ∈ target.fields.map Field.name ∨
      m.name ∈ target.owners f.1.name := by
  rcases h.exists_partField hf with ⟨g, hSame, hField⟩
  rw [hSame]
  cases hField with
  | shared hShared => exact .inl (List.mem_map_of_mem hShared)
  | branch hPinned _ _ _ hOwners =>
      have hName := h.mem_pinned hLabels hLabelled hListed hRead hPin
        hParts hPinned
      rcases List.mem_map.mp hName with ⟨l, hl, hLabel⟩
      rw [← hLabel]
      exact .inr (hOwners l hl)

end ObjectAccepted

namespace ObjectChecked

variable {ctx : CheckContext}
variable {r : Registry}
variable {t : Progress}
variable {target : Schema}
variable {span : Span}
variable {fields : List (FieldName × Pattern)}
variable {args : List Pattern}
variable {head : ObjectHead}
variable {fromCase : Option (List Member)}
variable {disc rest : List (FieldRead × Checked)}
variable {d : Discriminator}
variable {ms : List Member}

/- The schema of the object is the same when all is checked. -/
theorem get_eq
    (h : ObjectChecked ctx r t target span fields args head fromCase disc
      rest) :
    t.pool.get head.schema = target := by
  rw [← h.schema]
  exact (h.later.settled h.settled).2.pool.get_eq h.slot_lt

/- What is checked without a problem is accepted. -/
theorem accepted
    (h : ObjectChecked ctx r t target span fields args head fromCase disc
      rest) :
    ObjectAccepted ctx r target span fields args head fromCase disc
      rest where
  settled := h.settled
  within := by
    rw [← h.schema]
    exact h.settled.closed.pool.slots head.schema
  named := h.named
  pin := h.pin
  discParts := h.discParts.imp fun _ _ hPart => ⟨hPart.1, hPart.2.since⟩
  restParts := h.restParts.imp fun _ _ hPart => ⟨hPart.1, hPart.2.since⟩

/- The labels are the same when the head is understood. -/
theorem labels
    (h : ObjectChecked ctx r t target span fields args head fromCase disc
      rest)
    (hLabels : t.pool.Labels target d ms) :
    r.pool.Labels target d ms :=
  (h.later.labels_iff h.settled h.accepted.within).mp hLabels

/- All parts are regular patterns. -/
theorem regular
    (h : ObjectChecked ctx r t target span fields args head fromCase disc
      rest)
    {f : FieldRead × Checked}
    (hf : f ∈ disc ++ rest) :
    f.2.Regular := by
  have hEach :
      ∀ {parts : List (FieldRead × SchemaId × Pattern)}
        {qs : List (FieldRead × Checked)},
        List.Forall₂ (AcceptedPart ctx r t) parts qs → f ∈ qs →
        f.2.Regular := by
    intro parts qs hParts hMem
    rcases exists_counterpart hParts hMem with
      ⟨part, -, -, s, s', -, hAccepts, -⟩
    exact hAccepts.regular
  rcases List.mem_append.mp hf with hf | hf
  · exact hEach h.discParts hf
  · exact hEach h.restParts hf

end ObjectChecked

end MatchCompiler

------------------------------------------------------------
-- Parts That Are Read
------------------------------------------------------------

namespace MatchCompiler

/- What all of some tests answer with, each of them might. -/
theorem Test.might_of_evalAll
    {σ : Type}
    {host : GuardHost σ}
    {root : Value}
    {bindings : AccessBindings}
    {ts : List Test}
    {c : Choices}
    {k : σ}
    (h : (Test.evalAll host root bindings ts (c, k)).1 = .ok true) :
    ∀ t ∈ ts, t.Might root true := by
  rcases hRun : Test.evalAll host root bindings ts (c, k) with
    ⟨b, c', k'⟩
  rw [hRun] at h
  cases h
  have hEnd := canEndWhile_of_evalAll
    (fun t _ => canEnd_of_eval host.within_any t) hRun
  rcases mightWhile_of_canEndWhile (fun t _ => might_of_canEnd) hEnd with
    ⟨-, hAll⟩ | ⟨hNe, -⟩
  · exact hAll
  · exact absurd rfl hNe

/- What lowered fields answer with, their plans might. -/
theorem Checked.might_of_lowerFields
    {o : LoweringOptions}
    {inside : Bool}
    {a : Access}
    {fs : List (FieldRead × Checked)}
    (hRegular : ∀ f ∈ fs, f.2.Regular)
    {root : Value}
    (st : LoweringState)
    (h :
      ∀ t ∈ ((Checked.lowerFields o fs inside a).run st).1.map
        Lowered.test, t.Might root true) :
    ∀ f ∈ fs, (f.2.plan o inside (.field a f.1.name)).Might root true := by
  have hLowers :
      LowersTo (lowerFields o fs inside a)
        (askedLast inside (outerGuardsOfFields fs))
        (Plan.lowerAll o (planFields o inside fs a)) :=
    lowersTo_fields (fun f hf => lower_eq o (hRegular f hf)) a
  rw [hLowers st] at h
  rcases Plan.exists_of_lowerAll (fun _ _ => Plan.might_of_lower)
      (.inl ⟨rfl, h⟩) with ⟨-, hAll⟩ | ⟨hNe, -⟩
  · exact fun f hf => hAll _ (mem_planFields.mpr ⟨f, hf, rfl⟩)
  · exact absurd rfl hNe

/- What is not among the first parts comes after all of them. -/
theorem subset_of_concat_isPrefix
    {α : Type}
    {before disc rest : List α}
    {f : α}
    (hPart : before ++ [f] <+: disc ++ rest)
    (hLater : f ∉ disc) :
    disc ⊆ before := by
  rcases List.prefix_or_prefix_of_prefix hPart
      (List.prefix_append disc rest) with hIn | hIn
  · exact absurd (hIn.subset (by simp)) hLater
  · rcases List.prefix_concat_iff.mp hIn with rfl | hIn
    · exact absurd (by simp) hLater
    · exact hIn.subset

/-
  A part of an object pattern that is checked without a
  problem is reached once the tests before it hold. It reads
  the discriminator, a field that all branches share, or a
  field of a branch with the label of the object; so it finds
  the field in an object that has those of its branch.
-/
theorem objectParts_read
    {ctx : CheckContext}
    {span span' : Span}
    {h : ConstructorHead}
    {fields : List (FieldName × Pattern)}
    {args : List Pattern}
    {id : SchemaId}
    {s s' : CheckState}
    {head : ObjectHead}
    {parts : List (FieldRead × Checked)}
    (hCheck :
      ((Pattern.constructor span h fields args).check ctx id).run s =
        (.object span' head parts, s'))
    (hProblems : s'.problems = s.problems)
    (hSettled : s.registry.Settled)
    (hSlot : id < s.registry.pool.size)
    {d : Discriminator}
    {ms : List Member}
    (hLabels :
      s'.registry.pool.Labels (s'.registry.pool.get head.schema) d ms)
    {before done : List (FieldRead × Checked)}
    {f : FieldRead × Checked}
    (hPart : before ++ [f] <+: parts)
    (hBefore : before <+: done)
    (hDone : done <+: parts)
    {v : Value}
    {m : Member}
    (hLabelled : v.IsLabelled d m)
    (hListed : m ∈ ms)
    {o : LoweringOptions}
    {inside : Bool}
    {a : Access}
    {st : LoweringState}
    {σ : Type}
    {host : GuardHost σ}
    {root : Value}
    {bindings : AccessBindings}
    {c : Choices}
    {k : σ}
    (hRead : a.Reads root v)
    (hHolds :
      (Test.evalAll host root bindings
        (Lowered.objectTests a head ++
          ((Checked.lowerFields o done inside a).run st).1.map
            Lowered.test) (c, k)).1 = .ok true) :
    (f.1.name = d.field ∨
      f.1.name ∈ (s'.registry.pool.get head.schema).fields.map
        Field.name ∨
      m.name ∈ (s'.registry.pool.get head.schema).owners f.1.name) ∧
    (v.Carries (s'.registry.pool.get head.schema) m.name →
      ∃ x, (Access.field a f.1.name).Reads root x) := by
  rcases Pattern.exists_objectChecked hCheck hProblems hSettled hSlot with
    ⟨r, target, fromCase, disc, rest, -, rfl, hObject⟩
  have hTarget : s'.registry.pool.get head.schema = target :=
    hObject.get_eq
  rw [hTarget] at hLabels ⊢
  have hReads :
      f.1.name = d.field ∨
        f.1.name ∈ target.fields.map Field.name ∨
        m.name ∈ target.owners f.1.name := by
    by_cases hFirst : f ∈ disc
    · rcases hObject.accepted.exists_discriminator hFirst with
        ⟨d', -, hd', hName, -⟩
      cases hLabels.field.symm.trans hd'
      exact .inl hName
    · have hMem : f ∈ disc ++ rest :=
        hPart.subset (List.mem_append_right _ List.mem_cons_self)
      have hRest := (List.mem_append.mp hMem).resolve_left hFirst
      have hDisc : disc ⊆ done :=
        List.Subset.trans (subset_of_concat_isPrefix hPart hFirst)
          hBefore.subset
      have hMights := Test.might_of_evalAll hHolds
      rw [List.forall_mem_append] at hMights
      have hPlans := Checked.might_of_lowerFields
        (fun f hf => hObject.regular (hDone.subset hf)) st hMights.2
      refine .inr (hObject.accepted.reads_of_might
        (hObject.labels hLabels) hLabelled hListed hRead
        (fun p hp => ?_) (fun f hf => hPlans f (hDisc hf)) hRest)
      exact hMights.1 _
        (Lowered.mem_objectTests.mpr (.inr (.inr ⟨p, hp, rfl⟩)))
  refine ⟨hReads, fun hCarries => ?_⟩
  have hField : (v.field? f.1.name).isSome = true := by
    rcases hReads with hName | hShared | hOwner
    · rcases hLabelled with ⟨w, hw, -⟩
      rw [hName, hw]
      rfl
    · rcases List.mem_map.mp hShared with ⟨g, hg, hName⟩
      rw [← hName]
      exact hCarries.shared g hg
    · exact hCarries.of_owners hOwner
  rcases Option.isSome_iff_exists.mp hField with ⟨x, hx⟩
  exact ⟨x, hRead.field hx⟩

/- A union whose branches may declare a field differently. -/
def mixedNodes (kind : Primitive) : TypeTable :=
  { descriptors :=
      #[{ name := "Kind", shape := .enumeration [⟨"A", 0⟩, ⟨"B", 1⟩] },
        { name := "int", shape := .primitive .i64 },
        { name := "other", shape := .primitive kind },
        { name := "Node"
          shape := .object
            { variant := some
                { discriminator := { name := "kind", type := .described 0 }
                  branches :=
                    [{ selector := .labels ["A"]
                       fields := [{ name := "x", type := .described 1 }] },
                     { selector := .labels ["B"]
                       fields :=
                         [{ name := "x", type := .described 2 }] }] } } }] }

/- The schemas of the union, and of the types it mentions. -/
def mixedNodeSchemas (kind : Primitive) : Registry :=
  { pool :=
      { schemas :=
          #[{ kind := .union
              name := "Node"
              fields := [{ name := "kind", schema := 1, position := 0 }]
              branches :=
                [{ label := "A"
                   ordinal := 0
                   fields := [{ name := "x", schema := 2, position := 1 }] },
                 { label := "B"
                   ordinal := 1
                   fields := [{ name := "x", schema := 3, position := 1 }] }]
              discriminator := some ⟨"kind", 1⟩
              descriptor := some 3 },
            { kind := .enumeration
              name := "Kind"
              members := [⟨"A", 0⟩, ⟨"B", 1⟩]
              descriptor := some 0 },
            { Schema.ofPrimitive .i64 "int" with descriptor := some 1 },
            { Schema.ofPrimitive kind "other" with descriptor := some 2 }] }
    cache := [(⟨2, []⟩, 3), (⟨1, []⟩, 2), (⟨0, []⟩, 1), (⟨3, []⟩, 0)]
    parametric := [(2, false), (1, false), (0, false), (3, false)]
    misses := 4 }

theorem mixedNodeSchemas_eq
    (kind : Primitive) :
    mixedNodeSchemas kind =
      (Registry.schemaOf {} (mixedNodes kind) 3).1 := by
  cases kind <;> decide +kernel

theorem mixedNodeSchemas_later
    (kind : Primitive) :
    Registry.Later {} (mixedNodeSchemas kind) := by
  rw [mixedNodeSchemas_eq]
  exact .single ⟨_, Registry.use_schemaOf {} (mixedNodes kind) 3⟩

/- The pattern of a field of one branch, and what it becomes. -/
def oneBranchPattern : Pattern :=
  .constructor {} { caseName := some "A" } [(⟨"x", {}⟩, .bind {} "n")] []

def oneBranchHead : ObjectHead :=
  { schema := 0
    nilCheck := false
    runtimeType := none
    pin := some ⟨"kind", [⟨"A", 0⟩]⟩ }

def oneBranchPart : FieldRead × Checked :=
  (⟨"x", 1⟩, .bind {} "n" (.wildcard {}))

/- The field is there when the test for the branch holds. -/
theorem oneBranchPattern_reads :
    ∃ x, (Access.field .scrutinee "x").Reads
      (.object ["Node"] [("kind", .member "A" 0), ("x", .int 5)]) x := by
  have hCheck :
      (oneBranchPattern.check
          { table := mixedNodes .str, marker := 'k' } 0).run
        { registry := mixedNodeSchemas .str } =
      (.object {} oneBranchHead [oneBranchPart],
        { registry := mixedNodeSchemas .str
          bindings := [⟨"n", 2, {}⟩] }) :=
    rfl
  have hLabels :
      (mixedNodeSchemas .str).pool.Labels
        ((mixedNodeSchemas .str).pool.get 0) ⟨"kind", 1⟩
        [⟨"A", 0⟩, ⟨"B", 1⟩] :=
    ⟨rfl, .inl ⟨rfl, rfl⟩, by decide, by decide⟩
  have hLabelled :
      (Value.object ["Node"] [("kind", .member "A" 0), ("x", .int 5)])
        |>.IsLabelled ⟨"kind", 1⟩ ⟨"A", 0⟩ :=
    ⟨.member "A" 0, rfl, rfl⟩
  have hHolds :
      (Test.evalAll (fun _ _ => pure true : GuardHost Unit)
        (.object ["Node"] [("kind", .member "A" 0), ("x", .int 5)]) []
        (Lowered.objectTests .scrutinee oneBranchHead ++
          ((Checked.lowerFields {} [] false .scrutinee).run {}).1.map
            Lowered.test) (.empty, ())).1 = .ok true :=
    rfl
  have hPart : [] ++ [oneBranchPart] <+: [oneBranchPart] :=
    List.prefix_refl _
  have hSettled : (mixedNodeSchemas .str).Settled :=
    ((mixedNodeSchemas_later .str).settled (Registry.settled_fresh 'k')).1
  have hReads := objectParts_read hCheck rfl hSettled (by decide)
    hLabels hPart List.nil_prefix List.nil_prefix hLabelled
    List.mem_cons_self (fun _ => rfl) hHolds
  exact hReads.2 ⟨by decide, by decide⟩

/-
  A union whose discriminator has a type that is an instance
  for the union itself.
-/
def circularNodes : TypeTable :=
  { descriptors :=
      #[{ name := "Tag"
          params := 1
          shape := .enumeration [⟨"A", 0⟩, ⟨"B", 1⟩] },
        { name := "int", shape := .primitive .i64 },
        { name := "Kind", shape := .alias (.described 3) },
        { name := "KindOf", shape := .generic 0 [.described 4] },
        { name := "Node"
          shape := .object
            { variant := some
                { discriminator := { name := "kind", type := .described 2 }
                  branches :=
                    [{ selector := .labels ["B"]
                       fields := [{ name := "x", type := .described 1 }] },
                     { selector := .labels ["A"], fields := [] }] } } }] }

/-
  The schemas when the type of the discriminator comes first.
  Its slot is not filled when the branches are numbered.
-/
def circularNodeSchemas : Registry :=
  { pool :=
      { schemas :=
          #[{ kind := .enumeration
              name := "Tag[Node]"
              aliasName := some "Kind"
              flags := { aliased := true }
              members := [⟨"A", 0⟩, ⟨"B", 1⟩]
              target := some 3
              descriptor := some 2 },
            { kind := .union
              name := "Node"
              fields := [{ name := "kind", schema := 0, position := 0 }]
              branches :=
                [{ label := "B"
                   ordinal := 0
                   fields := [{ name := "x", schema := 2, position := 1 }] },
                 { label := "A", ordinal := 1, fields := [] }]
              discriminator := some ⟨"kind", 0⟩
              descriptor := some 4 },
            { Schema.ofPrimitive .i64 "int" with descriptor := some 1 },
            { kind := .enumeration
              name := "Tag[Node]"
              members := [⟨"A", 0⟩, ⟨"B", 1⟩]
              descriptor := some 0 }] }
    cache :=
      [(⟨3, []⟩, 3), (⟨0, [1]⟩, 3), (⟨1, []⟩, 2), (⟨4, []⟩, 1),
        (⟨2, []⟩, 0)]
    parametric :=
      [(0, true), (1, false), (4, false), (3, false), (2, false)]
    hits := 1
    misses := 5 }

/- An object without the field passes the test before it. -/
theorem circularNode_misread :
    circularNodeSchemas = (Registry.schemaOf {} circularNodes 2).1 ∧
    ∃ head part s',
      ((Pattern.constructor {} { caseName := some "B" }
        [(⟨"x", {}⟩, .bind {} "n")] []).check
          { table := circularNodes, marker := 'k' } 1).run
          { registry := circularNodeSchemas } =
        (.object {} head [part], s') ∧
      s'.problems = [] ∧
      part.1.name = "x" ∧
      (Value.object ["Node"] [("kind", .member "A" 0)]).IsLabelled
        ⟨"kind", 0⟩ ⟨"A", 0⟩ ∧
      (Value.object ["Node"] [("kind", .member "A" 0)]).Carries
        (circularNodeSchemas.pool.get 1) "A" ∧
      (Test.evalAll (fun _ _ => pure true : GuardHost Unit)
        (.object ["Node"] [("kind", .member "A" 0)]) []
        (Lowered.objectTests .scrutinee head) (.empty, ())).1 = .ok true ∧
      ¬ ∃ x, (Access.field .scrutinee "x").Reads
        (.object ["Node"] [("kind", .member "A" 0)]) x := by
  refine ⟨by decide +kernel, ?_⟩
  refine ⟨
    { schema := 1
      nilCheck := false
      runtimeType := none
      pin := some ⟨"kind", [⟨"B", 0⟩]⟩ },
    (⟨"x", 1⟩, .bind {} "n" (.wildcard {})),
    { registry := circularNodeSchemas, bindings := [⟨"n", 2, {}⟩] },
    rfl, rfl, rfl, ⟨.member "A" 0, rfl, rfl⟩, ⟨by decide, by decide⟩, rfl,
    ?_⟩
  rintro ⟨x, hReads⟩
  cases hReads .empty

end MatchCompiler
