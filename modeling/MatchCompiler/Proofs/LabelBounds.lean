import MatchCompiler.Coverage
import MatchCompiler.Proofs.DirectMatch
import MatchCompiler.Proofs.PartTyping
import MatchCompiler.Proofs.Verdicts

/-
  This file relates the labels of a pattern to the values
  that its plan might match.

  Two sets of labels bound a pattern from below and above: a
  value with a label of the lower set is never refused, and a
  value that might match has a label of the upper set. What
  holds of single nodes carries over to names, guards and
  alternations around them.

  Key definitions include:
    * `LabelBound`
    * `Checked.BoundBy`
    * `Schema.Discriminates`

  Key theorems include:
    * `Checked.not_might_of_isCatchAll`
    * `Checked.MadeOf.boundBy`
    * `AcceptedAt.boundBy_discriminator`
    * `ObjectReads.boundBy`
-/

------------------------------------------------------------
-- Answers Of Plans By Form
------------------------------------------------------------

namespace MatchCompiler

variable {root : Value}
variable {b b' : Bool}

/- A leaf that always reads an answer might give no other. -/
theorem Test.eq_of_might
    {t : Test}
    (hLeaf : t.IsLeaf)
    (hReading : ∀ c, t.reading root c = .ok b)
    (h : t.Might root b') :
    b' = b := by
  cases h with
  | leaf _ hOk =>
      rw [hReading] at hOk
      exact (Except.ok.inj hOk).symm
  | fault _ hError =>
      rw [hReading] at hError
      cases hError
  | guard => exact hLeaf.elim
  | andHolds => exact hLeaf.elim
  | andFails => exact hLeaf.elim
  | orHolds => exact hLeaf.elim
  | orFails => exact hLeaf.elim
  | altHolds => exact hLeaf.elim
  | altFails => exact hLeaf.elim

namespace Plan

theorem might_test_iff
    {t : Test} :
    (Plan.test t).Might root b ↔ t.Might root b := by
  constructor
  · intro h
    cases h with
    | test h => exact h
  · exact .test

theorem might_bind_iff
    {x : String}
    {a : Access}
    {p : Plan} :
    (Plan.bind x a p).Might root b ↔ p.Might root b := by
  constructor
  · intro h
    cases h with
    | bind _ _ h => exact h
  · exact .bind x a

theorem might_all_true
    {ps : List Plan} :
    (Plan.all ps).Might root true ↔ ∀ p ∈ ps, p.Might root true := by
  constructor
  · intro h
    cases h with
    | allMatch h => exact h
  · exact .allMatch

theorem might_all_false
    {ps : List Plan} :
    (Plan.all ps).Might root false ↔ ∃ p ∈ ps, p.Might root false := by
  constructor
  · intro h
    cases h with
    | allFail hMem h => exact ⟨_, hMem, h⟩
  · rintro ⟨p, hMem, h⟩
    exact .allFail hMem h

theorem might_alt_true
    {ps : List Plan} :
    (Plan.alt ps).Might root true ↔ ∃ p ∈ ps, p.Might root true := by
  constructor
  · intro h
    cases h with
    | altMatches hMem h => exact ⟨_, hMem, h⟩
  · rintro ⟨p, hMem, h⟩
    exact .altMatches hMem h

theorem might_alt_false
    {ps : List Plan} :
    (Plan.alt ps).Might root false ↔ ∀ p ∈ ps, p.Might root false := by
  constructor
  · intro h
    cases h with
    | altFails h => exact h
  · exact .altFails

/- What always holds is never refused. -/
theorem not_might_always :
    ¬ (Plan.test .always).Might root false := by
  intro h
  cases Test.eq_of_might (t := .always) (b := true) trivial
    (fun _ => rfl) (might_test_iff.mp h)

end Plan

end MatchCompiler

------------------------------------------------------------
-- Patterns That Match Everything
------------------------------------------------------------

namespace MatchCompiler

namespace Checked

variable {root : Value}
variable {o : LoweringOptions}

theorem exists_of_mem_outerGuardsOfAll
    {qs : List Checked}
    {id : GuardId}
    (h : id ∈ outerGuardsOfAll qs) :
    ∃ q ∈ qs, id ∈ q.outerGuards := by
  induction qs with
  | nil => cases h
  | cons q qs ih =>
      rcases List.mem_append.mp h with h | h
      · exact ⟨q, List.mem_cons_self, h⟩
      · rcases ih h with ⟨q', hq', h⟩
        exact ⟨q', List.mem_cons_of_mem q hq', h⟩

theorem exists_of_anyCatchAll
    {qs : List Checked}
    (h : anyCatchAll qs = true) :
    ∃ q ∈ qs, q.isCatchAll = true := by
  induction qs with
  | nil => cases h
  | cons q qs ih =>
      rcases (Bool.or_eq_true _ _).mp h with h | h
      · exact ⟨q, List.mem_cons_self, h⟩
      · rcases ih h with ⟨q', hq', h⟩
        exact ⟨q', List.mem_cons_of_mem q hq', h⟩

/- No guard is asked after a pattern that matches every value. -/
theorem outerGuards_of_isCatchAll
    {q : Checked}
    (h : q.isCatchAll = true) :
    q.outerGuards = [] := by
  induction q using partInduction with
  | wildcard => rfl
  | bind span x q ih => exact ih h
  | alt => rfl
  | literal => cases h
  | set => cases h
  | typeIs => cases h
  | guarded => cases h
  | some => cases h
  | object => cases h
  | tuple => cases h
  | seq => cases h
  | map => cases h

/- A pattern that matches every value is never refused. -/
theorem not_might_of_isCatchAll
    {q : Checked}
    (h : q.isCatchAll = true)
    (inside : Bool)
    (a : Access) :
    ¬ (q.plan o inside a).Might root false := by
  induction q using partInduction generalizing inside with
  | wildcard span => exact Plan.not_might_always
  | bind span x q ih =>
      intro hMight
      exact ih h inside (Plan.might_bind_iff.mp hMight)
  | alt span qs ih =>
      intro hMight
      rcases exists_of_anyCatchAll h with ⟨q, hq, hAll⟩
      refine ih q hq hAll true (Plan.might_alt_false.mp hMight _ ?_)
      rw [planBranches_eq]
      exact List.mem_map_of_mem hq
  | literal => cases h
  | set => cases h
  | typeIs => cases h
  | guarded => cases h
  | some => cases h
  | object => cases h
  | tuple => cases h
  | seq => cases h
  | map => cases h

end Checked

end MatchCompiler

------------------------------------------------------------
-- Bounds
------------------------------------------------------------

namespace MatchCompiler

/-
  Two ways to give a pattern labels go together through names
  and alternations; a guard takes all labels from the lower.
-/
structure LabelBound
    (lower upper : Checked → List String) : Prop where
  bind :
    ∀ span x q, lower (.bind span x q) = lower q ∧
      upper (.bind span x q) = upper q
  guarded :
    ∀ span q id, lower (.guarded span q id) = [] ∧
      upper (.guarded span q id) = upper q
  altUnder :
    ∀ span qs l, l ∈ lower (.alt span qs) → ∃ q ∈ qs, l ∈ lower q
  altOver :
    ∀ span qs l, ∀ q ∈ qs, l ∈ upper q → l ∈ upper (.alt span qs)

namespace Checked

/-
  The labels of a pattern bound what its plan might answer
  about a value with some label.
-/
structure BoundBy
    (lower upper : Checked → List String)
    (o : LoweringOptions)
    (root : Value)
    (a : Access)
    (label : String)
    (q : Checked) : Prop where
  holds :
    label ∈ lower q →
      (∀ inside, ¬ (q.plan o inside a).Might root false) ∧
      q.outerGuards = []
  matched :
    ∀ inside, (q.plan o inside a).Might root true → label ∈ upper q

variable {lower upper : Checked → List String}
variable {o : LoweringOptions}
variable {root : Value}
variable {a : Access}
variable {label : String}

/- A wildcard may match values with all labels. -/
theorem boundBy_wildcard
    {span : Span}
    (h : label ∈ upper (.wildcard span)) :
    (Checked.wildcard span).BoundBy lower upper o root a label :=
  ⟨fun _ => ⟨fun _ => Plan.not_might_always, rfl⟩, fun _ _ => h⟩

/- A test with one answer is bound if its answer is. -/
theorem boundBy_of_answer
    {q : Checked}
    {t : Test}
    {answer : Bool}
    (hPlan : ∀ inside, q.plan o inside a = .test t)
    (hGuards : q.outerGuards = [])
    (hAnswer : ∀ {b}, t.Might root b → b = answer)
    (hUnder : label ∈ lower q → answer = true)
    (hOver : answer = true → label ∈ upper q) :
    q.BoundBy lower upper o root a label := by
  refine ⟨fun hIn => ⟨fun inside hMight => ?_, hGuards⟩,
    fun inside hMight => ?_⟩
  · rw [hPlan, Plan.might_test_iff] at hMight
    cases (hAnswer hMight).trans (hUnder hIn)
  · rw [hPlan, Plan.might_test_iff] at hMight
    exact hOver (hAnswer hMight).symm

/- What bounds the nodes of a pattern bounds the pattern. -/
theorem MadeOf.boundBy
    (hLabels : LabelBound lower upper)
    {q : Checked}
    (h : q.MadeOf (BoundBy lower upper o root a label)) :
    q.BoundBy lower upper o root a label := by
  induction h with
  | node h => exact h
  | @bind q span x _ ih =>
      rcases hLabels.bind span x q with ⟨hUnder, hOver⟩
      refine ⟨fun hLabel => ?_, fun inside hMight => ?_⟩
      · rw [hUnder] at hLabel
        rcases ih.holds hLabel with ⟨hHolds, hGuards⟩
        exact ⟨fun inside hMight =>
          hHolds inside (Plan.might_bind_iff.mp hMight), hGuards⟩
      · rw [hOver]
        exact ih.matched inside (Plan.might_bind_iff.mp hMight)
  | @guarded q span id _ ih =>
      rcases hLabels.guarded span q id with ⟨hUnder, hOver⟩
      refine ⟨fun hLabel => ?_, fun inside hMight => ?_⟩
      · rw [hUnder] at hLabel
        cases hLabel
      · rw [hOver]
        cases inside with
        | false => exact ih.matched false hMight
        | true =>
            exact ih.matched true
              (Plan.might_all_true.mp hMight _ List.mem_cons_self)
  | @alt qs span _ ih =>
      refine ⟨fun hLabel => ⟨fun inside hMight => ?_, rfl⟩,
        fun inside hMight => ?_⟩
      · rcases hLabels.altUnder span qs label hLabel with ⟨q, hq, hLabel⟩
        refine ((ih q hq).holds hLabel).1 true
          (Plan.might_alt_false.mp hMight _ ?_)
        rw [planBranches_eq]
        exact List.mem_map_of_mem hq
      · rcases Plan.might_alt_true.mp hMight with ⟨p, hp, hMight⟩
        rw [planBranches_eq] at hp
        rcases List.mem_map.mp hp with ⟨q, hq, rfl⟩
        exact hLabels.altOver span qs label q hq
          ((ih q hq).matched true hMight)

theorem mem_discriminatorLabelsOfAll
    {s : Schema}
    {whole : Bool}
    {qs : List Checked} :
    label ∈ discriminatorLabelsOfAll s whole qs ↔
      ∃ q ∈ qs, label ∈ q.discriminatorLabels s whole := by
  induction qs with
  | nil => simp [discriminatorLabelsOfAll]
  | cons q qs ih => simp [discriminatorLabelsOfAll, ih]

theorem mem_coverOfAll
    {s : Schema}
    {qs : List Checked} :
    label ∈ coverOfAll s qs ↔ ∃ q ∈ qs, label ∈ q.cover s := by
  induction qs with
  | nil => simp [coverOfAll]
  | cons q qs ih => simp [coverOfAll, ih]

theorem mem_footprintOfAll
    {s : Schema}
    {qs : List Checked} :
    label ∈ footprintOfAll s qs ↔ ∃ q ∈ qs, label ∈ q.footprint s := by
  induction qs with
  | nil => simp [footprintOfAll]
  | cons q qs ih => simp [footprintOfAll, ih]

/- The branches that a discriminator pattern selects. -/
theorem labelBound_discriminator
    (s : Schema) :
    LabelBound (discriminatorLabels s true)
      (discriminatorLabels s false) where
  bind := fun _ _ _ => ⟨rfl, rfl⟩
  guarded := fun _ _ _ => ⟨rfl, rfl⟩
  altUnder := fun _ _ _ h => mem_discriminatorLabelsOfAll.mp h
  altOver := fun _ _ _ q hq h =>
    mem_discriminatorLabelsOfAll.mpr ⟨q, hq, h⟩

/- What an arm covers and where it may match. -/
theorem labelBound_cover
    (s : Schema) :
    LabelBound (cover s) (footprint s) where
  bind := fun _ _ _ => ⟨rfl, rfl⟩
  guarded := fun _ _ _ => ⟨rfl, rfl⟩
  altUnder := fun _ _ _ h => mem_coverOfAll.mp h
  altOver := fun _ _ _ q hq h => mem_footprintOfAll.mpr ⟨q, hq, h⟩

end Checked

end MatchCompiler

------------------------------------------------------------
-- Discriminators
------------------------------------------------------------

namespace MatchCompiler

/- An access reads a value whatever branches are chosen. -/
def Access.Reads
    (root : Value)
    (a : Access)
    (v : Value) : Prop :=
  ∀ c, a.resolve root c = .ok v

theorem Access.Reads.field
    {root : Value}
    {a : Access}
    {v w : Value}
    {name : String}
    (h : a.Reads root v)
    (hField : v.field? name = some w) :
    (Access.field a name).Reads root w := by
  intro c
  simp only [Access.resolve, h c]
  change v.readField name = .ok w
  cases v with
  | object chain fields =>
      unfold Value.readField
      rw [hField]
  | _ => cases hField

/- A member is told by its name, and by its number. -/
theorem eq_of_names_nodup
    {ms : List Member}
    (h : (ms.map Member.name).Nodup)
    {m m' : Member}
    (hm : m ∈ ms)
    (hm' : m' ∈ ms)
    (hName : m.name = m'.name) :
    m = m' :=
  List.inj_on_of_nodup_map h hm hm' hName

theorem eq_of_ordinals_nodup
    {ms : List Member}
    (h : (ms.map Member.ordinal).Nodup)
    {m m' : Member}
    (hm : m ∈ ms)
    (hm' : m' ∈ ms)
    (hOrdinal : m.ordinal = m'.ordinal) :
    m = m' :=
  List.inj_on_of_nodup_map h hm hm' hOrdinal

/- Only references are read as another kind. -/
theorem Schema.structuralKind_of_isReference
    {s : Schema}
    (h : s.isReference = false) :
    s.structuralKind = s.kind := by
  unfold structuralKind
  exact if_neg (Bool.eq_false_iff.mp h)

/- References are read as records or unions. -/
theorem Schema.isReference_of_structuralKind
    {s : Schema}
    {kind : SchemaKind}
    (h : s.structuralKind = kind)
    (hKind : kind ∉ [.record, .union]) :
    s.isReference = false := by
  cases hReference : s.isReference with
  | false => rfl
  | true =>
      refine (hKind ?_).elim
      have hKind : (s.kind == .reference) = true := hReference
      rw [← h, Schema.structuralKind, if_pos hKind]
      split <;> decide

/- Of what is not a reference the kind is read as it is. -/
theorem Schema.kind_of_structuralKind
    {s : Schema}
    {kind : SchemaKind}
    (h : s.structuralKind = kind)
    (hKind : kind ∉ [.record, .union]) :
    s.kind = kind := by
  rw [← Schema.structuralKind_of_isReference
    (Schema.isReference_of_structuralKind h hKind), h]

theorem structuralKind_of_listsMembers
    {s : Schema}
    {ms : List Member}
    (h : s.ListsMembers ms) :
    s.structuralKind = .enumeration ∨ s.structuralKind = .primitive := by
  unfold Schema.structuralKind
  rcases h with ⟨hKind, -⟩ | ⟨hKind, -⟩
  · exact .inl (by rw [hKind]; rfl)
  · exact .inr (by rw [hKind]; rfl)

/- Only a boolean can be compared with a boolean. -/
theorem exists_of_checkPrimitive_bool
    {type : String}
    {l : Literal}
    {meaning : CheckedLiteral}
    (h : checkPrimitive type .bool l = .ok meaning) :
    ∃ b, meaning = .value (.bool b) := by
  have hExpect :
      ∀ {fits : Bool} {b : Bool},
        checkPrimitive.expect type l fits (.bool b) = .ok meaning →
        ∃ b, meaning = .value (.bool b) := by
    intro fits b hFits
    unfold checkPrimitive.expect at hFits
    split at hFits
    · cases hFits
      exact ⟨b, rfl⟩
    · cases hFits
  unfold checkPrimitive at h
  split at h
  · split at h <;> cases h
  · cases h
  · cases h
  · cases h
  · exact hExpect h
  · split at h
    · exact hExpect h
    · split at h
      · exact hExpect h
      · cases h
  · cases h

/- What a literal means where the values have labels. -/
theorem SchemaPool.meaning_of_listsMembers
    {p : SchemaPool}
    {marker : Char}
    {id : SchemaId}
    {l : Literal}
    {meaning : CheckedLiteral}
    {ms : List Member}
    (hMembers : (p.get id).ListsMembers ms)
    (h : p.checkLiteral marker id l = .ok meaning) :
    (∃ m ∈ ms, meaning = .member m) ∨
    (p.get id).primitive = some .bool ∧ (p.get id).kind = .primitive ∧
      ∃ b, meaning = .value (.bool b) := by
  have hPlain :
      (p.get id).kind ≠ .reference → (p.get id).isReference = false :=
    fun hKind => beq_eq_false_iff_ne.mpr hKind
  unfold checkLiteral Schema.checkLiteral at h
  dsimp only at h
  rcases hMembers with ⟨hKind, rfl⟩ | ⟨hKind, hBool, rfl⟩
  · have hRead : (p.get id).structuralKind = .enumeration := by
      unfold Schema.structuralKind
      rw [hKind]
      rfl
    rw [hPlain (by rw [hKind]; nofun), Bool.and_false, hRead] at h
    cases l with
    | sym name => exact .inl (exists_of_checkMember h)
    | _ => cases h
  · have hRead : (p.get id).structuralKind = .primitive := by
      unfold Schema.structuralKind
      rw [hKind]
      rfl
    rw [hPlain (by rw [hKind]; nofun), Bool.and_false, hRead, hBool] at h
    exact .inr ⟨hBool, hKind, exists_of_checkPrimitive_bool h⟩

/- What has a label is neither nil nor an object. -/
theorem Value.isOfType_eq_false_of_tag?
    {v : Value}
    {m : Member}
    (h : v.tag? = Option.some m)
    (name : String) :
    v.isOfType name = false := by
  cases v with
  | object chain fields => cases h
  | _ => rfl

theorem Value.readOrdinal_of_tag?
    {v : Value}
    {m : Member}
    (h : v.tag? = Option.some m) :
    v.readOrdinal = .ok m.ordinal := by
  unfold readOrdinal
  rw [Value.ordinal?_of_tag? h]

/-
  A value of a labelled type and its label, if the labels
  have different numbers.
-/
structure HasTag
    (t : TypeTable)
    (D : ValueType)
    (ms : List Member)
    (w : Value)
    (m : Member) : Prop where
  lists : ∃ n, t.Lists D n ms
  ordinals : (ms.map Member.ordinal).Nodup
  typed : HasType t D w
  tag : w.tag? = some m
  listed : m ∈ ms

/- The labels have different names too. -/
structure HasLabel
    (t : TypeTable)
    (D : ValueType)
    (ms : List Member)
    (w : Value)
    (m : Member) : Prop extends HasTag t D ms w m where
  names : (ms.map Member.name).Nodup

/- The label that a literal stands for. -/
def CheckedLiteral.label? : CheckedLiteral → Option String
| .member m => some m.name
| .value (.bool b) => some (if b then "true" else "false")
| _ => Option.none

/-
  A literal at a labelled type holds of its label only, and
  of every value with that label if the names differ.
-/
theorem HasTag.exists_holds
    {t : TypeTable}
    {Γ : SlotTypes}
    {D : ValueType}
    {ms : List Member}
    {w : Value}
    {m : Member}
    (h : HasTag t D ms w m)
    {p : SchemaPool}
    {slot : SchemaId}
    (hDescribes : Describes t Γ D (p.get slot))
    (hMembers : (p.get slot).ListsMembers ms)
    {marker : Char}
    {l : Literal}
    {meaning : CheckedLiteral}
    (hMeaning : p.checkLiteral marker slot l = .ok meaning) :
    ∃ label, meaning.label? = some label ∧
      ((p.get slot).kind = .enumeration → ∃ k, meaning = .member k) ∧
      ∃ b, meaning.holds w = .ok b ∧ (b = true → m.name = label) ∧
        ((ms.map Member.name).Nodup → m.name = label → b = true) := by
  rcases SchemaPool.meaning_of_listsMembers hMembers hMeaning with
    ⟨k, hk, rfl⟩ | ⟨hBool, hKind, b, rfl⟩
  · refine ⟨k.name, rfl, fun _ => ⟨k, rfl⟩, m.ordinal == k.ordinal,
      ?_, fun hSame => ?_, fun hNames hSame => ?_⟩
    · unfold CheckedLiteral.holds
      rw [Value.readOrdinal_of_tag? h.tag]
      rfl
    · rw [eq_of_ordinals_nodup h.ordinals h.listed hk (beq_iff_eq.mp hSame)]
    · rw [eq_of_names_nodup hNames h.listed hk hSame]
      exact beq_self_eq_true _
  · have hAdmits := hDescribes.values w h.typed
    simp only [Schema.Admits, hKind, hBool] at hAdmits
    have hHolds := hAdmits .bool rfl
    have hTag := h.tag
    refine ⟨_, rfl, fun hOther => ?_, ?_⟩
    · cases hKind.symm.trans hOther
    · cases w with
      | bool b' =>
          refine ⟨b' == b, rfl, ?_⟩
          cases hTag
          cases b <;> cases b' <;> simp
      | _ => cases hTag <;> cases hHolds

/-
  A node at a labelled type is bound, if literals have their
  labels, a wildcard all, and a test for a type none below.
-/
theorem AcceptedAt.boundBy_labelled
    {ctx : CheckContext}
    {Γ : SlotTypes}
    {r : Registry}
    {D : ValueType}
    {ms : List Member}
    {w : Value}
    {m : Member}
    (hTyped : r.Typed ctx.table Γ)
    (hLabel : HasLabel ctx.table D ms w m)
    {slot : SchemaId}
    (hSlot : Γ[slot]? = some D)
    {lower upper : Checked → List String}
    (hWildcard : ∀ span, m.name ∈ upper (.wildcard span))
    (hTypeIs : ∀ span id name, lower (.typeIs span id name) = [])
    (hLiteral :
      ∀ span meaning label, meaning.label? = some label →
        ((r.pool.get slot).kind = .enumeration →
          ∃ k, meaning = .member k) →
        lower (.literal span meaning) = [label] ∧
        upper (.literal span meaning) = [label])
    {o : LoweringOptions}
    {root : Value}
    {a : Access}
    (hRead : a.Reads root w)
    {p : Pattern}
    {q : Checked}
    (hNode : p.IsNode)
    (h : AcceptedAt ctx Γ r p slot q) :
    q.BoundBy lower upper o root a m.name := by
  have hAccepted := h
  rcases h with ⟨s₁, s₂, Γ₁, hGrows, hAccepts⟩
  rcases hGrows.slot hTyped hSlot with ⟨hSlot₁, hSame⟩
  have hDescribes := hGrows.typed.pool.described slot D hSlot₁
  rcases hLabel.lists with ⟨n, hLists⟩
  have hMembers :=
    (hGrows.typed.pool.shown slot D hSlot₁ nofun).labelled n ms hLists
  have hOther :
      ∀ {kinds}, q.nodeKinds = some kinds →
        kinds.contains .enumeration = false →
        kinds.contains .primitive = false → False := by
    intro kinds hKinds hEnumeration hPrimitive
    rw [hSame] at hMembers
    rcases structuralKind_of_listsMembers hMembers with hKind | hKind
    · exact hAccepted.false_of_kind hTyped hSlot hKind hKinds hEnumeration
    · exact hAccepted.false_of_kind hTyped hSlot hKind hKinds hPrimitive
  cases hAccepts with
  | wildcard span => exact Checked.boundBy_wildcard (hWildcard span)
  | @literal span _ _ l meaning hMeaning =>
      have hLeaf : ((Lowered.literal a meaning).test).IsLeaf := by
        cases meaning <;> trivial
      rcases hLabel.exists_holds hDescribes hMembers hMeaning with
        ⟨label, hMeans, hMember, b, hHolds, hOnly, hEvery⟩
      rw [hSame] at hMember
      rcases hLiteral span meaning label hMeans hMember with
        ⟨hUnder, hOver⟩
      refine Checked.boundBy_of_answer (fun _ => rfl) rfl
        (Test.eq_of_might hLeaf fun c =>
          (Lowered.reading_literal (hRead c) meaning).trans hHolds)
        (fun hIn => ?_) fun hTrue => ?_
      · rw [hUnder, List.mem_singleton] at hIn
        exact hEvery hLabel.names hIn
      · rw [hOver, List.mem_singleton]
        exact hOnly hTrue
  | typeTest hTested =>
      cases hTested with
      | holds => exact Checked.boundBy_wildcard (hWildcard _)
      | tested =>
          refine ⟨?_, fun inside hMight => ?_⟩
          · rw [hTypeIs]
            exact nofun
          · cases Test.eq_of_might (t := .typeIs a _) (b := false) trivial
              (fun c => by
                rw [Test.reading_of_query rfl (hRead c),
                  Value.isOfType_eq_false_of_tag? hLabel.tag]
                rfl)
              (Plan.might_test_iff.mp hMight)
  | bind => exact hNode.elim
  | named => exact hNode.elim
  | alt => exact hNode.elim
  | guarded => exact hNode.elim
  | narrow => exact hNode.elim
  | some | someUnknown | none | object | seq | tuple | set | map =>
      exact (hOther rfl rfl rfl).elim

/- The branches that it selects bound a discriminator pattern. -/
theorem AcceptedAt.boundBy_discriminator
    {ctx : CheckContext}
    {Γ : SlotTypes}
    {r : Registry}
    (hFree : ctx.table.TemplateFree)
    {D : ValueType}
    {ms : List Member}
    {w : Value}
    {m : Member}
    (hTyped : r.Typed ctx.table Γ)
    (hLabel : HasLabel ctx.table D ms w m)
    {slot : SchemaId}
    (hSlot : Γ[slot]? = some D)
    {s : Schema}
    (hBranch : m.name ∈ s.branchLabels)
    {o : LoweringOptions}
    {root : Value}
    {a : Access}
    (hRead : a.Reads root w)
    {p : Pattern}
    {q : Checked}
    (h : AcceptedAt ctx Γ r p slot q) :
    q.BoundBy (Checked.discriminatorLabels s true)
      (Checked.discriminatorLabels s false) o root a m.name := by
  refine Checked.MadeOf.boundBy (Checked.labelBound_discriminator s) ?_
  refine h.madeOf hFree hSlot fun p' q' hAccepted hNode _ => ?_
  refine hAccepted.boundBy_labelled hTyped hLabel hSlot (fun _ => hBranch)
    (fun _ _ _ => rfl) (fun span meaning label hMeans _ => ?_) hRead hNode
  cases meaning with
  | member k =>
      cases hMeans
      exact ⟨rfl, rfl⟩
  | value l =>
      cases l with
      | bool b =>
          cases hMeans
          exact ⟨rfl, rfl⟩
      | _ => cases hMeans
  | _ => cases hMeans

end MatchCompiler

------------------------------------------------------------
-- Objects
------------------------------------------------------------

namespace MatchCompiler

theorem Lowered.mem_objectTests
    {a : Access}
    {h : ObjectHead}
    {t : Test} :
    t ∈ objectTests a h ↔
      (∃ name, h.runtimeType = some name ∧ .typeIs a name = t) ∨
      (h.nilCheck = true ∧ t = .isNotNil a) ∨
      ∃ p, h.pin = some p ∧ pin a p = t := by
  unfold objectTests
  simp only [List.mem_append, Option.mem_toList, Option.map_eq_some_iff,
    List.mem_ite_nil_right, List.mem_singleton, or_assoc]

theorem Lowered.isLeaf_pin
    (a : Access)
    (p : Pin) :
    (pin a p).IsLeaf := by
  unfold pin
  dsimp only
  split <;> trivial

theorem Checked.mem_planFields
    {o : LoweringOptions}
    {inside : Bool}
    {fs : List (FieldRead × Checked)}
    {a : Access}
    {p : Plan} :
    p ∈ planFields o inside fs a ↔
      ∃ f ∈ fs, p = f.2.plan o inside (.field a f.1.name) := by
  induction fs with
  | nil => simp [planFields]
  | cons f fs ih => simp [planFields, ih]

namespace Schema

/-
  A schema is read as a union: the labels of its branches are
  those of the discriminator with a given name.
-/
structure Discriminates
    (s : Schema)
    (name : String)
    (ms : List Member) : Prop where
  field : ∃ slot, s.discriminator = some ⟨name, slot⟩
  labels : s.branches.map (fun b => ⟨b.label, b.ordinal⟩) = ms

namespace Discriminates

variable {s : Schema}
variable {name : String}
variable {ms : List Member}

theorem branchLabels_eq
    (h : s.Discriminates name ms) :
    s.branchLabels = ms.map Member.name := by
  rw [← h.labels, List.map_map]
  rfl

theorem readsDiscriminator_iff
    (h : s.Discriminates name ms)
    (part : FieldRead × Checked) :
    Checked.readsDiscriminator s part = true ↔ part.1.name = name := by
  rcases h.field with ⟨slot, hDisc⟩
  unfold Checked.readsDiscriminator
  rw [hDisc, Option.any_some, beq_iff_eq]
  exact eq_comm

theorem isDiscriminator_iff
    (h : s.Discriminates name ms)
    (field : String) :
    s.isDiscriminator field = true ↔ field = name := by
  rcases h.field with ⟨slot, hDisc⟩
  unfold isDiscriminator
  rw [hDisc, Option.any_some, beq_iff_eq]
  exact eq_comm

/- A label stands for one of the branches with its number. -/
theorem mem_of_branch?
    (h : s.Discriminates name ms)
    {label : String}
    {b : Branch}
    (hBranch : s.branch? label = some b) :
    ⟨b.label, b.ordinal⟩ ∈ ms := by
  rw [← h.labels]
  exact List.mem_map.mpr ⟨b, List.mem_of_find?_eq_some hBranch, rfl⟩

end Discriminates

end Schema

/-
  What an object pattern asks of a discriminator: its case
  name pins a label, every part that reads the discriminator
  is bound, and a pattern that asks for no type has only one
  such part.
-/
structure ObjectReads
    (name : String)
    (ms : List Member)
    (B : Checked → Prop)
    (head : ObjectHead)
    (fields : List (FieldRead × Checked)) : Prop where
  pin :
    ∀ p, head.pin = some p →
      p.discriminator = name ∧ ∃ m ∈ ms, p.labels = [m]
  part : ∀ f ∈ fields, f.1.name = name → B f.2
  once :
    head.runtimeType = none →
      ∀ f ∈ fields, ∀ g ∈ fields, f.1.name = name → g.1.name = name → f = g

/- A pin compares numbers. -/
theorem Pin.holds_of_tag?
    {name : String}
    {v w : Value}
    {m k : Member}
    (hField : v.field? name = some w)
    (hTag : w.tag? = some m)
    {p : Pin}
    (hName : p.discriminator = name)
    (hLabels : p.labels = [k]) :
    p.holds v = .ok (k.ordinal == m.ordinal) := by
  have hRead : v.readField p.discriminator = .ok w := by
    rw [hName]
    cases v with
    | object chain fields =>
        unfold Value.readField
        rw [hField]
    | _ => cases hField
  unfold Pin.holds
  rw [hRead]
  change (w.readOrdinal >>= _) = _
  rw [Value.readOrdinal_of_tag? hTag, hLabels]
  simp only [List.any_cons, List.any_nil, Bool.or_false]
  rfl

section

variable {t : TypeTable}
variable {D : ValueType}
variable {name : String}
variable {ms : List Member}
variable {v w : Value}
variable {m : Member}

variable {s : Schema}
variable {o : LoweringOptions}
variable {root : Value}
variable {a : Access}
variable {head : ObjectHead}
variable {fields : List (FieldRead × Checked)}

/- The labels of an object pattern are those of pin and part. -/
theorem Schema.Discriminates.mem_objectLabels_iff
    (hDisc : s.Discriminates name ms)
    (hMem : m ∈ ms)
    (whole : Bool) :
    m.name ∈ Checked.objectLabels s whole head fields ↔
      head.pin.all (fun p => p.labels.any (fun k => k.name == m.name)) =
          true ∧
        ∀ f q, fields.find? (Checked.readsDiscriminator s) = some (f, q) →
          m.name ∈ q.discriminatorLabels s whole := by
  have hBranch : m.name ∈ s.branchLabels := by
    rw [hDisc.branchLabels_eq]
    exact List.mem_map_of_mem hMem
  unfold Checked.objectLabels
  dsimp only
  split
  · rename_i hFind
    rw [List.mem_filter]
    simp [hBranch, hFind]
  · rename_i f q hFind
    rw [List.mem_filter, List.mem_filter]
    simp [hBranch, hFind]

namespace ObjectReads

/- The test for the case name tells the label of a value. -/
theorem iff_of_might_pin
    {B : Checked → Prop}
    (h : ObjectReads name ms B head fields)
    (hLabel : HasLabel t D ms w m)
    (hRead : a.Reads root v)
    (hField : v.field? name = some w)
    {p : Pin}
    (hPin : head.pin = some p)
    {b : Bool}
    (hMight : (Lowered.pin a p).Might root b) :
    b = true ↔ p.labels.any (fun k => k.name == m.name) = true := by
  rcases h.pin p hPin with ⟨hName, k, hk, hLabels⟩
  have hSame := Test.eq_of_might (Lowered.isLeaf_pin a p)
    (fun c => (Lowered.reading_pin (hRead c) p).trans
      (Pin.holds_of_tag? hField hLabel.tag hName hLabels)) hMight
  rw [hSame, hLabels, List.any_cons, List.any_nil, Bool.or_false,
    beq_iff_eq, beq_iff_eq]
  constructor
  · intro hOrdinal
    rw [eq_of_ordinals_nodup hLabel.ordinals hk hLabel.listed hOrdinal]
  · intro hName
    rw [eq_of_names_nodup hLabel.names hk hLabel.listed hName]

variable
  (hDisc : s.Discriminates name ms)
  (hLabel : HasLabel t D ms w m)
  (hRead : a.Reads root v)
  (hField : v.field? name = some w)
  (h :
    ObjectReads name ms
      (Checked.BoundBy (Checked.discriminatorLabels s true)
        (Checked.discriminatorLabels s false) o root (.field a name)
        m.name)
      head fields)

include hDisc h

/-
  If each part reads the discriminator or matches everything,
  and the first to read it covers the label, each part holds.
-/
theorem holds_part
    (hNoType : head.runtimeType = none)
    {f : FieldRead × Checked}
    (hf : f ∈ fields)
    (hPart :
      (Checked.readsDiscriminator s f || f.2.isCatchAll) = true)
    (hFind :
      ∀ f q, fields.find? (Checked.readsDiscriminator s) = some (f, q) →
        m.name ∈ q.discriminatorLabels s true) :
    (∀ inside,
      ¬ (f.2.plan o inside (.field a f.1.name)).Might root false) ∧
    f.2.outerGuards = [] := by
  rcases (Bool.or_eq_true _ _).mp hPart with hReads | hAll
  · rw [hDisc.readsDiscriminator_iff] at hReads
    have hFound :
        fields.find? (Checked.readsDiscriminator s) = some f := by
      have hSome :
          (fields.find? (Checked.readsDiscriminator s)).isSome = true := by
        rw [List.find?_isSome]
        exact ⟨f, hf, (hDisc.readsDiscriminator_iff f).mpr hReads⟩
      rcases Option.isSome_iff_exists.mp hSome with ⟨g, hg⟩
      have hg' := (hDisc.readsDiscriminator_iff g).mp
        (List.find?_some hg)
      rw [h.once hNoType f hf g (List.mem_of_find?_eq_some hg) hReads hg']
      exact hg
    rw [hReads]
    exact (h.part f hf hReads).holds (hFind f.1 f.2 hFound)
  · exact ⟨fun inside => Checked.not_might_of_isCatchAll hAll inside _,
      Checked.outerGuards_of_isCatchAll hAll⟩

include hLabel hRead hField

/- What an object pattern covers, it matches. -/
theorem holds
    {span : Span}
    (hCover : m.name ∈ Checked.cover s (.object span head fields)) :
    (∀ inside,
      ¬ ((Checked.object span head fields).plan o inside a).Might root
        false) ∧
    (Checked.object span head fields).outerGuards = [] := by
  unfold Checked.cover at hCover
  split at hCover
  · rename_i hAsks
    rw [Checked.asksBranchOnly, Bool.and_eq_true, Option.isNone_iff_eq_none,
      List.all_eq_true] at hAsks
    rcases hAsks with ⟨hNoType, hParts⟩
    rcases (hDisc.mem_objectLabels_iff hLabel.listed true).mp hCover with
      ⟨hPin, hFind⟩
    have hPart (f) (hf : f ∈ fields) :=
      h.holds_part hDisc hNoType hf (hParts f hf) hFind
    refine ⟨fun inside hMight => ?_, ?_⟩
    · rcases Plan.might_all_false.mp hMight with ⟨p, hp, hMight⟩
      rcases List.mem_append.mp hp with hp | hp
      · rcases List.mem_map.mp hp with ⟨test, hTest, rfl⟩
        rw [Plan.might_test_iff] at hMight
        rcases Lowered.mem_objectTests.mp hTest with
          ⟨type, hType, -⟩ | ⟨-, rfl⟩ | ⟨pin, hHead, rfl⟩
        · rw [hNoType] at hType
          cases hType
        · cases Test.eq_of_might (t := .isNotNil a) (b := true) trivial
            (fun c => by
              rw [Test.reading_of_query rfl (hRead c)]
              cases v with
              | object chain fields => rfl
              | _ => cases hField) hMight
        · rw [hHead, Option.all_some] at hPin
          cases (h.iff_of_might_pin hLabel hRead hField hHead hMight).mpr
            hPin
      · rcases Checked.mem_planFields.mp hp with ⟨f, hf, rfl⟩
        exact (hPart f hf).1 inside hMight
    · change Checked.outerGuardsOfFields fields = []
      rw [Checked.outerGuardsOfFields_eq, List.eq_nil_iff_forall_not_mem]
      intro id hid
      rcases Checked.exists_of_mem_outerGuardsOfAll hid with ⟨q, hq, hid⟩
      rcases List.mem_map.mp hq with ⟨f, hf, rfl⟩
      rw [(hPart f hf).2] at hid
      cases hid
  · cases hCover

/- The labels of an object pattern bound it. -/
theorem boundBy
    (span : Span) :
    (Checked.object span head fields).BoundBy (Checked.cover s)
      (Checked.footprint s) o root a m.name := by
  refine ⟨h.holds hDisc hLabel hRead hField, fun inside hMight => ?_⟩
  rw [Checked.plan, Plan.might_all_true] at hMight
  refine (hDisc.mem_objectLabels_iff hLabel.listed false).mpr
    ⟨?_, fun f q hFind => ?_⟩
  · cases hHead : head.pin with
    | none => rfl
    | some p =>
        refine (h.iff_of_might_pin hLabel hRead hField hHead
          (b := true) ?_).mp rfl
        refine Plan.might_test_iff.mp (hMight _ ?_)
        refine List.mem_append_left _ (List.mem_map_of_mem ?_)
        exact Lowered.mem_objectTests.mpr (.inr (.inr ⟨p, hHead, rfl⟩))
  · have hMem := List.mem_of_find?_eq_some hFind
    have hReads := (hDisc.readsDiscriminator_iff (f, q)).mp
      (List.find?_some hFind)
    refine (h.part (f, q) hMem hReads).matched inside (hMight _ ?_)
    refine List.mem_append_right _ (Checked.mem_planFields.mpr ?_)
    exact ⟨(f, q), hMem, by rw [← hReads]⟩

end ObjectReads

end

end MatchCompiler
