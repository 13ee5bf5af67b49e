import MatchCompiler.Proofs.BranchReading
import MatchCompiler.Proofs.ProperSchemas

/-
  This file shows that checking drops no part of a pattern.

  A part of an accepted pattern is checked, and what becomes
  of it is a part of the checked pattern. So the names that a
  pattern binds are bound, and its guards are there. Only of
  several patterns for the discriminator of the type that a
  constructor reads all but the first are left out without a
  problem.

  An alternation without branches allows no label. A field of
  a branch that such a discriminator pattern pins is of no
  branch, and its pattern is left out too.

  Key definitions include:
    * `Pattern.PartOf`
    * `Pattern.Contains`
    * `Pattern.Binds`
    * `Checked.Contains`
    * `Checked.Asks`
    * `Checked.Discriminates`
    * `Pattern.GivesOnce`
    * `Kept`

  Key theorems include:
    * `Schema.exists_objectPart`
    * `InTurn.kept`
    * `Pattern.checksTo_kept`
    * `checkArm_keeps`
-/

------------------------------------------------------------
-- Parts, Names And Guards
------------------------------------------------------------

namespace MatchCompiler

namespace Pattern

/- A pattern is a part of another. -/
inductive PartOf
    (p : Pattern) : Pattern → Prop
| named
    (span : Span)
    (x : String) :
    PartOf p (.named span x p)
| guarded
    (span : Span)
    (g : Guard) :
    PartOf p (.guarded span p g)
| branch
    (span : Span)
    {ps : List Pattern}
    (hMem : p ∈ ps) :
    PartOf p (.alt span ps)
| field
    (span : Span)
    (h : ConstructorHead)
    {fields : List (FieldName × Pattern)}
    (args : List Pattern)
    {name : FieldName}
    (hMem : (name, p) ∈ fields) :
    PartOf p (.constructor span h fields args)
| arg
    (span : Span)
    (h : ConstructorHead)
    (fields : List (FieldName × Pattern))
    {args : List Pattern}
    (hMem : p ∈ args) :
    PartOf p (.constructor span h fields args)
| element
    (span : Span)
    {es : List (SeqElement Pattern)}
    {e : SeqElement Pattern}
    (hMem : e ∈ es)
    (hPattern : e.pattern? = some p) :
    PartOf p (.seq span es)
| entry
    (span : Span)
    {es : List (Literal × Pattern)}
    {key : Literal}
    (hMem : (key, p) ∈ es) :
    PartOf p (.map span es)

/- A pattern is found somewhere in another, or is the same. -/
def Contains : Pattern → Pattern → Prop :=
  Relation.ReflTransGen fun p q => q.PartOf p

/-
  A name that a pattern binds by itself or by a part. The
  names of an alternation are those of its first branch.
-/
inductive Binds
    (x : String) : Pattern → Prop
| bind
    (span : Span) :
    Binds x (.bind span x)
| narrow
    (span : Span)
    (target : DescriptorId) :
    Binds x (.narrow span x target)
| named
    (span : Span)
    (p : Pattern) :
    Binds x (.named span x p)
| part
    {p q : Pattern}
    (hPart : p.PartOf q)
    (hFirst : ∀ span ps, q = .alt span ps → ps.head? = some p)
    (hBinds : Binds x p) :
    Binds x q

/- A guard is that of the pattern or of a part. -/
theorem exists_part_of_mem_guards
    {p : Pattern}
    {g : Guard}
    (hg : g ∈ p.guards) :
    (∃ span inner, p = .guarded span inner g) ∨
      ∃ part : Pattern, part.PartOf p ∧ g ∈ part.guards := by
  cases p with
  | wildcard span => cases hg
  | bind span x => cases hg
  | literal span l => cases hg
  | alt span ps =>
      have hAll : g ∈ guardsOfList ps := hg
      rw [guardsOfList_eq] at hAll
      rcases List.mem_flatMap.mp hAll with ⟨p, hp, hg⟩
      exact .inr ⟨p, .branch span hp, hg⟩
  | guarded span inner own =>
      rcases List.mem_cons.mp hg with rfl | hg
      · exact .inl ⟨span, inner, rfl⟩
      · exact .inr ⟨inner, .guarded span own, hg⟩
  | named span x inner => exact .inr ⟨inner, .named span x, hg⟩
  | constructor span h fields args =>
      rcases List.mem_append.mp hg with hAll | hAll
      · rw [guardsOfFields_eq] at hAll
        rcases List.mem_flatMap.mp hAll with ⟨f, hf, hg⟩
        exact .inr ⟨f.2, .field span h args hf, hg⟩
      · rw [guardsOfList_eq] at hAll
        rcases List.mem_flatMap.mp hAll with ⟨p, hp, hg⟩
        exact .inr ⟨p, .arg span h fields hp, hg⟩
  | seq span es =>
      have hAll : g ∈ guardsOfElements es := hg
      rw [guardsOfElements_eq] at hAll
      rcases List.mem_flatMap.mp hAll with ⟨p, hp, hg⟩
      rcases List.mem_filterMap.mp hp with ⟨e, he, hPattern⟩
      exact .inr ⟨p, .element span he hPattern, hg⟩
  | typeTest span target => cases hg
  | narrow span x target => cases hg
  | map span es =>
      have hAll : g ∈ guardsOfEntries es := hg
      rw [guardsOfEntries_eq] at hAll
      rcases List.mem_flatMap.mp hAll with ⟨e, he, hg⟩
      exact .inr ⟨e.2, .entry span he, hg⟩
  | set span ls exact => cases hg

/-
  No alternation is without branches, and no constructor has
  two patterns for a field of some names at its span.
-/
def GivesOnce
    (D : Span → String → Prop) : Pattern → Prop
| .alt _ ps => ps ≠ []
| .constructor span _ fields _ =>
    fields.Pairwise fun f g => f.1.name = g.1.name → ¬ D span f.1.name
| _ => True

/- So it is everywhere in a pattern. -/
def GivesOnceEverywhere
    (D : Span → String → Prop)
    (p : Pattern) : Prop :=
  ∀ q, p.Contains q → q.GivesOnce D

theorem GivesOnceEverywhere.part
    {D : Span → String → Prop}
    {p q : Pattern}
    (h : q.GivesOnceEverywhere D)
    (hPart : p.PartOf q) :
    p.GivesOnceEverywhere D :=
  fun inner hInner => h inner (.head hPart hInner)

theorem GivesOnceEverywhere.of_parts
    {D : Span → String → Prop}
    {p : Pattern}
    (hOwn : p.GivesOnce D)
    (hParts :
      ∀ part : Pattern, part.PartOf p → part.GivesOnceEverywhere D) :
    p.GivesOnceEverywhere D := by
  intro q hq
  rcases Relation.ReflTransGen.cases_head hq with
    rfl | ⟨part, hPart, hInner⟩
  · exact hOwn
  · exact hParts part hPart q hInner

end Pattern

namespace Checked

/- A checked pattern is a part of another. -/
inductive PartOf
    (q : Checked) : Checked → Prop
| bind
    (span : Span)
    (x : String) :
    PartOf q (.bind span x q)
| guarded
    (span : Span)
    (id : GuardId) :
    PartOf q (.guarded span q id)
| branch
    (span : Span)
    {qs : List Checked}
    (hMem : q ∈ qs) :
    PartOf q (.alt span qs)
| field
    (span : Span)
    (head : ObjectHead)
    {fields : List (FieldRead × Checked)}
    {read : FieldRead}
    (hMem : (read, q) ∈ fields) :
    PartOf q (.object span head fields)
| payload
    (span : Span) :
    PartOf q (.some span q)
| place
    (span : Span)
    {items : List (Nat × Checked)}
    {place : Nat}
    (hMem : (place, q) ∈ items) :
    PartOf q (.tuple span items)
| item
    (span : Span)
    (layout : SeqLayout)
    (fixedLength : Option Nat)
    {items : List Checked}
    (spread : Option Checked)
    (hMem : q ∈ items) :
    PartOf q (.seq span layout fixedLength items spread)
| spread
    (span : Span)
    (layout : SeqLayout)
    (fixedLength : Option Nat)
    (items : List Checked) :
    PartOf q (.seq span layout fixedLength items (Option.some q))
| entry
    (span : Span)
    {es : List (Literal × Checked)}
    {key : Literal}
    (hMem : (key, q) ∈ es) :
    PartOf q (.map span es)

/- A checked pattern is found somewhere in another. -/
def Contains : Checked → Checked → Prop :=
  Relation.ReflTransGen fun q p => p.PartOf q

/- A checked pattern has a guard, itself or in a part. -/
inductive Asks
    (id : GuardId) : Checked → Prop
| guarded
    (span : Span)
    (inner : Checked) :
    Asks id (.guarded span inner id)
| part
    {p q : Checked}
    (hPart : p.PartOf q)
    (hAsks : Asks id p) :
    Asks id q

/- Labels are allowed where there are branches that allow some. -/
theorem labels_alt_ne_nil
    {t : Schema}
    {span : Span}
    {qs : List Checked}
    (hSome : qs ≠ [])
    (h : ∀ q ∈ qs, q.labels t ≠ Option.some []) :
    (Checked.alt span qs).labels t ≠ Option.some [] := by
  intro hNone
  have hAll : labelsOfAll t [] qs = Option.some [] := hNone
  rcases List.exists_mem_of_ne_nil qs hSome with ⟨q, hq⟩
  -- A branch that allows all labels would make the rest allow all.
  have hOne :
      ∃ name, ∀ own, q.labels t = Option.some own →
        name ∈ own.map Member.name := by
    cases hLabels : q.labels t with
    | none => exact ⟨"", nofun⟩
    | some own =>
        have hOwn : own ≠ [] := by
          rintro rfl
          exact h q hq hLabels
        rcases List.exists_mem_of_ne_nil own hOwn with ⟨l, hl⟩
        refine ⟨l.name, fun own' hSame => ?_⟩
        cases hSame
        exact List.mem_map_of_mem hl
  rcases hOne with ⟨name, hName⟩
  cases mem_names_labelsOfAll hAll (.inr ⟨q, hq, hName⟩)

/- A literal allows one label if it allows only some. -/
theorem labels_literal_ne_nil
    (t : Schema)
    (span : Span)
    (meaning : CheckedLiteral) :
    (Checked.literal span meaning).labels t ≠ Option.some [] := by
  unfold labels
  split <;> simp_all

end Checked

end MatchCompiler

------------------------------------------------------------
-- What Is Kept
------------------------------------------------------------

namespace MatchCompiler

/-
  The names that a pattern binds are bound, its guards are
  there, and it allows a label if it allows only some.
-/
structure Kept
    (p : Pattern)
    (q : Checked)
    (bound : List String) : Prop where
  names : ∀ x, p.Binds x → x ∈ bound
  guards : ∀ g ∈ p.guards, q.Asks g.id
  labels : ∀ t, q.labels t ≠ some []

namespace Kept

variable {p : Pattern}
variable {q : Checked}
variable {bound bound' : List String}

theorem mono
    (h : Kept p q bound)
    (hSub : bound ⊆ bound') :
    Kept p q bound' :=
  ⟨fun x hx => hSub (h.names x hx), h.guards, h.labels⟩

/- A node is kept if its parts are kept by parts. -/
theorem of_node
    (hNode : p.IsNode)
    (hLabels : ∀ t, q.labels t ≠ some [])
    (hParts :
      ∀ part : Pattern, part.PartOf p →
        ∃ inner : Checked, inner.PartOf q ∧ Kept part inner bound) :
    Kept p q bound := by
  refine ⟨fun x hx => ?_, fun g hg => ?_, hLabels⟩
  · cases hx with
    | bind => exact hNode.elim
    | narrow => exact hNode.elim
    | named => exact hNode.elim
    | part hPart _ hBinds =>
        rcases hParts _ hPart with ⟨inner, -, hKept⟩
        exact hKept.names x hBinds
  · rcases Pattern.exists_part_of_mem_guards hg with
      ⟨span, inner, rfl⟩ | ⟨part, hPart, hg⟩
    · exact hNode.elim
    · rcases hParts part hPart with ⟨inner, hInner, hKept⟩
      exact .part hInner (hKept.guards g hg)

/- So it is with nodes that no label is read off. -/
theorem of_unlabelled
    (hNode : p.IsNode)
    (hLabels : ∀ t, q.labels t = none)
    (hParts :
      ∀ part : Pattern, part.PartOf p →
        ∃ inner : Checked, inner.PartOf q ∧ Kept part inner bound) :
    Kept p q bound := by
  refine of_node hNode (fun t => ?_) hParts
  rw [hLabels t]
  exact nofun

theorem named
    (h : Kept p q bound)
    (span : Span)
    {x : String}
    (hSub : bound ⊆ bound')
    (hBound : x ∈ bound') :
    Kept (.named span x p) (.bind span x q) bound' := by
  refine ⟨fun y hy => ?_, fun g hg => ?_, h.labels⟩
  · cases hy with
    | named => exact hBound
    | part hPart _ hBinds =>
        cases hPart
        exact hSub (h.names y hBinds)
  · exact .part (.bind span x) (h.guards g hg)

/- A name without a pattern inside is bound. -/
theorem bind
    (span : Span)
    {x : String}
    (hBound : x ∈ bound) :
    Kept (.bind span x) (.bind span x (.wildcard span)) bound := by
  refine ⟨fun y hy => ?_, nofun, fun t => nofun⟩
  cases hy with
  | bind => exact hBound
  | part hPart => cases hPart

theorem narrow
    (span : Span)
    (target : DescriptorId)
    {x : String}
    (hBound : x ∈ bound)
    (hLabels : ∀ t, q.labels t = none) :
    Kept (.narrow span x target) (.bind span x q) bound := by
  refine ⟨fun y hy => ?_, nofun, fun t hSome => ?_⟩
  · cases hy with
    | narrow => exact hBound
    | part hPart => cases hPart
  · cases (hLabels t).symm.trans hSome

theorem guarded
    (h : Kept p q bound)
    (span : Span)
    (g : Guard) :
    Kept (.guarded span p g) (.guarded span q g.id) bound := by
  refine ⟨fun x hx => ?_, fun g' hg => ?_, h.labels⟩
  · cases hx with
    | part hPart _ hBinds =>
        cases hPart
        exact h.names x hBinds
  · rcases List.mem_cons.mp hg with rfl | hg
    · exact .guarded span q
    · exact .part (.guarded span g.id) (h.guards g' hg)

/- An alternation binds the names of its first branch. -/
theorem alt
    {ps : List Pattern}
    {branches : List (Checked × List Binding)}
    {before : List Binding}
    (h :
      List.Forall₂
        (fun p b => Kept p b.1 ((before ++ b.2).map Binding.name)) ps
        branches)
    (hSome : ps ≠ [])
    (span : Span) :
    Kept (.alt span ps) (.alt span (branches.map Prod.fst))
      ((before ++ (branches.head?.map Prod.snd).getD []).map
        Binding.name) := by
  have hEach :
      ∀ p ∈ ps, ∃ b ∈ branches,
        Kept p b.1 ((before ++ b.2).map Binding.name) :=
    fun p hp => exists_counterpart h.flip hp
  refine ⟨fun x hx => ?_, fun g hg => ?_, fun t => ?_⟩
  · cases hx with
    | part hPart hFirst hBinds =>
        have hHead := hFirst span ps rfl
        cases h with
        | nil => cases hHead
        | cons hKept =>
            cases hHead
            exact hKept.names x hBinds
  · have hAll : g ∈ Pattern.guardsOfList ps := hg
    rw [Pattern.guardsOfList_eq] at hAll
    rcases List.mem_flatMap.mp hAll with ⟨p, hp, hg⟩
    rcases hEach p hp with ⟨b, hb, hKept⟩
    exact .part (.branch span (List.mem_map_of_mem hb)) (hKept.guards g hg)
  · apply Checked.labels_alt_ne_nil
    · intro hNone
      have hLength := h.length_eq
      rw [List.map_eq_nil_iff.mp hNone] at hLength
      exact hSome (List.length_eq_zero_iff.mp hLength)
    · intro q hq
      rcases List.mem_map.mp hq with ⟨b, hb, rfl⟩
      rcases exists_counterpart h hb with ⟨p, -, hKept⟩
      exact hKept.labels t

end Kept

/- What is a discriminator stays one as the pool grows. -/
theorem SchemaPool.Grows.isDiscriminator
    {p p' : SchemaPool}
    (hGrows : p.Grows p')
    {slot : SchemaId}
    {name : String}
    (h : (p.get slot).isDiscriminator name = true) :
    (p'.get slot).isDiscriminator name = true := by
  by_cases hLt : slot < p.size
  · rw [hGrows.get_eq hLt]
    exact h
  · rw [SchemaPool.get_of_le (Nat.le_of_not_lt hLt)] at h
    cases h

namespace Checked

/-
  A name is that of the discriminator of the type whose
  fields are read by an object pattern at a span.
-/
def Discriminates
    (q : Checked)
    (pool : SchemaPool)
    (span : Span)
    (name : String) : Prop :=
  ∃ head reads, q.Contains (.object span head reads) ∧
    (pool.get head.schema).isDiscriminator name = true

/- All such names are among some names at their spans. -/
def DiscriminatesWithin
    (D : Span → String → Prop)
    (pool : SchemaPool)
    (q : Checked) : Prop :=
  ∀ span name, q.Discriminates pool span name → D span name

variable {D : Span → String → Prop}
variable {pool pool' : SchemaPool}
variable {p q : Checked}

theorem DiscriminatesWithin.part
    (h : q.DiscriminatesWithin D pool)
    (hPart : p.PartOf q) :
    p.DiscriminatesWithin D pool := by
  rintro span name ⟨head, reads, hIn, hName⟩
  exact h span name ⟨head, reads, .head hPart hIn, hName⟩

/- They were among these names before the pool has grown. -/
theorem DiscriminatesWithin.before
    (h : q.DiscriminatesWithin D pool')
    (hGrows : pool.Grows pool') :
    q.DiscriminatesWithin D pool := by
  rintro span name ⟨head, reads, hIn, hName⟩
  exact h span name ⟨head, reads, hIn, hGrows.isDiscriminator hName⟩

end Checked

/-
  What a pattern has is kept, if no constructor gives a part
  twice for what turns out to be its discriminator.
-/
def KeptWhen
    (D : Span → String → Prop) : Outcome :=
  fun p id s q s' =>
    s.registry.Orderly →
    id < s.pool.size →
    q.DiscriminatesWithin D s'.pool →
    p.GivesOnceEverywhere D →
    Kept p q s'.names

/- A pattern is accepted, and what it has is kept. -/
def KeptOutcome
    (ctx : CheckContext)
    (D : Span → String → Prop) : Outcome :=
  fun p id s q s' =>
    AcceptedOutcome ctx p id s q s' ∧ KeptWhen D p id s q s'

end MatchCompiler

------------------------------------------------------------
-- Parts That Are Given
------------------------------------------------------------

namespace MatchCompiler

namespace Schema

variable {t : Schema}
variable {fields : List (FieldName × Pattern)}
variable {args : List Pattern}
variable {pinned : Option (List Member)}

/- What is checked against fields is given by the pattern. -/
theorem partOf_of_mem
    (span : Span)
    (h : ConstructorHead)
    {part : FieldRead × SchemaId × Pattern}
    (hPart :
      part ∈ t.discriminatorParts fields ++
        (t.namedParts pinned fields ++ t.unnamedParts pinned args)) :
    part.2.2.PartOf (.constructor span h fields args) := by
  rcases List.mem_append.mp hPart with hPart | hPart
  · rcases exists_of_mem_discriminatorParts hPart with ⟨f, hf, hSame, -⟩
    rw [← hSame]
    exact .field span h args hf
  · rcases List.mem_append.mp hPart with hPart | hPart
    · rcases exists_of_mem_namedParts hPart with ⟨f, hf, hSame, -⟩
      rw [← hSame]
      exact .field span h args hf
    · exact .arg span h fields (mem_of_mem_unnamedParts hPart)

/- Every field that is given is checked. -/
theorem exists_fieldPart
    {D : String → Prop}
    (hProper : t.Proper)
    (hD : ∀ name, t.isDiscriminator name = true → D name)
    (hOnce :
      fields.Pairwise fun f g => f.1.name = g.1.name → ¬ D f.1.name)
    (hPinned : pinned ≠ some [])
    {f : FieldName × Pattern}
    (hf : f ∈ fields)
    (hReadable :
      t.isDiscriminator f.1.name = false →
        ∃ g, t.readable pinned f.1.name f.1.span = .ok g) :
    ∃ part ∈ t.discriminatorParts fields ++
        (t.namedParts pinned fields ++ t.unnamedParts pinned args),
      part.2.2 = f.2 := by
  cases hOther : t.isDiscriminator f.1.name with
  | true =>
      rcases Option.any_eq_true _ _ |>.mp hOther with ⟨d, hd, hSame⟩
      have hName : d.field = f.1.name := beq_iff_eq.mp hSame
      have hFind := find?_eq_of_pairwise hOnce hf (hD _ hOther)
      have hParts :
          ∃ read, t.discriminatorParts fields =
            [(read, d.schema, f.2)] := by
        simp only [discriminatorParts, hd, hName, hFind]
        exact ⟨_, rfl⟩
      rcases hParts with ⟨read, hParts⟩
      refine ⟨(read, d.schema, f.2), ?_, rfl⟩
      apply List.mem_append_left
      rw [hParts]
      exact List.mem_singleton_self _
  | false =>
      rcases hReadable hOther with ⟨field?, hField⟩
      rcases hProper.exists_field hField hPinned with ⟨g, rfl⟩
      refine ⟨(g.read, g.schema, f.2), ?_, rfl⟩
      apply List.mem_append_right
      apply List.mem_append_left
      refine List.mem_filterMap.mpr ⟨f, hf, ?_⟩
      rw [namedPart?, if_neg (by simp [hOther]), hField]

/- Every argument that stands for a field is checked. -/
theorem exists_argPart
    (hLength : args.length ≤ (t.positionalFields pinned).length)
    {p : Pattern}
    (hp : p ∈ args) :
    ∃ part ∈ t.unnamedParts pinned args, part.2.2 = p := by
  rcases List.mem_iff_getElem.mp hp with ⟨i, hi, rfl⟩
  have hField : i < (t.positionalFields pinned).length := by omega
  have hPart : i < (t.unnamedParts pinned args).length := by
    rw [unnamedParts, List.length_zipWith]
    omega
  refine ⟨(t.unnamedParts pinned args)[i], List.getElem_mem hPart, ?_⟩
  simp only [unnamedParts, List.getElem_zipWith]

/- So every part of a constructor pattern is checked. -/
theorem exists_objectPart
    {D : String → Prop}
    (hProper : t.Proper)
    (hD : ∀ name, t.isDiscriminator name = true → D name)
    (hOnce :
      fields.Pairwise fun f g => f.1.name = g.1.name → ¬ D f.1.name)
    (hPinned : pinned ≠ some [])
    (hReadable :
      ∀ f ∈ fields, t.isDiscriminator f.1.name = false →
        ∃ g, t.readable pinned f.1.name f.1.span = .ok g)
    (hLength : args.length ≤ (t.positionalFields pinned).length)
    {span : Span}
    {h : ConstructorHead}
    {p : Pattern}
    (hp : p.PartOf (.constructor span h fields args)) :
    ∃ part ∈ t.discriminatorParts fields ++
        (t.namedParts pinned fields ++ t.unnamedParts pinned args),
      part.2.2 = p := by
  cases hp with
  | field _ _ _ hMem =>
      exact exists_fieldPart hProper hD hOnce hPinned hMem
        (hReadable _ hMem)
  | arg _ _ _ hMem =>
      rcases exists_argPart hLength hMem with ⟨part, hPart, hSame⟩
      refine ⟨part, ?_, hSame⟩
      apply List.mem_append_right
      apply List.mem_append_right
      exact hPart

end Schema

namespace SeqElement

variable {es : List (SeqElement Pattern)}
variable {p : Pattern}

/- The pattern of an item is checked at the element type. -/
theorem mem_itemParts
    {d : Option Literal}
    (h : .item p d ∈ es)
    (element : SchemaId) :
    (d, element, p) ∈ itemParts element es :=
  List.mem_filterMap.mpr ⟨_, h, rfl⟩

/- The only spread is bound to what it is given. -/
theorem spreadPattern?_eq
    (hOne : (spreadSpans es).length ≤ 1)
    {span : Span}
    (h : .spread (some p) span ∈ es) :
    spreadPattern? es = some p := by
  induction es with
  | nil => cases h
  | cons e es ih =>
      cases e with
      | item p' d =>
          rcases List.mem_cons.mp h with hEq | h
          · cases hEq
          · exact ih hOne h
      | spread p' span' =>
          rcases List.mem_cons.mp h with hEq | h
          · cases hEq
            rfl
          · have hMem : span ∈ spreadSpans es :=
              List.mem_filterMap.mpr ⟨_, h, rfl⟩
            have hSpans :
                spreadSpans (.spread p' span' :: es) =
                  span' :: spreadSpans es :=
              rfl
            rw [hSpans, List.length_cons] at hOne
            have hNone := List.length_eq_zero_iff.mp
              (Nat.le_zero.mp (Nat.le_of_succ_le_succ hOne))
            rw [hNone] at hMem
            cases hMem

/- A tuple that has a pattern for each field checks them all. -/
theorem exists_tuplePart
    {type : String}
    {fields : List Field}
    (hPlain : tupleProblem? type es = none)
    (hLength : es.length = fields.length)
    {e : SeqElement Pattern}
    (he : e ∈ es)
    (hp : e.pattern? = some p) :
    ∃ part ∈ tupleParts es fields, part.2.2 = p := by
  have hItem : e = .item p none := by
    have hFine := List.findSome?_eq_none_iff.mp hPlain e he
    match e, hp, hFine with
    | .item _ none, hp, _ =>
        cases hp
        rfl
  rcases List.mem_iff_getElem.mp he with ⟨i, hi, hEq⟩
  have hField : i < fields.length := by omega
  refine ⟨(fields[i].position, fields[i].schema, p), ?_, rfl⟩
  refine List.mem_filterMap.mpr ⟨(es[i], fields[i]), ?_, ?_⟩
  · apply List.mem_iff_getElem.mpr
    refine ⟨i, by rw [List.length_zip]; omega, List.getElem_zip⟩
  · rw [hEq, hItem]

end SeqElement

end MatchCompiler

------------------------------------------------------------
-- Parts In Turn Are Kept
------------------------------------------------------------

namespace MatchCompiler

variable {ctx : CheckContext}
variable {D : Span → String → Prop}

/- Names that are bound stay bound. -/
theorem Progress.Grows.names_subset
    {s s' : Progress}
    (h : s.Grows s') :
    s.names ⊆ s'.names :=
  List.map_subset _ h.subset

/- Checking parts in turn uses the registry and adds names. -/
theorem InTurn.progress
    {α : Type}
    {parts : List (α × SchemaId × Pattern)}
    {qs : List (α × Checked)}
    {s s' : Progress}
    (h : InTurn (KeptOutcome ctx D) parts s qs s')
    (hs : s.registry.Settled)
    (hSlots : ∀ part ∈ parts, part.2.1 < s.pool.size) :
    s.registry.Later s'.registry ∧ s.Grows s' := by
  have hAccepted : InTurn (AcceptedOutcome ctx) parts s qs s' :=
    h.imp fun hKept => hKept.1
  exact ⟨hAccepted.accepts.1.later hs hSlots, hAccepted.accepts.2⟩

/- Every part is kept. -/
theorem InTurn.kept
    {α : Type}
    {parts : List (α × SchemaId × Pattern)}
    {qs : List (α × Checked)}
    {s s' : Progress}
    (h : InTurn (KeptOutcome ctx D) parts s qs s')
    (hOrderly : s.registry.Orderly)
    (hSlots : ∀ part ∈ parts, part.2.1 < s.pool.size)
    (hD : ∀ q ∈ qs, q.2.DiscriminatesWithin D s'.pool)
    (hOnce : ∀ part ∈ parts, part.2.2.GivesOnceEverywhere D) :
    List.Forall₂ (fun part q => Kept part.2.2 q.2 s'.names) parts qs := by
  induction h with
  | nil s => exact .nil
  | @cons _ id p q parts qs s s₁ s₂ hHead hTail ih =>
      rcases List.forall_mem_cons.mp hSlots with ⟨hSlot, hSlots⟩
      rcases List.forall_mem_cons.mp hOnce with ⟨hOwn, hOthers⟩
      rcases List.forall_mem_cons.mp hD with ⟨hHere, hRest⟩
      have hLater := hHead.1.1.later hOrderly.settled hSlot
      have hOrderly₁ := hLater.orderly hOrderly
      have hLe := (hLater.settled hOrderly.settled).2.pool.size_le
      have hSlots₁ : ∀ part ∈ parts, part.2.1 < s₁.pool.size :=
        fun part hPart => (hSlots part hPart).trans_le hLe
      rcases hTail.progress hOrderly₁.settled hSlots₁ with ⟨hMore, hGrows⟩
      have hPool := (hMore.settled hOrderly₁.settled).2.pool
      have hKept := hHead.2 hOrderly hSlot (hHere.before hPool) hOwn
      exact .cons (hKept.mono hGrows.names_subset)
        (ih hOrderly₁ hSlots₁ hRest hOthers)

theorem BranchesInTurn.later
    {id : SchemaId}
    {before : List Binding}
    {ps : List Pattern}
    {branches : List (Checked × List Binding)}
    {r r' : Registry}
    (h : BranchesInTurn (KeptOutcome ctx D) id before ps r branches r')
    (hs : r.Settled)
    (hId : id < r.pool.size) :
    r.Later r' := by
  have hAccepted :
      BranchesInTurn (AcceptedOutcome ctx) id before ps r branches r' :=
    h.imp fun hKept => hKept.1
  exact hAccepted.accepts.later hs hId

/- Every branch is kept, with the names that it adds. -/
theorem BranchesInTurn.kept
    {id : SchemaId}
    {before : List Binding}
    {ps : List Pattern}
    {branches : List (Checked × List Binding)}
    {r r' : Registry}
    (h : BranchesInTurn (KeptOutcome ctx D) id before ps r branches r')
    (hOrderly : r.Orderly)
    (hId : id < r.pool.size)
    (hD : ∀ b ∈ branches, b.1.DiscriminatesWithin D r'.pool)
    (hOnce : ∀ p ∈ ps, p.GivesOnceEverywhere D) :
    List.Forall₂
      (fun p b => Kept p b.1 ((before ++ b.2).map Binding.name)) ps
      branches := by
  induction h with
  | nil r => exact .nil
  | cons hHead hTail ih =>
      rcases List.forall_mem_cons.mp hOnce with ⟨hOwn, hOthers⟩
      rcases List.forall_mem_cons.mp hD with ⟨hHere, hRest⟩
      have hLater := hHead.1.1.later hOrderly.settled hId
      have hOrderly₁ := hLater.orderly hOrderly
      have hId₁ := hId.trans_le
        (hLater.settled hOrderly.settled).2.pool.size_le
      have hMore := hTail.later hOrderly₁.settled hId₁
      have hPool := (hMore.settled hOrderly₁.settled).2.pool
      exact .cons (hHead.2 hOrderly hId (hHere.before hPool) hOwn)
        (ih hOrderly₁ hId₁ hRest hOthers)

theorem SpreadInTurn.progress
    {element : SchemaId}
    {p : Option Pattern}
    {q : Option Checked}
    {s s' : Progress}
    (h : SpreadInTurn (KeptOutcome ctx D) element p s q s')
    (hs : s.registry.Settled)
    (hElement : element < s.pool.size) :
    s.registry.Later s'.registry ∧ s.Grows s' := by
  have hAccepted : SpreadInTurn (AcceptedOutcome ctx) element p s q s' :=
    h.imp fun hKept => hKept.1
  exact ⟨hAccepted.accepts.1.later hs hElement, hAccepted.accepts.2⟩

/- What a spread is bound to is kept. -/
theorem SpreadInTurn.kept
    {element : SchemaId}
    {p : Pattern}
    {q : Option Checked}
    {s s' : Progress}
    (h :
      SpreadInTurn (KeptOutcome ctx D) element (Option.some p) s q s')
    (hOrderly : s.registry.Orderly)
    (hElement : element < s.pool.size)
    (hD : ∀ inner ∈ q, inner.DiscriminatesWithin D s'.pool)
    (hOnce : p.GivesOnceEverywhere D) :
    ∃ inner, q = Option.some inner ∧ Kept p inner s'.names := by
  cases h with
  | @some _ inner _ _ hInner =>
      have hUse : s.registry.Use (s.sequenceOf element).1.registry
          (s.sequenceOf element).2 := .sequenceOf hElement
      have hNext : s.registry.Later (s.sequenceOf element).1.registry :=
        .single ⟨_, hUse⟩
      exact ⟨inner, rfl, hInner.2 (hNext.orderly hOrderly)
        (hUse.settled hOrderly.settled).2 (hD inner rfl) hOnce⟩

end MatchCompiler

------------------------------------------------------------
-- Nodes Are Kept
------------------------------------------------------------

namespace MatchCompiler

variable {ctx : CheckContext}
variable {D : Span → String → Prop}

/-
  Some branch is pinned, if any are, as no pattern for the
  discriminator allows none.
-/
theorem Schema.pinnedBy_ne_nil
    {t : Schema}
    {caseName : Option String}
    {span : Span}
    {marker : Char}
    {fromCase : Option (List Member)}
    {disc : List (FieldRead × Checked)}
    (hCase :
      caseName.mapM (fun c => t.pinCase marker c span) = .ok fromCase)
    (hMeet : t.pinnedBy fromCase disc = some [] → fromCase.getD [] = [])
    (hLabels : ∀ f ∈ disc, f.2.labels t ≠ some []) :
    t.pinnedBy fromCase disc ≠ some [] := by
  intro hNone
  have hNothing := hMeet hNone
  cases fromCase with
  | some named =>
      rcases Schema.exists_pinCase hCase with ⟨c, hOne⟩
      rcases Schema.eq_of_pinCase hOne with ⟨b, -, rfl⟩
      cases hNothing
  | none =>
      cases disc with
      | nil => cases hNone
      | cons f fs =>
          have hOwn := hLabels f List.mem_cons_self
          simp only [Schema.pinnedBy] at hNone
          cases hFirst : f.2.labels t with
          | none =>
              rw [hFirst] at hNone
              cases hNone
          | some labels =>
              rw [hFirst] at hNone hOwn
              exact hOwn hNone

/- A constructor pattern keeps its fields and arguments. -/
theorem ConstructorOutcome.kept
    {span : Span}
    {h : ConstructorHead}
    {id : SchemaId}
    {s s' : Progress}
    {fields : List (FieldName × Pattern)}
    {args : List Pattern}
    {q : Checked}
    (hOutcome :
      ConstructorOutcome ctx (KeptOutcome ctx D) span h id s fields args q
        s') :
    KeptWhen D (.constructor span h fields args) id s q s' := by
  intro hOrderly hSlot hD hOnce
  cases hOutcome with
  | @some p element q s' hKind hElement hInner =>
      have hElementSlot :=
        (hOrderly.settled.closed.pool.slots id).element _ hElement
      have hPart : p.PartOf (.constructor span h [] [p]) :=
        .arg span h [] List.mem_cons_self
      have hKept := hInner.2 hOrderly hElementSlot
        (hD.part (.payload span)) (hOnce.part hPart)
      refine .of_unlabelled trivial (fun _ => rfl) fun part hPart => ?_
      refine ⟨q, .payload span, ?_⟩
      cases hPart with
      | field _ _ _ hMem => cases hMem
      | arg _ _ _ hMem =>
          cases List.mem_singleton.mp hMem
          exact hKept
  | someUnknown hKind hElement =>
      rcases (hOrderly.proper id).exists_element hKind with ⟨slot, hSome⟩
      cases hElement.symm.trans hSome
  | none hKind =>
      refine .of_unlabelled trivial (fun _ => rfl) fun part hPart => ?_
      cases hPart with
      | field _ _ _ hMem => cases hMem
      | arg _ _ _ hMem => cases hMem
  | @object _ _ resolved target fromCase disc rest s₁ s₂ s₃ hKind hHead
      hSchema hCase hDisc hRest hReadable hMeet hArgs =>
      have hOrderly₁ := hHead.later.orderly hOrderly
      have hProper : target.Proper := by
        rw [← hSchema]
        exact hOrderly₁.proper _
      have hTarget := hHead.target_within hOrderly.settled
      rw [hSchema] at hTarget
      have hSlots := List.forall_mem_append.mpr
        ⟨hTarget.discriminatorParts fields,
          hTarget.otherParts (target.pinnedBy fromCase disc) fields args⟩
      -- The discriminator's pattern and the others, in one list.
      have hParts := hDisc.append hRest
      rcases hParts.progress hOrderly₁.settled hSlots with ⟨hLater, -⟩
      have hKept := hParts.kept hOrderly₁ hSlots
        (fun f hf => hD.part (.field span _ hf))
        fun part hPart => hOnce.part (Schema.partOf_of_mem span h hPart)
      -- With no branch left to read of, a field would be passed over.
      have hPinned : target.pinnedBy fromCase disc ≠ Option.some [] := by
        refine Schema.pinnedBy_ne_nil hCase hMeet fun f hf => ?_
        rcases exists_counterpart hKept (List.mem_append_left _ hf) with
          ⟨part, -, hPart⟩
        exact hPart.labels target
      have hPool := (hLater.settled hOrderly₁.settled).2.pool
      have hD₁ :
          ∀ name, target.isDiscriminator name = true → D span name := by
        intro name hName
        rw [← hSchema] at hName
        exact hD span name ⟨_, _, .refl, hPool.isDiscriminator hName⟩
      refine .of_unlabelled trivial (fun _ => rfl) fun p hp => ?_
      rcases Schema.exists_objectPart hProper hD₁ (hOnce _ .refl) hPinned
          hReadable hArgs hp with ⟨part, hPart, rfl⟩
      rcases exists_counterpart hKept.flip hPart with ⟨f, hf, hKept⟩
      exact ⟨f.2, .field span _ hf, hKept⟩

/- A positional pattern keeps its elements. -/
theorem PositionalOutcome.kept
    {span : Span}
    {es : List (SeqElement Pattern)}
    {id : SchemaId}
    {s s' : Progress}
    {q : Checked}
    (hOutcome :
      PositionalOutcome ctx (KeptOutcome ctx D) span es id s q s') :
    KeptWhen D (.seq span es) id s q s' := by
  intro hOrderly hSlot hD hOnce
  have hOwn := hOrderly.settled.closed.pool.slots id
  cases hOutcome with
  | @seq element items spread s₁ _ hOne hKind hElement hDefaults hFixed
      hItems hSpread =>
      have hLt := hOwn.element _ hElement
      have hSlots :
          ∀ part ∈ SeqElement.itemParts element es,
            part.2.1 < s.pool.size :=
        fun part hPart =>
          (SeqElement.exists_of_mem_itemParts hPart).2 ▸ hLt
      rcases hItems.progress hOrderly.settled hSlots with ⟨hLater, -⟩
      have hOrderly₁ := hLater.orderly hOrderly
      have hLt₁ := hLt.trans_le
        (hLater.settled hOrderly.settled).2.pool.size_le
      rcases hSpread.progress hOrderly₁.settled hLt₁ with ⟨hMore, hGrows⟩
      have hPool := (hMore.settled hOrderly₁.settled).2.pool
      have hKept := hItems.kept hOrderly hSlots
        (fun i hi => (hD.part (.item span _ _ _
          (List.mem_map_of_mem hi))).before hPool)
        fun part hPart => hOnce.part (.element span
          (SeqElement.exists_of_mem_itemParts hPart).1 rfl)
      refine .of_unlabelled trivial (fun _ => rfl) fun p hp => ?_
      cases hp with
      | @element _ _ e hMem hPattern =>
          have hPart : p.PartOf (.seq span es) :=
            .element span hMem hPattern
          match e, hPattern, hMem with
          | .item _ d, rfl, hMem =>
              rcases exists_counterpart hKept.flip
                  (SeqElement.mem_itemParts hMem element) with
                ⟨i, hi, hKept⟩
              exact ⟨i.2, .item span _ _ _ (List.mem_map_of_mem hi),
                hKept.mono hGrows.names_subset⟩
          | .spread _ sp, rfl, hMem =>
              rw [SeqElement.spreadPattern?_eq hOne hMem] at hSpread
              have hDSpread :
                  ∀ inner ∈ spread,
                    inner.DiscriminatesWithin D s'.pool := by
                rintro inner ⟨⟩
                exact hD.part (.spread span _ _ _)
              rcases hSpread.kept hOrderly₁ hLt₁ hDSpread
                  (hOnce.part hPart) with ⟨inner, rfl, hKept⟩
              exact ⟨inner, .spread span _ _ _, hKept⟩
  | tuple hKind hPlain hLength hItems =>
      have hSlots :
          ∀ part ∈ SeqElement.tupleParts es (s.pool.get id).fields,
            part.2.1 < s.pool.size := by
        intro part hPart
        rcases SeqElement.exists_field_of_mem_tupleParts hPart with
          ⟨f, hField, -, hSame⟩
        exact hSame ▸ hOwn.fields f hField
      have hOnceParts :
          ∀ part ∈ SeqElement.tupleParts es (s.pool.get id).fields,
            part.2.2.GivesOnceEverywhere D := by
        intro part hPart
        rcases SeqElement.exists_of_mem_tupleParts hPart with ⟨e, he, hp⟩
        exact hOnce.part (.element span he hp)
      have hKept := hItems.kept hOrderly hSlots
        (fun i hi => hD.part (.place span hi)) hOnceParts
      refine .of_unlabelled trivial (fun _ => rfl) fun p hp => ?_
      cases hp with
      | element _ hMem hPattern =>
          rcases SeqElement.exists_tuplePart hPlain hLength hMem hPattern
            with ⟨part, hPart, rfl⟩
          rcases exists_counterpart hKept.flip hPart with ⟨i, hi, hKept⟩
          exact ⟨i.2, .place span hi, hKept⟩

end MatchCompiler

------------------------------------------------------------
-- Patterns And Arms Are Kept
------------------------------------------------------------

namespace MatchCompiler

variable {ctx : CheckContext}
variable {D : Span → String → Prop}

namespace Pattern

/- What is kept is kept of an accepted pattern. -/
theorem checksTo_of_keptWhen
    {p : Pattern}
    (h : ∀ id, Sound (p.check ctx id) (KeptWhen D p id)) :
    p.ChecksTo ctx (KeptOutcome ctx D) :=
  fun id => (p.sound_check id).both (h id)

/- A pattern without parts is kept if it is when accepted. -/
theorem checksTo_of_accepts
    {p : Pattern}
    (h :
      ∀ {id s q s'}, Accepts ctx p id s q s' → Kept p q s'.names) :
    p.ChecksTo ctx (KeptOutcome ctx D) :=
  fun id => (p.sound_check id).mono fun _ _ _ hAccepted =>
    ⟨hAccepted, fun _ _ _ _ => h hAccepted.1⟩

/- Checking a pattern without problems keeps what it has. -/
theorem checksTo_kept
    (p : Pattern) :
    p.ChecksTo ctx (KeptOutcome ctx D) := by
  induction p using partInduction with
  | wildcard span =>
      refine checksTo_of_accepts fun hAccepts => ?_
      cases hAccepts
      exact .of_unlabelled trivial (fun _ => rfl) nofun
  | literal span l =>
      refine checksTo_of_accepts fun hAccepts => ?_
      cases hAccepts with
      | literal =>
          exact .of_node trivial
            (fun t => Checked.labels_literal_ne_nil t span _) nofun
  | set span ls exact =>
      refine checksTo_of_accepts fun hAccepts => ?_
      cases hAccepts
      exact .of_unlabelled trivial (fun _ => rfl) nofun
  | typeTest span target =>
      refine checksTo_of_accepts fun hAccepts => ?_
      cases hAccepts with
      | typeTest hTested =>
          cases hTested <;>
            exact .of_unlabelled trivial (fun _ => rfl) nofun
  | bind span x =>
      refine checksTo_of_accepts fun hAccepts => ?_
      cases hAccepts with
      | bind =>
          exact .bind span (List.mem_map_of_mem
            (List.mem_append_right _ List.mem_cons_self))
  | narrow span x target =>
      refine checksTo_of_accepts fun hAccepts => ?_
      cases hAccepts with
      | narrow hTested =>
          refine .narrow span target (List.mem_map_of_mem
            (List.mem_append_right _ List.mem_cons_self)) fun t => ?_
          cases hTested <;> rfl
  | named span x p ih =>
      refine checksTo_of_keptWhen fun id => ?_
      refine (ih id).bind fun q => ?_
      refine (Sound.bindName x id span).bind fun _ => ?_
      refine Sound.pure fun s s₁ hBound s₀ hKept hOrderly hSlot hD
        hOnce => ?_
      rcases hBound with ⟨-, rfl⟩
      have hInner := hKept.2 hOrderly hSlot (hD.part (.bind span x))
        (hOnce.part (.named span x))
      refine hInner.named span (s₁.grows_add _).names_subset ?_
      exact List.mem_map_of_mem
        (List.mem_append_right _ List.mem_cons_self)
  | guarded span p g ih =>
      refine checksTo_of_keptWhen fun id => ?_
      refine (ih id).bind fun q => ?_
      refine (Sound.guardNames span g).bind fun _ => ?_
      refine Sound.pure fun s s₁ hNames s₀ hKept hOrderly hSlot hD
        hOnce => ?_
      rcases hNames with ⟨-, rfl⟩
      have hInner := hKept.2 hOrderly hSlot
        (hD.part (.guarded span g.id)) (hOnce.part (.guarded span g))
      exact hInner.guarded span g
  | alt span ps ih =>
      refine checksTo_of_keptWhen fun id => ?_
      refine (sound_alt span ih (fun _ _ _ _ _ h => h.1.2) id).mono
        fun s q s' hOutcome hOrderly hSlot hD hOnce => ?_
      rcases hOutcome with ⟨branches, r, hBranches, -, rfl, rfl⟩
      have hKept := hBranches.kept hOrderly hSlot
        (fun b hb => hD.part (.branch span (List.mem_map_of_mem hb)))
        fun p hp => hOnce.part (.branch span hp)
      exact .alt hKept (hOnce _ .refl) span
  | constructor span h fs ps ihFields ihArgs =>
      refine checksTo_of_keptWhen fun id => ?_
      exact (sound_constructor span h ihFields ihArgs id).mono
        fun s q s' hOutcome => hOutcome.kept
  | seq span es ih =>
      refine checksTo_of_keptWhen fun id => ?_
      exact (sound_positional span ih id).mono
        fun s q s' hOutcome => hOutcome.kept
  | map span es ih =>
      refine checksTo_of_keptWhen fun id => ?_
      refine (sound_map span ih id).mono
        fun s q s' hOutcome hOrderly hSlot hD hOnce => ?_
      rcases hOutcome with ⟨key, value, entries, -, hValue, hEntries, rfl⟩
      have hSlots :
          ∀ part ∈ entryParts value es, part.2.1 < s.pool.size := by
        intro part hPart
        rcases List.mem_map.mp hPart with ⟨entry, -, rfl⟩
        exact (hOrderly.settled.closed.pool.slots id).value _ hValue
      have hOnceParts :
          ∀ part ∈ entryParts value es,
            part.2.2.GivesOnceEverywhere D := by
        intro part hPart
        rcases List.mem_map.mp hPart with ⟨entry, hMem, rfl⟩
        exact hOnce.part (.entry span hMem)
      have hKept := hEntries.kept hOrderly hSlots
        (fun e he => hD.part (.entry span he)) hOnceParts
      refine .of_unlabelled trivial (fun _ => rfl) fun p hp => ?_
      cases hp with
      | @entry _ _ key hMem =>
          have hPart : (key, value, p) ∈ entryParts value es :=
            List.mem_map_of_mem hMem
          rcases exists_counterpart hKept.flip hPart with ⟨e, he, hKept⟩
          exact ⟨e.2, .entry span he, hKept⟩

end Pattern

/-
  Nothing of a pattern is dropped when an arm is accepted, if
  no constructor in it has two patterns for the discriminator
  of the type that it reads, which is that of the object
  pattern it becomes: every name that it binds is among the
  names of the arm, and every guard stands in the checked
  pattern.
-/
theorem checkArm_keeps
    {marker : Char}
    {r r' : Registry}
    {id : SchemaId}
    {p : Pattern}
    {arm : CheckedArm}
    (hUses : Registry.Later { marker } r)
    (hSlot : id < r.pool.size)
    (hCheck : r.checkArm ctx id p = (r', .ok arm))
    (hBranches : ∀ span ps, p.Contains (.alt span ps) → ps ≠ [])
    (hOnce :
      ∀ span h fields args,
        p.Contains (.constructor span h fields args) →
        fields.Pairwise fun f g =>
          f.1.name = g.1.name →
            ¬ arm.pattern.Discriminates r'.pool span f.1.name) :
    (∀ x, p.Binds x → x ∈ arm.bindings.map Binding.name) ∧
    ∀ g ∈ p.guards, arm.pattern.Asks g.id := by
  have hGiven :
      p.GivesOnceEverywhere (arm.pattern.Discriminates r'.pool) := by
    intro q hq
    cases q with
    | alt span ps => exact hBranches span ps hq
    | constructor span h fields args => exact hOnce span h fields args hq
    | _ => trivial
  have hChecks :
      p.ChecksTo ctx
        (KeptOutcome ctx (arm.pattern.Discriminates r'.pool)) :=
    p.checksTo_kept
  have hOutcome := (hChecks id).of_run (run_of_checkArm hCheck) rfl
  have hOrderly := hUses.orderly (Registry.orderly_fresh marker)
  have hKept := hOutcome.2 hOrderly hSlot (fun _ _ h => h) hGiven
  exact ⟨hKept.names, hKept.guards⟩

/- A pattern with two patterns for a field of a branch. -/
def twiceReadPattern : Pattern :=
  .constructor {} {}
    [(⟨"kind", {}⟩,
        .guarded {} (.named {} "k" (.literal {} (.sym "A")))
          { id := 7, text := "", uses := ["k"] }),
      (⟨"x", {}⟩, .bind {} "n"), (⟨"x", {}⟩, .bind {} "m")] []

/- What it is checked to. -/
def twiceReadArm : CheckedArm :=
  { pattern :=
      .object {}
        { schema := 0, nilCheck := false, runtimeType := none, pin := none }
        [(⟨"kind", 0⟩,
            .guarded {}
              (.bind {} "k" (.literal {} (.member ⟨"A", 0⟩))) 7),
          (⟨"x", 1⟩, .bind {} "n" (.wildcard {})),
          (⟨"x", 1⟩, .bind {} "m" (.wildcard {}))]
    bindings := [⟨"k", 1, {}⟩, ⟨"n", 2, {}⟩, ⟨"m", 2, {}⟩] }

/- The field of the branches is no discriminator. -/
theorem mixedNodeSchemas_isDiscriminator (slot : SchemaId) :
    ((mixedNodeSchemas .str).pool.get slot).isDiscriminator "x" =
      false := by
  by_cases hLt : slot < 4
  · have hNone :
        ∀ slot < 4,
          ((mixedNodeSchemas .str).pool.get slot).isDiscriminator "x" =
            false := by
      decide
    exact hNone slot hLt
  · rw [SchemaPool.get_of_le (Nat.le_of_not_lt hLt)]
    rfl

theorem twiceReadPattern_givesOnce :
    twiceReadPattern.GivesOnceEverywhere
      (twiceReadArm.pattern.Discriminates
        (mixedNodeSchemas .str).pool) := by
  have hOther :
      ¬ twiceReadArm.pattern.Discriminates (mixedNodeSchemas .str).pool
        {} "x" := by
    rintro ⟨head, reads, -, hName⟩
    rw [mixedNodeSchemas_isDiscriminator] at hName
    cases hName
  unfold twiceReadPattern
  refine .of_parts ?_ fun part hPart => ?_
  · refine .cons (fun g hg hSame => ?_) (.cons (fun g _ _ => ?_) ?_)
    · rcases List.mem_cons.mp hg with rfl | hg
      · exact absurd hSame (by decide)
      · cases List.mem_singleton.mp hg
        exact absurd hSame (by decide)
    · exact hOther
    · exact .cons nofun .nil
  · cases hPart with
    | field _ _ _ hMem =>
        simp only [List.mem_cons, Prod.mk.injEq, List.not_mem_nil,
          or_false] at hMem
        rcases hMem with ⟨rfl, rfl⟩ | ⟨rfl, rfl⟩ | ⟨rfl, rfl⟩
        · refine .of_parts trivial fun part hPart => ?_
          cases hPart
          refine .of_parts trivial fun part hPart => ?_
          cases hPart
          exact .of_parts trivial nofun
        · exact .of_parts trivial nofun
        · exact .of_parts trivial nofun
    | arg _ _ _ hMem => cases hMem

/- All of it is kept. -/
theorem twiceReadPattern_kept :
    "m" ∈ twiceReadArm.bindings.map Binding.name ∧
    twiceReadArm.pattern.Asks 7 := by
  have hCheck :
      (mixedNodeSchemas .str).checkArm
        { table := mixedNodes .str, marker := 'k' } 0 twiceReadPattern =
      (mixedNodeSchemas .str, .ok twiceReadArm) :=
    rfl
  have hKept := checkArm_keeps (mixedNodeSchemas_later .str) (by decide)
    hCheck (fun span ps h => twiceReadPattern_givesOnce _ h)
    (fun span h fields args hIn => twiceReadPattern_givesOnce _ hIn)
  have hPart : (Pattern.bind {} "m").PartOf twiceReadPattern :=
    .field {} {} []
      (List.mem_cons_of_mem _ (List.mem_cons_of_mem _ List.mem_cons_self))
  exact ⟨hKept.1 "m" (.part hPart nofun (.bind {})),
    hKept.2 _ List.mem_cons_self⟩

/- Two patterns for the discriminator, one of them for a name. -/
def twiceTestedPattern : Pattern :=
  .constructor {} {}
    [(⟨"kind", {}⟩, .literal {} (.sym "A")), (⟨"kind", {}⟩, .bind {} "k")]
    []

/- The name is not bound. -/
theorem twiceTestedPattern_dropped :
    ∃ arm,
      (mixedNodeSchemas .str).checkArm
        { table := mixedNodes .str, marker := 'k' } 0 twiceTestedPattern =
        (mixedNodeSchemas .str, .ok arm) ∧
      (∀ span ps, ¬ twiceTestedPattern.Contains (.alt span ps)) ∧
      twiceTestedPattern.Binds "k" ∧
      arm.bindings = [] := by
  have hPart : (Pattern.bind {} "k").PartOf twiceTestedPattern :=
    .field {} {} [] (List.mem_cons_of_mem _ List.mem_cons_self)
  refine ⟨
    { pattern :=
        .object {}
          { schema := 0
            nilCheck := false
            runtimeType := none
            pin := none }
          [(⟨"kind", 0⟩, .literal {} (.member ⟨"A", 0⟩))]
      bindings := [] }, rfl, fun span ps hIn => ?_,
    .part hPart nofun (.bind {}), rfl⟩
  rcases Relation.ReflTransGen.cases_head hIn with
    hSame | ⟨part, hPart, hIn⟩
  · cases hSame
  · unfold twiceTestedPattern at hPart
    cases hPart with
    | field _ _ _ hMem =>
        simp only [List.mem_cons, Prod.mk.injEq, List.not_mem_nil,
          or_false] at hMem
        rcases hMem with ⟨rfl, rfl⟩ | ⟨rfl, rfl⟩ <;>
          rcases Relation.ReflTransGen.cases_head hIn with
            hSame | ⟨inner, hInner, -⟩
        · cases hSame
        · cases hInner
        · cases hSame
        · cases hInner
    | arg _ _ _ hMem => cases hMem

end MatchCompiler
