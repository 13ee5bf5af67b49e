import Mathlib.Data.List.Forall2
import MatchCompiler.Pattern.Check

/-
  This file describes which patterns are accepted, apart from
  how problems are collected.

  A pattern is accepted at a schema in some progress of
  checking if checking it reports nothing. The rules say what
  every node then knows: the kind of its schema, the names it
  binds, the fields it reads, and how far the registry has
  grown when its parts are checked.

  Key definitions include:
    * `Progress`
    * `SetMember.Means`
    * `HeadMeans`
    * `TypeTested`
    * `Accepts`

  Key theorems include:
    * `Pattern.partInduction`
    * `Schema.cases_of_readable`
    * `SchemaPool.cases_of_checkLiteral`
-/

------------------------------------------------------------
-- Induction Over Patterns
------------------------------------------------------------

namespace MatchCompiler

/- The pattern of an element, if it has one. -/
def SeqElement.pattern? : SeqElement Pattern → Option Pattern
| .item p _ => some p
| .spread p _ => p

namespace Pattern

section

variable {motive : Pattern → Prop}
variable (wildcard : ∀ s, motive (.wildcard s))
variable (bind : ∀ s x, motive (.bind s x))
variable (literal : ∀ s l, motive (.literal s l))
variable (alt : ∀ s ps, (∀ p ∈ ps, motive p) → motive (.alt s ps))
variable (guarded : ∀ s p g, motive p → motive (.guarded s p g))
variable (named : ∀ s x p, motive p → motive (.named s x p))
variable (constructor :
  ∀ s h fs ps, (∀ f ∈ fs, motive (Prod.snd f)) →
    (∀ p ∈ ps, motive p) → motive (.constructor s h fs ps))
variable (seq :
  ∀ s es, (∀ e ∈ es, ∀ p ∈ SeqElement.pattern? e, motive p) →
    motive (.seq s es))
variable (typeTest : ∀ s t, motive (.typeTest s t))
variable (narrow : ∀ s x t, motive (.narrow s x t))
variable (map :
  ∀ s es, (∀ e ∈ es, motive (Prod.snd e)) → motive (.map s es))
variable (set : ∀ s ls exact, motive (.set s ls exact))

include wildcard bind literal alt guarded named constructor seq
  typeTest narrow map set

set_option linter.unusedSectionVars false in
mutual

/- Induction over patterns with one case for each form. -/
@[elab_as_elim]
theorem partInduction
    (p : Pattern) :
    motive p := by
  cases p with
  | wildcard s => exact wildcard s
  | bind s x => exact bind s x
  | literal s l => exact literal s l
  | alt s ps => exact alt s ps (partInductionAll ps)
  | guarded s p g => exact guarded s p g (partInduction p)
  | named s x p => exact named s x p (partInduction p)
  | constructor s h fs ps =>
      exact constructor s h fs ps (partInductionFields fs)
        (partInductionAll ps)
  | seq s es => exact seq s es (partInductionElements es)
  | typeTest s t => exact typeTest s t
  | narrow s x t => exact narrow s x t
  | map s es => exact map s es (partInductionEntries es)
  | set s ls e => exact set s ls e
termination_by structural p

/- The same for the patterns of a list. -/
theorem partInductionAll
    (ps : List Pattern) :
    ∀ p ∈ ps, motive p := by
  cases ps with
  | nil => exact List.forall_mem_nil _
  | cons q qs =>
      have hHead := partInduction q
      have hTail := partInductionAll qs
      exact List.forall_mem_cons.mpr ⟨hHead, hTail⟩
termination_by structural ps

/- The same for named fields. -/
theorem partInductionFields
    (fs : List (FieldName × Pattern)) :
    ∀ f ∈ fs, motive f.2 := by
  cases fs with
  | nil => exact List.forall_mem_nil _
  | cons f fs =>
      cases f with
      | mk n q =>
          have hHead := partInduction q
          have hTail := partInductionFields fs
          exact List.forall_mem_cons.mpr ⟨hHead, hTail⟩
termination_by structural fs

/- The same for positional elements. -/
theorem partInductionElements
    (es : List (SeqElement Pattern)) :
    ∀ e ∈ es, ∀ p ∈ e.pattern?, motive p := by
  cases es with
  | nil => exact List.forall_mem_nil _
  | cons e es =>
      have hTail := partInductionElements es
      cases e with
      | item q d =>
          have hHead := partInduction q
          refine List.forall_mem_cons.mpr ⟨?_, hTail⟩
          rintro p ⟨⟩
          exact hHead
      | spread q s =>
          cases q with
          | none => exact List.forall_mem_cons.mpr ⟨nofun, hTail⟩
          | some q =>
              have hHead := partInduction q
              refine List.forall_mem_cons.mpr ⟨?_, hTail⟩
              rintro p ⟨⟩
              exact hHead
termination_by structural es

/- The same for the entries of a map. -/
theorem partInductionEntries
    (es : List (Literal × Pattern)) :
    ∀ e ∈ es, motive e.2 := by
  cases es with
  | nil => exact List.forall_mem_nil _
  | cons e es =>
      cases e with
      | mk l q =>
          have hHead := partInduction q
          have hTail := partInductionEntries es
          exact List.forall_mem_cons.mpr ⟨hHead, hTail⟩
termination_by structural es

end

end

end Pattern

end MatchCompiler

------------------------------------------------------------
-- Progress
------------------------------------------------------------

namespace MatchCompiler

/- What checking has come to, apart from problems. -/
structure Progress where
  registry : Registry
  bindings : List Binding

namespace Progress

/- The pool of schemas. -/
def pool (s : Progress) : SchemaPool :=
  s.registry.pool

/- The names that are bound. -/
def names (s : Progress) : List String :=
  s.bindings.map Binding.name

/- Bind one more name. -/
def add
    (s : Progress)
    (b : Binding) : Progress :=
  { s with bindings := s.bindings ++ [b] }

/- Extract the schema of a described type. -/
def extract
    (s : Progress)
    (ctx : CheckContext)
    (id : DescriptorId) : Progress × SchemaId :=
  let (registry, slot) :=
    s.registry.schemaWithin ctx.table ctx.depth id
  ({ s with registry }, slot)

/- Share the schema of the sequences of an element type. -/
def sequenceOf
    (s : Progress)
    (element : SchemaId) : Progress × SchemaId :=
  let (pool, slot) := s.pool.sequenceOf element
  ({ s with registry := { s.registry with pool } }, slot)

end Progress

/- The progress that a state of checking has. -/
def CheckState.progress (s : CheckState) : Progress :=
  { registry := s.registry, bindings := s.bindings }

end MatchCompiler

------------------------------------------------------------
-- Parts
------------------------------------------------------------

namespace MatchCompiler

/- The place of a field that is read. -/
def Field.read (f : Field) : FieldRead :=
  { name := f.name, position := f.position }

namespace Schema

/- The first pattern given to the discriminator. -/
def discriminatorParts
    (s : Schema)
    (fields : List (FieldName × Pattern)) :
    List (FieldRead × SchemaId × Pattern) :=
  match s.discriminator with
  | none => []
  | some d =>
      match fields.find? (fun f => f.1.name == d.field) with
      | none => []
      | some (name, p) =>
          let position :=
            ((s.field? name.name).map Field.position).getD 0
          [({ name := name.name, position }, d.schema, p)]

/-
  The branches that are pinned by the case name and by what
  has become of the discriminator's pattern.
-/
def pinnedBy
    (s : Schema)
    (fromCase : Option (List Member)) :
    List (FieldRead × Checked) → Option (List Member)
| [] => fromCase
| (_, p) :: _ =>
    match p.labels s, fromCase with
    | none, _ => fromCase
    | some labels, none => some labels
    | some labels, some named =>
        some <| labels.filter fun l =>
          named.any (fun c => c.name == l.name)

/-
  A field that can be read is shared by all branches, or all
  pinned ones declare it and that of the first is meant.
-/
theorem cases_of_readable
    {s : Schema}
    {pinned : Option (List Member)}
    {name : String}
    {span : Span}
    {field? : Option Field}
    (h : s.readable pinned name span = .ok field?) :
    (∃ f, s.field? name = some f ∧ field? = some f) ∨
    (s.field? name = none ∧ ∃ labels, pinned = some labels ∧
      field? = s.pinnedField? labels name ∧
      ∀ l ∈ labels, l.name ∈ s.owners name) := by
  unfold readable at h
  split at h
  · rename_i f hField
    cases h
    exact .inl ⟨f, hField, rfl⟩
  · rename_i hField
    dsimp only at h
    split at h
    · cases h
    · split at h
      · cases h
      · rename_i labels
        split at h
        · rename_i hInside
          cases h
          refine .inr ⟨hField, labels, rfl, rfl, fun l hl => ?_⟩
          rw [List.isEmpty_iff, List.filter_eq_nil_iff] at hInside
          simpa using hInside l.name (List.mem_map_of_mem hl)
        · cases h

/- The pattern of another field, if that can be read. -/
def namedPart?
    (s : Schema)
    (pinned : Option (List Member))
    (field : FieldName × Pattern) :
    Option (FieldRead × SchemaId × Pattern) :=
  if s.isDiscriminator field.1.name then
    none
  else
    match s.readable pinned field.1.name field.1.span with
    | .ok (some f) => some (f.read, f.schema, field.2)
    | _ => none

/- The patterns of the other fields that can be read. -/
def namedParts
    (s : Schema)
    (pinned : Option (List Member))
    (fields : List (FieldName × Pattern)) :
    List (FieldRead × SchemaId × Pattern) :=
  fields.filterMap (s.namedPart? pinned)

/- The patterns of arguments with what they stand for. -/
def unnamedParts
    (s : Schema)
    (pinned : Option (List Member))
    (args : List Pattern) :
    List (FieldRead × SchemaId × Pattern) :=
  List.zipWith (fun p f => (f.read, f.schema, p)) args
    (s.positionalFields pinned)

end Schema

namespace SeqElement

/- The items with their defaults. -/
def itemParts
    (element : SchemaId)
    (es : List (SeqElement Pattern)) :
    List (Option Literal × SchemaId × Pattern) :=
  es.filterMap fun
    | .item p d => some (d, element, p)
    | .spread _ _ => none

/- What the first spread that is bound is bound to. -/
def spreadPattern?
    (es : List (SeqElement Pattern)) : Option Pattern :=
  es.findSome? fun
    | .item _ _ => none
    | .spread p _ => p

/- The items of a tuple with their places. -/
def tupleParts
    (es : List (SeqElement Pattern))
    (fields : List Field) : List (Nat × SchemaId × Pattern) :=
  (es.zip fields).filterMap fun
    | (.item p _, f) => some (f.position, f.schema, p)
    | (.spread _ _, _) => none

end SeqElement

/- The entries of a map pattern with the type of the values. -/
def entryParts
    (value : SchemaId)
    (es : List (Literal × Pattern)) :
    List (Literal × SchemaId × Pattern) :=
  es.map fun (key, p) => (key, value, p)

end MatchCompiler

------------------------------------------------------------
-- Meanings Of Literals
------------------------------------------------------------

namespace MatchCompiler

/- A case name stands for one of the labels. -/
theorem mem_of_label?_resolveCase
    {labels : List String}
    {caseName label : String}
    {marker : Char}
    (h : (resolveCase labels caseName marker).label? = some label) :
    label ∈ labels := by
  unfold resolveCase at h
  split at h
  · cases h
  · split at h
    · rename_i hContains
      cases h
      exact List.contains_iff_mem.mp hContains
    · split at h
      · cases h
      · rename_i found hFilter
        cases h
        have hMem : label ∈ labels.filter (endsMarked marker caseName) :=
          hFilter ▸ List.mem_singleton_self label
        exact (List.mem_filter.mp hMem).1
      · cases h

/- A name of an enumeration means one of its members. -/
theorem exists_of_checkMember
    {marker : Char}
    {s : Schema}
    {name : String}
    {meaning : CheckedLiteral}
    (h : checkMember marker s name = .ok meaning) :
    ∃ m ∈ s.members, meaning = .member m := by
  have hLabel :
      ∀ label, (resolveCase (s.members.map Member.name) name
          marker).label? = some label →
        ∃ m ∈ s.members, s.member? label = some m := by
    intro label hLabel
    rcases List.mem_map.mp (mem_of_label?_resolveCase hLabel) with
      ⟨m, hm, hName⟩
    have hSome : (s.member? label).isSome := by
      unfold Schema.member?
      rw [List.find?_isSome]
      exact ⟨m, hm, beq_iff_eq.mpr hName⟩
    rcases Option.isSome_iff_exists.mp hSome with ⟨m', hm'⟩
    exact ⟨m', List.mem_of_find?_eq_some hm', hm'⟩
  unfold checkMember at h
  dsimp only at h
  split at h
  · rename_i m hFound
    cases h
    exact ⟨m, List.mem_of_find?_eq_some hFound, rfl⟩
  · split at h
    · rename_i label hCase
      rcases hLabel label (by rw [hCase]; rfl) with ⟨m, hm, hFound⟩
      rw [hFound] at h
      cases h
      exact ⟨m, hm, rfl⟩
    · rename_i label hCase
      rcases hLabel label (by rw [hCase]; rfl) with ⟨m, hm, hFound⟩
      rw [hFound] at h
      cases h
      exact ⟨m, hm, rfl⟩
    · cases h
    · cases h

/- The numbers of all members lie below the greatest. -/
theorem le_and_lt_of_foldlM
    {ms : List Member}
    {most domain : Nat}
    (h :
      ms.foldlM
        (fun most m =>
          if 0 ≤ m.ordinal && m.ordinal + 1 < 4294967296 then
            some (max most (m.ordinal.toNat + 1))
          else
            none) most = some domain) :
    most ≤ domain ∧
    ∀ m ∈ ms, 0 ≤ m.ordinal ∧ m.ordinal.toNat < domain := by
  induction ms generalizing most with
  | nil =>
      cases h
      exact ⟨Nat.le_refl _, nofun⟩
  | cons m ms ih =>
      rw [List.foldlM_cons] at h
      split at h
      · rename_i hRange
        simp only [Bool.and_eq_true, decide_eq_true_eq] at hRange
        rcases ih h with ⟨hMost, hAll⟩
        refine ⟨by omega, List.forall_mem_cons.mpr ⟨?_, hAll⟩⟩
        exact ⟨hRange.1, by omega⟩
      · cases h

/- The literals of primitives mean themselves. -/
theorem exists_of_checkPrimitive
    {type : String}
    {kind : Primitive}
    {l : Literal}
    {meaning : CheckedLiteral}
    (h : checkPrimitive type kind l = .ok meaning) :
    ∃ l', meaning = .value l' := by
  have hExpect :
      ∀ {fits : Bool} {l' : Literal},
        checkPrimitive.expect type l fits l' = .ok meaning →
        ∃ l', meaning = .value l' := by
    intro fits l' hFits
    unfold checkPrimitive.expect at hFits
    split at hFits
    · cases hFits
      exact ⟨l', rfl⟩
    · cases hFits
  have hFloat :
      checkFloat type kind l = .ok meaning →
      ∃ l', meaning = .value l' := by
    intro hFits
    unfold checkFloat at hFits
    split at hFits
    · cases hFits
      exact ⟨l, rfl⟩
    · cases hFits
  unfold checkPrimitive at h
  split at h
  · split at h
    · exact hFloat h
    · unfold checkInteger at h
      split at h
      · split at h
        · split at h
          · cases h
            exact ⟨_, rfl⟩
          · cases h
        · cases h
          exact ⟨_, rfl⟩
      · cases h
  · exact hFloat h
  · exact hExpect h
  · exact hExpect h
  · exact hExpect h
  · split at h
    · exact hExpect h
    · split at h
      · exact hExpect h
      · cases h
  · cases h

/-
  What a literal can mean at a type: nil, an absent optional,
  anything of unknown type, a value of a primitive type, or a
  member of an enumeration.
-/
theorem SchemaPool.cases_of_checkLiteral
    {p : SchemaPool}
    {marker : Char}
    {id : SchemaId}
    {l : Literal}
    {meaning : CheckedLiteral}
    (h : p.checkLiteral marker id l = .ok meaning) :
    (meaning = .nil ∧
      ((p.get id).isReference = true ∨
        (p.get id).structuralKind = .unknown)) ∨
    (meaning = .none ∧ (p.get id).structuralKind = .optional) ∨
    (meaning = .value l ∧ (p.get id).structuralKind = .unknown) ∨
    ((∃ l', meaning = .value l') ∧
      (p.get id).structuralKind = .primitive) ∨
    (∃ m ∈ (p.get id).members, meaning = .member m) ∧
      (p.get id).structuralKind = .enumeration := by
  unfold checkLiteral Schema.checkLiteral at h
  dsimp only at h
  split at h
  · rename_i hNil
    cases h
    exact Or.inl ⟨rfl, .inl (Bool.and_eq_true_iff.mp hNil).2⟩
  · split at h
    · cases h
      exact Or.inr (Or.inl ⟨rfl, by assumption⟩)
    · cases h
      exact Or.inl ⟨rfl, .inr (by assumption)⟩
    · cases h
      exact Or.inr (Or.inr (Or.inl ⟨rfl, by assumption⟩))
    · cases h
    · split at h
      · exact Or.inr (Or.inr (Or.inr (Or.inl
          ⟨exists_of_checkPrimitive h, by assumption⟩)))
      · cases h
    · exact Or.inr (Or.inr (Or.inr (Or.inr
        ⟨exists_of_checkMember h, by assumption⟩)))
    · cases h

/- A set member has a number below those of its domain. -/
theorem SchemaPool.ordinal_lt_of_checkLiteral
    {p : SchemaPool}
    {marker : Char}
    {id : SchemaId}
    {l : Literal}
    {meaning : CheckedLiteral}
    {domain k : Nat}
    (hMeaning : p.checkLiteral marker id l = .ok meaning)
    (hDomain : p.ordinalDomain id = some domain)
    (hOrdinal : meaning.ordinal? = some k) :
    k < domain := by
  unfold ordinalDomain Schema.ordinalDomain at hDomain
  rcases cases_of_checkLiteral hMeaning with
    ⟨rfl, -⟩ | ⟨rfl, -⟩ | ⟨-, hKind⟩ | ⟨⟨l', rfl⟩, hKind⟩ |
      ⟨⟨m, hm, rfl⟩, hKind⟩
  · cases hOrdinal
  · cases hOrdinal
  · rw [hKind] at hDomain
    cases hDomain
  · rw [hKind] at hDomain
    dsimp only at hDomain
    split at hDomain
    · cases hDomain
      cases l' <;> cases hOrdinal
      split <;> decide
    · cases hDomain
  · rw [hKind] at hDomain
    have hLt := (le_and_lt_of_foldlM hDomain).2 m hm
    change (if 0 ≤ m.ordinal && m.ordinal < 4294967296 then
      some m.ordinal.toNat else Option.none) = some k at hOrdinal
    split at hOrdinal
    · cases hOrdinal
      exact hLt.2
    · cases hOrdinal

end MatchCompiler

------------------------------------------------------------
-- Rules
------------------------------------------------------------

namespace MatchCompiler

/-
  A set member is a literal that has a meaning at the element
  type, with its number if the values of that are numbered.
-/
def SetMember.Means
    (p : SchemaPool)
    (marker : Char)
    (element : SchemaId)
    (m : SetMember) : Prop :=
  ∃ l meaning, p.checkLiteral marker element l = .ok meaning ∧
    m.literal = meaning.orWritten l ∧
    m.ordinal =
      if (p.ordinalDomain element).isSome then
        meaning.ordinal?
      else
        none

/- A set member is what checking makes of a literal. -/
def SetMember.MadeFrom
    (p : SchemaPool)
    (marker : Char)
    (element : SchemaId)
    (l : Literal)
    (m : SetMember) : Prop :=
  ∃ meaning, p.checkLiteral marker element l = .ok meaning ∧
    m.literal = meaning.orWritten l ∧
    m.ordinal =
      if (p.ordinalDomain element).isSome then
        meaning.ordinal?
      else
        none

/- Where every entry has a result, so has the list. -/
theorem exists_mapM_eq_pure
    {M : Type → Type}
    [Monad M]
    [LawfulMonad M]
    {α β : Type}
    {f : α → M β}
    {xs : List α}
    (h : ∀ x ∈ xs, ∃ y, f x = pure y) :
    ∃ ys, xs.mapM f = pure ys ∧
      List.Forall₂ (fun x y => x ∈ xs ∧ f x = pure y) xs ys := by
  induction xs with
  | nil => exact ⟨[], List.mapM_nil, .nil⟩
  | cons x xs ih =>
      rcases h x List.mem_cons_self with ⟨y, hy⟩
      rcases ih fun x hx => h x (List.mem_cons_of_mem _ hx) with
        ⟨ys, hys, hEach⟩
      refine ⟨y :: ys, ?_, .cons ⟨List.mem_cons_self, hy⟩ ?_⟩
      · rw [List.mapM_cons, hy, pure_bind, hys, pure_bind]
      · exact hEach.imp fun x y hxy =>
          ⟨List.mem_cons_of_mem _ hxy.1, hxy.2⟩

/- Each entry of related lists has its counterpart. -/
theorem exists_counterpart
    {α β : Type}
    {R : α → β → Prop}
    {xs : List α}
    {ys : List β}
    (h : List.Forall₂ R xs ys)
    {y : β}
    (hy : y ∈ ys) :
    ∃ x ∈ xs, R x y := by
  induction h with
  | nil => cases hy
  | @cons x y' xs ys hHead _ ih =>
      rcases List.mem_cons.mp hy with rfl | hy
      · exact ⟨x, List.mem_cons_self, hHead⟩
      · rcases ih hy with ⟨x', hx', hRel⟩
        exact ⟨x', List.mem_cons_of_mem x hx', hRel⟩

/- The only entry with a name that counts is found as the first. -/
theorem find?_eq_of_pairwise
    {α : Type}
    {key : α → String}
    {D : String → Prop}
    {xs : List α}
    (hOnce : xs.Pairwise fun x y => key x = key y → ¬ D (key x))
    {x : α}
    (hx : x ∈ xs)
    (hD : D (key x)) :
    xs.find? (fun y => key y == key x) = some x := by
  induction xs with
  | nil => cases hx
  | cons y ys ih =>
      rcases List.pairwise_cons.mp hOnce with ⟨hHead, hTail⟩
      rw [List.find?_cons]
      by_cases hSame : key y = key x
      · rw [beq_iff_eq.mpr hSame]
        rcases List.mem_cons.mp hx with rfl | hx
        · rfl
        · rw [← hSame] at hD
          exact absurd hD (hHead x hx hSame)
      · rw [beq_eq_false_iff_ne.mpr hSame]
        rcases List.mem_cons.mp hx with rfl | hx
        · exact absurd rfl hSame
        · exact ih hTail hx

/- The number of a set member lies in the domain. -/
theorem SetMember.Means.lt
    {p : SchemaPool}
    {marker : Char}
    {element : SchemaId}
    {m : SetMember}
    (h : SetMember.Means p marker element m)
    {domain k : Nat}
    (hDomain : p.ordinalDomain element = some domain)
    (hOrdinal : m.ordinal = some k) :
    k < domain := by
  rcases h with ⟨l, meaning, hMeaning, -, hEq⟩
  rw [hDomain, Option.isSome_some, if_pos rfl, hOrdinal] at hEq
  exact SchemaPool.ordinal_lt_of_checkLiteral hMeaning hDomain hEq.symm

/-
  The head of a constructor pattern means the scrutinee's own
  type, a base of it, or a derived type that has to be tested
  at run time.
-/
inductive HeadMeans
    (ctx : CheckContext)
    (scrutinee : SchemaId)
    (h : ConstructorHead)
    (s : Progress) : ResolvedHead → Progress → Prop
| own
    (caseName : Option String) :
    HeadMeans ctx scrutinee h s
      { target := scrutinee, caseName } s
| base
    {id : DescriptorId}
    (hTarget : h.target = some id)
    (hCompat :
      (s.extract ctx id).1.pool.compat (s.extract ctx id).2
        scrutinee = .exact) :
    HeadMeans ctx scrutinee h s
      { target := (s.extract ctx id).2
        caseName := h.caseName } (s.extract ctx id).1
| derived
    {id : DescriptorId}
    (hTarget : h.target = some id)
    (hCompat :
      (s.extract ctx id).1.pool.compat (s.extract ctx id).2
        scrutinee = .deferred) :
    HeadMeans ctx scrutinee h s
      { target := (s.extract ctx id).2
        runtimeType :=
          some ((s.extract ctx id).1.pool.get (s.extract ctx id).2).name
        caseName := h.caseName } (s.extract ctx id).1

/- A type test needs no test, or one at run time. -/
inductive TypeTested
    (ctx : CheckContext)
    (span : Span)
    (scrutinee : SchemaId)
    (id : DescriptorId)
    (s : Progress) : Checked → Prop
| holds
    (hCompat :
      (s.extract ctx id).1.pool.compat (s.extract ctx id).2
          scrutinee = .exact ∨
        (s.extract ctx id).1.pool.compat (s.extract ctx id).2
          scrutinee = .numeric) :
    TypeTested ctx span scrutinee id s (.wildcard span)
| tested
    (hCompat :
      (s.extract ctx id).1.pool.compat (s.extract ctx id).2
        scrutinee = .deferred) :
    TypeTested ctx span scrutinee id s
      (.typeIs span (s.extract ctx id).2
        ((s.extract ctx id).1.pool.get (s.extract ctx id).2).name)

/- All branches bind the same names. -/
def BindAlike
    (branches : List (Checked × List Binding)) : Prop :=
  ∀ b ∈ branches, ∀ c ∈ branches,
    b.2.map Binding.name ⊆ c.2.map Binding.name

mutual

/- A pattern is accepted at a schema. -/
inductive Accepts
    (ctx : CheckContext) :
    Pattern → SchemaId → Progress → Checked → Progress → Prop
| wildcard
    (span : Span)
    (id : SchemaId)
    (s : Progress) :
    Accepts ctx (.wildcard span) id s (.wildcard span) s
| bind
    (span : Span)
    (id : SchemaId)
    {s : Progress}
    {x : String}
    (hFresh : x ∉ s.names) :
    Accepts ctx (.bind span x) id s (.bind span x (.wildcard span))
      (s.add ⟨x, id, span⟩)
| named
    {span : Span}
    {id : SchemaId}
    {p : Pattern}
    {q : Checked}
    {s s' : Progress}
    {x : String}
    (hInner : Accepts ctx p id s q s')
    (hFresh : x ∉ s'.names) :
    Accepts ctx (.named span x p) id s (.bind span x q)
      (s'.add ⟨x, id, span⟩)
| literal
    {span : Span}
    {id : SchemaId}
    {s : Progress}
    {l : Literal}
    {meaning : CheckedLiteral}
    (hMeaning :
      s.pool.checkLiteral ctx.marker id l = .ok meaning) :
    Accepts ctx (.literal span l) id s (.literal span meaning) s
| alt
    {span : Span}
    {id : SchemaId}
    {s : Progress}
    {ps : List Pattern}
    {branches : List (Checked × List Binding)}
    {r : Registry}
    (hBranches :
      AcceptsBranches ctx id s.bindings ps s.registry branches r)
    (hAlike : BindAlike branches) :
    Accepts ctx (.alt span ps) id s (.alt span (branches.map Prod.fst))
      { registry := r
        bindings := s.bindings ++ (branches.head?.map Prod.snd).getD [] }
| guarded
    {span : Span}
    {id : SchemaId}
    {p : Pattern}
    {q : Checked}
    {s s' : Progress}
    {g : Guard}
    (hInner : Accepts ctx p id s q s')
    (hUses : g.uses ⊆ s'.names) :
    Accepts ctx (.guarded span p g) id s (.guarded span q g.id) s'
| some
    {span : Span}
    {h : ConstructorHead}
    {p : Pattern}
    {id element : SchemaId}
    {q : Checked}
    {s s' : Progress}
    (hKind : (s.pool.get id).structuralKind = .optional)
    (hElement : (s.pool.get id).element = some element)
    (hInner : Accepts ctx p element s q s') :
    Accepts ctx (.constructor span h [] [p]) id s (.some span q) s'
| someUnknown
    {span : Span}
    {h : ConstructorHead}
    {p : Pattern}
    {id : SchemaId}
    {s : Progress}
    (hKind : (s.pool.get id).structuralKind = .optional) :
    Accepts ctx (.constructor span h [] [p]) id s
      (.some span (.wildcard p.span)) s
| none
    {span : Span}
    {h : ConstructorHead}
    {id : SchemaId}
    {s : Progress}
    (hKind : (s.pool.get id).structuralKind = .optional) :
    Accepts ctx (.constructor span h [] []) id s (.literal span .none) s
| object
    {span : Span}
    {h : ConstructorHead}
    {fields : List (FieldName × Pattern)}
    {args : List Pattern}
    {id : SchemaId}
    {resolved : ResolvedHead}
    {target : Schema}
    {fromCase : Option (List Member)}
    {disc rest : List (FieldRead × Checked)}
    {s s₁ s₂ s₃ : Progress}
    (hKind :
      (s.pool.get id).structuralKind = .record ∨
        (s.pool.get id).structuralKind = .union)
    (hHead : HeadMeans ctx id h s resolved s₁)
    (hSchema : s₁.pool.get resolved.target = target)
    (hCase :
      resolved.caseName.mapM
        (fun c => target.pinCase ctx.marker c span) = .ok fromCase)
    (hDisc :
      AcceptsAll ctx (target.discriminatorParts fields) s₁ disc s₂)
    (hRest :
      AcceptsAll ctx
        (target.namedParts (target.pinnedBy fromCase disc) fields ++
          target.unnamedParts (target.pinnedBy fromCase disc) args)
        s₂ rest s₃) :
    Accepts ctx (.constructor span h fields args) id s
      (.object span
        { schema := resolved.target
          nilCheck := (s.pool.get id).isReference
          runtimeType := resolved.runtimeType
          pin := fromCase.map fun labels =>
            { discriminator := target.discriminatorName, labels } }
        (disc ++ rest)) s₃
| seq
    {span : Span}
    {id element : SchemaId}
    {es : List (SeqElement Pattern)}
    {items : List (Option Literal × Checked)}
    {spread : Option Checked}
    {s s₁ s₂ : Progress}
    (hOne : (SeqElement.spreadSpans es).length ≤ 1)
    (hKind :
      (s.pool.get id).structuralKind = .sequence ∨
        (s.pool.get id).structuralKind = .array)
    (hElement : (s.pool.get id).element = some element)
    (hDefaults :
      ∀ p l, .item p (some l) ∈ es →
        ∃ meaning,
          s.pool.checkLiteral ctx.marker element l = .ok meaning)
    (hFixed :
      ∀ n ∈ (s.pool.get id).fixedLength?,
        (SeqElement.layout es).accepts n)
    (hItems :
      AcceptsAll ctx (SeqElement.itemParts element es) s items s₁)
    (hSpread :
      AcceptsSpread ctx element (SeqElement.spreadPattern? es) s₁
        spread s₂) :
    Accepts ctx (.seq span es) id s
      (.seq span (SeqElement.layout es) (s.pool.get id).fixedLength?
        (items.map Prod.snd) spread) s₂
| tuple
    {span : Span}
    {id : SchemaId}
    {es : List (SeqElement Pattern)}
    {items : List (Nat × Checked)}
    {s s' : Progress}
    (hKind : (s.pool.get id).structuralKind = .tuple)
    (hItems :
      AcceptsAll ctx
        (SeqElement.tupleParts es (s.pool.get id).fields) s items s') :
    Accepts ctx (.seq span es) id s (.tuple span items) s'
| typeTest
    {span : Span}
    {id : SchemaId}
    {target : DescriptorId}
    {s : Progress}
    {q : Checked}
    (hTested : TypeTested ctx span id target s q) :
    Accepts ctx (.typeTest span target) id s q (s.extract ctx target).1
| narrow
    {span : Span}
    {id : SchemaId}
    {target : DescriptorId}
    {s : Progress}
    {q : Checked}
    {x : String}
    (hTested : TypeTested ctx span id target s q)
    (hFresh : x ∉ s.names) :
    Accepts ctx (.narrow span x target) id s (.bind span x q)
      ((s.extract ctx target).1.add
        ⟨x, (s.extract ctx target).2, span⟩)
| map
    {span : Span}
    {id key value : SchemaId}
    {es : List (Literal × Pattern)}
    {entries : List (Literal × Checked)}
    {s s' : Progress}
    (hKey : (s.pool.get id).key = some key)
    (hValue : (s.pool.get id).value = some value)
    (hEntries : AcceptsAll ctx (entryParts value es) s entries s') :
    Accepts ctx (.map span es) id s (.map span entries) s'
| set
    {span : Span}
    {id element : SchemaId}
    {ls : List Literal}
    {exact : Bool}
    {s : Progress}
    {members : List SetMember}
    (hKind : (s.pool.get id).structuralKind = .set)
    (hElement : (s.pool.get id).element = some element)
    (hMembers :
      ∀ m ∈ members, SetMember.Means s.pool ctx.marker element m) :
    Accepts ctx (.set span ls exact) id s
      (.set span
        { members, exact, domain := s.pool.ordinalDomain element }) s

/- Labelled patterns are accepted one after the other. -/
inductive AcceptsAll
    (ctx : CheckContext) :
    {α : Type} → List (α × SchemaId × Pattern) → Progress →
    List (α × Checked) → Progress → Prop
| nil
    {α : Type}
    (s : Progress) :
    AcceptsAll ctx ([] : List (α × SchemaId × Pattern)) s [] s
| cons
    {α : Type}
    {label : α}
    {id : SchemaId}
    {p : Pattern}
    {q : Checked}
    {parts : List (α × SchemaId × Pattern)}
    {qs : List (α × Checked)}
    {s s₁ s₂ : Progress}
    (hHead : Accepts ctx p id s q s₁)
    (hTail : AcceptsAll ctx parts s₁ qs s₂) :
    AcceptsAll ctx ((label, id, p) :: parts) s ((label, q) :: qs) s₂

/-
  Branches are accepted, each from the names bound before;
  the names that each adds stand beside it.
-/
inductive AcceptsBranches
    (ctx : CheckContext) :
    SchemaId → List Binding → List Pattern → Registry →
    List (Checked × List Binding) → Registry → Prop
| nil
    (id : SchemaId)
    (before : List Binding)
    (r : Registry) :
    AcceptsBranches ctx id before [] r [] r
| cons
    {id : SchemaId}
    {before added : List Binding}
    {p : Pattern}
    {ps : List Pattern}
    {q : Checked}
    {qs : List (Checked × List Binding)}
    {r r₁ r₂ : Registry}
    (hHead :
      Accepts ctx p id { registry := r, bindings := before } q
        { registry := r₁, bindings := before ++ added })
    (hTail : AcceptsBranches ctx id before ps r₁ qs r₂) :
    AcceptsBranches ctx id before (p :: ps) r ((q, added) :: qs) r₂

/- What a spread is bound to takes a sequence. -/
inductive AcceptsSpread
    (ctx : CheckContext) :
    SchemaId → Option Pattern → Progress → Option Checked →
    Progress → Prop
| none
    (element : SchemaId)
    (s : Progress) :
    AcceptsSpread ctx element .none s .none s
| some
    {element : SchemaId}
    {p : Pattern}
    {q : Checked}
    {s s' : Progress}
    (hInner :
      Accepts ctx p (s.sequenceOf element).2
        (s.sequenceOf element).1 q s') :
    AcceptsSpread ctx element (.some p) s (.some q) s'

end

end MatchCompiler
