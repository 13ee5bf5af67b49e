import MatchCompiler.Proofs.BranchReading
import MatchCompiler.Proofs.ProperSchemas

/-
  This file shows at which type a field of a branch is
  checked.

  A field that is not shared is looked up in the first of the
  pinned branches, which all declare it. Its pattern is
  checked, and the names for its whole value are bound, at
  the type that is found there. The types that the other
  branches declare are not looked at; so the type is right
  for all of them if they agree on it.

  Key definitions include:
    * `Pattern.NamesWhole`
    * `Schema.pinnedBranches`
    * `SchemaPool.BranchesAgree`

  Key theorems include:
    * `Accepts.mem_bindings`
    * `ObjectChecked.exists_branchPart`
    * `branchField_typed`
-/

------------------------------------------------------------
-- Names For Whole Values
------------------------------------------------------------

namespace MatchCompiler

/-
  A pattern binds a name to the whole value that it is for.
  What an alternation binds is what its first branch does.
-/
inductive Pattern.NamesWhole
    (span : Span)
    (x : String) : Pattern → Prop
| bind : NamesWhole span x (.bind span x)
| named
    (p : Pattern) :
    NamesWhole span x (.named span x p)
| inside
    (other : Span)
    (y : String)
    {p : Pattern}
    (hInner : NamesWhole span x p) :
    NamesWhole span x (.named other y p)
| guarded
    (other : Span)
    (g : Guard)
    {p : Pattern}
    (hInner : NamesWhole span x p) :
    NamesWhole span x (.guarded other p g)
| alt
    (other : Span)
    {p : Pattern}
    (ps : List Pattern)
    (hFirst : NamesWhole span x p) :
    NamesWhole span x (.alt other (p :: ps))

variable {ctx : CheckContext}

/- Such a name is bound at the slot of the pattern. -/
theorem Accepts.mem_bindings
    {p : Pattern}
    {id : SchemaId}
    {s s' : Progress}
    {q : Checked}
    (h : Accepts ctx p id s q s')
    {span : Span}
    {x : String}
    (hNames : p.NamesWhole span x) :
    ⟨x, id, span⟩ ∈ s'.bindings := by
  induction hNames generalizing s s' q with
  | bind =>
      cases h with
      | bind => exact List.mem_append_right _ List.mem_cons_self
  | named p =>
      cases h with
      | named => exact List.mem_append_right _ List.mem_cons_self
  | inside other y _ ih =>
      cases h with
      | named hInner => exact List.mem_append_left _ (ih hInner)
  | guarded other g _ ih =>
      cases h with
      | guarded hInner => exact ih hInner
  | alt other ps _ ih =>
      cases h with
      | alt hBranches =>
          cases hBranches with
          | cons hHead =>
              have hBound := ih hHead
              exact hBound

theorem AcceptedBetween.mem_bindings
    {r : Registry}
    {t : Progress}
    {p : Pattern}
    {id : SchemaId}
    {q : Checked}
    (h : AcceptedBetween ctx r t p id q)
    {span : Span}
    {x : String}
    (hNames : p.NamesWhole span x) :
    ⟨x, id, span⟩ ∈ t.bindings := by
  rcases h with ⟨s, s', -, hAccepts, hGrows⟩
  exact hGrows.subset (hAccepts.mem_bindings hNames)

end MatchCompiler

------------------------------------------------------------
-- Branches That Agree
------------------------------------------------------------

namespace MatchCompiler

/-
  The branches that an accepted object pattern pins: those of
  its case name and of the pattern for the discriminator,
  which comes first if it is given.
-/
def Schema.pinnedBranches
    (s : Schema)
    (fields : List (FieldName × Pattern))
    (head : ObjectHead)
    (parts : List (FieldRead × Checked)) : Option (List Member) :=
  s.pinnedBy (head.pin.map Pin.labels)
    (parts.take (s.discriminatorParts fields).length)

namespace SchemaPool

/- A value of one type is known to be one of another. -/
def Agree
    (p : SchemaPool)
    (a b : SchemaId) : Prop :=
  p.compat a b = .exact ∨ p.compat a b = .numeric

/- Some branches declare a field at types that agree. -/
def BranchesAgree
    (p : SchemaPool)
    (s : Schema)
    (labels : List Member)
    (name : String) : Prop :=
  ∀ l ∈ labels, ∀ m ∈ labels, ∀ b ∈ s.branches, ∀ c ∈ s.branches,
    b.label = l.name → c.label = m.name →
    ∀ f ∈ b.field? name, ∀ g ∈ c.field? name,
      f.schema ≠ g.schema → p.Agree f.schema g.schema

/- Every type agrees with itself. -/
theorem agree_self
    (p : SchemaPool)
    (a : SchemaId) :
    p.Agree a a := by
  apply Or.inl
  unfold compat compatDepth compatWithin
  dsimp only
  rw [if_pos (beq_self_eq_true _)]

end SchemaPool

namespace ObjectChecked

variable {ctx : CheckContext}
variable {r : Registry}
variable {t : Progress}
variable {target : Schema}
variable {span : Span}
variable {fields : List (FieldName × Pattern)}
variable {args : List Pattern}
variable {head : ObjectHead}
variable {fromCase : Option (List Member)}
variable {disc rest : List (FieldRead × Checked)}

/- What is pinned is seen in the accepted pattern. -/
theorem pinnedBranches_eq
    (h : ObjectChecked ctx r t target span fields args head fromCase disc
      rest) :
    target.pinnedBranches fields head (disc ++ rest) =
      target.pinnedBy fromCase disc := by
  have hPin : head.pin.map Pin.labels = fromCase := by
    rw [h.pin, Option.map_map]
    exact Option.map_id_apply
  unfold Schema.pinnedBranches
  rw [hPin, h.discParts.length_eq, List.take_left]

/-
  The pattern of a field that is not shared is checked at the
  type that the first pinned branch declares for it.
-/
theorem exists_branchPart
    (h : ObjectChecked ctx r t target span fields args head fromCase disc
      rest)
    (hProper : target.Proper)
    {name : FieldName}
    {p : Pattern}
    (hGiven : (name, p) ∈ fields)
    (hBranch : target.field? name.name = none) :
    ∃ labels, target.pinnedBy fromCase disc = some labels ∧
      (∀ l ∈ labels, l.name ∈ target.owners name.name) ∧
      ∀ first ∈ labels.head?, ∃ b f q,
        target.branch? first.name = some b ∧
        b.field? name.name = some f ∧
        (⟨name.name, f.position⟩, q) ∈ rest ∧
        AcceptedBetween ctx r t p f.schema q := by
  have hOther : target.isDiscriminator name.name = false := by
    apply Bool.eq_false_of_not_eq_true
    intro hDisc
    rcases Option.any_eq_true _ _ |>.mp hDisc with ⟨d, hd, hSame⟩
    have hField := hProper.discriminator d hd
    rw [beq_iff_eq.mp hSame] at hField
    rcases List.mem_map.mp hField with ⟨f, hf, hName⟩
    have hNone := List.find?_eq_none.mp hBranch f hf
    exact hNone (beq_iff_eq.mpr hName)
  rcases h.readable (name, p) hGiven hOther with ⟨field?, hReadable⟩
  rcases Schema.cases_of_readable hReadable with
    ⟨f, hShared, -⟩ | ⟨-, labels, hPinned, hField, hOwners⟩
  · cases hBranch.symm.trans hShared
  · refine ⟨labels, hPinned, hOwners, fun first hFirst => ?_⟩
    rcases hProper.exists_branch (hOwners first (List.mem_of_head? hFirst))
      with ⟨b, f, hOwn, hFound⟩
    have hFieldEq : field? = some f := by
      rw [hField, Schema.pinnedField?, hFirst, Option.bind_eq_bind,
        Option.bind_some, hOwn, Option.bind_eq_bind, Option.bind_some,
        hFound]
    have hName : f.name = name.name := by
      simpa using List.find?_some hFound
    have hPart :
        (f.read, f.schema, p) ∈
          target.namedParts (target.pinnedBy fromCase disc) fields ++
            target.unnamedParts (target.pinnedBy fromCase disc) args := by
      apply List.mem_append_left
      apply List.mem_filterMap.mpr
      refine ⟨(name, p), hGiven, ?_⟩
      rw [Schema.namedPart?, if_neg (by simp [hOther]), hReadable,
        hFieldEq]
    rcases exists_counterpart h.restParts.flip hPart with
      ⟨⟨read, q⟩, hq, hRead, hAccepted⟩
    have hSame : read = ⟨name.name, f.position⟩ := by
      rw [← hName]
      exact hRead
    rw [hSame] at hq
    exact ⟨b, f, q, hOwn, hFound, hq, hAccepted⟩

end ObjectChecked

/-
  The pattern of a field that is not shared is checked if a
  branch is pinned. All pinned branches declare the field; if
  they agree on its type then the type that it is checked at,
  and that names are bound at, agrees with that of each.
-/
theorem branchField_typed
    {ctx : CheckContext}
    {marker : Char}
    {span span' : Span}
    {h : ConstructorHead}
    {fields : List (FieldName × Pattern)}
    {args : List Pattern}
    {id : SchemaId}
    {s s' : CheckState}
    {head : ObjectHead}
    {parts : List (FieldRead × Checked)}
    (hCheck :
      ((Pattern.constructor span h fields args).check ctx id).run s =
        (.object span' head parts, s'))
    (hProblems : s'.problems = s.problems)
    (hUses : Registry.Later { marker } s.registry)
    (hSlot : id < s.registry.pool.size)
    {target : Schema}
    (hTarget : s'.registry.pool.get head.schema = target)
    {name : FieldName}
    {p : Pattern}
    (hGiven : (name, p) ∈ fields)
    (hBranch : target.field? name.name = none)
    {labels : List Member}
    (hPinned : target.pinnedBranches fields head parts = some labels)
    (hSome : labels ≠ [])
    (hAgree : s'.registry.pool.BranchesAgree target labels name.name) :
    ∃ slot position q,
      (⟨name.name, position⟩, q) ∈ parts ∧
      AcceptedBetween ctx s.registry s'.progress p slot q ∧
      (∀ span x, p.NamesWhole span x →
        ⟨x, slot, span⟩ ∈ s'.bindings) ∧
      ∀ l ∈ labels,
        l.name ∈ target.owners name.name ∧
        ∀ b ∈ target.branches, b.label = l.name →
          ∀ g ∈ b.field? name.name,
            s'.registry.pool.Agree slot g.schema := by
  have hOrderly := hUses.orderly (Registry.orderly_fresh marker)
  rcases Pattern.exists_objectChecked hCheck hProblems hOrderly.settled
      hSlot with
    ⟨r, target', fromCase, disc, rest, hLater, rfl, hObject⟩
  cases hTarget.symm.trans hObject.get_eq
  have hProper : target.Proper := by
    rw [← hObject.schema]
    exact (hLater.orderly hOrderly).proper _
  rcases hObject.exists_branchPart hProper hGiven hBranch with
    ⟨labels', hPinned', hOwners, hFirst⟩
  rw [hObject.pinnedBranches_eq, hPinned'] at hPinned
  cases hPinned
  match labels, hSome, hOwners, hFirst, hAgree with
  | first :: others, _, hOwners, hFirst, hAgree =>
      rcases hFirst first rfl with ⟨b, f, q, hOwn, hField, hq, hAccepted⟩
      have hMore := hAccepted.of_later hLater
      refine ⟨f.schema, f.position, q, List.mem_append_right _ hq, hMore,
        fun span x hNames => hMore.mem_bindings hNames, fun l hl => ?_⟩
      refine ⟨hOwners l hl, fun c hc hLabel g hg => ?_⟩
      by_cases hSame : f.schema = g.schema
      · rw [← hSame]
        apply SchemaPool.agree_self
      · have hLabel' : b.label = first.name := by
          simpa using List.find?_some hOwn
        exact hAgree first List.mem_cons_self l hl b
          (List.mem_of_find?_eq_some hOwn) c hc hLabel' hLabel f hField g
          hg hSame

/- A pattern that reads a field of either branch. -/
def eitherBranchFields : List (FieldName × Pattern) :=
  [(⟨"kind", {}⟩,
      .alt {} [.literal {} (.sym "A"), .literal {} (.sym "B")]),
    (⟨"x", {}⟩, .bind {} "n")]

def eitherBranchPattern : Pattern :=
  .constructor {} {} eitherBranchFields []

def eitherBranchHead : ObjectHead :=
  { schema := 0, nilCheck := false, runtimeType := none, pin := none }

def eitherBranchParts : List (FieldRead × Checked) :=
  [(⟨"kind", 0⟩,
      .alt {}
        [.literal {} (.member ⟨"A", 0⟩), .literal {} (.member ⟨"B", 1⟩)]),
    (⟨"x", 1⟩, .bind {} "n" (.wildcard {}))]

theorem eitherBranchPattern_check
    (kind : Primitive) :
    (eitherBranchPattern.check
        { table := mixedNodes kind, marker := 'k' } 0).run
      { registry := mixedNodeSchemas kind } =
    (.object {} eitherBranchHead eitherBranchParts,
      { registry := mixedNodeSchemas kind
        bindings := [⟨"n", 2, {}⟩] }) :=
  rfl

/- The field is a number of the one width or of the other. -/
theorem eitherWidth_typed :
    ∃ slot,
      ⟨"n", slot, {}⟩ ∈ [(⟨"n", 2, {}⟩ : Binding)] ∧
      (mixedNodeSchemas .i32).pool.Agree slot 3 := by
  have hAgree :
      (mixedNodeSchemas .i32).pool.BranchesAgree
        ((mixedNodeSchemas .i32).pool.get 0) [⟨"A", 0⟩, ⟨"B", 1⟩]
        "x" := by
    unfold SchemaPool.BranchesAgree SchemaPool.Agree
    decide +kernel
  rcases branchField_typed (eitherBranchPattern_check .i32) rfl
      (mixedNodeSchemas_later .i32) (by decide) rfl
      (List.mem_cons_of_mem _ List.mem_cons_self) rfl rfl (by decide)
      hAgree with ⟨slot, position, q, -, -, hNames, hEach⟩
  refine ⟨slot, hNames {} "n" .bind, ?_⟩
  exact (hEach ⟨"B", 1⟩ (by decide)).2
    ⟨"B", 1, [{ name := "x", schema := 3, position := 1 }]⟩ (by decide)
    rfl { name := "x", schema := 3, position := 1 } rfl

/-
  The field is a number or a text, and the name is bound at
  the numbers.
-/
theorem eitherKind_mistyped :
    ∃ s',
      (eitherBranchPattern.check
          { table := mixedNodes .str, marker := 'k' } 0).run
        { registry := mixedNodeSchemas .str } =
        (.object {} eitherBranchHead eitherBranchParts, s') ∧
      s'.problems = [] ∧
      (s'.registry.pool.get 0).pinnedBranches eitherBranchFields
        eitherBranchHead eitherBranchParts =
          some [⟨"A", 0⟩, ⟨"B", 1⟩] ∧
      s'.bindings = [⟨"n", 2, {}⟩] ∧
      ((s'.registry.pool.get 0).branch? "B").map Branch.fields =
        some [{ name := "x", schema := 3, position := 1 }] ∧
      s'.registry.pool.compat 2 3 = .incompatible ∧
      s'.registry.pool.compat 3 2 = .incompatible := by
  refine ⟨_, eitherBranchPattern_check .str, rfl, rfl, rfl, rfl, ?_⟩
  decide +kernel

end MatchCompiler
