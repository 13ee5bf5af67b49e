import MatchCompiler.Proofs.DescribedViews
import MatchCompiler.Proofs.SchemaLaws
import MatchCompiler.Proofs.Termination

/-
  This file shows that an alias of a primitive is that
  primitive.

  Behind an alias of a primitive, directly or through further
  aliases, there is no circle, so that its schema is complete
  whatever circles there are elsewhere. A type of a table
  that names a primitive after some number of aliases is
  always extracted, as it names no more types than there are.

  Key definitions include:
    * `SchemaPool.StandsFor`
    * `TypeTable.NamesAfter`

  Key theorems include:
    * `Registry.BuiltWith.isPrimitive_of_standsFor`
    * `TypeTable.NamesAfter.lt_size`
    * `TypeTable.NamesAfter.schemaOf_standsFor`
-/

------------------------------------------------------------
-- Slots
------------------------------------------------------------

namespace MatchCompiler

/- A schema is that of a primitive. -/
structure Schema.IsPrimitive
    (kind : Primitive)
    (s : Schema) : Prop where
  isPrimitive : s.kind = .primitive
  primitive : s.primitive = some kind

namespace SchemaPool

/- A slot holds a primitive, or an alias of a slot that does. -/
inductive StandsFor
    (p : SchemaPool)
    (kind : Primitive) : SchemaId → Prop
| primitive
    {slot : SchemaId}
    (hAlias : (p.get slot).aliasName = none)
    (hPrimitive : (p.get slot).IsPrimitive kind) :
    StandsFor p kind slot
| aliasOf
    {slot source : SchemaId}
    (hAlias : (p.get slot).aliasName.isSome = true)
    (hTarget : (p.get slot).target = some source)
    (hStands : StandsFor p kind source) :
    StandsFor p kind slot

variable {p : SchemaPool}
variable {kind : Primitive}
variable {slot : SchemaId}

/- A chain of aliases that ends at a primitive is no circle. -/
theorem StandsFor.grounded
    (h : p.StandsFor kind slot) :
    p.Grounded slot := by
  induction h with
  | @primitive slot hAlias hPrimitive =>
      have hEnd : ∀ next, ¬ p.Links slot next := by
        intro next hLinks
        rcases hLinks.marked with hSome | hReference
        · rw [hAlias] at hSome
          cases hSome
        · rw [hPrimitive.isPrimitive] at hReference
          cases hReference
      intro source hPath hCircle
      rcases Relation.ReflTransGen.cases_head hPath with
        rfl | ⟨next, hLinks, -⟩
      · rcases Relation.TransGen.head'_iff.mp hCircle with
          ⟨next, hLinks, -⟩
        exact hEnd next hLinks
      · exact hEnd next hLinks
  | @aliasOf slot source hAlias hTarget _ ih =>
      have hLinks : p.Links slot source := ⟨hTarget, .inl hAlias⟩
      exact hLinks.grounded_iff.mpr ih

end SchemaPool

/- An alias of a primitive has the schema of a primitive. -/
theorem Registry.BuiltWith.isPrimitive_of_standsFor
    {t : TypeTable}
    {r : Registry}
    (hBuilt : r.BuiltWith t)
    {kind : Primitive}
    {slot : SchemaId}
    (h : r.pool.StandsFor kind slot) :
    (r.get slot).IsPrimitive kind := by
  induction h with
  | primitive _ hPrimitive => exact hPrimitive
  | @aliasOf slot source hAlias hTarget hStands ih =>
      have hLinks : r.pool.Links slot source := ⟨hTarget, .inl hAlias⟩
      have hShown :=
        hBuilt.slotShown (hLinks.grounded_iff.mpr hStands.grounded)
      have hGet := hShown.get_eq_of_alias hLinks hAlias
      exact ⟨(congrArg Schema.kind hGet).trans ih.isPrimitive,
        (congrArg Schema.primitive hGet).trans ih.primitive⟩

end MatchCompiler

------------------------------------------------------------
-- Types Of A Table
------------------------------------------------------------

namespace MatchCompiler

/- The schema of a primitive is built for a primitive. -/
theorem Schema.shapeLaw_isPrimitive :
    Schema.ShapeLaw (fun _ => True)
      fun shape s =>
        ∀ kind, shape = .primitive kind → s.IsPrimitive kind := by
  rintro t x env id origin slot name shape s noted h - - kind rfl
  cases h with
  | primitive => exact ⟨rfl, rfl⟩
  | @view kind' _ _ _ _ hShape => cases kind' <;> cases hShape

/-
  A descriptor that is no instance is extracted if what it
  mentions is, with one type nested less.
-/
theorem Extract.nested_ends_of_refs
    {t : TypeTable}
    {id : DescriptorId}
    {d : TypeDescriptor}
    {env : List SchemaId}
    {depth : Nat}
    (hGet : t.get? id = some d)
    (hConcrete : ∀ template args, d.shape ≠ .generic template args)
    (hRefs :
      ∀ ref ∈ d.shape.followed,
        Ends t id env (fun _ => True) (resolve (nested t depth) env ref)) :
    Ends t id env (fun _ => True) (nested t (depth + 1) id env) := by
  have hLasting : Lasting t fun _ => True := fun _ _ _ _ _ => trivial
  refine step_ends hLasting ?_
  intro d' key x hGet' hReady _ hKey hNone
  cases hGet.symm.trans hGet'
  exact assign_ends hConcrete
    (Ends.build (follows_nested t depth) hGet hLasting hRefs _ _
      (hReady.reserved hGet hConcrete hKey hNone) trivial)

namespace TypeTable

/- A type names a primitive after a number of aliases. -/
inductive NamesAfter
    (t : TypeTable)
    (kind : Primitive) : Nat → DescriptorId → Prop
| primitive
    {id : DescriptorId}
    (hShape : t.shape? id = some (.primitive kind)) :
    NamesAfter t kind 0 id
| aliasOf
    {n : Nat}
    {id next : DescriptorId}
    (hShape : t.shape? id = some (.alias (.described next)))
    (hNames : NamesAfter t kind n next) :
    NamesAfter t kind (n + 1) id

namespace NamesAfter

variable {t : TypeTable}
variable {kind : Primitive}
variable {n m : Nat}
variable {id : DescriptorId}

/- What names a primitive has a descriptor that is no instance. -/
theorem exists_descriptor
    (h : t.NamesAfter kind n id) :
    ∃ d, t.get? id = some d ∧
      ∀ template args, d.shape ≠ .generic template args := by
  cases h <;>
    rename_i hShape <;>
    rcases Option.map_eq_some_iff.mp hShape with ⟨d, hGet, hEq⟩ <;>
    exact ⟨d, hGet, fun _ _ hGeneric => nomatch hEq.symm.trans hGeneric⟩

/- There is one number of aliases. -/
theorem unique
    (h : t.NamesAfter kind n id)
    (h' : t.NamesAfter kind m id) :
    n = m := by
  induction h generalizing m with
  | primitive hShape =>
      cases h' with
      | primitive => rfl
      | aliasOf hShape' _ => cases hShape.symm.trans hShape'
  | aliasOf hShape _ ih =>
      cases h' with
      | primitive hShape' => cases hShape.symm.trans hShape'
      | aliasOf hShape' hNames' =>
          cases hShape.symm.trans hShape'
          rw [ih hNames']

/- There are fewer aliases than types. -/
theorem lt_size
    (h : t.NamesAfter kind n id) :
    n < t.size := by
  -- The types on the way differ in the number of aliases to go.
  suffices
      ∃ ids : List DescriptorId, ids.length = n + 1 ∧ ids.Nodup ∧
        ∀ i ∈ ids, i < t.size ∧ ∃ m ≤ n, t.NamesAfter kind m i by
    rcases this with ⟨ids, hLength, hOnce, hIds⟩
    have hIn : ids ⊆ List.range t.size :=
      fun i hi => List.mem_range.mpr (hIds i hi).1
    have hFew := (List.subperm_of_subset hOnce hIn).length_le
    rw [hLength, List.length_range] at hFew
    exact hFew
  have hLt : ∀ {m i}, t.NamesAfter kind m i → i < t.size := by
    intro m i hNames
    rcases hNames.exists_descriptor with ⟨d, hGet, -⟩
    exact TypeTable.isSome_get?_iff.mp (hGet ▸ rfl)
  induction h with
  | @primitive id hShape =>
      refine ⟨[id], rfl, List.nodup_singleton id, ?_⟩
      have hNames : t.NamesAfter kind 0 id := .primitive hShape
      exact List.forall_mem_singleton.mpr
        ⟨hLt hNames, 0, Nat.le_refl 0, hNames⟩
  | @aliasOf n id next hShape hNames ih =>
      rcases ih with ⟨ids, hLength, hOnce, hIds⟩
      have hMore : t.NamesAfter kind (n + 1) id := .aliasOf hShape hNames
      have hNew : id ∉ ids := by
        intro hOn
        rcases (hIds id hOn).2 with ⟨m, hm, hNames'⟩
        have := hMore.unique hNames'
        omega
      refine ⟨id :: ids, by simp [hLength],
        List.nodup_cons.mpr ⟨hNew, hOnce⟩, ?_⟩
      refine List.forall_mem_cons.mpr
        ⟨⟨hLt hMore, n + 1, Nat.le_refl _, hMore⟩, fun i hi => ?_⟩
      rcases hIds i hi with ⟨hi, m, hm, hNames'⟩
      exact ⟨hi, m, Nat.le_succ_of_le hm, hNames'⟩

/- It is enough to nest as many types as are named. -/
theorem ends
    (h : t.NamesAfter kind n id)
    {depth : Nat}
    (hDepth : n < depth)
    (env : List SchemaId) :
    Ends t id env (fun _ => True) (Extract.nested t depth id env) := by
  induction h generalizing depth with
  | @primitive id hShape =>
      rcases Option.map_eq_some_iff.mp hShape with ⟨d, hGet, hEq⟩
      rcases Nat.exists_eq_add_of_lt hDepth with ⟨k, rfl⟩
      rw [Nat.zero_add]
      refine Extract.nested_ends_of_refs hGet
        (fun _ _ hGeneric => nomatch hEq.symm.trans hGeneric) ?_
      rw [hEq]
      exact nofun
  | @aliasOf n id next hShape hNames ih =>
      rcases Option.map_eq_some_iff.mp hShape with ⟨d, hGet, hEq⟩
      rcases Nat.exists_eq_add_of_lt hDepth with ⟨k, rfl⟩
      refine Extract.nested_ends_of_refs hGet
        (fun _ _ hGeneric => nomatch hEq.symm.trans hGeneric) ?_
      rw [hEq]
      refine List.forall_mem_singleton.mpr (.resolve fun other hOther => ?_)
      cases hOther
      refine (ih (by omega)).mentioned ⟨d, hGet, ?_⟩
      rw [hEq]
      exact List.mem_singleton_self _

end NamesAfter

end TypeTable

namespace Registry

variable {t : TypeTable}
variable {r : Registry}
variable {kind : Primitive}
variable {n : Nat}
variable {id : DescriptorId}
variable {slot : SchemaId}

/- What names a primitive is extracted within the limit. -/
theorem exists_extracts_of_namesAfter
    (hBuilt : r.BuiltWith t)
    (h : t.NamesAfter kind n id) :
    ∃ r' slot, r.schemaOf t id = (r', slot) ∧ r.Extracts t id r' slot := by
  have hDepth : n < depthLimit t + 1 := by
    have hLt := h.lt_size
    have hLimit := nesting_lt_depthLimit t
    omega
  have hReady : Extraction.Ready { registry := r } t id [] :=
    ⟨nofun, ⟨hBuilt.bounded, nofun⟩, nofun, nofun⟩
  rcases h.ends hDepth [] _ hReady trivial with ⟨slot, x, hEnds⟩
  have hSome :
      r.extract? t (depthLimit t + 1) id =
        some ({ x.registry with
          pool := View.completeAll x.views x.registry.pool }, slot) := by
    simp [extract?, hEnds]
  refine ⟨_, slot, ?_, depthLimit t + 1, hSome⟩
  unfold schemaOf schemaWithin
  rw [hSome]

/- The slot of a type that names a primitive stands for it. -/
theorem BuiltWith.standsFor_of_namesAfter
    (hBuilt : r.BuiltWith t)
    (h : t.NamesAfter kind n id)
    (hFound : r.Remembers id slot) :
    r.pool.StandsFor kind slot := by
  induction h generalizing slot with
  | @primitive id hShape =>
      rcases Option.map_eq_some_iff.mp hShape with ⟨d, hGet, hEq⟩
      have hHolds := hBuilt.holdsShapes Schema.law_trivial
        (Q := fun shape s =>
          ∀ kind, shape = .primitive kind → s.IsPrimitive kind)
        Schema.shapeLaw_isPrimitive
      have hConcrete : t.IsConcrete id :=
        ⟨d, hGet, fun _ _ hGeneric => nomatch hEq.symm.trans hGeneric⟩
      have hNoView :
          ∀ (kind : ViewKind) target, d.shape ≠ kind.shape target := by
        rw [hEq]
        rintro (_ | _) target <;> exact nofun
      rcases hHolds.slots ⟨id, []⟩ slot hFound.2 hConcrete nofun d hGet
        hNoView with ⟨hPlain, hPrimitive⟩
      exact .primitive hPlain.aliasName (hPrimitive kind hEq)
  | @aliasOf n id next hShape hNames ih =>
      rcases Option.map_eq_some_iff.mp hShape with ⟨d, hGet, hEq⟩
      have hConcrete : t.IsConcrete id :=
        ⟨d, hGet, fun _ _ hGeneric => nomatch hEq.symm.trans hGeneric⟩
      rcases hBuilt.viewing.slots ⟨id, []⟩ slot hFound.2 hConcrete nofun d
        .alias _ hGet hEq with ⟨hMarks, source, hFinds, hLinks⟩
      rcases hNames.exists_descriptor with ⟨next', hNext, -⟩
      have hSource : r.Remembers next source :=
        hFinds.remembers (hNext ▸ rfl)
      exact .aliasOf (hMarks.mpr rfl) hLinks.target (ih hSource)

/-
  A type that names a primitive has, in a registry that is
  built with the table, a slot that stands for it.
-/
theorem BuiltWith.schemaOf_standsFor
    (hBuilt : r.BuiltWith t)
    (h : t.NamesAfter kind n id) :
    (r.schemaOf t id).1.BuiltWith t ∧
    (r.schemaOf t id).1.pool.StandsFor kind (r.schemaOf t id).2 := by
  rcases exists_extracts_of_namesAfter hBuilt h with
    ⟨r', slot, hEq, hExtracts⟩
  rw [hEq]
  have hBuilt' : r'.BuiltWith t := hBuilt.extract hExtracts
  rcases h.exists_descriptor with ⟨d, hGet, -⟩
  exact ⟨hBuilt', hBuilt'.standsFor_of_namesAfter h
    (hExtracts.remembers hBuilt.bounded (hGet ▸ rfl))⟩

end Registry

end MatchCompiler
