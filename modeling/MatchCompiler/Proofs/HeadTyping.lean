import MatchCompiler.Proofs.PartTyping

/-
  This file says which values an object pattern can meet.

  A constructor pattern names the type of the scrutinee, a
  base of it, or a derived type that is tested at run time.
  In each case the values that reach its parts are of the
  type that it names.

  Key theorems include:
    * `SchemaPool.TypedBy.exists_base_of_compat`
    * `HeadMeans.exists_types`
-/

------------------------------------------------------------
-- Unwrapped Slots
------------------------------------------------------------

namespace MatchCompiler

namespace ValueType

/- A type that a table can mention. -/
def IsMention : ValueType → Prop
| .described _ | .anything => True
| _ => False

theorem isMention_typeOf
    (t : TypeTable)
    (ref : TypeRef) :
    (t.typeOf ref).IsMention := by
  cases ref with
  | described id =>
      simp only [TypeTable.typeOf]
      split <;> trivial
  | parameter n => trivial

theorem IsMention.along
    {t : TypeTable}
    {through : ViewKind → Prop}
    {T U : ValueType}
    (h : T.IsMention)
    (hLeads : t.Leads through T U) :
    U.IsMention := by
  induction hLeads with
  | refl T => exact h
  | step _ hShows _ ih =>
      cases hShows with
      | view => exact ih (isMention_typeOf t _)

end ValueType

namespace SchemaPool.TypedBy

variable {t : TypeTable}
variable {Γ : SlotTypes}
variable {p : SchemaPool}

/- A slot is unwrapped along its type. -/
theorem exists_unwrap
    {pending : List SchemaId}
    (h : p.TypedBy t Γ pending)
    {slot : SchemaId}
    {T : ValueType}
    (hSlot : Γ[slot]? = some T) :
    ∃ U, t.Leads TypeTable.anyView T U ∧ Γ[p.unwrap slot]? = some U := by
  refine unwrap_keeps
    (P := fun a => ∃ U, t.Leads TypeTable.anyView T U ∧ Γ[a]? = some U)
    ?_ ⟨T, .refl T, hSlot⟩
  rintro a b ⟨U, hLeads, hType⟩ hTarget
  rcases h.shows hType hTarget with ⟨kind, V, hShows, hType'⟩
  exact ⟨V, hLeads.trans (.single trivial hShows), hType'⟩

/- It is unwrapped to the end of its type. -/
theorem unwrap_end
    (h : p.TypedBy t Γ [])
    {slot : SchemaId}
    {T E : ValueType}
    (hSlot : Γ[slot]? = some T)
    (hLeads : t.Leads TypeTable.anyView T E)
    (hEnd : t.IsEnd E) :
    Γ[p.unwrap slot]? = some E := by
  rcases h.comesTo_end hLeads hEnd (fun _ _ _ _ => nofun) hSlot with
    ⟨c, hComes, hType⟩
  rw [hComes.unwrap_eq]
  exact hType

/- The slot of an object is not compared by parts. -/
theorem kind_mem_of_object
    (h : p.TypedBy t Γ [])
    {slot : SchemaId}
    {id : DescriptorId}
    {o : ObjectShape}
    (hSlot : Γ[slot]? = some (.described id))
    (hShape : t.shape? id = some (.object o)) :
    (p.get slot).kind ∈ [.record, .union, .unknown] := by
  rcases (h.shown slot _ hSlot nofun).constructed id _ rfl hShape rfl with
    hRecord | hUnion | ⟨-, elements, hEq⟩
  · rw [hRecord]
    decide
  · rw [hUnion]
    decide
  · cases hEq

end SchemaPool.TypedBy

end MatchCompiler

------------------------------------------------------------
-- Compatible Types
------------------------------------------------------------

namespace MatchCompiler

namespace SchemaPool

variable {p : SchemaPool}

/- Records, unions and what is not known have no parts to compare. -/
theorem compatParts_of_nominal
    {compare : SchemaId → SchemaId → Compat}
    {a b : SchemaId}
    (hKind : (p.get b).kind ∈ [.record, .union, .unknown]) :
    p.compatParts compare a b = p.compatNominal a b := by
  unfold compatParts
  simp only [List.mem_cons, List.not_mem_nil, or_false] at hKind
  rcases hKind with hKind | hKind | hKind <;>
  · simp only [hKind]
    cases (p.get a).kind <;> rfl

/- Such types go together if they unwrap to one slot or by name. -/
theorem compat_of_nominal
    {target slot : SchemaId}
    (hKind :
      (p.get (p.unwrap slot)).kind ∈ [.record, .union, .unknown]) :
    p.compat target slot =
      if p.unwrap target == p.unwrap slot then
        .exact
      else
        p.compatNominal (p.unwrap target) (p.unwrap slot) := by
  change (if _ then _ else _) = _
  rw [compatParts_of_nominal hKind]

namespace TypedBy

variable {t : TypeTable}
variable {Γ : SlotTypes}

/-
  A type that goes together exactly with one that leads to an
  object leads to the object or to a base of it, or nothing
  is known about its values.
-/
theorem exists_base_of_compat
    (hNames : t.DistinctNames)
    (h : p.TypedBy t Γ [])
    {slot target : SchemaId}
    {T T' : ValueType}
    {u : DescriptorId}
    {o : ObjectShape}
    (hSlot : Γ[slot]? = some T)
    (hLeads : t.Leads TypeTable.anyView T (.described u))
    (hShape : t.shape? u = some (.object o))
    (hTarget : Γ[target]? = some T')
    (hMention : T'.IsMention)
    (hCompat : p.compat target slot = .exact) :
    ∃ E, t.Leads TypeTable.anyView T' E ∧
      (E = .described u ∨ E = .anything ∨ t.DerivesFrom u E) := by
  have hEnd := TypeTable.isEnd_of_object hShape
  have hUnwrapped := h.unwrap_end hSlot hLeads hEnd
  have hDescribes := h.described _ _ hUnwrapped
  rcases h.exists_unwrap hTarget with ⟨E, hE, hType⟩
  rw [compat_of_nominal (h.kind_mem_of_object hUnwrapped hShape)] at hCompat
  split at hCompat
  · rename_i hSame
    rw [beq_iff_eq.mp hSame, hUnwrapped] at hType
    cases hType
    exact ⟨_, hE, .inl rfl⟩
  · unfold compatNominal at hCompat
    dsimp only at hCompat
    split at hCompat
    · -- One name: it is that of the object.
      rename_i hAlike
      rw [Bool.and_eq_true, beq_iff_eq, beq_iff_eq] at hAlike
      rcases (h.described _ _ hType).named with ⟨U, hAlias, hNamed⟩
      rcases hDescribes.named with ⟨W, hOwn, hOwnName⟩
      have hW : W = .described u := by
        cases hOwn with
        | refl => rfl
        | step _ hShows _ => exact absurd hShows (hEnd _ _)
      rcases hOwnName u hW with ⟨d, hGet, hName⟩
      have hLeads' := hE.trans hAlias.any
      cases U with
      | described id =>
          rcases hNamed id rfl with ⟨d', hGet', hName'⟩
          have hSame := hNames id u d' d hGet' hGet
            (hName'.symm.trans (hAlike.2.trans hName))
          subst hSame
          exact ⟨_, hLeads', .inl rfl⟩
      | anything => exact ⟨_, hLeads', .inr (.inl rfl)⟩
      | primitive kind => exact (hMention.along hLeads').elim
      | sequenceOf V => exact (hMention.along hLeads').elim
    · split at hCompat
      · rename_i hListed
        rcases List.any_eq_true.mp hListed with ⟨a, ha, hSame⟩
        rcases hDescribes.ancestors a ha with
          ⟨id, U, hSelf, ⟨last, o', base, hBelow, hLast, hBase, hU⟩, hA⟩
        have hId : id = u := by
          cases hSelf with
          | refl => rfl
          | step _ hShows _ => exact absurd hShows (hEnd _ _)
        subst hId
        rcases h.exists_unwrap hA with ⟨V, hV, hTypeV⟩
        rw [beq_iff_eq.mp hSame, hType] at hTypeV
        cases hTypeV
        exact ⟨E, hE, .inr (.inr
          ⟨last, o', base, hBelow, hLast, hBase, hU.trans hV⟩)⟩
      · split at hCompat <;> cases hCompat

/- A type that may be tested for derives from the object. -/
theorem below_of_compat
    (h : p.TypedBy t Γ [])
    {slot target : SchemaId}
    {T T' : ValueType}
    {u id : DescriptorId}
    {o : ObjectShape}
    (hSlot : Γ[slot]? = some T)
    (hLeads : t.Leads TypeTable.anyView T (.described u))
    (hShape : t.shape? u = some (.object o))
    (hTarget : Γ[target]? = some T')
    (hCompat : p.compat target slot = .deferred)
    (hId : t.Leads TypeTable.anyView T' (.described id))
    (hEnd : t.IsEnd (.described id)) :
    t.Below id u := by
  have hUnwrapped := h.unwrap_end hSlot hLeads
    (TypeTable.isEnd_of_object hShape)
  have hDescribes := h.described _ _ (h.unwrap_end hTarget hId hEnd)
  rw [compat_of_nominal (h.kind_mem_of_object hUnwrapped hShape)] at hCompat
  split at hCompat
  · cases hCompat
  · unfold compatNominal at hCompat
    dsimp only at hCompat
    split at hCompat
    · cases hCompat
    · split at hCompat
      · cases hCompat
      · split at hCompat
        · rename_i hDerived
          rw [Bool.and_eq_true] at hDerived
          rcases List.any_eq_true.mp hDerived.2 with ⟨a, ha, hSame⟩
          rcases hDescribes.ancestors a ha with
            ⟨id', U, hSelf, ⟨last, o', base, hBelow, hLast, hBase, hU⟩, hA⟩
          have hId' : id' = id := by
            cases hSelf with
            | refl => rfl
            | step _ hShows _ => exact absurd hShows (hEnd _ _)
          subst hId'
          rcases h.exists_unwrap hA with ⟨V, hV, hTypeV⟩
          rw [beq_iff_eq.mp hSame, hUnwrapped] at hTypeV
          cases hTypeV
          exact hBelow.trans
            (.step hLast hBase (hU.trans hV) (.refl u))
        · cases hCompat

end TypedBy

end SchemaPool

/- What derives from a type has its values. -/
theorem HasType.of_derivesFrom
    {t : TypeTable}
    {id : DescriptorId}
    {T : ValueType}
    {v : Value}
    (h : HasType t (.described id) v)
    (hFrom : t.DerivesFrom id T) :
    HasType t T v := by
  rcases hFrom with ⟨last, o, base, hBelow, hShape, hBase, hLeads⟩
  exact (h.of_below hBelow (TypeTable.isEnd_of_object hShape)).of_base_leads
    hShape hBase hLeads

end MatchCompiler

------------------------------------------------------------
-- Heads Of Constructor Patterns
------------------------------------------------------------

namespace MatchCompiler

open Registry (GrowsTyped)

variable {ctx : CheckContext}
variable {Γ : SlotTypes}
variable {s s₁ : Progress}
variable {slot : SchemaId}
variable {head : ConstructorHead}
variable {resolved : ResolvedHead}
variable {T : ValueType}

/- A schema is extracted for a type that the table can mention. -/
theorem Progress.exists_extract
    (hFree : ctx.table.TemplateFree)
    (hTyped : s.registry.Typed ctx.table Γ)
    (id : DescriptorId) :
    ∃ Γ' U, GrowsTyped ctx.table Γ s.registry Γ'
        (s.extract ctx id).1.registry ∧
      Γ'[(s.extract ctx id).2]? = some U ∧ U.IsMention := by
  rcases hTyped.schemaWithin hFree _ id with ⟨Γ', U, hGrows, hU, hType⟩
  refine ⟨Γ', U, hGrows, hU, ?_⟩
  rcases hType with rfl | rfl
  · exact ValueType.isMention_typeOf _ _
  · trivial

/- An object that has the name of a slot's type is of that type. -/
theorem SchemaPool.TypedBy.hasType_of_isOfType
    {t : TypeTable}
    {p : SchemaPool}
    (hNames : t.DistinctNames)
    (h : p.TypedBy t Γ [])
    (hSlot : Γ[slot]? = some T)
    (hMention : T.IsMention)
    {u : DescriptorId}
    {o : ObjectShape}
    {v : Value}
    (hShape : t.shape? u = some (.object o))
    (hValue : HasType t (.described u) v)
    (hListed : v.isOfType (p.get slot).name = true) :
    HasType t T v := by
  rcases (h.described slot T hSlot).named with ⟨U, hLeads, hNamed⟩
  refine HasType.of_leads hLeads ?_
  cases U with
  | described id =>
      rcases hNamed id rfl with ⟨d, hGet, hName⟩
      rw [hName] at hListed
      exact hValue.of_isOfType hNames hShape hGet hListed
  | anything => exact .unknown .anything v
  | primitive kind => exact (hMention.along hLeads).elim
  | sequenceOf V => exact (hMention.along hLeads).elim

/-
  The values of an object that have the type that a pattern
  tests for, if it tests for one, are of the type that it
  names.
-/
theorem HeadMeans.exists_types
    (hFree : ctx.table.TemplateFree)
    (hNames : ctx.table.DistinctNames)
    (h : HeadMeans ctx slot head s resolved s₁)
    (hTyped : s.registry.Typed ctx.table Γ)
    (hSlot : Γ[slot]? = some T)
    {u : DescriptorId}
    {o : ObjectShape}
    (hLeads : ctx.table.Leads TypeTable.anyView T (.described u))
    (hShape : ctx.table.shape? u = some (.object o))
    {v : Value}
    (hValue : HasType ctx.table (.described u) v)
    (hTested : ∀ name ∈ resolved.runtimeType, v.isOfType name = true) :
    ∃ Γ₁ T', GrowsTyped ctx.table Γ s.registry Γ₁ s₁.registry ∧
      Γ₁[resolved.target]? = some T' ∧ HasType ctx.table T' v := by
  cases h with
  | own =>
      exact ⟨Γ, T, .refl hTyped, hSlot, hValue.of_leads hLeads⟩
  | @base id hTarget hCompat =>
      rcases Progress.exists_extract hFree hTyped id with
        ⟨Γ₁, T', hGrows, hType, hMention⟩
      refine ⟨Γ₁, T', hGrows, hType, ?_⟩
      rcases hGrows.typed.pool.exists_base_of_compat hNames
          (hGrows.slot hTyped hSlot).1 hLeads hShape hType hMention
          hCompat with ⟨E, hE, rfl | rfl | hFrom⟩
      · exact hValue.of_leads hE
      · exact HasType.of_leads hE (.unknown .anything v)
      · exact (hValue.of_derivesFrom hFrom).of_leads hE
  | @derived id hTarget hCompat =>
      rcases Progress.exists_extract hFree hTyped id with
        ⟨Γ₁, T', hGrows, hType, hMention⟩
      refine ⟨Γ₁, T', hGrows, hType, ?_⟩
      exact hGrows.typed.pool.hasType_of_isOfType hNames hType hMention
        hShape hValue (hTested _ rfl)

/- One of two objects derives from the other, or they are one. -/
def TypeTable.InLine
    (t : TypeTable)
    (a b : DescriptorId) : Prop :=
  t.Below a b ∨ t.Below b a

/-
  A constructor pattern at a type that leads to an object
  names an object in line with it: one that it derives from,
  unless the pattern asks for a type at run time.
-/
theorem HeadMeans.exists_inLine
    (hFree : ctx.table.TemplateFree)
    (hNames : ctx.table.DistinctNames)
    (h : HeadMeans ctx slot head s resolved s₁)
    (hTyped : s.registry.Typed ctx.table Γ)
    (hSlot : Γ[slot]? = some T)
    {u : DescriptorId}
    {o : ObjectShape}
    (hLeads : ctx.table.Leads TypeTable.anyView T (.described u))
    (hShape : ctx.table.shape? u = some (.object o)) :
    ∃ Γ₁ T', GrowsTyped ctx.table Γ s.registry Γ₁ s₁.registry ∧
      Γ₁[resolved.target]? = some T' ∧
      ∀ id, ctx.table.Leads TypeTable.anyView T' (.described id) →
        ctx.table.IsEnd (.described id) →
        ctx.table.InLine id u ∧
        (resolved.runtimeType = none → ctx.table.Below u id) := by
  cases h with
  | own =>
      refine ⟨Γ, T, .refl hTyped, hSlot, fun id hId hEnd => ?_⟩
      cases hId.end_unique hEnd (TypeTable.isEnd_of_object hShape) hLeads
      exact ⟨.inl (.refl u), fun _ => .refl u⟩
  | @base id hTarget hCompat =>
      rcases Progress.exists_extract hFree hTyped id with
        ⟨Γ₁, T', hGrows, hType, hMention⟩
      refine ⟨Γ₁, T', hGrows, hType, fun id hId hEnd => ?_⟩
      rcases hGrows.typed.pool.exists_base_of_compat hNames
          (hGrows.slot hTyped hSlot).1 hLeads hShape hType hMention
          hCompat with ⟨E, hE, hFrom⟩
      have hOn := hId.onward hEnd hE
      have hBelow : ctx.table.Below u id := by
        rcases hFrom with rfl | rfl | hFrom
        · cases hOn with
          | refl => exact .refl u
          | step _ hShows _ =>
              exact absurd hShows (TypeTable.isEnd_of_object hShape _ _)
        · cases hOn with
          | step _ hShows _ => cases hShows
        · rcases hFrom with ⟨last, o', base, hBelow, hLast, hBase, hU⟩
          exact hBelow.trans (.step hLast hBase (hU.trans hOn) (.refl id))
      exact ⟨.inr hBelow, fun _ => hBelow⟩
  | @derived id hTarget hCompat =>
      rcases Progress.exists_extract hFree hTyped id with
        ⟨Γ₁, T', hGrows, hType, hMention⟩
      refine ⟨Γ₁, T', hGrows, hType, fun id hId hEnd => ⟨.inl ?_, nofun⟩⟩
      exact hGrows.typed.pool.below_of_compat (hGrows.slot hTyped hSlot).1
        hLeads hShape hType hCompat hId hEnd

end MatchCompiler
