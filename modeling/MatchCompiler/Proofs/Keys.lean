import MatchCompiler.Proofs.Extraction
import MatchCompiler.Proofs.Parameters

/-
  This file shows that what a registry remembers fits
  together.

  While one table is used, a key is never given another slot,
  two descriptors with slots of their own have different
  ones, and an instance has the slot that its template has
  under its arguments. The types that a descriptor mentions
  are found under the arguments in its key: arguments that
  are not in the key do not matter to them.

  Key definitions include:
    * `Registry.Coherent`

  Key theorems include:
    * `Registry.Finds.unique`
    * `Registry.Coherent.finds`
    * `Move.recalls`
    * `Move.coherent`
-/

------------------------------------------------------------
-- Slots Of Keys
------------------------------------------------------------

namespace MatchCompiler

/- What has been found out about parameters may be noted. -/
theorem TypeTable.memo_cons
    {t : TypeTable}
    {memo : List (DescriptorId × Bool)}
    (h : ∀ id b, memo.lookup id = some b → b = t.mentionsParams id)
    (id : DescriptorId) :
    ∀ other b,
      ((id, t.mentionsParams id) :: memo).lookup other = some b →
      b = t.mentionsParams other := by
  intro other b hFound
  rw [List.lookup_cons] at hFound
  split at hFound
  · rename_i hEq
    cases beq_iff_eq.mp hEq
    exact (Option.some.inj hFound).symm
  · exact h other b hFound

namespace Registry

/- What a registry remembers while one table is used. -/
structure Coherent
    (t : TypeTable)
    (r : Registry) : Prop where
  memo :
    ∀ id b, r.parametric.lookup id = some b → b = t.mentionsParams id
  instances :
    ∀ key slot d template args,
      r.cache.lookup key = some slot →
      t.get? key.descriptor = some d →
      d.shape = .generic template args →
      ∃ slots, List.Forall₂ (r.Finds t key.args) args slots ∧
        r.Finds t slots (.described template) slot
  own :
    ∀ key key' slot,
      r.cache.lookup key = some slot →
      r.cache.lookup key' = some slot →
      t.IsConcrete key.descriptor → t.IsConcrete key'.descriptor →
      key = key'

variable {t : TypeTable}
variable {r r' : Registry}
variable {env : List SchemaId}

/- One slot is found. -/
theorem Finds.unique
    {ref : TypeRef}
    {a b : SchemaId}
    (h : r.Finds t env ref a)
    (h' : r.Finds t env ref b) :
    a = b := by
  cases h with
  | known hGet hParametric hCache =>
      cases h' with
      | known hGet' hParametric' hCache' =>
          cases hParametric.symm.trans hParametric'
          exact Option.some.inj (hCache.symm.trans hCache')
      | dangling hNone => cases hGet.symm.trans hNone
  | dangling hNone hUnknown =>
      cases h' with
      | known hGet => cases hGet.symm.trans hNone
      | dangling _ hUnknown' =>
          exact Option.some.inj (hUnknown.symm.trans hUnknown')
  | argument hArgument =>
      cases h' with
      | argument hArgument' =>
          exact Option.some.inj (hArgument.symm.trans hArgument')
      | missing hNone => cases hArgument.symm.trans hNone
  | missing hNone hUnknown =>
      cases h' with
      | argument hArgument => cases hArgument.symm.trans hNone
      | missing _ hUnknown' =>
          exact Option.some.inj (hUnknown.symm.trans hUnknown')

theorem Finds.all_unique
    {refs : List TypeRef}
    {slots slots' : List SchemaId}
    (h : List.Forall₂ (r.Finds t env) refs slots)
    (h' : List.Forall₂ (r.Finds t env) refs slots') :
    slots = slots' := by
  induction h generalizing slots' with
  | nil =>
      cases h'
      rfl
  | cons hFirst _ ih =>
      cases h' with
      | cons hFirst' hRest' => rw [hFirst.unique hFirst', ih hRest']

theorem IsKey.descriptor_eq
    {id : DescriptorId}
    {key : ExtractionKey}
    (h : r.IsKey id env key) :
    key.descriptor = id := by
  rcases h with ⟨b, -, rfl⟩
  rfl

namespace Coherent

/-
  What a descriptor mentions is found under the arguments in
  its key.
-/
theorem finds
    (h : r.Coherent t)
    {id : DescriptorId}
    {d : TypeDescriptor}
    {key : ExtractionKey}
    (hGet : t.get? id = some d)
    (hKey : r.IsKey id env key)
    {ref : TypeRef}
    (hRef : ref ∈ d.shape.openRefs)
    {slot : SchemaId}
    (hFinds : r.Finds t env ref slot) :
    r.Finds t key.args ref slot := by
  rcases hKey with ⟨b, hMemo, rfl⟩
  cases b with
  | true => exact hFinds
  | false =>
      have hNone := (h.memo id false hMemo).symm
      rcases TypeTable.mentionsParams_of_mem hGet hNone hRef with
        ⟨other, rfl, hOther⟩
      cases hFinds with
      | known hGet' hMemo' hCache =>
          cases (h.memo other _ hMemo').trans hOther
          exact .known hGet' hMemo' hCache
      | dangling hGet' hUnknown => exact .dangling hGet' hUnknown

/- No key is added, and nothing is forgotten. -/
theorem of_recalls
    (h : r.Coherent t)
    (hRecalls : r.Recalls r')
    (hCache : r'.cache = r.cache)
    (hMemo :
      ∀ id b, r'.parametric.lookup id = some b → b = t.mentionsParams id) :
    r'.Coherent t := by
  refine ⟨hMemo, ?_, hCache ▸ h.own⟩
  intro key slot d template args hSlot hGet hShape
  rw [hCache] at hSlot
  rcases h.instances key slot d template args hSlot hGet hShape with
    ⟨slots, hArgs, hTemplate⟩
  exact ⟨slots, hArgs.imp fun _ _ hFinds => hFinds.mono hRecalls,
    hTemplate.mono hRecalls⟩

/- A slot is given to a key. -/
theorem remember
    (h : r.Coherent t)
    {key : ExtractionKey}
    {slot : SchemaId}
    (hRecalls : r.Recalls r')
    (hCache : r'.cache = (key, slot) :: r.cache)
    (hMemo : r'.parametric = r.parametric)
    (hInstance :
      ∀ d template args, t.get? key.descriptor = some d →
        d.shape = .generic template args →
        ∃ slots, List.Forall₂ (r.Finds t key.args) args slots ∧
          r.Finds t slots (.described template) slot)
    (hOwn :
      t.IsConcrete key.descriptor →
      ∀ key', r.cache.lookup key' ≠ some slot) :
    r'.Coherent t := by
  have hCases :
      ∀ key' slot', r'.cache.lookup key' = some slot' →
        key' = key ∧ slot' = slot ∨ r.cache.lookup key' = some slot' := by
    intro key' slot' hFound
    rw [hCache, List.lookup_cons] at hFound
    split at hFound
    · rename_i hEq
      exact .inl ⟨beq_iff_eq.mp hEq, (Option.some.inj hFound).symm⟩
    · exact .inr hFound
  refine ⟨hMemo ▸ h.memo, ?_, ?_⟩
  · intro key' slot' d template args hFound hGet hShape
    have hThere :
        ∃ slots, List.Forall₂ (r.Finds t key'.args) args slots ∧
          r.Finds t slots (.described template) slot' := by
      rcases hCases key' slot' hFound with ⟨rfl, rfl⟩ | hOld
      · exact hInstance d template args hGet hShape
      · exact h.instances key' slot' d template args hOld hGet hShape
    rcases hThere with ⟨slots, hArgs, hTemplate⟩
    exact ⟨slots, hArgs.imp fun _ _ hFinds => hFinds.mono hRecalls,
      hTemplate.mono hRecalls⟩
  · intro a b slot' ha hb hConcrete hConcrete'
    rcases hCases a slot' ha with ⟨rfl, rfl⟩ | hOldA
    · rcases hCases b _ hb with ⟨rfl, -⟩ | hOldB
      · rfl
      · exact absurd hOldB (hOwn hConcrete b)
    · rcases hCases b slot' hb with ⟨rfl, rfl⟩ | hOldB
      · exact absurd hOldA (hOwn hConcrete' a)
      · exact h.own a b slot' hOldA hOldB hConcrete hConcrete'

end Coherent

end Registry

end MatchCompiler

------------------------------------------------------------
-- Moves
------------------------------------------------------------

namespace MatchCompiler

namespace Move

variable {t : TypeTable}
variable {x y : Extraction}

/- The arguments of an instance are found under its key. -/
theorem instance_finds
    {id : DescriptorId}
    {d : TypeDescriptor}
    {env : List SchemaId}
    {key : ExtractionKey}
    {template : DescriptorId}
    {args : List TypeRef}
    {slots : List SchemaId}
    {r : Registry}
    (hCoherent : r.Coherent t)
    (hGet : t.get? id = some d)
    (hGeneric : d.shape = .generic template args)
    (hKey : r.IsKey id env key)
    (hArgs : List.Forall₂ (r.Finds t env) args slots) :
    List.Forall₂ (r.Finds t key.args) args slots := by
  have hRefs : ∀ ref ∈ args, ref ∈ d.shape.openRefs := by
    rw [hGeneric]
    exact fun ref hRef => hRef
  clear hGeneric
  induction hArgs with
  | nil => exact .nil
  | cons hFirst _ ih =>
      rcases List.forall_mem_cons.mp hRefs with ⟨hRef, hRest⟩
      exact .cons (hCoherent.finds hGet hKey hRef hFirst) (ih hRest)

/- A move forgets nothing. -/
theorem recalls
    (h : Move t x y)
    (hCoherent : x.registry.Coherent t) :
    x.registry.Recalls y.registry := by
  cases h with
  | memo hNone => exact ⟨.refl, EntriesKept.refl.cons hNone _, .refl⟩
  | hit => exact ⟨.refl, .refl, .refl⟩
  | miss => exact ⟨.refl, .refl, .refl⟩
  | fill => exact ⟨.refl, .refl, .refl⟩
  | unknown =>
      exact ⟨.refl, .refl, (x.registry.pool.grows_share _ _).synthetic⟩
  | reserve hGet hGeneric hKey hNone =>
      exact ⟨EntriesKept.refl.cons hNone _, .refl, .refl⟩
  | @remember id d env key template args slots slot hGet hGeneric hKey
      hArgs hTemplate =>
      refine ⟨fun key' slot' hFound => ?_, .refl, .refl⟩
      simp only [Extraction.remembered, List.lookup_cons]
      split
      · -- The key has the slot of the template already.
        rename_i hEq
        cases beq_iff_eq.mp hEq
        rcases hCoherent.instances key slot' d template args hFound
            (hKey.descriptor_eq ▸ hGet) hGeneric with
          ⟨slots', hArgs', hTemplate'⟩
        have hSame := Registry.Finds.all_unique hArgs'
          (instance_finds hCoherent hGet hGeneric hKey hArgs)
        subst hSame
        rw [hTemplate'.unique hTemplate]
      · exact hFound

/- A move keeps what is remembered fitting together. -/
theorem coherent
    (h : Move t x y)
    (hBounded : x.Bounded)
    (hCoherent : x.registry.Coherent t) :
    y.registry.Coherent t := by
  have hRecalls := h.recalls hCoherent
  cases h with
  | @memo id hNone =>
      exact hCoherent.of_recalls hRecalls rfl
        (TypeTable.memo_cons hCoherent.memo id)
  | hit => exact hCoherent.of_recalls hRecalls rfl hCoherent.memo
  | miss => exact hCoherent.of_recalls hRecalls rfl hCoherent.memo
  | fill => exact hCoherent.of_recalls hRecalls rfl hCoherent.memo
  | unknown => exact hCoherent.of_recalls hRecalls rfl hCoherent.memo
  | @reserve id d env key hGet hGeneric hKey hNone =>
      refine hCoherent.remember hRecalls rfl rfl ?_ ?_
      · intro d' template args hGet' hShape
        rw [hKey.descriptor_eq, hGet] at hGet'
        cases hGet'
        exact absurd hShape (hGeneric template args)
      · intro _ key' hFound
        exact Nat.lt_irrefl _ (hBounded.registry.cache key' _ hFound)
  | @remember id d env key template args slots slot hGet hGeneric hKey
      hArgs hTemplate =>
      refine hCoherent.remember hRecalls rfl rfl ?_ ?_
      · intro d' template' args' hGet' hShape
        rw [hKey.descriptor_eq, hGet] at hGet'
        cases hGet'
        cases hGeneric.symm.trans hShape
        exact ⟨slots,
          instance_finds hCoherent hGet hGeneric hKey hArgs, hTemplate⟩
      · rintro ⟨d', hGet', hConcrete⟩
        rw [hKey.descriptor_eq, hGet] at hGet'
        cases hGet'
        exact absurd hGeneric (hConcrete template args)

end Move

end MatchCompiler
