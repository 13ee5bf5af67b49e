import MatchCompiler.Proofs.Keys
import MatchCompiler.Proofs.Unwrapping

/-
  This file shows what objects take over from their bases.

  An object copies the fields, the ancestors and, if it has
  no variant part of its own, the branches of the slot that
  its base comes to. If that slot is filled by then, it never
  changes again and the copy is whole. If it is not, then
  the object is being extracted on behalf of a type behind
  the base, which therefore mentions the object.

  Key definitions include:
    * `TakesOver`
    * `Settles`
    * `Inherits`
    * `Inheriting`

  Key theorems include:
    * `Move.settles`
    * `Inherits.mono`
    * `Move.forall_filled`
    * `Extraction.Inheriting.move`
    * `Registry.object_takes_over_base`
-/

------------------------------------------------------------
-- What Is Taken Over
------------------------------------------------------------

namespace MatchCompiler

/- The declared fields that all values of an object have. -/
def ObjectShape.shared (o : ObjectShape) : List FieldDecl :=
  o.fields ++ (o.variant.map VariantPart.discriminator).toList

/-
  An object has the fields of its base and after them its
  own, the ancestors of the base and before them the base,
  and the branches of the base if it has none of its own.
-/
structure TakesOver
    (t : TypeTable)
    (r : Registry)
    (env : List SchemaId)
    (o : ObjectShape)
    (base : SchemaId)
    (s : Schema) : Prop where
  fields :
    ∃ own, Gives t r env (r.get base).fields.length o.shared own ∧
      s.fields = (r.get base).fields ++ own
  ancestors : s.ancestors = base :: (r.get base).ancestors
  branches :
    o.variant = none →
    s.branches = (r.get base).branches ∧
    s.discriminator = (r.get base).discriminator

/- Fields are declared after others. -/
theorem Gives.append
    {t : TypeTable}
    {r : Registry}
    {env : List SchemaId}
    {position : Nat}
    {ds ds' : List FieldDecl}
    {fs fs' : List Field}
    (h : Gives t r env position ds fs)
    (h' : Gives t r env (position + fs.length) ds' fs') :
    Gives t r env position (ds ++ ds') (fs ++ fs') := by
  induction h with
  | nil => exact h'
  | cons hSlot _ ih =>
      refine .cons hSlot (ih ?_)
      rwa [List.length_cons, Nat.add_comm _ 1, ← Nat.add_assoc] at h'

/- What is found under the arguments in a key is given. -/
theorem Gives.of_finds
    {t : TypeTable}
    {r : Registry}
    {env env' : List SchemaId}
    {position : Nat}
    {ds : List FieldDecl}
    {fs : List Field}
    (h : Gives t r env position ds fs)
    (hFinds :
      ∀ ref ∈ ds.map FieldDecl.type, ∀ slot,
        r.Finds t env ref slot → r.Finds t env' ref slot) :
    Gives t r env' position ds fs := by
  induction h with
  | nil position => exact .nil position
  | cons hSlot _ ih =>
      rcases List.forall_mem_cons.mp hFinds with ⟨hFirst, hRest⟩
      exact .cons (hFirst _ hSlot) (ih hRest)

/- A variant part adds the discriminator as a field. -/
theorem Varies.fields
    {t : TypeTable}
    {r : Registry}
    {env : List SchemaId}
    {origin : Origin}
    {s s' : Schema}
    {v : VariantPart}
    (h : Varies t r env origin s v s') :
    s'.ancestors = s.ancestors ∧
    ∃ f, Gives t r env s.fields.length [v.discriminator] [f] ∧
      s'.fields = s.fields ++ [f] := by
  cases h with
  | mk hSlot => exact ⟨rfl, _, .cons hSlot (.nil _), rfl⟩

/- An object that is built takes over what its base was. -/
theorem BuiltObject.takesOver
    {t : TypeTable}
    {r : Registry}
    {env : List SchemaId}
    {name : String}
    {origin : Origin}
    {o : ObjectShape}
    {s : Schema}
    {base : TypeRef}
    (h : BuiltObject t r env name origin o s)
    (hBase : o.base = some base) :
    ∃ source p, r.Finds t env base source ∧
      SchemaPool.SeenIn source p r.pool ∧
      (r.get (p.unwrap source) = p.get (p.unwrap source) →
        TakesOver t r env o (p.unwrap source) s) := by
  have hDerived :
      ∀ {s : Schema}, Starts t r env name o s →
        ∃ source p, r.Finds t env base source ∧
          SchemaPool.SeenIn source p r.pool ∧
          s = o.start name (some (p, p.unwrap source)) := by
    intro s hStarts
    cases hStarts with
    | root hNone =>
        rw [hBase] at hNone
        cases hNone
    | derived hSome hSource hSeen =>
        rw [hBase] at hSome
        cases hSome
        exact ⟨_, _, hSource, hSeen, rfl⟩
  cases h with
  | @plain _ own hStarts hOwn hVariant =>
      rcases hDerived hStarts with ⟨source, p, hSource, hSeen, rfl⟩
      refine ⟨source, p, hSource, hSeen, fun hGet => ⟨⟨own, ?_, ?_⟩, ?_, ?_⟩⟩
      · rw [hGet, ObjectShape.shared, hVariant]
        simpa [ObjectShape.start] using hOwn
      · rw [hGet]
        rfl
      · rw [hGet]
        rfl
      · intro _
        rw [hGet]
        simp [ObjectShape.start, hVariant]
  | @variant _ _ own v hStarts hOwn hVariant hVaries =>
      rcases hDerived hStarts with ⟨source, p, hSource, hSeen, rfl⟩
      rcases hVaries.fields with ⟨hAncestors, f, hField, hFields⟩
      refine ⟨source, p, hSource, hSeen, fun hGet =>
        ⟨⟨own ++ [f], ?_, ?_⟩, ?_, ?_⟩⟩
      · rw [hGet, ObjectShape.shared, hVariant]
        refine Gives.append hOwn ?_
        simpa [ObjectShape.start] using hField
      · rw [hGet]
        simpa [ObjectShape.start] using hFields
      · rw [hGet]
        exact hAncestors
      · intro hNone
        rw [hVariant] at hNone
        cases hNone

end MatchCompiler

------------------------------------------------------------
-- Slots That Stay
------------------------------------------------------------

namespace MatchCompiler

/-
  From one registry to a later one, each with its unfilled
  slots. Nothing is forgotten, views stay views of the same
  slots, and filled slots that are no views stay.
-/
structure Settles
    (r : Registry)
    (pending : List SchemaId)
    (r' : Registry)
    (pending' : List SchemaId) : Prop where
  recalls : r.Recalls r'
  links : ∀ a b, r.pool.Links a b → r'.pool.Links a b
  size_le : r.pool.size ≤ r'.pool.size
  kept :
    ∀ slot < r.pool.size, (r.get slot).IsPlain → slot ∉ pending →
      r'.get slot = r.get slot ∧ slot ∉ pending'

/- A slot came to what now comes to its end. -/
theorem Settles.comesTo
    {r r' : Registry}
    {pending pending' : List SchemaId}
    (h : Settles r pending r' pending')
    (hShown :
      ∀ slot, (r.get slot).IsPlain ∨ ∃ source, r.pool.Links slot source)
    {a c : SchemaId}
    (hEnd : r'.pool.ComesTo a c) :
    ∃ b, r.pool.ComesTo a b ∧ r'.pool.ComesTo b c := by
  rcases hEnd with ⟨n, hChain⟩
  induction hChain with
  | @done a hPlain =>
      rcases hShown a with hBefore | ⟨source, hLinks⟩
      · exact ⟨a, ⟨0, .done hBefore⟩, 0, .done hPlain⟩
      · exact absurd (h.links _ _ hLinks)
          (SchemaPool.not_links_of_isPlain hPlain)
  | @step n a b c hLinks hRest ih =>
      rcases hShown a with hBefore | ⟨source, hLinks'⟩
      · exact ⟨a, ⟨0, .done hBefore⟩, n + 1, .step hLinks hRest⟩
      · cases hLinks.unique (h.links _ _ hLinks')
        rcases ih with ⟨e, ⟨m, hChain⟩, hOn⟩
        exact ⟨e, ⟨m + 1, .step hLinks' hChain⟩, hOn⟩

/- A move keeps the slots that are filled. -/
theorem Move.get_eq
    {t : TypeTable}
    {x y : Extraction}
    (h : Move t x y)
    {slot : SchemaId}
    (hLt : slot < x.registry.pool.size)
    (hFilled : slot ∉ x.pending) :
    y.registry.get slot = x.registry.get slot ∧ slot ∉ y.pending := by
  cases h with
  | memo => exact ⟨rfl, hFilled⟩
  | hit => exact ⟨rfl, hFilled⟩
  | miss => exact ⟨rfl, hFilled⟩
  | remember => exact ⟨rfl, hFilled⟩
  | unknown =>
      exact ⟨(x.registry.pool.grows_share _ _).get_eq hLt, hFilled⟩
  | reserve =>
      refine ⟨(x.registry.pool.grows_push _).get_eq hLt, fun hMem => ?_⟩
      rcases List.mem_cons.mp hMem with rfl | hMem
      · exact Nat.lt_irrefl _ hLt
      · exact hFilled hMem
  | @fill id d env key slot' rest name s noted hGet hKey hSlot hPending =>
      have hNe : slot' ≠ slot := by
        rintro rfl
        exact hFilled (hPending ▸ List.mem_cons_self)
      exact ⟨SchemaPool.get_fill_of_ne hNe _,
        fun hMem => hFilled (List.mem_of_mem_erase hMem)⟩

theorem Move.size_le
    {t : TypeTable}
    {x y : Extraction}
    (h : Move t x y) :
    x.registry.pool.size ≤ y.registry.pool.size := by
  cases h with
  | memo => exact Nat.le_refl _
  | hit => exact Nat.le_refl _
  | miss => exact Nat.le_refl _
  | remember => exact Nat.le_refl _
  | unknown => exact (x.registry.pool.grows_share _ _).size_le
  | reserve => exact (x.registry.pool.grows_push _).size_le
  | fill => exact Nat.le_of_eq (SchemaPool.size_fill _ _ _).symm

theorem Move.settles
    {t : TypeTable}
    {x y : Extraction}
    (h : Move t x y)
    (hCoherent : x.registry.Coherent t)
    (hNoting : Noting x.registry.pool x.pending x.views) :
    Settles x.registry x.pending y.registry y.pending where
  recalls := h.recalls hCoherent
  size_le := h.size_le
  kept := fun _ hLt _ hFilled => h.get_eq hLt hFilled
  links := by
    intro a b hLinks
    have hFilled : a ∉ x.pending := fun hMem =>
      SchemaPool.not_links_of_isPlain (hNoting.pending_plain a hMem) hLinks
    have hSame : y.registry.pool.get a = x.registry.pool.get a :=
      (h.get_eq hLinks.lt hFilled).1
    unfold SchemaPool.Links
    rw [hSame]
    exact hLinks

/- Rebuilding views leaves plain slots and all links. -/
theorem View.settles_completeAll
    {r : Registry}
    {views : List View}
    (h : Noting r.pool [] views) :
    Settles r []
      { r with pool := completeAll views r.pool } [] where
  recalls := by
    refine ⟨.refl, .refl, ?_⟩
    rw [synthetic_completeAll]
    exact .refl
  size_le := Nat.le_of_eq (size_completeAll views r.pool).symm
  kept := by
    intro slot hLt hPlain _
    refine ⟨get_completeAll_of_ne fun v hv hEq => ?_, nofun⟩
    exact SchemaPool.not_links_of_isPlain hPlain (hEq ▸ h.noted v hv)
  links := by
    intro a b hLinks
    by_cases hNoted : ∃ v ∈ views, v.slot = a
    · rcases hNoted with ⟨v, hv, rfl⟩
      have hBefore : r.pool.Links v.slot v.source := h.noted v hv
      exact hBefore.unique hLinks ▸ shows_completeAll h v hv
    · have hSame : (completeAll views r.pool).get a = r.pool.get a :=
        get_completeAll_of_ne fun v hv hEq => hNoted ⟨v, hv, hEq⟩
      change ((completeAll views r.pool).get a).Shows b
      rw [hSame]
      exact hLinks

/- Sharing a schema leaves all slots. -/
theorem Registry.settles_share
    (r : Registry)
    (key : SyntheticKey)
    (s : Schema) :
    Settles r [] { r with pool := (r.pool.share key s).1 } [] where
  recalls := (r.grows_share key s).recalls
  size_le := (r.pool.grows_share key s).size_le
  kept := fun _ hLt _ _ =>
    ⟨(r.pool.grows_share key s).get_eq hLt, nofun⟩
  links := by
    intro a b hLinks
    change ((r.pool.share key s).1.get a).Shows b
    rw [(r.pool.grows_share key s).get_eq hLinks.lt]
    exact hLinks

end MatchCompiler

------------------------------------------------------------
-- Objects And Their Bases
------------------------------------------------------------

namespace MatchCompiler

/-
  One of the types behind a slot has a slot of its own, and
  mentions a descriptor, if only through others.
-/
def Registry.Entangled
    (t : TypeTable)
    (r : Registry)
    (source : SchemaId)
    (id : DescriptorId) : Prop :=
  ∃ slot key, Relation.ReflTransGen r.pool.Links source slot ∧
    r.cache.lookup key = some slot ∧
    t.IsConcrete key.descriptor ∧ t.Reaches key.descriptor id

/-
  What an object has from its base: all that the base comes
  to, if that is filled, or else the object is mentioned by a
  type behind the base.
-/
def Inherits
    (t : TypeTable)
    (r : Registry)
    (pending : List SchemaId)
    (key : ExtractionKey)
    (o : ObjectShape)
    (base : TypeRef)
    (s : Schema) : Prop :=
  ∃ source, r.Finds t key.args base source ∧
    ∀ b, r.pool.ComesTo source b →
      (b < r.pool.size ∧ b ∉ pending ∧ TakesOver t r key.args o b s) ∨
      r.Entangled t source key.descriptor

variable {t : TypeTable}
variable {r r' : Registry}
variable {pending pending' : List SchemaId}
variable {key : ExtractionKey}
variable {slot : SchemaId}

theorem Registry.Entangled.mono
    {source : SchemaId}
    {id : DescriptorId}
    (h : r.Entangled t source id)
    (hSettles : Settles r pending r' pending') :
    r'.Entangled t source id := by
  rcases h with ⟨slot, key, hPath, hKey, hRest⟩
  exact ⟨slot, key, Relation.ReflTransGen.mono hSettles.links _ _ hPath,
    hSettles.recalls.cache _ _ hKey, hRest⟩

theorem TakesOver.mono
    {env : List SchemaId}
    {o : ObjectShape}
    {base : SchemaId}
    {s : Schema}
    (h : TakesOver t r env o base s)
    (hRecalls : r.Recalls r')
    (hSame : r'.get base = r.get base) :
    TakesOver t r' env o base s := by
  rcases h with ⟨⟨own, hOwn, hFields⟩, hAncestors, hBranches⟩
  refine ⟨⟨own, ?_, ?_⟩, ?_, ?_⟩
  · rw [hSame]
    exact hOwn.mono hRecalls
  · rw [hSame, hFields]
  · rw [hSame, hAncestors]
  · rw [hSame]
    exact hBranches

/- What has been taken over stays what the base has. -/
theorem Inherits.mono
    {o : ObjectShape}
    {base : TypeRef}
    {s : Schema}
    (h : Inherits t r pending key o base s)
    (hSettles : Settles r pending r' pending')
    (hShown :
      ∀ slot, (r.get slot).IsPlain ∨ ∃ source, r.pool.Links slot source) :
    Inherits t r' pending' key o base s := by
  rcases h with ⟨source, hFinds, hEnds⟩
  refine ⟨source, hFinds.mono hSettles.recalls, fun c hEnd => ?_⟩
  rcases hSettles.comesTo hShown hEnd with ⟨b, hBefore, hOn⟩
  rcases hEnds b hBefore with ⟨hLt, hFilled, hWhole⟩ | hEntangled
  · left
    rcases hSettles.kept b hLt hBefore.isPlain hFilled with
      ⟨hSame, hFilled'⟩
    have hPlain : (r'.pool.get b).IsPlain := by
      have hGet : r'.pool.get b = r.pool.get b := hSame
      rw [hGet]
      exact hBefore.isPlain
    cases hOn.unique ⟨0, .done hPlain⟩
    exact ⟨Nat.lt_of_lt_of_le hLt hSettles.size_le, hFilled',
      hWhole.mono hSettles.recalls hSame⟩
  · exact .inr (hEntangled.mono hSettles)

/- The slot of a descriptor names it, and objects inherit. -/
structure SlotInherits
    (t : TypeTable)
    (r : Registry)
    (pending : List SchemaId)
    (key : ExtractionKey)
    (slot : SchemaId) : Prop where
  descriptor : (r.get slot).descriptor = some key.descriptor
  object :
    ∀ d o base, t.get? key.descriptor = some d → d.shape = .object o →
      o.base = some base →
      (r.get slot).IsPlain ∧
      Inherits t r pending key o base (r.get slot)

/- All filled slots of descriptors do. -/
def Inheriting
    (t : TypeTable)
    (r : Registry)
    (pending : List SchemaId) : Prop :=
  ∀ key slot, r.cache.lookup key = some slot →
    t.IsConcrete key.descriptor → slot ∉ pending →
    SlotInherits t r pending key slot

theorem SlotInherits.mono
    (h : SlotInherits t r pending key slot)
    (hSettles : Settles r pending r' pending')
    (hShown :
      ∀ slot, (r.get slot).IsPlain ∨ ∃ source, r.pool.Links slot source)
    (hSame : r'.get slot = r.get slot) :
    SlotInherits t r' pending' key slot := by
  refine ⟨hSame ▸ h.descriptor, fun d o base hGet hShape hBase => ?_⟩
  rcases h.object d o base hGet hShape hBase with ⟨hPlain, hInherits⟩
  rw [hSame]
  exact ⟨hPlain, hInherits.mono hSettles hShown⟩

/- A path of views within an earlier pool. -/
theorem SchemaPool.SeenIn.comesTo
    {p q : SchemaPool}
    {a c : SchemaId}
    (h : SchemaPool.SeenIn a p q)
    (hEnd : q.ComesTo a c) :
    p.ComesTo a c ∧ c < p.size := by
  rcases h with ⟨hGrows, hLt, hTargets⟩
  rcases hEnd with ⟨n, hChain⟩
  induction hChain with
  | done hPlain =>
      rw [hGrows.get_eq hLt] at hPlain
      exact ⟨⟨0, .done hPlain⟩, hLt⟩
  | @step n a b c hLinks _ ih =>
      have hLinks' : p.Links a b := by
        unfold Links at hLinks ⊢
        rwa [hGrows.get_eq hLt] at hLinks
      rcases ih (hTargets a b hLinks'.target) with ⟨⟨m, hChain⟩, hEndLt⟩
      exact ⟨⟨m + 1, .step hLinks' hChain⟩, hEndLt⟩

/- An object that is built inherits. -/
theorem BuiltObject.inherits
    {x : Extraction}
    {id : DescriptorId}
    {d : TypeDescriptor}
    {env : List SchemaId}
    {name : String}
    {o : ObjectShape}
    {base : TypeRef}
    {s : Schema}
    (hCoherent : x.registry.Coherent t)
    (hStacked : x.Stacked t id)
    (hGet : t.get? id = some d)
    (hShape : d.shape = .object o)
    (hBase : o.base = some base)
    (hKey : x.registry.IsKey id env key)
    (h : BuiltObject t x.registry env name d.origin o s) :
    Inherits t x.registry x.pending key o base s := by
  rcases h.takesOver hBase with ⟨source, p, hSource, hSeen, hWhole⟩
  have hRefs : ∀ ref ∈ o.refs, ref ∈ d.shape.openRefs := by
    rw [hShape]
    exact fun ref hRef => hRef
  have hBaseRef : base ∈ o.refs := by
    simp [ObjectShape.refs, hBase]
  have hShared : o.shared.map FieldDecl.type ⊆ o.refs := by
    intro ref hRef
    simp only [ObjectShape.shared, List.map_append, List.mem_append] at hRef
    rcases hRef with hRef | hRef
    · simp [ObjectShape.refs, hRef]
    · cases hVariant : o.variant with
      | none => simp [hVariant] at hRef
      | some v =>
          simp only [hVariant, Option.map_some, Option.toList_some,
            List.map_cons, List.map_nil, List.mem_singleton] at hRef
          simp [ObjectShape.refs, VariantPart.refs, hVariant, hRef]
  refine ⟨source,
    hCoherent.finds hGet hKey (hRefs base hBaseRef) hSource,
    fun b hEnd => ?_⟩
  rcases hSeen.comesTo hEnd with ⟨hEndThen, hLt⟩
  by_cases hPending : b ∈ x.pending
  · -- The base is on the way to this object.
    right
    rcases hStacked b hPending with ⟨key', hKey', hConcrete, hReaches⟩
    exact ⟨b, key', hEnd.reaches, hKey', hConcrete,
      hKey.descriptor_eq ▸ hReaches⟩
  · left
    have hSame : x.registry.get b = p.get b := hSeen.grows.get_eq hLt
    rw [hEndThen.unwrap_eq] at hWhole
    rcases hWhole hSame with
      ⟨⟨own, hOwn, hFields⟩, hAncestors, hBranches⟩
    refine ⟨Nat.lt_of_lt_of_le hLt hSeen.grows.size_le, hPending,
      ⟨own, ?_, hFields⟩, hAncestors, hBranches⟩
    exact hOwn.of_finds fun ref hRef slot hFinds =>
      hCoherent.finds hGet hKey (hRefs ref (hShared hRef)) hFinds

end MatchCompiler

------------------------------------------------------------
-- Registries That Are Built
------------------------------------------------------------

namespace MatchCompiler

/-
  Something is true of all filled slots of descriptors after
  a move if it is so of those that were filled before and of
  what is built for the slot that is filled.
-/
theorem Move.forall_filled
    {t : TypeTable}
    {x y : Extraction}
    (hMove : Move t x y)
    (hBounded : x.Bounded)
    (hCoherent : x.registry.Coherent t)
    {P : ExtractionKey → SchemaId → Prop}
    (hFilled :
      ∀ key slot, x.registry.cache.lookup key = some slot →
        t.IsConcrete key.descriptor → slot ∉ x.pending → P key slot)
    (hBuilt :
      ∀ {id d env key slot name s noted}, t.get? id = some d →
        x.registry.IsKey id env key → x.Stacked t id →
        Built t x env id d.origin slot name d.shape s noted →
        y.registry.get slot = { s with descriptor := some id } →
        P key slot) :
    ∀ key slot, y.registry.cache.lookup key = some slot →
      t.IsConcrete key.descriptor → slot ∉ y.pending → P key slot := by
  intro key slot hFound hConcrete hNot
  cases hMove with
  | memo => exact hFilled key slot hFound hConcrete hNot
  | hit => exact hFilled key slot hFound hConcrete hNot
  | miss => exact hFilled key slot hFound hConcrete hNot
  | unknown => exact hFilled key slot hFound hConcrete hNot
  | @reserve id d env key' hGet hGeneric hKey hNone =>
      simp only [Extraction.reserved, List.lookup_cons] at hFound hNot
      split at hFound
      · exact absurd (Option.some.inj hFound ▸ List.mem_cons_self) hNot
      · exact hFilled key slot hFound hConcrete
          fun hMem => hNot (List.mem_cons_of_mem _ hMem)
  | @remember id d env key' template args slots slot' hGet hGeneric hKey
      hArgs hTemplate =>
      simp only [Extraction.remembered, List.lookup_cons] at hFound
      split at hFound
      · rename_i hEq
        cases beq_iff_eq.mp hEq
        rcases hConcrete with ⟨d', hGet', hNotGeneric⟩
        rw [hKey.descriptor_eq, hGet] at hGet'
        cases hGet'
        exact absurd hGeneric (hNotGeneric template args)
      · exact hFilled key slot hFound hConcrete hNot
  | @fill id d env key' slot' rest name s noted hGet hKey hSlot hPending
      hStacked hEnv hName hBuiltSlot =>
      by_cases hSame : slot = slot'
      · subst hSame
        have hConcrete' : t.IsConcrete key'.descriptor :=
          hKey.descriptor_eq ▸ ⟨d, hGet, hBuiltSlot.not_generic⟩
        cases hCoherent.own key key' slot hFound hSlot hConcrete hConcrete'
        refine hBuilt hGet hKey hStacked hBuiltSlot ?_
        exact SchemaPool.get_fill_self
          (hBounded.registry.cache _ _ hSlot) _
      · refine hFilled key slot hFound hConcrete fun hMem => ?_
        exact hNot ((List.mem_erase_of_ne hSame).mpr hMem)

/- An extraction in which all filled objects inherit. -/
structure Extraction.Inheriting
    (t : TypeTable)
    (x : Extraction) : Prop where
  bounded : x.Bounded
  coherent : x.registry.Coherent t
  noting : Noting x.registry.pool x.pending x.views
  views :
    ∀ v ∈ x.views, ∃ key, x.registry.cache.lookup key = some v.slot ∧
      t.IsConcrete key.descriptor ∧ key.descriptor = v.descriptor
  slots : MatchCompiler.Inheriting t x.registry x.pending

namespace Extraction.Inheriting

variable {t : TypeTable}
variable {x y : Extraction}

/- What was filled before a move is so after it. -/
theorem slot_of_filled
    (h : x.Inheriting t)
    (hMove : Move t x y)
    {key : ExtractionKey}
    {slot : SchemaId}
    (hKey : x.registry.cache.lookup key = some slot)
    (hConcrete : t.IsConcrete key.descriptor)
    (hFilled : slot ∉ x.pending) :
    SlotInherits t y.registry y.pending key slot :=
  (h.slots key slot hKey hConcrete hFilled).mono
    (hMove.settles h.coherent h.noting) h.noting.shown
    (hMove.get_eq (h.bounded.registry.cache _ _ hKey) hFilled).1

/- The slot that is filled. -/
theorem slot_of_built
    (h : x.Inheriting t)
    (hMove : Move t x y)
    {id : DescriptorId}
    {d : TypeDescriptor}
    {env : List SchemaId}
    {key : ExtractionKey}
    {slot : SchemaId}
    {name : String}
    {s : Schema}
    {noted : List View}
    (hGet : t.get? id = some d)
    (hKey : x.registry.IsKey id env key)
    (hStacked : x.Stacked t id)
    (hBuilt : Built t x env id d.origin slot name d.shape s noted)
    (hSlot : y.registry.get slot = { s with descriptor := some id }) :
    SlotInherits t y.registry y.pending key slot := by
  refine ⟨?_, fun d' o base hGet' hShape hBase => ?_⟩
  · rw [hSlot, hKey.descriptor_eq]
  · rw [hKey.descriptor_eq, hGet] at hGet'
    cases hGet'
    rw [hShape] at hBuilt
    rw [hSlot]
    cases hBuilt with
    | object hObject =>
        have hPlain := hObject.isPlain
        have hInherits := hObject.inherits h.coherent hStacked hGet hShape
          hBase hKey
        refine ⟨⟨hPlain.target, hPlain.aliasName, hPlain.kind⟩, ?_⟩
        rcases hInherits.mono (hMove.settles h.coherent h.noting)
            h.noting.shown with ⟨source, hFinds, hEnds⟩
        refine ⟨source, hFinds, fun b hEnd => ?_⟩
        rcases hEnds b hEnd with ⟨hLt, hFilled, hWhole⟩ | hEntangled
        · exact .inl ⟨hLt, hFilled, hWhole.fields, hWhole.ancestors,
            hWhole.branches⟩
        · exact .inr hEntangled
    | @view kind target source _ _ hView => cases kind <;> cases hView

/- Views are noted for descriptors. -/
theorem views_move
    (h : x.Inheriting t)
    (hMove : Move t x y) :
    ∀ v ∈ y.views, ∃ key, y.registry.cache.lookup key = some v.slot ∧
      t.IsConcrete key.descriptor ∧ key.descriptor = v.descriptor := by
  have hOld :
      ∀ v ∈ x.views, ∃ key, y.registry.cache.lookup key = some v.slot ∧
        t.IsConcrete key.descriptor ∧ key.descriptor = v.descriptor := by
    intro v hv
    rcases h.views v hv with ⟨key, hKey, hRest⟩
    exact ⟨key, (hMove.recalls h.coherent).cache _ _ hKey, hRest⟩
  cases hMove with
  | memo => exact hOld
  | hit => exact hOld
  | miss => exact hOld
  | unknown => exact hOld
  | reserve => exact hOld
  | remember => exact hOld
  | @fill id d env key slot rest name s noted hGet hKey hSlot hPending
      hStacked hEnv hName hBuilt =>
      intro v hv
      rcases List.mem_append.mp hv with hv | hv
      · exact hOld v hv
      · have hId : v.descriptor = id := by
          rcases hBuilt.noting h.bounded.registry hEnv with
            ⟨-, rfl⟩ | ⟨w, -, hw, -, -, hNoted⟩
          · cases hv
          · rw [hNoted] at hv
            split at hv
            · cases List.mem_singleton.mp hv
              exact hw
            · cases hv
        refine ⟨key, hBuilt.slot_of_noted hv ▸ hSlot, ?_, ?_⟩
        · exact hKey.descriptor_eq ▸ ⟨d, hGet, hBuilt.not_generic⟩
        · exact hKey.descriptor_eq.trans hId.symm

/- A move keeps what objects inherit. -/
theorem move
    (hMove : Move t x y)
    (h : x.Inheriting t) :
    y.Inheriting t := by
  refine ⟨hMove.bounded h.bounded, hMove.coherent h.bounded h.coherent,
    h.noting.move hMove h.bounded, h.views_move hMove, ?_⟩
  exact hMove.forall_filled h.bounded h.coherent
    (fun _ _ => h.slot_of_filled hMove) (h.slot_of_built hMove)

/- Rebuilding the views keeps what objects inherit. -/
theorem completeAll
    (h : x.Inheriting t)
    (hPending : x.pending = []) :
    Extraction.Inheriting t
      { registry :=
          { x.registry with
            pool := View.completeAll x.views x.registry.pool } } := by
  have hNoting := h.noting
  rw [hPending] at hNoting
  have hSettles := View.settles_completeAll hNoting
  refine ⟨⟨h.bounded.registry.completeAll h.bounded.views, nofun⟩,
    h.coherent.of_recalls hSettles.recalls rfl h.coherent.memo,
    View.noting_completeAll hNoting, nofun, ?_⟩
  intro key slot hFound hConcrete _
  have hBefore := h.slots key slot hFound hConcrete (hPending ▸ nofun)
  rw [hPending] at hBefore
  by_cases hNoted : ∃ v ∈ x.views, v.slot = slot
  · -- The slot of a view is that of no object.
    rcases hNoted with ⟨v, hv, rfl⟩
    rcases h.views v hv with ⟨key', hFound', hConcrete', hDescriptor⟩
    cases h.coherent.own key key' v.slot hFound hFound' hConcrete
      hConcrete'
    refine ⟨?_, fun d o base hGet hShape hBase => ?_⟩
    · rw [hDescriptor]
      refine View.completeAll_noted hNoting
        (P := fun v s => s.descriptor = some v.descriptor)
        (fun _ _ => rfl) (fun w hw => ?_) v hv
      rcases h.views w hw with ⟨key', hKey', hOwn, hNamed⟩
      exact hNamed ▸
        (h.slots key' w.slot hKey' hOwn (hPending ▸ nofun)).descriptor
    · rcases hBefore.object d o base hGet hShape hBase with ⟨hPlain, -⟩
      exact absurd (h.noting.noted v hv)
        (SchemaPool.not_links_of_isPlain hPlain)
  · refine hBefore.mono hSettles h.noting.shown ?_
    exact View.get_completeAll_of_ne fun v hv hEq => hNoted ⟨v, hv, hEq⟩

end Extraction.Inheriting

namespace Registry

variable {t : TypeTable}
variable {r : Registry}

/- Objects inherit in every registry that is built. -/
theorem BuiltWith.inheriting
    (h : r.BuiltWith t) :
    Extraction.Inheriting t { registry := r } := by
  have hShare :
      ∀ {r : Registry} (key : SyntheticKey) {s : Schema}, s.IsPlain →
        Extraction.Inheriting t { registry := r } →
        Extraction.Inheriting t
          { registry := { r with pool := (r.pool.share key s).1 } } := by
    intro r key s hPlain ih
    have hSettles := r.settles_share key s
    refine ⟨⟨ih.bounded.registry.share key hPlain.target, nofun⟩,
      ih.coherent.of_recalls hSettles.recalls rfl ih.coherent.memo,
      ih.noting.share key hPlain, nofun, ?_⟩
    intro key' slot hFound hConcrete _
    refine (ih.slots key' slot hFound hConcrete nofun).mono hSettles
      ih.noting.shown ?_
    exact (r.pool.grows_share key s).get_eq
      (ih.bounded.registry.cache _ _ hFound)
  induction h with
  | fresh marker =>
      exact ⟨⟨bounded_fresh marker, nofun⟩, ⟨nofun, nofun, nofun⟩,
        .empty rfl, nofun, nofun⟩
  | extract hBuilt hExtracts ih =>
      rcases hExtracts.exists_runs hBuilt.bounded with ⟨x, hRuns, -, rfl⟩
      have hX := hRuns.invariant
        (P := Extraction.Inheriting t) Extraction.Inheriting.move ih
      exact hX.completeAll hRuns.grows.pending
  | primitive _ kind ih => exact hShare _ ⟨rfl, rfl, nofun⟩ ih
  | sequenceOf _ hElement ih => exact hShare _ ⟨rfl, rfl, nofun⟩ ih
  | unknown _ ih => exact hShare _ ⟨rfl, rfl, nofun⟩ ih

/-
  The aliases and references behind a slot do not go round in
  a circle.
-/
def ChainEnds
    (r : Registry)
    (source : SchemaId) : Prop :=
  ∀ slot, Relation.ReflTransGen r.pool.Links source slot →
    ¬ Relation.TransGen r.pool.Links slot slot

/- No type behind a slot mentions a descriptor. -/
def ApartFrom
    (t : TypeTable)
    (r : Registry)
    (source : SchemaId)
    (id : DescriptorId) : Prop :=
  ∀ slot, Relation.ReflTransGen r.pool.Links source slot →
    ∀ other, (r.get slot).descriptor = some other → ¬ t.Reaches other id

/-
  The base of an extracted object has been extracted. If no
  type behind it mentions the object, then the object takes
  over all that the base finally has, whatever extraction was
  started from.
-/
theorem object_takes_over_base
    (hBuilt : r.BuiltWith t)
    {key : ExtractionKey}
    {slot : SchemaId}
    {d : TypeDescriptor}
    {o : ObjectShape}
    {base : TypeRef}
    (hFound : r.cache.lookup key = some slot)
    (hGet : t.get? key.descriptor = some d)
    (hShape : d.shape = .object o)
    (hBase : o.base = some base) :
    ∃ source, r.Finds t key.args base source ∧
      (r.ChainEnds source → r.ApartFrom t source key.descriptor →
        r.pool.ComesTo source (r.pool.unwrap source) ∧
        TakesOver t r key.args o (r.pool.unwrap source) (r.get slot)) := by
  have hInheriting := hBuilt.inheriting
  have hConcrete : t.IsConcrete key.descriptor :=
    ⟨d, hGet, fun _ _ hGeneric => nomatch hShape.symm.trans hGeneric⟩
  have hSlot := hInheriting.slots key slot hFound hConcrete nofun
  rcases (hSlot.object d o base hGet hShape hBase).2 with
    ⟨source, hFinds, hEnds⟩
  refine ⟨source, hFinds, fun hChain hApart => ?_⟩
  rcases SchemaPool.exists_comesTo hInheriting.noting.shown hChain with
    ⟨b, hEnd⟩
  rw [hEnd.unwrap_eq]
  rcases hEnds b hEnd with
    ⟨-, -, hWhole⟩ | ⟨c, key', hPath, hFound', hConcrete', hReaches⟩
  · exact ⟨hEnd, hWhole⟩
  · have hOther := hInheriting.slots key' c hFound' hConcrete' nofun
    exact absurd hReaches (hApart c hPath _ hOther.descriptor)

/- A point, an alias of it and an object derived from that. -/
def derivedPoint : TypeTable :=
  { descriptors :=
      #[{ name := "int", shape := .primitive .i64 },
        { name := "Point",
          shape := .object
            { fields := [⟨"x", .described 0, false⟩], inheritable := true } },
        { name := "Place", shape := .alias (.described 1) },
        { name := "Pixel",
          shape := .object
            { base := some (.described 2),
              fields := [⟨"color", .described 0, false⟩] } }] }

/- The registry after the derived object has been extracted. -/
def derivedPointRegistry : Registry :=
  ((extract? {} derivedPoint 4 3).map Prod.fst).getD {}

/- An extraction that ends gives the registry it ends with. -/
theorem extracts_of_map_snd
    {r : Registry}
    {depth : Nat}
    {id : DescriptorId}
    {slot : SchemaId}
    (h : (r.extract? t depth id).map Prod.snd = some slot) :
    r.Extracts t id (((r.extract? t depth id).map Prod.fst).getD {})
      slot := by
  rcases Option.map_eq_some_iff.mp h with ⟨⟨r', slot'⟩, hSome, rfl⟩
  refine ⟨depth, ?_⟩
  rw [hSome]
  rfl

/- The derived object has the fields of the point first. -/
theorem derivedPoint_takes_over :
    derivedPointRegistry.BuiltWith derivedPoint ∧
    derivedPointRegistry.cache.lookup ⟨3, []⟩ = some 0 ∧
    (derivedPointRegistry.get 0).fields.map Field.name = ["x", "color"] ∧
    TakesOver derivedPoint derivedPointRegistry []
      { base := some (.described 2),
        fields := [⟨"color", .described 0, false⟩] }
      (derivedPointRegistry.pool.unwrap 1) (derivedPointRegistry.get 0) := by
  have hExtracts : Extracts {} derivedPoint 3 derivedPointRegistry 0 :=
    extracts_of_map_snd (by decide +kernel)
  have hBuilt : derivedPointRegistry.BuiltWith derivedPoint :=
    .extract (.fresh 'k') hExtracts
  have hFound : derivedPointRegistry.cache.lookup ⟨3, []⟩ = some 0 := by
    decide +kernel
  have hAlias :
      derivedPointRegistry.Finds derivedPoint [] (.described 2) 1 := by
    have hMemo : derivedPointRegistry.parametric.lookup 2 = some false := by
      decide +kernel
    exact .known rfl hMemo (by decide +kernel)
  rcases object_takes_over_base hBuilt hFound rfl rfl rfl with
    ⟨source, hFinds, hWhole⟩
  cases hFinds.unique hAlias
  refine ⟨hBuilt, hFound, by decide +kernel, (hWhole ?_ ?_).2⟩
  · have hAcyclic : derivedPointRegistry.pool.Acyclic :=
      SchemaPool.acyclic_of_rank (fun slot => 4 - slot) (by decide +kernel)
    exact fun slot _ => hAcyclic slot
  · -- The types before the derived object mention one another.
    have hMentions :
        ∀ id < 3, ∀ d ∈ derivedPoint.get? id, ∀ ref ∈ d.shape.followed,
          ref ∈ (List.range 3).map TypeRef.described := by
      decide +kernel
    have hReaches :
        ∀ {id other}, derivedPoint.Reaches id other → id < 3 → other < 3 := by
      intro id other hReaches hLt
      induction hReaches with
      | refl => exact hLt
      | tail _ hLast ih =>
          rcases hLast with ⟨d, hGet, hMem⟩
          simpa using hMentions _ ih d hGet _ hMem
    have hTargets :
        ∀ slot < 4, ∀ target ∈ (derivedPointRegistry.get slot).target,
          1 ≤ target ∧ target < 4 := by
      decide +kernel
    have hDescribed :
        ∀ slot < 4, 1 ≤ slot →
          ∀ other ∈ (derivedPointRegistry.get slot).descriptor,
            other < 3 := by
      decide +kernel
    intro slot hPath other hOther hLast
    have hBehind : 1 ≤ slot ∧ slot < 4 := by
      clear hOther
      induction hPath with
      | refl => decide
      | tail _ hLinks ih => exact hTargets _ ih.2 _ hLinks.target
    have hBefore := hDescribed slot hBehind.2 hBehind.1 other hOther
    exact Nat.lt_irrefl 3 (hReaches hLast hBefore)

/- A node and an object derived from it that it refers to. -/
def derivedNodes : TypeTable :=
  { descriptors :=
      #[{ name := "Node",
          shape := .object
            { fields := [⟨"next", .described 2, false⟩],
              inheritable := true } },
        { name := "Leaf",
          shape := .object
            { base := some (.described 0),
              fields := [⟨"label", .described 3, false⟩] } },
        { name := "LeafRef", shape := .reference (.described 1) },
        { name := "string", shape := .primitive .str }] }

/-
  The derived object has all fields if extraction starts from
  it. If it starts from the node, which is not filled when
  the derived object is met, then the derived object has no
  field of the node.
-/
theorem derivedNodes_take_over_nothing :
    ((extract? {} derivedNodes 4 1).map fun e =>
      (e.2, (e.1.get e.2).fields.map Field.name)) =
        some (0, ["next", "label"]) ∧
    ((extract? {} derivedNodes 4 0).map fun e =>
      (e.2, (e.1.get e.2).fields.map Field.name,
        e.1.cache.lookup ⟨1, []⟩,
        (e.1.get 2).fields.map Field.name)) =
      some (0, ["next"], some 2, ["label"]) := by
  decide +kernel

end Registry

end MatchCompiler
