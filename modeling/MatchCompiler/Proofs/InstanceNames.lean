import MatchCompiler.Proofs.Comparability
import MatchCompiler.Proofs.ReadableNames
import MatchCompiler.Proofs.SchemaLaws
import MatchCompiler.Proofs.Typing

/-
  This file shows when names tell the instances of a template
  apart.

  The name of an instance shows the names that its arguments
  have when it is built. It tells the arguments if these
  names are final by then: no argument is a template that is
  still being filled, and none depends on other arguments
  than its own name shows. Then two records or unions are
  taken for one type only if they are, or one derives from
  the other. What declares no parameters keeps its bare name
  under all arguments in scope, and a box of a node that is
  not filled yet is named like that of any other node.

  Key definitions include:
    * `TypeTable.MadeFrom`
    * `TypeTable.NamesApart`
    * `Extraction.KeepsName`
    * `Extraction.Naming`

  Key theorems include:
    * `Extraction.Naming.move`
    * `Registry.BuiltWith.naming`
    * `Extraction.Naming.eq_of_nameOf_eq`
    * `Registry.compat_eq_exact_iff`
-/

------------------------------------------------------------
-- Names That Are Final
------------------------------------------------------------

namespace MatchCompiler

namespace TypeTable

/-
  The descriptor of its own slot that the slot of a
  descriptor is: an instance has the slot of its template.
-/
inductive MadeFrom
    (t : TypeTable) : DescriptorId → DescriptorId → Prop
| own
    {id : DescriptorId}
    (hConcrete : t.IsConcrete id) :
    MadeFrom t id id
| template
    {id template other : DescriptorId}
    {d : TypeDescriptor}
    {args : List TypeRef}
    (hGet : t.get? id = some d)
    (hGeneric : d.shape = .generic template args)
    (hRest : MadeFrom t template other) :
    MadeFrom t id other

theorem MadeFrom.isConcrete
    {t : TypeTable}
    {id other : DescriptorId}
    (h : t.MadeFrom id other) :
    t.IsConcrete other := by
  induction h with
  | own hConcrete => exact hConcrete
  | template _ _ _ ih => exact ih

theorem IsConcrete.not_generic
    {t : TypeTable}
    {id : DescriptorId}
    {d : TypeDescriptor}
    (h : t.IsConcrete id)
    (hGet : t.get? id = some d)
    (template : DescriptorId)
    (args : List TypeRef) :
    d.shape ≠ .generic template args := by
  rcases h with ⟨d', hGet', hNotGeneric⟩
  cases hGet.symm.trans hGet'
  exact hNotGeneric template args

/- What is passed has its final name before it is shown. -/
def ArgumentsNamed (t : TypeTable) : Prop :=
  ∀ id inst other d, t.PassedTo id inst → t.MadeFrom id other →
    t.get? other = some d →
    (d.params = 0 → t.mentionsParams other = false) ∧
    (d.params ≠ 0 → ¬ t.Reaches other inst)

/-
  No two descriptors have one name, and no name looks like
  that of an instance or of what cannot be resolved. What is
  passed as an argument depends on no other arguments than
  its name shows; if it is a template, then it does not reach
  the instance that it is passed to.
-/
structure NamesApart
    (t : TypeTable) : Prop where
  distinct : t.DistinctNames
  plain : ∀ id d, t.get? id = some d → PlainName d.name
  known : ∀ id d, t.get? id = some d → d.name ≠ "<unknown>"
  arguments : t.ArgumentsNamed

end TypeTable

namespace Extraction

/-
  A slot has its final name, and that shows all arguments
  that the slot depends on.
-/
def KeepsName
    (x : Extraction)
    (t : TypeTable)
    (slot : SchemaId) : Prop :=
  x.registry.pool.synthetic.lookup .unknown = some slot ∨
  ∃ own d, x.registry.cache.lookup own = some slot ∧
    t.IsConcrete own.descriptor ∧ t.get? own.descriptor = some d ∧
    (d.params = 0 → own.args = []) ∧
    (d.params ≠ 0 → slot ∉ x.pending)

/- A slot is named after the arguments in its key. -/
def SlotNamed
    (x : Extraction)
    (t : TypeTable)
    (key : ExtractionKey)
    (slot : SchemaId) : Prop :=
  ∀ d, t.get? key.descriptor = some d →
    x.registry.pool.nameOf slot =
      x.registry.pool.instanceName d key.args ∧
    (d.params ≠ 0 → ∀ s ∈ key.args, x.KeepsName t s)

/-
  An extraction in which all filled slots are named after
  the arguments in their keys.
-/
structure Naming
    (t : TypeTable)
    (x : Extraction) : Prop where
  inheriting : x.Inheriting t
  made :
    ∀ key slot, x.registry.cache.lookup key = some slot →
      x.registry.pool.synthetic.lookup .unknown = some slot ∨
      ∃ own, x.registry.cache.lookup own = some slot ∧
        t.MadeFrom key.descriptor own.descriptor
  args :
    ∀ key slot, x.registry.cache.lookup key = some slot →
      t.mentionsParams key.descriptor = false → key.args = []
  unknown :
    ∀ slot, x.registry.pool.synthetic.lookup .unknown = some slot →
      slot ∉ x.pending ∧ x.registry.pool.nameOf slot = "<unknown>"
  views : ∀ v ∈ x.views, x.registry.pool.nameOf v.slot = v.name
  bare :
    ∀ key slot d, x.registry.cache.lookup key = some slot →
      t.IsConcrete key.descriptor → t.get? key.descriptor = some d →
      d.params = 0 ∨ slot ∈ x.pending →
      x.registry.pool.nameOf slot = d.name
  slots :
    ∀ key slot, x.registry.cache.lookup key = some slot →
      t.IsConcrete key.descriptor → slot ∉ x.pending →
      x.SlotNamed t key slot

end Extraction

end MatchCompiler

------------------------------------------------------------
-- Moves
------------------------------------------------------------

namespace MatchCompiler

/- What is looked up after a schema has been shared. -/
theorem SchemaPool.lookup_share_cases
    {p : SchemaPool}
    {key other : SyntheticKey}
    {s : Schema}
    {slot : SchemaId}
    (h : (p.share key s).1.synthetic.lookup other = some slot) :
    p.synthetic.lookup other = some slot ∨
    other = key ∧ slot = p.size ∧ (p.share key s).1.get slot = s := by
  unfold share at h ⊢
  cases hFound : p.synthetic.lookup key with
  | some id =>
      simp only [hFound] at h
      exact .inl h
  | none =>
      simp only [hFound, List.lookup_cons] at h
      split at h
      · rename_i hEq
        cases h
        exact .inr ⟨beq_iff_eq.mp hEq, rfl, p.get_push_self s⟩
      · exact .inl h

namespace Move

variable {t : TypeTable}
variable {x y : Extraction}
variable {slot : SchemaId}

/-
  A key that is remembered after a move was so before, or is
  that of the slot which is reserved, or of an instance.
-/
theorem lookup_cases
    (h : Move t x y)
    {key : ExtractionKey}
    (hFound : y.registry.cache.lookup key = some slot) :
    x.registry.cache.lookup key = some slot ∨
    (∃ env, x.registry.IsKey key.descriptor env key) ∧
    ((∃ d, t.get? key.descriptor = some d ∧
        t.IsConcrete key.descriptor ∧ slot ∈ y.pending ∧
        y.registry.pool.nameOf slot = d.name) ∨
      ∃ d template args slots, t.get? key.descriptor = some d ∧
        d.shape = .generic template args ∧
        x.registry.Finds t slots (.described template) slot) := by
  cases h with
  | memo => exact .inl hFound
  | hit => exact .inl hFound
  | miss => exact .inl hFound
  | unknown => exact .inl hFound
  | fill => exact .inl hFound
  | @reserve id d env key' hGet hGeneric hKey =>
      simp only [Extraction.reserved, List.lookup_cons] at hFound ⊢
      split at hFound
      · rename_i hEq
        cases beq_iff_eq.mp hEq
        cases hFound
        have hId := hKey.descriptor_eq
        refine .inr ⟨⟨env, hId.symm ▸ hKey⟩, .inl ⟨d, hId.symm ▸ hGet,
          hId.symm ▸ ⟨d, hGet, hGeneric⟩, List.mem_cons_self, ?_⟩⟩
        exact congrArg Schema.displayName
          (x.registry.pool.get_push_self (Schema.unknown d.name))
      · exact .inl hFound
  | @remember id d env key' template args slots slot' hGet hGeneric hKey
      hArgs hTemplate =>
      simp only [Extraction.remembered, List.lookup_cons] at hFound
      split at hFound
      · rename_i hEq
        cases beq_iff_eq.mp hEq
        cases hFound
        have hId := hKey.descriptor_eq
        exact .inr ⟨⟨env, hId.symm ▸ hKey⟩, .inr ⟨d, template, args, slots,
          hId.symm ▸ hGet, hGeneric, hTemplate⟩⟩
      · exact .inl hFound

/- The slot of what cannot be resolved is new or was there. -/
theorem unknown_cases
    (h : Move t x y)
    (hFound : y.registry.pool.synthetic.lookup .unknown = some slot) :
    x.registry.pool.synthetic.lookup .unknown = some slot ∨
    slot = x.registry.pool.size ∧ y.pending = x.pending ∧
      y.registry.pool.nameOf slot = "<unknown>" := by
  cases h with
  | unknown =>
      rcases SchemaPool.lookup_share_cases hFound with
        hOld | ⟨-, hSlot, hGet⟩
      · exact .inl hOld
      · exact .inr ⟨hSlot, rfl, congrArg Schema.displayName hGet⟩
  | _ => exact .inl hFound

theorem nameOf_eq
    (h : Move t x y)
    (hLt : slot < x.registry.pool.size)
    (hFilled : slot ∉ x.pending) :
    y.registry.pool.nameOf slot = x.registry.pool.nameOf slot :=
  congrArg Schema.displayName (h.get_eq hLt hFilled).1

/- A slot that stays unfilled stays as it is. -/
theorem get_eq_of_pending
    (h : Move t x y)
    (hNoting : Noting x.registry.pool x.pending x.views)
    (hBefore : slot ∈ x.pending)
    (hAfter : slot ∈ y.pending) :
    y.registry.get slot = x.registry.get slot := by
  have hLt := hNoting.pending_lt slot hBefore
  cases h with
  | memo => rfl
  | hit => rfl
  | miss => rfl
  | remember => rfl
  | unknown => exact (x.registry.pool.grows_share _ _).get_eq hLt
  | reserve => exact (x.registry.pool.grows_push _).get_eq hLt
  | fill =>
      have hNe := (hNoting.pending_nodup.mem_erase_iff.mp hAfter).1
      exact SchemaPool.get_fill_of_ne (Ne.symm hNe) _

end Move

namespace Extraction.Naming

variable {t : TypeTable}
variable {x y : Extraction}
variable {key : ExtractionKey}
variable {slot : SchemaId}

/- The slot that a move fills is named after its key. -/
theorem name_of_filled
    (h : x.Naming t)
    (hStep : NamingMove t x y)
    {d : TypeDescriptor}
    (hFound : x.registry.cache.lookup key = some slot)
    (hConcrete : t.IsConcrete key.descriptor)
    (hGet : t.get? key.descriptor = some d)
    (hBefore : slot ∈ x.pending)
    (hAfter : slot ∉ y.pending) :
    ∃ env, x.registry.IsKey key.descriptor env key ∧
      (∀ s ∈ env, x.Passed t s) ∧
      y.registry.pool.nameOf slot =
        x.registry.pool.instanceName d env := by
  rcases hStep.names slot hBefore hAfter with
    ⟨id, d', env, key', hGet', hGeneric, hKey, hFound', hPassed, hName⟩
  have hId := hKey.descriptor_eq
  have hConcrete' : t.IsConcrete key'.descriptor :=
    hId.symm ▸ ⟨d', hGet', hGeneric⟩
  cases h.inheriting.coherent.own key key' slot hFound hFound' hConcrete
    hConcrete'
  subst hId
  cases hGet.symm.trans hGet'
  exact ⟨env, hKey, hPassed, hName⟩

theorem made_move
    (h : x.Naming t)
    (hMove : Move t x y)
    (hFound : y.registry.cache.lookup key = some slot) :
    y.registry.pool.synthetic.lookup .unknown = some slot ∨
    ∃ own, y.registry.cache.lookup own = some slot ∧
      t.MadeFrom key.descriptor own.descriptor := by
  have hRecalls := hMove.recalls h.inheriting.coherent
  have hOld :
      ∀ {key'}, x.registry.cache.lookup key' = some slot →
        y.registry.pool.synthetic.lookup .unknown = some slot ∨
        ∃ own, y.registry.cache.lookup own = some slot ∧
          t.MadeFrom key'.descriptor own.descriptor := by
    intro key' hFound
    rcases h.made key' slot hFound with hUnknown | ⟨own, hOwn, hMade⟩
    · exact .inl (hRecalls.synthetic _ _ hUnknown)
    · exact .inr ⟨own, hRecalls.cache _ _ hOwn, hMade⟩
  rcases hMove.lookup_cases hFound with
    hBefore | ⟨-, ⟨-, -, hConcrete, -⟩ |
      ⟨d, template, args, slots, hGet, hGeneric, hTemplate⟩⟩
  · exact hOld hBefore
  · exact .inr ⟨key, hFound, .own hConcrete⟩
  · cases hTemplate with
    | known _ _ hCache =>
        refine (hOld hCache).imp_right fun ⟨own, hOwn, hMade⟩ => ?_
        exact ⟨own, hOwn, .template hGet hGeneric hMade⟩
    | dangling _ hUnknown => exact .inl (hRecalls.synthetic _ _ hUnknown)

theorem args_move
    (h : x.Naming t)
    (hMove : Move t x y)
    (hFound : y.registry.cache.lookup key = some slot)
    (hNone : t.mentionsParams key.descriptor = false) :
    key.args = [] := by
  rcases hMove.lookup_cases hFound with hBefore | ⟨⟨env, b, hMemo, hKey⟩, -⟩
  · exact h.args key slot hBefore hNone
  · have hArgs := congrArg ExtractionKey.args hKey
    rwa [h.inheriting.coherent.memo _ b hMemo, hNone] at hArgs

theorem unknown_move
    (h : x.Naming t)
    (hMove : Move t x y)
    (hFound : y.registry.pool.synthetic.lookup .unknown = some slot) :
    slot ∉ y.pending ∧ y.registry.pool.nameOf slot = "<unknown>" := by
  rcases hMove.unknown_cases hFound with hOld | ⟨rfl, hPending, hName⟩
  · rcases h.unknown slot hOld with ⟨hFilled, hName⟩
    have hLt := h.inheriting.bounded.registry.synthetic _ _ hOld
    exact ⟨(hMove.get_eq hLt hFilled).2,
      (hMove.nameOf_eq hLt hFilled).trans hName⟩
  · refine ⟨fun hMem => ?_, hName⟩
    rw [hPending] at hMem
    exact Nat.lt_irrefl _ (h.inheriting.noting.pending_lt _ hMem)

theorem views_move
    (h : x.Naming t)
    (hMove : Move t x y) :
    ∀ v ∈ y.views, y.registry.pool.nameOf v.slot = v.name := by
  have hNoting := h.inheriting.noting
  have hOld : ∀ v ∈ x.views, y.registry.pool.nameOf v.slot = v.name := by
    intro v hv
    rw [hMove.nameOf_eq (hNoting.slot_lt v hv) (hNoting.filled v hv)]
    exact h.views v hv
  cases hMove with
  | @fill id d env key slot rest name s noted hGet hKey hSlot hPending
      hStacked hEnv hName hBuilt =>
      intro v hv
      rcases List.mem_append.mp hv with hv | hv
      · exact hOld v hv
      · have hFilled := SchemaPool.get_fill_self
          (h.inheriting.bounded.registry.cache _ _ hSlot)
          { s with descriptor := some id }
        rw [hBuilt.slot_of_noted hv, hBuilt.name_of_noted hv]
        exact (congrArg Schema.displayName hFilled).trans
          hBuilt.displayName_eq
  | _ => exact hOld

theorem bare_move
    (h : x.Naming t)
    (hStep : NamingMove t x y)
    {d : TypeDescriptor}
    (hFound : y.registry.cache.lookup key = some slot)
    (hConcrete : t.IsConcrete key.descriptor)
    (hGet : t.get? key.descriptor = some d)
    (hBare : d.params = 0 ∨ slot ∈ y.pending) :
    y.registry.pool.nameOf slot = d.name := by
  rcases hStep.move.lookup_cases hFound with
    hOld | ⟨-, ⟨d', hGet', -, -, hName⟩ | ⟨d', _, _, _, hGet', hGeneric, -⟩⟩
  · by_cases hBefore : slot ∈ x.pending
    · by_cases hAfter : slot ∈ y.pending
      · have hSame := hStep.move.get_eq_of_pending h.inheriting.noting
          hBefore hAfter
        exact (congrArg Schema.displayName hSame).trans
          (h.bare key slot d hOld hConcrete hGet (.inr hBefore))
      · rcases h.name_of_filled hStep hOld hConcrete hGet hBefore hAfter
          with ⟨env, -, -, hName⟩
        rw [hName, SchemaPool.instanceName_of_params _
          (hBare.resolve_right hAfter)]
    · have hLt := h.inheriting.bounded.registry.cache _ _ hOld
      have hZero := hBare.resolve_right
        (hStep.move.get_eq hLt hBefore).2
      rw [hStep.move.nameOf_eq hLt hBefore]
      exact h.bare key slot d hOld hConcrete hGet (.inl hZero)
  · cases hGet.symm.trans hGet'
    exact hName
  · exact absurd hGeneric (hConcrete.not_generic hGet' _ _)

/- A final name stays. -/
theorem keepsName_move
    (h : x.Naming t)
    (hStep : NamingMove t x y)
    (hSlot : x.KeepsName t slot) :
    y.KeepsName t slot ∧
    y.registry.pool.nameOf slot = x.registry.pool.nameOf slot := by
  have hMove := hStep.move
  have hRecalls := hMove.recalls h.inheriting.coherent
  have hBounded := h.inheriting.bounded.registry
  rcases hSlot with hUnknown | ⟨own, d, hOwn, hConcrete, hGet, hZero, hSome⟩
  · exact ⟨.inl (hRecalls.synthetic _ _ hUnknown),
      hMove.nameOf_eq (hBounded.synthetic _ _ hUnknown)
        (h.unknown slot hUnknown).1⟩
  · have hOwn' := hRecalls.cache _ _ hOwn
    have hLt := hBounded.cache _ _ hOwn
    refine ⟨.inr ⟨own, d, hOwn', hConcrete, hGet, hZero, fun hParams =>
      (hMove.get_eq hLt (hSome hParams)).2⟩, ?_⟩
    by_cases hParams : d.params = 0
    · rw [h.bare_move hStep hOwn' hConcrete hGet (.inl hParams),
        h.bare own slot d hOwn hConcrete hGet (.inl hParams)]
    · exact hMove.nameOf_eq hLt (hSome hParams)

/- What is passed has its final name. -/
theorem keepsName_of_passed
    (h : x.Naming t)
    (hArguments : t.ArgumentsNamed)
    (hPassed : x.Passed t slot) :
    x.KeepsName t slot := by
  rcases hPassed with hUnknown | ⟨key, inst, hKey, hArgument, hUnfilled⟩
  · exact .inl hUnknown
  rcases h.made key slot hKey with hUnknown | ⟨own, hOwn, hMade⟩
  · exact .inl hUnknown
  have hConcrete := hMade.isConcrete
  rcases hConcrete with ⟨d, hGet, -⟩
  rcases hArguments key.descriptor inst own.descriptor d hArgument hMade
    hGet with ⟨hZero, hSome⟩
  refine .inr ⟨own, d, hOwn, hMade.isConcrete, hGet,
    fun hParams => h.args own slot hOwn (hZero hParams),
    fun hParams hMem => ?_⟩
  rcases hUnfilled hMem with ⟨own', hOwn', hConcrete', hReaches⟩
  cases h.inheriting.coherent.own own own' slot hOwn hOwn'
    hMade.isConcrete hConcrete'
  exact hSome hParams hReaches

theorem slots_move
    (h : x.Naming t)
    (hArguments : t.ArgumentsNamed)
    (hStep : NamingMove t x y)
    (hFound : y.registry.cache.lookup key = some slot)
    (hConcrete : t.IsConcrete key.descriptor)
    (hFilled : slot ∉ y.pending) :
    y.SlotNamed t key slot := by
  intro d hGet
  by_cases hParams : d.params = 0
  · -- The name shows no arguments.
    refine ⟨?_, fun hSome => absurd hParams hSome⟩
    rw [SchemaPool.instanceName_of_params _ hParams]
    exact h.bare_move hStep hFound hConcrete hGet (.inl hParams)
  -- It is enough that it shows them in the state before.
  suffices
      y.registry.pool.nameOf slot =
        x.registry.pool.instanceName d key.args ∧
      ∀ s ∈ key.args, x.KeepsName t s by
    rcases this with ⟨hName, hArgs⟩
    have hSame := fun s hs => h.keepsName_move hStep (hArgs s hs)
    refine ⟨hName.trans ?_, fun _ s hs => (hSame s hs).1⟩
    exact (SchemaPool.instanceName_congr d fun s hs => (hSame s hs).2).symm
  rcases hStep.move.lookup_cases hFound with
    hOld | ⟨-, ⟨-, -, -, hMem, -⟩ | ⟨d', _, _, _, hGet', hGeneric, -⟩⟩
  · by_cases hBefore : slot ∈ x.pending
    · rcases h.name_of_filled hStep hOld hConcrete hGet hBefore hFilled
        with ⟨env, hKey, hPassed, hName⟩
      have hArgs : key.args = env := by
        rcases hKey with ⟨b, hMemo, hKey⟩
        have hMentions : t.mentionsParams key.descriptor = true := by
          by_contra hNone
          exact hParams (TypeTable.params_of_not_mentionsParams hGet
            (Bool.not_eq_true _ ▸ hNone))
        rw [h.inheriting.coherent.memo _ b hMemo, hMentions] at hKey
        exact congrArg ExtractionKey.args hKey
      rw [hArgs]
      exact ⟨hName, fun s hs =>
        h.keepsName_of_passed hArguments (hPassed s hs)⟩
    · rcases h.slots key slot hOld hConcrete hBefore d hGet with
        ⟨hName, hArgs⟩
      have hLt := h.inheriting.bounded.registry.cache _ _ hOld
      exact ⟨(hStep.move.nameOf_eq hLt hBefore).trans hName,
        hArgs hParams⟩
  · exact absurd hMem hFilled
  · exact absurd hGeneric (hConcrete.not_generic hGet' _ _)

/- A move keeps all names after their arguments. -/
theorem move
    (hArguments : t.ArgumentsNamed)
    (hStep : NamingMove t x y)
    (h : x.Naming t) :
    y.Naming t where
  inheriting := h.inheriting.move hStep.move
  made := fun _ _ hFound => h.made_move hStep.move hFound
  args := fun _ _ hFound hNone => h.args_move hStep.move hFound hNone
  unknown := fun _ hFound => h.unknown_move hStep.move hFound
  views := h.views_move hStep.move
  bare := fun _ _ _ hFound hConcrete hGet hBare =>
    h.bare_move hStep hFound hConcrete hGet hBare
  slots := fun _ _ hFound hConcrete hFilled =>
    h.slots_move hArguments hStep hFound hConcrete hFilled

/- So does a change of the pool that keeps all names. -/
theorem of_names
    (h : x.Naming t)
    (hPending : x.pending = [])
    {q : SchemaPool}
    (hInheriting :
      Extraction.Inheriting t { registry := { x.registry with pool := q } })
    (hSynthetic : EntriesKept x.registry.pool.synthetic q.synthetic)
    (hUnknown :
      ∀ slot, q.synthetic.lookup .unknown = some slot →
        q.nameOf slot = "<unknown>")
    (hNames :
      ∀ slot < x.registry.pool.size,
        q.nameOf slot = x.registry.pool.nameOf slot) :
    Extraction.Naming t
      { registry := { x.registry with pool := q } } := by
  have hBounded := h.inheriting.bounded.registry
  have hNone : ∀ {slot}, slot ∉ x.pending := by
    rw [hPending]
    exact List.not_mem_nil
  have hKeeps :
      ∀ {slot}, x.KeepsName t slot →
        Extraction.KeepsName { registry := { x.registry with pool := q } }
          t slot ∧
        q.nameOf slot = x.registry.pool.nameOf slot := by
    rintro slot (hFound | ⟨own, d, hOwn, hConcrete, hGet, hZero, -⟩)
    · exact ⟨.inl (hSynthetic _ _ hFound),
        hNames slot (hBounded.synthetic _ _ hFound)⟩
    · exact ⟨.inr ⟨own, d, hOwn, hConcrete, hGet, hZero, nofun⟩,
        hNames slot (hBounded.cache _ _ hOwn)⟩
  exact
    { inheriting := hInheriting
      made := fun key slot hFound =>
        (h.made key slot hFound).imp_left (hSynthetic _ _)
      args := h.args
      unknown := fun slot hFound => ⟨nofun, hUnknown slot hFound⟩
      views := nofun
      bare := by
        intro key slot d hFound hConcrete hGet hBare
        have hZero := hBare.resolve_right List.not_mem_nil
        exact (hNames slot (hBounded.cache _ _ hFound)).trans
          (h.bare key slot d hFound hConcrete hGet (.inl hZero))
      slots := by
        intro key slot hFound hConcrete _ d hGet
        rcases h.slots key slot hFound hConcrete hNone d hGet with
          ⟨hName, hArgs⟩
        refine ⟨?_, fun hParams s hs => (hKeeps (hArgs hParams s hs)).1⟩
        rw [hNames slot (hBounded.cache _ _ hFound), hName]
        by_cases hParams : d.params = 0
        · rw [SchemaPool.instanceName_of_params _ hParams,
            SchemaPool.instanceName_of_params _ hParams]
        · exact (SchemaPool.instanceName_congr d fun s hs =>
            (hKeeps (hArgs hParams s hs)).2).symm }

/- Rebuilding the views keeps all names. -/
theorem completeAll
    (h : x.Naming t)
    (hPending : x.pending = []) :
    Extraction.Naming t
      { registry :=
          { x.registry with
            pool := View.completeAll x.views x.registry.pool } } := by
  have hNoting := h.inheriting.noting
  rw [hPending] at hNoting
  have hNames :
      ∀ slot, (View.completeAll x.views x.registry.pool).nameOf slot =
        x.registry.pool.nameOf slot := by
    intro slot
    by_cases hNoted : ∃ v ∈ x.views, v.slot = slot
    · rcases hNoted with ⟨v, hv, rfl⟩
      rw [h.views v hv]
      exact View.completeAll_noted hNoting
        (P := fun v s => s.displayName = v.name)
        (fun w q => q.displayName_view w.kind w.source w.name) h.views v hv
    · exact congrArg Schema.displayName
        (View.get_completeAll_of_ne fun v hv hEq => hNoted ⟨v, hv, hEq⟩)
  have hSynthetic := View.synthetic_completeAll x.views x.registry.pool
  refine h.of_names hPending (h.inheriting.completeAll hPending) ?_ ?_
    fun slot _ => hNames slot
  · rw [hSynthetic]
    exact .refl
  · intro slot hFound
    rw [hSynthetic] at hFound
    rw [hNames slot]
    exact (h.unknown slot hFound).2

end Extraction.Naming

namespace Registry

variable {t : TypeTable}
variable {r : Registry}

/- Names show the arguments in every registry that is built. -/
theorem BuiltWith.naming
    (hArguments : t.ArgumentsNamed)
    (h : r.BuiltWith t) :
    Extraction.Naming t { registry := r } := by
  have hShare :
      ∀ {r : Registry} (key : SyntheticKey) (s : Schema),
        (key = .unknown → s.displayName = "<unknown>") →
        Extraction.Inheriting t
          { registry := { r with pool := (r.pool.share key s).1 } } →
        Extraction.Naming t { registry := r } →
        Extraction.Naming t
          { registry := { r with pool := (r.pool.share key s).1 } } := by
    intro r key s hName hInheriting ih
    have hGrows := r.pool.grows_share key s
    have hKept :
        ∀ slot < r.pool.size,
          (r.pool.share key s).1.nameOf slot = r.pool.nameOf slot :=
      fun slot hLt => congrArg Schema.displayName (hGrows.get_eq hLt)
    refine ih.of_names rfl hInheriting hGrows.synthetic ?_ hKept
    intro slot hFound
    rcases SchemaPool.lookup_share_cases hFound with
      hOld | ⟨hKey, -, hGet⟩
    · rw [hKept slot (ih.inheriting.bounded.registry.synthetic _ _ hOld)]
      exact (ih.unknown slot hOld).2
    · exact (congrArg Schema.displayName hGet).trans (hName hKey.symm)
  induction h with
  | fresh marker =>
      exact ⟨(BuiltWith.fresh marker).inheriting, nofun, nofun, nofun,
        nofun, nofun, nofun⟩
  | extract hBuilt hExtracts ih =>
      rcases hExtracts.exists_runs hBuilt.bounded with ⟨x, hRuns, -, rfl⟩
      have hX := hRuns.invariant_naming (P := Extraction.Naming t)
        (.move hArguments) ih
      exact hX.completeAll hRuns.grows.pending
  | primitive hBuilt kind ih =>
      exact hShare _ _ nofun (hBuilt.primitive kind).inheriting ih
  | sequenceOf hBuilt hElement ih =>
      exact hShare _ _ nofun (hBuilt.sequenceOf hElement).inheriting ih
  | unknown hBuilt ih =>
      exact hShare _ _ (fun _ => rfl) hBuilt.unknown.inheriting ih

end Registry

end MatchCompiler

------------------------------------------------------------
-- Slots Told Apart By Names
------------------------------------------------------------

namespace MatchCompiler

/- Lists are equal if their images are and tell entries apart. -/
theorem eq_of_map_eq
    {α β : Type}
    {f : α → β}
    {xs ys : List α}
    (hInj : ∀ x ∈ xs, ∀ y ∈ ys, f x = f y → x = y)
    (h : xs.map f = ys.map f) :
    xs = ys := by
  induction xs generalizing ys with
  | nil => exact (List.map_eq_nil_iff.mp h.symm).symm
  | cons x xs ih =>
      cases ys with
      | nil => cases h
      | cons y ys =>
          rcases List.cons.inj h with ⟨hHead, hTail⟩
          have hFirst :=
            hInj x List.mem_cons_self y List.mem_cons_self hHead
          have hRest := ih (fun x hx y hy => hInj x
            (List.mem_cons_of_mem _ hx) y (List.mem_cons_of_mem _ hy)) hTail
          rw [hFirst, hRest]

theorem ExtractionKey.eq_of_parts
    {key key' : ExtractionKey}
    (hDescriptor : key.descriptor = key'.descriptor)
    (hArgs : key.args = key'.args) :
    key = key' := by
  cases key
  cases key'
  cases hDescriptor
  cases hArgs
  rfl

namespace Extraction.Naming

variable {t : TypeTable}
variable {r : Registry}
variable {slot a b : SchemaId}
variable (h : Extraction.Naming t { registry := r })
variable (hApart : t.NamesApart)

include h hApart

/- A final name can be read back. -/
theorem closes_nameOf
    (hSlot : Extraction.KeepsName { registry := r } t slot) :
    Closes 0 (r.pool.nameOf slot).toList := by
  -- The names of the arguments are shorter.
  generalize hLength : (r.pool.nameOf slot).toList.length = n
  induction n using Nat.strong_induction_on generalizing slot with
  | _ n ih =>
      rcases hSlot with hUnknown | ⟨own, d, hOwn, hConcrete, hGet, -, -⟩
      · have hName : r.pool.nameOf slot = "<unknown>" :=
          (h.unknown slot hUnknown).2
        rw [hName]
        exact PlainName.closes (by decide)
      · rcases h.slots own slot hOwn hConcrete nofun d hGet with
          ⟨hName, hArgs⟩
        change r.pool.nameOf slot = r.pool.instanceName d own.args at hName
        rw [hName]
        refine SchemaPool.closes_instanceName (hApart.plain _ d hGet)
          fun hParams s hs => ih _ ?_ (hArgs hParams s hs) rfl
        rw [← hLength, hName]
        exact SchemaPool.length_nameOf_lt hParams hs

/-
  The name of a slot tells the descriptor. It tells the key
  if the descriptor declares parameters and shorter names
  tell the slots of arguments.
-/
theorem own_eq_of_nameOf_eq
    {own own' : ExtractionKey}
    {d : TypeDescriptor}
    (hOwn : r.cache.lookup own = some a)
    (hOwn' : r.cache.lookup own' = some b)
    (hConcrete : t.IsConcrete own.descriptor)
    (hConcrete' : t.IsConcrete own'.descriptor)
    (hGet : t.get? own.descriptor = some d)
    (hShorter :
      ∀ s s', Extraction.KeepsName { registry := r } t s →
        Extraction.KeepsName { registry := r } t s' →
        (r.pool.nameOf s).toList.length <
          (r.pool.nameOf a).toList.length →
        r.pool.nameOf s = r.pool.nameOf s' → s = s')
    (hSame : r.pool.nameOf a = r.pool.nameOf b) :
    own.descriptor = own'.descriptor ∧
    (d.params ≠ 0 → own = own') := by
  rcases hConcrete' with ⟨d', hGet', hNotGeneric⟩
  rcases h.slots own a hOwn hConcrete nofun d hGet with ⟨hName, hArgs⟩
  rcases h.slots own' b hOwn' ⟨d', hGet', hNotGeneric⟩ nofun d' hGet' with
    ⟨hName', hArgs'⟩
  change r.pool.nameOf a = r.pool.instanceName d own.args at hName
  change r.pool.nameOf b = r.pool.instanceName d' own'.args at hName'
  rcases SchemaPool.instanceName_inj (hApart.plain _ d hGet)
      (hApart.plain _ d' hGet')
      (fun hParams s hs => h.closes_nameOf hApart (hArgs hParams s hs))
      (fun hParams s hs => h.closes_nameOf hApart (hArgs' hParams s hs))
      (hName ▸ hName' ▸ hSame) with ⟨hNames, hTexts⟩
  have hDescriptor := hApart.distinct _ _ d d' hGet hGet' hNames
  refine ⟨hDescriptor, fun hParams => ?_⟩
  rw [← hDescriptor, hGet] at hGet'
  cases hGet'
  apply ExtractionKey.eq_of_parts hDescriptor
  apply eq_of_map_eq (fun s hs s' hs' hEq => ?_) (hTexts hParams hParams)
  apply hShorter s s' (hArgs hParams s hs) (hArgs' hParams s' hs') ?_ hEq
  rw [hName]
  exact SchemaPool.length_nameOf_lt hParams hs

/- Final names are those of one slot only. -/
theorem eq_of_nameOf_eq
    (ha : Extraction.KeepsName { registry := r } t a)
    (hb : Extraction.KeepsName { registry := r } t b)
    (hSame : r.pool.nameOf a = r.pool.nameOf b) :
    a = b := by
  -- No descriptor has the name of what cannot be resolved.
  have hKnown :
      ∀ {a b : SchemaId} {own : ExtractionKey} {d : TypeDescriptor},
        r.pool.synthetic.lookup .unknown = some a →
        r.cache.lookup own = some b →
        t.IsConcrete own.descriptor →
        t.get? own.descriptor = some d →
        r.pool.nameOf a ≠ r.pool.nameOf b := by
    intro a b own d hUnknown hOwn hConcrete hGet hSame
    have hName := (h.slots own b hOwn hConcrete nofun d hGet).1
    have hUnknownName := (h.unknown a hUnknown).2
    exact hApart.known _ d hGet
      (SchemaPool.name_eq_of_instanceName_eq (hApart.plain _ d hGet)
        (by decide) (hName.symm.trans (hSame.symm.trans hUnknownName)))
  generalize hLength : (r.pool.nameOf a).toList.length = n
  induction n using Nat.strong_induction_on generalizing a b with
  | _ n ih =>
      rcases ha with hUnknown | ⟨own, d, hOwn, hConcrete, hGet, hZero, -⟩
      · rcases hb with hUnknown' | ⟨own', d', hOwn', hConcrete', hGet', -⟩
        · exact Option.some.inj (hUnknown.symm.trans hUnknown')
        · exact absurd hSame (hKnown hUnknown hOwn' hConcrete' hGet')
      · rcases hb with
          hUnknown' | ⟨own', d', hOwn', hConcrete', hGet', hZero', -⟩
        · exact absurd hSame.symm (hKnown hUnknown' hOwn hConcrete hGet)
        · rcases h.own_eq_of_nameOf_eq hApart hOwn hOwn' hConcrete hConcrete'
              hGet (fun s s' hs hs' hLt hEq =>
                ih _ (hLength ▸ hLt) hs hs' hEq rfl) hSame with
            ⟨hDescriptor, hKeys⟩
          have hKey : own = own' := by
            by_cases hParams : d.params = 0
            · rw [← hDescriptor, hGet] at hGet'
              cases hGet'
              exact ExtractionKey.eq_of_parts hDescriptor
                ((hZero hParams).trans (hZero' hParams).symm)
            · exact hKeys hParams
          subst hKey
          exact Option.some.inj (hOwn.symm.trans hOwn')

end Extraction.Naming

end MatchCompiler

------------------------------------------------------------
-- Comparison Of Instances
------------------------------------------------------------

namespace MatchCompiler

/-
  Objects are of one type if they are one slot, if one
  derives from the other, or by kind and name.
-/
theorem SchemaPool.compat_eq_exact_iff_of_object
    {p : SchemaPool}
    {a b : SchemaId}
    (h :
      (p.get (p.unwrap a)).kind = .record ∨
        (p.get (p.unwrap a)).kind = .union) :
    p.compat a b = .exact ↔
      p.unwrap a = p.unwrap b ∨ p.Derives b a ∨
      ((p.get (p.unwrap a)).kind = (p.get (p.unwrap b)).kind ∧
        (p.get (p.unwrap a)).name = (p.get (p.unwrap b)).name) := by
  have hNominal :
      p.compat a b =
        if p.unwrap a = p.unwrap b then
          .exact
        else
          p.compatNominal (p.unwrap a) (p.unwrap b) := by
    unfold compat compatDepth compatWithin
    simp only [beq_iff_eq]
    congr 1
    rcases h with h | h <;> simp only [compatParts, h]
  have hDerives :
      (p.get (p.unwrap b)).ancestors.any
          (fun c => p.unwrap c == p.unwrap a) = true ↔
        p.Derives b a := by
    simp [Derives]
  rw [hNominal]
  unfold compatNominal
  dsimp only
  by_cases hEnd : p.unwrap a = p.unwrap b
  · simp [hEnd]
  rw [if_neg hEnd, ← hDerives]
  simp only [hEnd, false_or, Bool.and_eq_true, beq_iff_eq]
  split
  · simp_all
  · split
    · simp_all
    · split <;> simp_all

/- What is built for an object is a record or a union. -/
theorem Schema.shapeLaw_object :
    Schema.ShapeLaw (fun _ => True)
      fun shape s => ∀ o, shape = .object o →
        s.kind = .record ∨ s.kind = .union := by
  rintro t x env id origin slot name shape s noted h - - o rfl
  cases h with
  | object hObject =>
      cases hObject with
      | plain =>
          dsimp only
          split
          · exact .inr rfl
          · exact .inl rfl
      | «variant» => exact .inr rfl
  | @view kind _ _ _ _ hShape => cases kind <;> cases hShape

theorem Schema.IsPlain.displayName_eq
    {s : Schema}
    (h : s.IsPlain) :
    s.displayName = s.name := by
  rw [displayName, h.aliasName]
  rfl

namespace Registry

variable {t : TypeTable}
variable {r : Registry}

/- The slot of an object holds a record or a union. -/
theorem BuiltWith.object
    (h : r.BuiltWith t)
    {slot : SchemaId}
    {key : ExtractionKey}
    {d : TypeDescriptor}
    {o : ObjectShape}
    (hFound : r.cache.lookup key = some slot)
    (hGet : t.get? key.descriptor = some d)
    (hShape : d.shape = .object o) :
    t.IsConcrete key.descriptor ∧ (r.get slot).IsPlain ∧
    ((r.get slot).kind = .record ∨ (r.get slot).kind = .union) := by
  have hHolds := h.holdsShapes Schema.law_trivial
    (Q := fun shape s => ∀ o, shape = .object o →
      s.kind = .record ∨ s.kind = .union)
    Schema.shapeLaw_object
  have hConcrete : t.IsConcrete key.descriptor :=
    ⟨d, hGet, fun _ _ hGeneric => nomatch hShape.symm.trans hGeneric⟩
  have hNoView :
      ∀ (kind : ViewKind) target, d.shape ≠ kind.shape target := by
    rw [hShape]
    rintro (_ | _) target <;> exact nofun
  rcases hHolds.slots key slot hFound hConcrete nofun d hGet hNoView with
    ⟨hPlain, hKind⟩
  exact ⟨hConcrete, hPlain, hKind o hShape⟩

/-
  In a table whose names tell the types apart, a record or a
  union is taken for another just if both are one slot under
  the same generic arguments, or the other derives from it,
  or both were extracted from one descriptor that declares no
  parameters, and are of one kind.
-/
theorem compat_eq_exact_iff
    (hBuilt : r.BuiltWith t)
    (hApart : t.NamesApart)
    {a b : SchemaId}
    {own own' : ExtractionKey}
    {d d' : TypeDescriptor}
    {o o' : ObjectShape}
    (hOwn : r.cache.lookup own = some (r.pool.unwrap a))
    (hOwn' : r.cache.lookup own' = some (r.pool.unwrap b))
    (hGet : t.get? own.descriptor = some d)
    (hGet' : t.get? own'.descriptor = some d')
    (hShape : d.shape = .object o)
    (hShape' : d'.shape = .object o') :
    r.pool.compat a b = .exact ↔
      own = own' ∨ r.pool.Derives b a ∨
      (own.descriptor = own'.descriptor ∧ d.params = 0 ∧
        (r.get (r.pool.unwrap a)).kind =
          (r.get (r.pool.unwrap b)).kind) := by
  have hNaming := hBuilt.naming hApart.arguments
  rcases hBuilt.object hOwn hGet hShape with ⟨hConcrete, hPlain, hKind⟩
  rcases hBuilt.object hOwn' hGet' hShape' with ⟨hConcrete', hPlain', -⟩
  -- The name of an object is the one that is shown.
  have hNames :
      (r.get (r.pool.unwrap a)).name = (r.get (r.pool.unwrap b)).name ↔
        r.pool.nameOf (r.pool.unwrap a) =
          r.pool.nameOf (r.pool.unwrap b) := by
    rw [← hPlain.displayName_eq, ← hPlain'.displayName_eq]
    rfl
  refine (SchemaPool.compat_eq_exact_iff_of_object hKind).trans ?_
  constructor
  · rintro (hEnd | hDerives | ⟨hKinds, hSame⟩)
    · left
      exact hNaming.inheriting.coherent.own own own' _ hOwn
        (hEnd ▸ hOwn') hConcrete hConcrete'
    · exact .inr (.inl hDerives)
    · rcases hNaming.own_eq_of_nameOf_eq hApart hOwn hOwn' hConcrete
          hConcrete' hGet (fun s s' hs hs' _ hEq =>
            hNaming.eq_of_nameOf_eq hApart hs hs' hEq)
          (hNames.mp hSame) with ⟨hDescriptor, hKeys⟩
      by_cases hParams : d.params = 0
      · exact .inr (.inr ⟨hDescriptor, hParams, hKinds⟩)
      · exact .inl (hKeys hParams)
  · rintro (rfl | hDerives | ⟨hDescriptor, hParams, hKinds⟩)
    · exact .inl (Option.some.inj (hOwn.symm.trans hOwn'))
    · exact .inr (.inl hDerives)
    · have hBare := hNaming.bare own _ d hOwn hConcrete hGet (.inl hParams)
      have hBare' := hNaming.bare own' _ d hOwn' hConcrete'
        (hDescriptor ▸ hGet) (.inl hParams)
      exact .inr (.inr ⟨hKinds, hNames.mpr (hBare.trans hBare'.symm)⟩)

end Registry

end MatchCompiler

------------------------------------------------------------
-- Nodes In Boxes
------------------------------------------------------------

namespace MatchCompiler

namespace TypeTable

variable {t : TypeTable}
variable {id other : DescriptorId}
variable {d : TypeDescriptor}

theorem MadeFrom.eq_of_concrete
    (h : t.MadeFrom id other)
    (hGet : t.get? id = some d)
    (hConcrete : ∀ template args, d.shape ≠ .generic template args) :
    other = id := by
  cases h with
  | own => rfl
  | template hGet' hGeneric =>
      cases hGet.symm.trans hGet'
      exact absurd hGeneric (hConcrete _ _)

theorem MadeFrom.of_generic
    (h : t.MadeFrom id other)
    (hGet : t.get? id = some d)
    {template : DescriptorId}
    {args : List TypeRef}
    (hGeneric : d.shape = .generic template args) :
    t.MadeFrom template other := by
  cases h with
  | own hConcrete => exact absurd hGeneric (hConcrete.not_generic hGet _ _)
  | template hGet' hGeneric' hRest =>
      cases hGet.symm.trans hGet'
      cases hGeneric.symm.trans hGeneric'
      exact hRest

end TypeTable

namespace Registry

/- Linked nodes of numbers and of texts, each in a box. -/
def boxedNodes : TypeTable :=
  { descriptors :=
      #[{ name := "int", shape := .primitive .i64 },
        { name := "string", shape := .primitive .str },
        { name := "Node", params := 1,
          shape := .object
            { fields :=
                [⟨"value", .parameter 0, false⟩,
                 ⟨"next", .described 3, false⟩] } },
        { name := "Self", shape := .generic 2 [.parameter 0] },
        { name := "IntNode", shape := .generic 2 [.described 0] },
        { name := "StringNode", shape := .generic 2 [.described 1] },
        { name := "Box", params := 1,
          shape := .object { fields := [⟨"item", .parameter 0, false⟩] } },
        { name := "IntBox", shape := .generic 6 [.described 4] },
        { name := "StringBox", shape := .generic 6 [.described 5] },
        { name := "Boxes",
          shape := .tuple
            [⟨none, .described 7⟩, ⟨none, .described 8⟩] }] }

/- The registry after both boxes have been extracted. -/
def boxedNodesRegistry : Registry :=
  ((extract? {} boxedNodes 12 9).map Prod.fst).getD {}

/- The names of boxes, nodes and values tell them apart. -/
theorem boxedNodes_namesApart : boxedNodes.NamesApart := by
  have hLt : ∀ {id d}, boxedNodes.get? id = some d → id < 10 :=
    fun hGet => (Array.getElem?_eq_some_iff.mp hGet).1
  have hPlain :
      ∀ id < 10, ∀ d ∈ boxedNodes.get? id,
        PlainName d.name ∧ d.name ≠ "<unknown>" := by
    decide +kernel
  -- Values are passed to nodes, and nodes to boxes.
  have hPassed :
      ∀ inst < 10, ∀ d ∈ boxedNodes.get? inst, ∀ ref ∈ d.shape.passed,
        ref ∈ [.parameter 0, .described 0, .described 1] ∨
        ref ∈ [.described 4, .described 5] ∧ 7 ≤ inst := by
    decide +kernel
  -- A node mentions nodes only.
  have hMentions :
      ∀ id ∈ [2, 3], ∀ d ∈ boxedNodes.get? id, ∀ ref ∈ d.shape.followed,
        ref ∈ [.parameter 0, .described 2, .described 3] := by
    decide +kernel
  have hReaches :
      ∀ {other}, boxedNodes.Reaches 2 other → other ∈ [2, 3] := by
    intro other hReaches
    induction hReaches with
    | refl => decide
    | tail _ hLast ih =>
        rcases hLast with ⟨d, hGet, hMem⟩
        simpa using hMentions _ ih d hGet _ hMem
  refine
    { distinct := TypeTable.distinctNames_of_nodup (by decide +kernel)
      plain := fun id d hGet => (hPlain id (hLt hGet) d hGet).1
      known := fun id d hGet => (hPlain id (hLt hGet) d hGet).2
      arguments := fun id inst other d hArgument hMade hGet => ?_ }
  rcases hArgument with ⟨d', hInst, hMem⟩
  rcases hPassed inst (hLt hInst) d' hInst _ hMem with hValue | ⟨hNode, hBox⟩
  · have hOther : other ∈ [0, 1] := by
      have hId : id = 0 ∨ id = 1 := by simpa using hValue
      rcases hId with rfl | rfl
      · rw [hMade.eq_of_concrete rfl nofun]
        decide
      · rw [hMade.eq_of_concrete rfl nofun]
        decide
    have hClosed :
        ∀ id ∈ [0, 1], ∀ d ∈ boxedNodes.get? id,
          d.params = 0 ∧ boxedNodes.mentionsParams id = false := by
      decide +kernel
    rcases hClosed other hOther d hGet with ⟨hParams, hNone⟩
    exact ⟨fun _ => hNone, fun hSome => absurd hParams hSome⟩
  · have hOther : other = 2 := by
      have hId : id = 4 ∨ id = 5 := by simpa using hNode
      rcases hId with rfl | rfl
      · exact (hMade.of_generic rfl rfl).eq_of_concrete rfl nofun
      · exact (hMade.of_generic rfl rfl).eq_of_concrete rfl nofun
    subst hOther
    refine ⟨fun hZero => ?_, fun _ hBack => ?_⟩
    · cases hGet
      cases hZero
    · have hInside : inst = 2 ∨ inst = 3 := by simpa using hReaches hBack
      rcases hInside with rfl | rfl <;> exact absurd hBox (by decide)

/- The boxes of both kinds of nodes are not one type. -/
theorem boxedNodes_told_apart :
    boxedNodesRegistry.BuiltWith boxedNodes ∧
    boxedNodes.NamesApart ∧
    boxedNodesRegistry.cache.lookup ⟨6, [2]⟩ =
      some (boxedNodesRegistry.pool.unwrap 3) ∧
    boxedNodesRegistry.cache.lookup ⟨6, [5]⟩ =
      some (boxedNodesRegistry.pool.unwrap 6) ∧
    boxedNodesRegistry.pool.compat 3 6 ≠ .exact := by
  have hExtracts : Extracts {} boxedNodes 9 boxedNodesRegistry 0 :=
    extracts_of_map_snd (by decide +kernel)
  have hBuilt : boxedNodesRegistry.BuiltWith boxedNodes :=
    .extract (.fresh 'k') hExtracts
  have hInt :
      boxedNodesRegistry.cache.lookup ⟨6, [2]⟩ =
        some (boxedNodesRegistry.pool.unwrap 3) := by
    decide +kernel
  have hString :
      boxedNodesRegistry.cache.lookup ⟨6, [5]⟩ =
        some (boxedNodesRegistry.pool.unwrap 6) := by
    decide +kernel
  have hBases :
      (boxedNodesRegistry.pool.get
        (boxedNodesRegistry.pool.unwrap 6)).ancestors = [] := by
    decide +kernel
  refine ⟨hBuilt, boxedNodes_namesApart, hInt, hString, ?_⟩
  rw [Ne, compat_eq_exact_iff hBuilt boxedNodes_namesApart hInt hString
    rfl rfl rfl rfl]
  rintro (hKeys | ⟨base, hMem, -⟩ | ⟨-, hZero, -⟩)
  · cases hKeys
  · rw [hBases] at hMem
    cases hMem
  · cases hZero

/-
  Nodes that are linked through boxes: the box of a node is
  built for the link while the node is.
-/
def linkedBoxes : TypeTable :=
  { descriptors :=
      #[{ name := "int", shape := .primitive .i64 },
        { name := "string", shape := .primitive .str },
        { name := "Box", params := 1,
          shape := .object { fields := [⟨"item", .parameter 0, false⟩] } },
        { name := "Node", params := 1,
          shape := .object
            { fields :=
                [⟨"value", .parameter 0, false⟩,
                 ⟨"next", .described 4, false⟩] } },
        { name := "Next", shape := .generic 2 [.described 5] },
        { name := "Self", shape := .generic 3 [.parameter 0] },
        { name := "IntNode", shape := .generic 3 [.described 0] },
        { name := "StringNode", shape := .generic 3 [.described 1] },
        { name := "IntBox", shape := .generic 2 [.described 6] },
        { name := "StringBox", shape := .generic 2 [.described 7] }] }

/- The registry after the box of numbers has been extracted. -/
def linkedIntBox : Registry :=
  ((extract? {} linkedBoxes 12 8).map Prod.fst).getD {}

/- The registry after the box of texts has been extracted too. -/
def linkedBoxesRegistry : Registry :=
  ((extract? linkedIntBox linkedBoxes 12 9).map Prod.fst).getD {}

/-
  Both boxes are named `Box[Node]`, so that one is taken for
  the other, although they have slots of their own.
-/
theorem linkedBoxes_taken_for_one :
    linkedBoxesRegistry.BuiltWith linkedBoxes ∧
    linkedBoxes.DistinctNames ∧
    ∃ int string args args',
      linkedBoxesRegistry.Remembers 8 int ∧
      linkedBoxesRegistry.Remembers 9 string ∧
      linkedBoxesRegistry.cache.lookup ⟨2, args⟩ = some int ∧
      linkedBoxesRegistry.cache.lookup ⟨2, args'⟩ = some string ∧
      (linkedBoxesRegistry.get int).kind = .record ∧
      (linkedBoxesRegistry.get string).kind = .record ∧
      linkedBoxesRegistry.pool.unwrap int ≠
        linkedBoxesRegistry.pool.unwrap string ∧
      (linkedBoxesRegistry.get string).ancestors = [] ∧
      linkedBoxesRegistry.pool.compat int string = .exact := by
  have hInt : Extracts {} linkedBoxes 8 linkedIntBox 2 :=
    extracts_of_map_snd (by decide +kernel)
  have hString : Extracts linkedIntBox linkedBoxes 9 linkedBoxesRegistry 5 :=
    extracts_of_map_snd (by decide +kernel)
  have hBuilt : linkedBoxesRegistry.BuiltWith linkedBoxes :=
    .extract (.extract (.fresh 'k') hInt) hString
  refine ⟨hBuilt, TypeTable.distinctNames_of_nodup (by decide +kernel),
    2, 5, [1], [4], ?_⟩
  unfold Remembers
  decide +kernel

end Registry

end MatchCompiler
