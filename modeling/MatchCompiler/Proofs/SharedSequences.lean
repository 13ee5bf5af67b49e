import MatchCompiler.Proofs.PairedPatterns
import MatchCompiler.Proofs.PointeeKinds

/-
  This file shows that it does not matter for checking which
  sequences a registry has shared already.

  While a pattern is checked, a registry that knows all the
  types that the pattern names grows by the sequences that
  spreads are bound to. Each is a sequence of an old slot, so
  that the registries that are met differ only in which of
  these there are and where. All of them look like one that
  has them all.

  Key definitions include:
    * `SchemaPool.SlicedFrom`
    * `Registry.Sliced`
    * `Registry.AllSlices`
    * `Twins.slices`
    * `Registry.slicing`

  Key theorems include:
    * `SchemaPool.SlicedFrom.paired`
    * `Registry.exists_allSlices`
-/

------------------------------------------------------------
-- Pools With More Sequences
------------------------------------------------------------

namespace MatchCompiler

namespace SchemaPool

/- The schema of the sequences of a slot. -/
def slice
    (p : SchemaPool)
    (element : SchemaId) : Schema :=
  { kind := .sequence
    name := s!"seq[{p.nameOf element}]"
    element := some element }

/- A pool with more sequences of the slots that another one has. -/
structure SlicedFrom
    (p q : SchemaPool) : Prop where
  grows : p.Grows q
  fresh :
    ∀ element slot, q.synthetic.lookup (.sequenceOf element) = some slot →
      p.synthetic.lookup (.sequenceOf element) = none →
      element < p.size ∧ p.size ≤ slot ∧ slot < q.size ∧
        q.get slot = p.slice element

variable {p q q' : SchemaPool}
variable {a b c : SchemaId}

theorem SlicedFrom.refl : p.SlicedFrom p := by
  refine ⟨.refl p, fun element slot hFound hNone => ?_⟩
  rw [hNone] at hFound
  cases hFound

/- One more sequence of an old slot is shared. -/
theorem SlicedFrom.sequenceOf
    (h : p.SlicedFrom q)
    {element : SchemaId}
    (hElement : element < p.size) :
    p.SlicedFrom (q.sequenceOf element).1 := by
  refine ⟨h.grows.trans (q.grows_share _ _), ?_⟩
  unfold SchemaPool.sequenceOf share
  intro other slot hFound hNone
  cases hShared : q.synthetic.lookup (.sequenceOf element) with
  | some known =>
      rw [hShared] at hFound
      exact h.fresh other slot hFound hNone
  | none =>
      simp only [hShared] at hFound ⊢
      have hSize := q.size_push (q.slice element)
      by_cases hSame : other = element
      · subst hSame
        simp only [List.lookup_cons, BEq.rfl] at hFound
        cases hFound
        refine ⟨hElement, h.grows.size_le, ?_, ?_⟩
        · exact (Nat.lt_succ_self q.size).trans_eq hSize.symm
        · change (q.push (q.slice other)).1.get q.size = p.slice other
          rw [get_push_self, slice, slice, nameOf, nameOf,
            h.grows.get_eq hElement]
      · have hOther :
            q.synthetic.lookup (.sequenceOf other) = some slot := by
          have hNe :
              ¬ SyntheticKey.sequenceOf other = .sequenceOf element :=
            fun hEq => hSame (SyntheticKey.sequenceOf.inj hEq)
          rwa [List.lookup_cons, beq_eq_false_iff_ne.mpr hNe] at hFound
        rcases h.fresh other slot hOther hNone with
          ⟨hOld, hNew, hLt, hGet⟩
        refine ⟨hOld, hNew, ?_, ?_⟩
        · exact (hLt.trans (Nat.lt_succ_self q.size)).trans_eq hSize.symm
        · change (q.push (q.slice element)).1.get slot = p.slice other
          rw [get_push_of_ne (Nat.ne_of_lt hLt), hGet]

end SchemaPool

end MatchCompiler

------------------------------------------------------------
-- Where Views Lead In A Larger Pool
------------------------------------------------------------

namespace MatchCompiler

namespace SchemaPool

variable {p q : SchemaPool}
variable {n : Nat}
variable {a c : SchemaId}

/- Chains of old slots are there in a larger pool. -/
theorem Chain.of_grows
    (h : p.Chain n a c)
    (hGrows : p.Grows q)
    (hTargets : p.TargetsWithin)
    (ha : a < p.size) :
    q.Chain n a c := by
  induction h with
  | done hPlain =>
      rw [← hGrows.get_eq ha] at hPlain
      exact .done hPlain
  | step hLinks _ ih =>
      refine .step ?_ (ih (hTargets _ _ hLinks.target))
      unfold Links
      rw [hGrows.get_eq ha]
      exact hLinks

/- Aliases lead to the same slot, given steps enough. -/
theorem Chain.follow_eq
    (h : p.Chain n a c)
    (hGrows : p.Grows q)
    (hTargets : p.TargetsWithin)
    (ha : a < p.size)
    (through : Schema → Bool)
    {fuel fuel' : Nat}
    (hFuel : n ≤ fuel)
    (hFuel' : n ≤ fuel') :
    q.follow through fuel' a = p.follow through fuel a := by
  induction h generalizing fuel fuel' with
  | @done a hPlain =>
      have hStays :
          ∀ {p : SchemaPool} (fuel : Nat), (p.get a).target = none →
            p.follow through fuel a = a := by
        intro p fuel hTarget
        cases fuel with
        | zero => rfl
        | succ fuel => simp only [SchemaPool.follow, hTarget]
      rw [hStays fuel hPlain.target, hStays fuel']
      rw [hGrows.get_eq ha]
      exact hPlain.target
  | @step n a b c hLinks _ ih =>
      rcases Nat.exists_eq_succ_of_ne_zero (Nat.ne_zero_of_lt hFuel) with
        ⟨fuel, rfl⟩
      rcases Nat.exists_eq_succ_of_ne_zero (Nat.ne_zero_of_lt hFuel') with
        ⟨fuel', rfl⟩
      simp only [SchemaPool.follow, hGrows.get_eq ha, hLinks.target]
      split
      · exact ih (hTargets _ _ hLinks.target)
          (Nat.le_of_succ_le_succ hFuel) (Nat.le_of_succ_le_succ hFuel')
      · rfl

/- Without circles every slot comes to some slot. -/
theorem AllSettled.exists_chain
    (h : p.AllSettled)
    (hAcyclic : p.Acyclic)
    (slot : SchemaId) :
    ∃ n, p.Chain n slot (p.unwrap slot) :=
  h.comesTo_unwrap hAcyclic slot

theorem AllSettled.unwrap_eq_of_grows
    (h : p.AllSettled)
    (hAcyclic : p.Acyclic)
    (hGrows : p.Grows q)
    (hTargets : p.TargetsWithin)
    (ha : a < p.size) :
    q.unwrap a = p.unwrap a := by
  rcases h.exists_chain hAcyclic a with ⟨n, hChain⟩
  exact ComesTo.unwrap_eq ⟨n, hChain.of_grows hGrows hTargets ha⟩

theorem AllSettled.canonical_eq_of_grows
    (h : p.AllSettled)
    (hAcyclic : p.Acyclic)
    (hGrows : p.Grows q)
    (hTargets : p.TargetsWithin)
    (ha : a < p.size) :
    q.canonical a = p.canonical a := by
  rcases h.exists_chain hAcyclic a with ⟨n, hChain⟩
  have hLength := hChain.length_le
  exact hChain.follow_eq hGrows hTargets ha _ hLength
    (hLength.trans hGrows.size_le)

/- A plain slot leads nowhere else. -/
theorem canonical_eq_of_isPlain
    (h : (p.get a).IsPlain) :
    p.canonical a = a := by
  unfold canonical
  cases p.size with
  | zero => rfl
  | succ n => simp only [follow, h.target]

theorem unwrap_eq_of_isPlain
    (h : (p.get a).IsPlain) :
    p.unwrap a = a :=
  ComesTo.unwrap_eq ⟨0, .done h⟩

end SchemaPool

end MatchCompiler

------------------------------------------------------------
-- Twins Among Shared Sequences
------------------------------------------------------------

namespace MatchCompiler

/-
  Slots that two pools have from the one that they have grown
  from, or as the sequences of one old slot.
-/
inductive SchemaPool.Corresponds
    (p q q' : SchemaPool) : SchemaId → SchemaId → Prop
| old
    {a : SchemaId}
    (hLt : a < p.size) :
    Corresponds p q q' a a
| slice
    {element a b : SchemaId}
    (hNone : p.synthetic.lookup (.sequenceOf element) = none)
    (hFirst : q.synthetic.lookup (.sequenceOf element) = some a)
    (hSecond : q'.synthetic.lookup (.sequenceOf element) = some b) :
    Corresponds p q q' a b

/- Twins in two pools that have grown by sequences. -/
def Twins.slices (p q q' : SchemaPool) : Twins where
  Rel := p.Corresponds q q'
  old := p.size
  own := fun _ hLt => .old hLt

namespace SchemaPool

variable {p q q' : SchemaPool}
variable {a b c d element : SchemaId}

namespace SlicedFrom

/- The slot of a new sequence is plain. -/
theorem isPlain
    (h : p.SlicedFrom q)
    (hNone : p.synthetic.lookup (.sequenceOf element) = none)
    (hFound : q.synthetic.lookup (.sequenceOf element) = some a) :
    (q.get a).IsPlain := by
  rcases h.fresh element a hFound hNone with ⟨-, -, -, hGet⟩
  rw [hGet]
  exact ⟨rfl, rfl, nofun⟩

/- A slot is that of the sequences of one old slot only. -/
theorem element_unique
    (h : p.SlicedFrom q)
    {other : SchemaId}
    (hNone : p.synthetic.lookup (.sequenceOf element) = none)
    (hNone' : p.synthetic.lookup (.sequenceOf other) = none)
    (hFound : q.synthetic.lookup (.sequenceOf element) = some a)
    (hFound' : q.synthetic.lookup (.sequenceOf other) = some a) :
    element = other := by
  rcases h.fresh element a hFound hNone with ⟨-, -, -, hGet⟩
  rcases h.fresh other a hFound' hNone' with ⟨-, -, -, hGet'⟩
  have hSame := congrArg Schema.element (hGet.symm.trans hGet')
  exact Option.some.inj hSame

/- Slots correspond in one way only. -/
theorem same_iff
    (h : p.SlicedFrom q)
    (h' : p.SlicedFrom q')
    (hFirst : p.Corresponds q q' a b)
    (hSecond : p.Corresponds q q' c d) :
    a = c ↔ b = d := by
  cases hFirst with
  | old hLt =>
      cases hSecond with
      | old => exact Iff.rfl
      | slice hNone hFound hFound' =>
          have hNew := (h.fresh _ c hFound hNone).2.1
          have hNew' := (h'.fresh _ d hFound' hNone).2.1
          exact iff_of_false (Nat.ne_of_lt (hLt.trans_le hNew))
            (Nat.ne_of_lt (hLt.trans_le hNew'))
  | slice hNone hFound hFound' =>
      cases hSecond with
      | old hLt =>
          have hNew := (h.fresh _ a hFound hNone).2.1
          have hNew' := (h'.fresh _ b hFound' hNone).2.1
          exact iff_of_false (Nat.ne_of_gt (hLt.trans_le hNew))
            (Nat.ne_of_gt (hLt.trans_le hNew'))
      | slice hNone₂ hFound₂ hFound₂' =>
          constructor
          · rintro rfl
            cases h.element_unique hNone hNone₂ hFound hFound₂
            exact Option.some.inj (hFound'.symm.trans hFound₂')
          · rintro rfl
            cases h'.element_unique hNone hNone₂ hFound' hFound₂'
            exact Option.some.inj (hFound.symm.trans hFound₂)

/- Pools that have grown by sequences are paired. -/
theorem paired
    (h : p.SlicedFrom q)
    (h' : p.SlicedFrom q')
    (hClosed : p.Closed)
    (hSettled : p.AllSettled)
    (hAcyclic : p.Acyclic) :
    Paired (.slices p q q') q q' := by
  have hTargets := hClosed.targetsWithin
  refine ⟨fun a b hRel => ?_, fun a b hRel => ?_, fun a b hRel => ?_,
    fun a b hRel => ?_, fun a b c d => h.same_iff h'⟩
  · cases hRel with
    | old hLt => rw [h.grows.get_eq hLt, h'.grows.get_eq hLt]
    | slice hNone hFound hFound' =>
        rw [(h.fresh _ a hFound hNone).2.2.2,
          (h'.fresh _ b hFound' hNone).2.2.2]
  · cases hRel with
    | old hLt =>
        rw [h.grows.get_eq hLt]
        exact hClosed.slots a
    | slice hNone hFound hFound' =>
        rcases h.fresh _ a hFound hNone with ⟨hElement, -, -, hGet⟩
        rw [hGet]
        exact Schema.within_ofElement hElement
  · cases hRel with
    | old hLt =>
        rw [hSettled.canonical_eq_of_grows hAcyclic h.grows hTargets hLt,
          hSettled.canonical_eq_of_grows hAcyclic h'.grows hTargets hLt]
        exact .old (hClosed.follow_lt hLt _ _)
    | slice hNone hFound hFound' =>
        rw [canonical_eq_of_isPlain (h.isPlain hNone hFound),
          canonical_eq_of_isPlain (h'.isPlain hNone hFound')]
        exact .slice hNone hFound hFound'
  · cases hRel with
    | old hLt =>
        rw [hSettled.unwrap_eq_of_grows hAcyclic h.grows hTargets hLt,
          hSettled.unwrap_eq_of_grows hAcyclic h'.grows hTargets hLt]
        exact .old (hClosed.unwrap_lt hLt)
    | slice hNone hFound hFound' =>
        rw [unwrap_eq_of_isPlain (h.isPlain hNone hFound),
          unwrap_eq_of_isPlain (h'.isPlain hNone hFound')]
        exact .slice hNone hFound hFound'

end SlicedFrom

/- What corresponds goes on to correspond in larger pools. -/
theorem Corresponds.mono
    {r r' : SchemaPool}
    (h : p.Corresponds q q' a b)
    (hGrows : q.Grows r)
    (hGrows' : q'.Grows r') :
    p.Corresponds r r' a b := by
  cases h with
  | old hLt => exact .old hLt
  | slice hNone hFound hFound' =>
      exact .slice hNone (hGrows.synthetic _ _ hFound)
        (hGrows'.synthetic _ _ hFound')

/- The sequences of a slot are found where they are shared. -/
theorem lookup_sequenceOf
    (p : SchemaPool)
    (element : SchemaId) :
    (p.sequenceOf element).1.synthetic.lookup (.sequenceOf element) =
      some (p.sequenceOf element).2 :=
  p.lookup_share (.sequenceOf element) (p.slice element)

/- Sequences that were shared before keep their slot. -/
theorem Grows.sequenceOf_eq
    (h : p.Grows q)
    (hOld : p.synthetic.lookup (.sequenceOf element) = some a) :
    (q.sequenceOf element).2 = a := by
  have hGrows : p.Grows (q.sequenceOf element).1 :=
    h.trans (q.grows_share _ _)
  have hStill := hGrows.synthetic _ _ hOld
  exact Option.some.inj ((q.lookup_sequenceOf element).symm.trans hStill)

/- The sequences of one slot correspond wherever they are shared. -/
theorem Corresponds.sequenceOf
    (h : p.Grows q)
    (h' : p.Grows q')
    (hOld :
      ∀ slot, p.synthetic.lookup (.sequenceOf element) = some slot →
        slot < p.size) :
    p.Corresponds (q.sequenceOf element).1 (q'.sequenceOf element).1
      (q.sequenceOf element).2 (q'.sequenceOf element).2 := by
  cases hFound : p.synthetic.lookup (.sequenceOf element) with
  | none =>
      exact .slice hFound (q.lookup_sequenceOf element)
        (q'.lookup_sequenceOf element)
  | some slot =>
      rw [h.sequenceOf_eq hFound, h'.sequenceOf_eq hFound]
      exact .old (hOld slot hFound)

end SchemaPool

end MatchCompiler

------------------------------------------------------------
-- Registries With More Sequences
------------------------------------------------------------

namespace MatchCompiler

namespace Registry

/-
  A registry that since another one has only found types
  again and shared sequences of the slots there were.
-/
structure Sliced
    (r r' : Registry) : Prop where
  pool : r.pool.SlicedFrom r'.pool
  cache : r'.cache = r.cache
  parametric : r'.parametric = r.parametric

/- Such a registry with the sequences of all slots there were. -/
structure AllSlices
    (r u : Registry) : Prop extends Sliced r u where
  all :
    ∀ element < r.pool.size,
      (u.pool.synthetic.lookup (.sequenceOf element)).isSome = true

/- A type has been extracted from a table. -/
def Knows
    (t : TypeTable)
    (r : Registry)
    (id : DescriptorId) : Prop :=
  (t.get? id).isSome = true ∧ ∃ slot, r.Remembers id slot

variable {r r' u : Registry}

theorem Sliced.refl : r.Sliced r :=
  ⟨.refl, rfl, rfl⟩

theorem Sliced.found
    (h : r.Sliced r') :
    r.Sliced { r' with hits := r'.hits + 1 } :=
  ⟨h.pool, h.cache, h.parametric⟩

theorem Sliced.shared
    (h : r.Sliced r')
    {element : SchemaId}
    (hElement : element < r.pool.size) :
    r.Sliced { r' with pool := (r'.pool.sequenceOf element).1 } :=
  ⟨h.pool.sequenceOf hElement, h.cache, h.parametric⟩

/- What was remembered is found in the same slot. -/
theorem Sliced.schemaWithin_eq
    (h : r.Sliced r')
    {t : TypeTable}
    {id : DescriptorId}
    {slot : SchemaId}
    (hPresent : (t.get? id).isSome = true)
    (hRemembers : r.Remembers id slot)
    (depth : Nat) :
    r'.schemaWithin t depth id =
      ({ r' with hits := r'.hits + 1 }, slot) := by
  have hStill : r'.Remembers id slot := by
    unfold Remembers
    rw [h.cache, h.parametric]
    exact hRemembers
  exact schemaWithin_of_remembered hStill hPresent depth

/- All sequences of a number of slots can be shared. -/
theorem exists_slices
    (r : Registry)
    {n : Nat}
    (hn : n ≤ r.pool.size) :
    ∃ u, r.Sliced u ∧
      ∀ element < n,
        (u.pool.synthetic.lookup (.sequenceOf element)).isSome = true := by
  induction n with
  | zero => exact ⟨r, .refl, nofun⟩
  | succ n ih =>
      rcases ih (Nat.le_of_succ_le hn) with ⟨u, hSliced, hAll⟩
      refine ⟨_, hSliced.shared hn, fun element hElement => ?_⟩
      have hGrows := u.pool.grows_share (.sequenceOf n) (u.pool.slice n)
      rcases Nat.lt_succ_iff_lt_or_eq.mp hElement with hLt | rfl
      · rcases Option.isSome_iff_exists.mp (hAll element hLt) with
          ⟨slot, hFound⟩
        exact Option.isSome_of_eq_some (hGrows.synthetic _ _ hFound)
      · exact Option.isSome_of_eq_some (u.pool.lookup_sequenceOf element)

theorem exists_allSlices (r : Registry) :
    ∃ u, r.AllSlices u := by
  rcases r.exists_slices (Nat.le_refl _) with ⟨u, hSliced, hAll⟩
  exact ⟨u, hSliced, hAll⟩

/- Nothing is shared any more where all sequences are. -/
theorem AllSlices.sequenceOf_eq
    (h : r.AllSlices u)
    {element : SchemaId}
    (hElement : element < r.pool.size) :
    (u.pool.sequenceOf element).1 = u.pool := by
  rcases Option.isSome_iff_exists.mp (h.all element hElement) with
    ⟨slot, hFound⟩
  unfold SchemaPool.sequenceOf SchemaPool.share
  rw [hFound]

/-
  Registries that have grown by sequences look like one that
  has them all.
-/
def slicing
    {ctx : CheckContext}
    (hBuilt : r.BuiltWith ctx.table)
    (hAcyclic : r.pool.Acyclic)
    (hAll : r.AllSlices u) : Pairing ctx where
  Holds T r₁ r₂ :=
    r.Sliced r₁ ∧ r.Sliced r₂ ∧ r₂.pool = u.pool ∧
      T = .slices r.pool r₁.pool u.pool
  Known := r.Knows ctx.table
  pools := by
    rintro T r₁ r₂ ⟨h₁, h₂, hPool, rfl⟩
    rw [← hPool]
    exact h₁.pool.paired h₂.pool hBuilt.settled.closed.pool
      (hBuilt.allSettled hAcyclic) hAcyclic
  schemaOf := by
    rintro T r₁ r₂ id ⟨h₁, h₂, hPool, rfl⟩ ⟨hPresent, slot, hRemembers⟩
    rw [h₁.schemaWithin_eq hPresent hRemembers,
      h₂.schemaWithin_eq hPresent hRemembers]
    have hLt := hBuilt.bounded.cache _ _ hRemembers.2
    exact ⟨_, .refl, ⟨h₁.found, h₂.found, hPool, rfl⟩, .old hLt⟩
  sequenceOf := by
    rintro T r₁ r₂ element ⟨h₁, h₂, hPool, rfl⟩ hElement
    have hGrows := r₁.pool.grows_share (.sequenceOf element)
      (r₁.pool.slice element)
    refine ⟨.slices r.pool (r₁.pool.sequenceOf element).1 u.pool,
      ⟨fun a b h => h.mono hGrows (.refl _), Nat.le_refl _⟩,
      ⟨h₁.shared hElement, h₂.shared hElement, ?_, rfl⟩, ?_⟩
    · rw [hPool]
      exact hAll.sequenceOf_eq hElement
    · have hTwins :=
        SchemaPool.Corresponds.sequenceOf h₁.pool.grows hAll.pool.grows
          (hBuilt.bounded.synthetic (.sequenceOf element))
      rw [hAll.sequenceOf_eq hElement] at hTwins
      rw [hPool]
      exact hTwins

end Registry

end MatchCompiler
