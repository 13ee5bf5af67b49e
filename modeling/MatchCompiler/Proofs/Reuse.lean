import MatchCompiler.Proofs.Extraction

/-
  This file shows that a registry only grows, and that what
  has been extracted is found again.

  An extraction that ends leaves every slot as it was and
  only appends slots: rebuilding the views that were noted
  touches new slots only. The slot of a descriptor is
  remembered under a key that is the same whenever it is
  asked for again, so that asking again changes neither the
  pool nor the number of misses.

  Key definitions include:
    * `Registry.Extracts`
    * `Registry.Remembers`

  Key theorems include:
    * `Registry.Extracts.grows`
    * `Registry.Extracts.remembers`
    * `Registry.extract?_of_remembered`
-/

------------------------------------------------------------
-- Rebuilt Views
------------------------------------------------------------

namespace MatchCompiler

namespace View

/- What a view is rebuilt to. -/
def rebuilt
    (v : View)
    (p : SchemaPool) : Schema :=
  { p.view v.kind v.source v.name with descriptor := some v.descriptor }

variable {views : List View}
variable {P : SchemaPool → Prop}

/- What rebuilding any one view keeps, rebuilding some keeps. -/
theorem complete_keeps
    (hFill : ∀ p, ∀ v ∈ views, P p → P (p.fill v.slot (v.rebuilt p)))
    (n : Nat)
    {v : View}
    (hMem : v ∈ views)
    (done : List SchemaId)
    {p : SchemaPool}
    (h : P p) :
    P (complete views n v (done, p)).2 := by
  induction n generalizing v done p with
  | zero => exact h
  | succ n ih =>
      unfold complete
      split
      · exact h
      · cases hFind : views.find? (fun w => w.slot == v.source) with
        | none => exact hFill p v hMem h
        | some w =>
            have hSource := ih (List.mem_of_find?_eq_some hFind)
              (v.slot :: done) h
            exact hFill _ v hMem hSource

/- What rebuilding any one view keeps, rebuilding all keeps. -/
theorem completeAll_keeps
    (hFill : ∀ p, ∀ v ∈ views, P p → P (p.fill v.slot (v.rebuilt p)))
    {p : SchemaPool}
    (h : P p) :
    P (completeAll views p) := by
  unfold completeAll
  suffices
      ∀ (vs : List View) (state : List SchemaId × SchemaPool),
        vs ⊆ views → P state.2 →
        P (vs.foldl
          (fun state v => complete views views.length v state)
          state).2 from
    this views ([], p) (List.Subset.refl _) h
  intro vs
  induction vs with
  | nil => exact fun _ _ h => h
  | cons v vs ih =>
      intro state hSubset h
      rcases List.cons_subset.mp hSubset with ⟨hMem, hRest⟩
      exact ih _ hRest (complete_keeps hFill _ hMem state.1 h)

/- Views in new slots are rebuilt. -/
theorem grows_completeAll
    {p q : SchemaPool}
    (hViews : ∀ v ∈ views, p.size ≤ v.slot)
    (h : p.Grows q) :
    p.Grows (completeAll views q) :=
  completeAll_keeps (P := p.Grows)
    (fun _ v hMem hGrows => hGrows.fill (hViews v hMem) _) h

/- No slot is added. -/
theorem size_completeAll
    (views : List View)
    (p : SchemaPool) :
    (completeAll views p).size = p.size :=
  completeAll_keeps (P := fun q => q.size = p.size)
    (fun _ _ _ hSize => (SchemaPool.size_fill _ _ _).trans hSize) rfl

/- Targets stay within the pool. -/
theorem targetsWithin_completeAll
    {p : SchemaPool}
    (hViews : ∀ v ∈ views, v.source < p.size)
    (h : p.TargetsWithin) :
    (completeAll views p).TargetsWithin := by
  let Within : SchemaPool → Prop := fun q =>
    q.size = p.size ∧ q.TargetsWithin
  suffices Within (completeAll views p) from this.2
  refine completeAll_keeps (P := Within) ?_ ⟨rfl, h⟩
  rintro q v hv ⟨hSize, hWithin⟩
  refine ⟨(SchemaPool.size_fill _ _ _).trans hSize,
    hWithin.fill v.slot fun source hSource => ?_⟩
  have hSame : source = v.source := by
    unfold rebuilt SchemaPool.view Schema.view at hSource
    cases hKind : v.kind <;> rw [hKind] at hSource <;>
      exact (Option.some.inj hSource).symm
  rw [hSame, hSize]
  exact hViews v hv

theorem synthetic_completeAll
    (views : List View)
    (p : SchemaPool) :
    (completeAll views p).synthetic = p.synthetic :=
  completeAll_keeps (P := fun q => q.synthetic = p.synthetic)
    (fun _ _ _ hSame => hSame) rfl

end View

end MatchCompiler

------------------------------------------------------------
-- Extractions That End
------------------------------------------------------------

namespace MatchCompiler

namespace Registry

/- The extraction of a descriptor ends, at some depth. -/
def Extracts
    (r : Registry)
    (t : TypeTable)
    (id : DescriptorId)
    (r' : Registry)
    (slot : SchemaId) : Prop :=
  ∃ depth, r.extract? t depth id = some (r', slot)

variable {r r' : Registry}
variable {t : TypeTable}
variable {id : DescriptorId}
variable {slot : SchemaId}

/- An extraction runs by moves; then views are rebuilt. -/
theorem Extracts.exists_runs
    (h : r.Extracts t id r' slot)
    (hBounded : r.Bounded) :
    ∃ x : Extraction,
      Extraction.Runs t { registry := r } x ∧
      x.registry.Finds t [] (.described id) slot ∧
      r' = { x.registry with
        pool := View.completeAll x.views x.registry.pool } := by
  rcases h with ⟨depth, hEnds⟩
  rcases Option.bind_eq_some_iff.mp hEnds with
    ⟨⟨slot', x⟩, hNested, hResult⟩
  cases hResult
  have hReady : Extraction.Ready { registry := r } t id [] :=
    ⟨nofun, ⟨hBounded, nofun⟩, nofun, nofun⟩
  rcases Extract.follows_nested t depth id [] { registry := r } slot x
      hReady hNested with ⟨hRuns, hFinds⟩
  exact ⟨x, hRuns, hFinds, rfl⟩

/- All that was in the registry is kept. -/
theorem Extracts.grows
    (h : r.Extracts t id r' slot)
    (hBounded : r.Bounded) :
    r.Grows r' := by
  rcases h.exists_runs hBounded with ⟨x, hRuns, -, rfl⟩
  rcases hRuns.grows.views with ⟨new, hNew, hSlots⟩
  have hGrows := hRuns.grows.registry
  refine ⟨?_, hGrows.cache, hGrows.parametric, hGrows.marker⟩
  refine View.grows_completeAll ?_ hGrows.pool
  rw [hNew]
  exact hSlots

/- Rebuilding views keeps to the slots of the pool. -/
theorem Bounded.completeAll
    (h : r.Bounded)
    {views : List View}
    (hViews : ∀ v ∈ views, v.source < r.pool.size) :
    Bounded { r with pool := View.completeAll views r.pool } := by
  have hSize := View.size_completeAll views r.pool
  refine ⟨fun key slot hFound => ?_, fun key slot hFound => ?_, ?_⟩
  · exact Nat.lt_of_lt_of_eq (h.cache key slot hFound) hSize.symm
  · rw [View.synthetic_completeAll] at hFound
    exact Nat.lt_of_lt_of_eq (h.synthetic key slot hFound) hSize.symm
  · exact View.targetsWithin_completeAll hViews h.targets

theorem Extracts.bounded
    (h : r.Extracts t id r' slot)
    (hBounded : r.Bounded) :
    r'.Bounded := by
  rcases h.exists_runs hBounded with ⟨x, hRuns, -, rfl⟩
  have hX : x.Bounded :=
    hRuns.invariant (P := Extraction.Bounded) Move.bounded
      ⟨hBounded, nofun⟩
  exact hX.registry.completeAll hX.views

theorem grows_share
    (r : Registry)
    (key : SyntheticKey)
    (s : Schema) :
    r.Grows { r with pool := (r.pool.share key s).1 } :=
  ⟨r.pool.grows_share key s, .refl, .refl, rfl⟩

theorem bounded_fresh
    (marker : Char) :
    Bounded { marker } := by
  refine ⟨nofun, nofun, fun slot source hSource => ?_⟩
  rw [SchemaPool.get_of_le (Nat.zero_le slot)] at hSource
  cases hSource

/- What the registry finds for a descriptor by itself. -/
def Remembers
    (r : Registry)
    (id : DescriptorId)
    (slot : SchemaId) : Prop :=
  (r.parametric.lookup id).isSome = true ∧
  r.cache.lookup ⟨id, []⟩ = some slot

theorem Remembers.mono
    (h : r.Remembers id slot)
    (hGrows : r.Grows r') :
    r'.Remembers id slot := by
  rcases h with ⟨hParametric, hCache⟩
  rcases Option.isSome_iff_exists.mp hParametric with ⟨b, hb⟩
  refine ⟨?_, hGrows.cache _ _ hCache⟩
  rw [hGrows.parametric _ _ hb]
  rfl

/- A descriptor that is found by itself is remembered. -/
theorem Finds.remembers
    (h : r.Finds t [] (.described id) slot)
    (hPresent : (t.get? id).isSome = true) :
    r.Remembers id slot := by
  cases h with
  | known hGet hParametric hCache =>
      rw [ite_self] at hCache
      exact ⟨hParametric ▸ rfl, hCache⟩
  | dangling hGet =>
      rw [hGet] at hPresent
      cases hPresent

/- An extracted descriptor is remembered. -/
theorem Extracts.remembers
    (h : r.Extracts t id r' slot)
    (hBounded : r.Bounded)
    (hPresent : (t.get? id).isSome = true) :
    r'.Remembers id slot := by
  rcases h.exists_runs hBounded with ⟨x, -, hFinds, rfl⟩
  exact hFinds.remembers hPresent

/- What is remembered is found at once. -/
theorem extract?_of_remembered
    (h : r.Remembers id slot)
    (hPresent : (t.get? id).isSome = true)
    (depth : Nat) :
    r.extract? t (depth + 1) id =
      some ({ r with hits := r.hits + 1 }, slot) := by
  rcases Option.isSome_iff_exists.mp hPresent with ⟨d, hGet⟩
  rcases h with ⟨hParametric, hCache⟩
  rcases Option.isSome_iff_exists.mp hParametric with ⟨b, hKnown⟩
  have hNested :
      Extract.nested t (depth + 1) id [] { registry := r } =
        some (slot, { registry := { r with hits := r.hits + 1 } }) := by
    simp only [Extract.nested, Extract.step, hGet]
    refine Extract.bind_eq_some_iff.mpr ⟨b, { registry := r }, ?_, ?_⟩
    · refine Extract.bind_eq_some_iff.mpr
        ⟨{ registry := r }, { registry := r }, rfl, ?_⟩
      simp only [hKnown]
      rfl
    · refine Extract.bind_eq_some_iff.mpr
        ⟨{ registry := r }, { registry := r }, rfl, ?_⟩
      simp only [ite_self, hCache]
      rfl
  unfold extract?
  rw [hNested]
  rfl

theorem schemaWithin_of_remembered
    (h : r.Remembers id slot)
    (hPresent : (t.get? id).isSome = true)
    (depth : Nat) :
    r.schemaWithin t depth id =
      ({ r with hits := r.hits + 1 }, slot) := by
  unfold schemaWithin
  rw [extract?_of_remembered h hPresent depth]

end Registry

end MatchCompiler
