import MatchCompiler.Proofs.Comparability
import MatchCompiler.Proofs.Names
import MatchCompiler.Proofs.SharedSequences

/-
  This file shows when the branches of an alternation may be
  put in any order.

  Each branch is compared with the first one only, and the
  comparison of types is not symmetric. If the types at which
  the branches bind a name are apart, then it is symmetric
  and transitive, so that all pairs of branches go together
  as soon as all go together with the first. What a branch is
  checked to does not depend on those before it if the types
  that it names have been extracted.

  Key definitions include:
    * `Binding.GoTogether`
    * `Pattern.afterBranch`
    * `Registry.stateAfter`
    * `Registry.BindsAt`
    * `Registry.BindsApart`

  Key theorems include:
    * `Registry.problems_alt_iff`
    * `Registry.isOk_checkArm_alt_perm`
-/

------------------------------------------------------------
-- Names That Go Together
------------------------------------------------------------

namespace MatchCompiler

/-
  The same names are bound, each at types that agree.
-/
structure Binding.GoTogether
    (p : SchemaPool)
    (first bound : List Binding) : Prop where
  names : ∀ x, x ∈ first.map name ↔ x ∈ bound.map name
  types :
    ∀ f ∈ first, ∀ b ∈ bound, f.name = b.name →
      (p.compat b.schema f.schema).Agrees

/- No name is outside if the names are among the others. -/
theorem isEmpty_namesOutside_iff
    {bs others : List Binding} :
    (Check.namesOutside bs others).isEmpty = true ↔
      bs.map Binding.name ⊆ others.map Binding.name := by
  refine ⟨subset_of_namesOutside, fun hSubset => ?_⟩
  rw [List.isEmpty_iff, Check.namesOutside, List.filter_eq_nil_iff]
  intro x hx hOutside
  rcases List.mem_map.mp (hSubset hx) with ⟨b, hb, rfl⟩
  rw [Bool.not_eq_true', List.any_eq_false] at hOutside
  exact hOutside b hb (beq_self_eq_true b.name)

/- No types are in conflict if all that belong to a name agree. -/
theorem typeConflict?_eq_none_iff
    {p : SchemaPool}
    {first bound : List Binding}
    (hNodup : (first.map Binding.name).Nodup) :
    Check.typeConflict? p first bound = none ↔
      ∀ f ∈ first, ∀ b ∈ bound, f.name = b.name →
        (p.compat b.schema f.schema).Agrees := by
  unfold Check.typeConflict?
  rw [List.findSome?_eq_none_iff]
  constructor
  · intro hNone f hf b hb hName
    have hOnce :
        first.Pairwise fun f g => f.name = g.name → ¬ True :=
      (List.pairwise_map.mp hNodup).imp fun hNe hEq _ => hNe hEq
    have hFind :=
      find?_eq_of_pairwise (D := fun _ => True) hOnce hf trivial
    have hConflict := hNone b hb
    rw [← hName, hFind] at hConflict
    simp only [Option.bind_eq_bind, Option.bind_some] at hConflict
    unfold Compat.Agrees
    split at hConflict
    · rename_i hCompat
      exact .inl hCompat
    · rename_i hCompat
      exact .inr hCompat
    · cases hConflict
  · intro hAgrees b hb
    cases hFind : first.find? (fun f => f.name == b.name) with
    | none => rfl
    | some f =>
        have hf := List.mem_of_find?_eq_some hFind
        have hName : f.name = b.name := by
          simpa using List.find?_some hFind
        simp only [Option.bind_eq_bind, Option.bind_some]
        rcases hAgrees f hf b hb hName with hCompat | hCompat
        · rw [hCompat]
        · rw [hCompat]

/- Comparing a branch with the first one reports one problem at most. -/
theorem Check.run_compareAlternative
    (first bound : List Binding)
    (span : Span)
    (s : CheckState) :
    (compareAlternative first bound span).run s =
      (if (namesOutside first bound).isEmpty &&
          (namesOutside bound first).isEmpty then
        (typeConflict? s.registry.pool first bound).elim (pure ()) report
      else
        report (.alternativeNames span (namesOutside first bound)
          (namesOutside bound first))).run s := by
  unfold compareAlternative
  dsimp only
  split
  · have hPool : pool.run s = (s.registry.pool, s) := rfl
    rw [run_step, hPool]
    dsimp only
    cases typeConflict? s.registry.pool first bound
    all_goals rfl
  · rfl

/-
  Comparing a branch with the first one reports nothing if
  their names go together.
-/
theorem problems_compareAlternative_iff
    {first bound : List Binding}
    (hNodup : (first.map Binding.name).Nodup)
    (span : Span)
    (s : CheckState) :
    ((Check.compareAlternative first bound span).run s).2.problems = [] ↔
      s.problems = [] ∧ Binding.GoTogether s.registry.pool first bound := by
  have hReport :
      ∀ problem, ¬ s.problems ++ [problem] = ([] : List Problem) := by
    simp
  rw [Check.run_compareAlternative]
  by_cases hNames :
      ((Check.namesOutside first bound).isEmpty &&
        (Check.namesOutside bound first).isEmpty) = true
  · rw [if_pos hNames]
    rw [Bool.and_eq_true, isEmpty_namesOutside_iff,
      isEmpty_namesOutside_iff] at hNames
    have hTypes :
        Check.typeConflict? s.registry.pool first bound = none ↔ _ :=
      typeConflict?_eq_none_iff hNodup
    cases hConflict : Check.typeConflict? s.registry.pool first bound with
    | none =>
        rw [hConflict] at hTypes
        refine and_iff_left ⟨fun x => ?_, hTypes.mp rfl⟩ |>.symm
        exact ⟨fun hx => hNames.1 hx, fun hx => hNames.2 hx⟩
    | some problem =>
        rw [hConflict] at hTypes
        apply iff_of_false (hReport problem)
        intro hTogether
        exact Option.some_ne_none problem (hTypes.mpr hTogether.2.types)
  · rw [if_neg hNames]
    apply iff_of_false (hReport _)
    intro hTogether
    apply hNames
    rw [Bool.and_eq_true, isEmpty_namesOutside_iff,
      isEmpty_namesOutside_iff]
    exact ⟨fun x hx => (hTogether.2.names x).mp hx,
      fun x hx => (hTogether.2.names x).mpr hx⟩

namespace Binding.GoTogether

variable {p : SchemaPool}
variable {S : String → SchemaId → Prop}
variable {first second third : List Binding}

/- Branches at types apart go together the other way round. -/
theorem symm
    (h : GoTogether p first second)
    (hApart : ∀ x, p.Apart (S x))
    (hFirst : ∀ b ∈ first, S b.name b.schema)
    (hSecond : ∀ b ∈ second, S b.name b.schema) :
    GoTogether p second first := by
  refine ⟨fun x => (h.names x).symm, fun f hf b hb hName => ?_⟩
  apply (hApart b.name).agrees_symm SchemaPool.compatDepth
  · exact hName ▸ hSecond f hf
  · exact hFirst b hb
  · exact h.types b hb f hf hName.symm

/- Two branches that go together with a third one do so. -/
theorem trans
    (h : GoTogether p first second)
    (h' : GoTogether p second third)
    (hApart : ∀ x, p.Apart (S x))
    (hFirst : ∀ b ∈ first, S b.name b.schema)
    (hSecond : ∀ b ∈ second, S b.name b.schema)
    (hThird : ∀ b ∈ third, S b.name b.schema) :
    GoTogether p first third := by
  refine ⟨fun x => (h.names x).trans (h'.names x),
    fun f hf b hb hName => ?_⟩
  rcases List.mem_map.mp ((h.names f.name).mp (List.mem_map_of_mem hf))
    with ⟨c, hc, hMiddle⟩
  apply (hApart f.name).agrees_trans SchemaPool.compatDepth
    (b := c.schema)
  · exact hName ▸ hThird b hb
  · exact hMiddle ▸ hSecond c hc
  · exact hFirst f hf
  · exact h'.types c hc b hb (hMiddle.trans hName)
  · exact h.types f hf c hc hMiddle.symm

end Binding.GoTogether

/- Comparing branches only reports. -/
theorem registry_compareAlternative
    (first bound : List Binding)
    (span : Span)
    (s : CheckState) :
    ((Check.compareAlternative first bound span).run s).2.registry =
      s.registry := by
  rw [Check.run_compareAlternative]
  split
  · cases Check.typeConflict? s.registry.pool first bound
    all_goals rfl
  · rfl

end MatchCompiler

------------------------------------------------------------
-- Branches By Themselves
------------------------------------------------------------

namespace MatchCompiler

/- Checking branches takes no problem back. -/
theorem Pattern.problems_of_checkBranches
    {ctx : CheckContext}
    (id : SchemaId)
    (before : List Binding)
    (first : Option (List Binding))
    (ps : List Pattern)
    {s : CheckState}
    (h :
      ((checkBranches ctx id before first ps).run s).2.problems = []) :
    s.problems = [] := by
  have hParts : ∀ p ∈ ps, p.ChecksTo ctx (AcceptedOutcome ctx) :=
    fun p _ => p.sound_check
  rcases sound_checkBranches hParts (fun _ _ _ _ _ h => h.2) id before
    first s with ⟨new, hNew, -⟩
  rw [h] at hNew
  exact (List.append_eq_nil_iff.mp hNew.symm).1

/-
  The state after a branch has been checked and compared with
  the first.
-/
def Pattern.afterBranch
    (p : Pattern)
    (ctx : CheckContext)
    (id : SchemaId)
    (reference : List Binding)
    (s : CheckState) : CheckState :=
  let s := ((p.check ctx id).run { s with bindings := [] }).2
  ((Check.compareAlternative reference s.bindings p.span).run s).2

/- The other branches are checked from there. -/
theorem Pattern.run_checkBranches_cons
    {ctx : CheckContext}
    (id : SchemaId)
    (reference : List Binding)
    (p : Pattern)
    (ps : List Pattern)
    (s : CheckState) :
    ((checkBranches ctx id [] (some reference) (p :: ps)).run s).2 =
      ((checkBranches ctx id [] (some reference) ps).run
        (p.afterBranch ctx id reference s)).2 :=
  rfl

/- Comparing a branch with the first leaves the registry alone. -/
theorem Pattern.registry_afterBranch
    {ctx : CheckContext}
    (id : SchemaId)
    (reference : List Binding)
    (p : Pattern)
    (s : CheckState) :
    (p.afterBranch ctx id reference s).registry =
      ((p.check ctx id).run { s with bindings := [] }).2.registry :=
  registry_compareAlternative _ _ _ _

namespace Registry

/- The state that checking a pattern by itself leads to. -/
def stateAfter
    (r : Registry)
    (ctx : CheckContext)
    (id : SchemaId)
    (p : Pattern) : CheckState :=
  ((p.check ctx id).run { registry := r }).2

variable {ctx : CheckContext}
variable {id : SchemaId}
variable {r r' u : Registry}
variable {p : Pattern}

theorem isOk_checkArm_iff :
    (r.checkArm ctx id p).2.isOk = true ↔
      (r.stateAfter ctx id p).problems = [] := by
  unfold checkArm stateAfter
  rw [← List.isEmpty_iff]
  rcases (p.check ctx id).run { registry := r } with ⟨q, s⟩
  dsimp only
  split
  · rename_i hEmpty
    exact iff_of_true rfl hEmpty
  · rename_i hSome
    exact iff_of_false nofun hSome

/- A pattern that is accepted binds no name twice. -/
theorem nodup_names_stateAfter
    (h : (r.stateAfter ctx id p).problems = []) :
    ((r.stateAfter ctx id p).bindings.map Binding.name).Nodup := by
  have hSound : p.SoundCheck ctx := p.sound_check
  have hAccepts := ((hSound id).of_run rfl h).1
  exact (hAccepts.adds {} false .scrutinee).nodup List.nodup_nil

section

variable (hBuilt : r.BuiltWith ctx.table)
variable (hAcyclic : r.pool.Acyclic)
variable (hAll : r.AllSlices u)
variable (hId : id < r.pool.size)

include hBuilt hAcyclic hAll hId

/-
  Whatever sequences have been shared before, a branch whose
  types are known ends like in the registry that has shared
  them all.
-/
theorem exists_paired_stateAfter
    {s : CheckState}
    (hSliced : r.Sliced s.registry)
    (hBindings : s.bindings = [])
    (hProblems : s.problems = [])
    (hKnown : ∀ target, p.NamesType target → r.Knows ctx.table target) :
    (Twins.slices r.pool s.registry.pool u.pool).Grows
      (.slices r.pool ((p.check ctx id).run s).2.registry.pool u.pool) ∧
    CheckState.Paired (slicing hBuilt hAcyclic hAll)
      (.slices r.pool ((p.check ctx id).run s).2.registry.pool u.pool)
      ((p.check ctx id).run s).2 (u.stateAfter ctx id p) := by
  have hStart :
      CheckState.Paired (slicing hBuilt hAcyclic hAll)
        (.slices r.pool s.registry.pool u.pool) s { registry := u } := by
    refine ⟨⟨hSliced, hAll.toSliced, rfl, rfl⟩, ?_, ?_⟩
    · rw [hBindings]
      exact .nil
    · rw [hProblems]
  have hTwins :
      (Twins.slices r.pool s.registry.pool u.pool).Rel id id :=
    .old hId
  rcases p.checksAlike (P := slicing hBuilt hAcyclic hAll) hKnown _ id id
      hTwins s _ hStart with ⟨T, hGrows, hPaired, -⟩
  have hEq := hPaired.registries.2.2.2
  rw [hEq] at hGrows hPaired
  exact ⟨hGrows, hPaired⟩

/-
  A branch goes on with nothing reported if it is accepted by
  itself and its names go together with those of the first.
-/
theorem problems_branch_iff
    {s : CheckState}
    (hSliced : r.Sliced s.registry)
    (hProblems : s.problems = [])
    (hKnown : ∀ target, p.NamesType target → r.Knows ctx.table target)
    {reference first : List Binding}
    (hFirst :
      List.Forall₂
        (Binding.Paired (.slices r.pool s.registry.pool u.pool))
        reference first)
    (hNodup : (first.map Binding.name).Nodup) :
    (p.afterBranch ctx id reference s).problems = [] ↔
      (u.stateAfter ctx id p).problems = [] ∧
      Binding.GoTogether u.pool first
        (u.stateAfter ctx id p).bindings := by
  have hStart : r.Sliced { s with bindings := [] }.registry := hSliced
  rcases exists_paired_stateAfter hBuilt hAcyclic hAll hId hStart rfl
    hProblems hKnown with ⟨hGrows, hPaired⟩
  have hReference := Binding.forall₂_mono hFirst hGrows
  rcases Alike.compareAlternative hReference hPaired.bindings p.span _ _
    hPaired with ⟨T, -, hCompared, -⟩
  have hPool : (u.stateAfter ctx id p).registry.pool = u.pool :=
    hPaired.registries.2.2.1
  rw [← hPool, ← problems_compareAlternative_iff hNodup p.span,
    ← List.length_eq_zero_iff, ← List.length_eq_zero_iff,
    hCompared.problems]
  exact Iff.rfl

/-
  So do all branches, each of which is compared with the
  first.
-/
theorem problems_checkBranches_iff
    {ps : List Pattern}
    (hKnown :
      ∀ p ∈ ps, ∀ target, p.NamesType target → r.Knows ctx.table target)
    {s : CheckState}
    (hSliced : r.Sliced s.registry)
    (hProblems : s.problems = [])
    {reference first : List Binding}
    (hFirst :
      List.Forall₂
        (Binding.Paired (.slices r.pool s.registry.pool u.pool))
        reference first)
    (hNodup : (first.map Binding.name).Nodup) :
    ((Pattern.checkBranches ctx id [] (some reference) ps).run
        s).2.problems = [] ↔
      ∀ p ∈ ps, (u.stateAfter ctx id p).problems = [] ∧
        Binding.GoTogether u.pool first
          (u.stateAfter ctx id p).bindings := by
  induction ps generalizing s with
  | nil => exact iff_of_true hProblems (List.forall_mem_nil _)
  | cons p ps ih =>
      rcases List.forall_mem_cons.mp hKnown with ⟨hHead, hTail⟩
      have hStart : r.Sliced { s with bindings := [] }.registry := hSliced
      rcases exists_paired_stateAfter hBuilt hAcyclic hAll hId hStart
        rfl hProblems hHead with ⟨hGrows, hPaired⟩
      rw [Pattern.run_checkBranches_cons, List.forall_mem_cons,
        ← problems_branch_iff hBuilt hAcyclic hAll hId hSliced hProblems
          hHead hFirst hNodup]
      by_cases hNone : (p.afterBranch ctx id reference s).problems = []
      · rw [and_iff_right hNone]
        apply ih hTail
        · rw [Pattern.registry_afterBranch]
          exact hPaired.registries.1
        · exact hNone
        · rw [Pattern.registry_afterBranch]
          exact Binding.forall₂_mono hFirst hGrows
      · apply iff_of_false
        · exact fun h =>
            hNone (Pattern.problems_of_checkBranches id _ _ ps h)
        · exact fun h => hNone h.1

/-
  An alternation is accepted if each branch is accepted by
  itself and goes together with the first.
-/
theorem problems_alt_iff
    (span : Span)
    {ps : List Pattern}
    (hKnown :
      ∀ q ∈ p :: ps, ∀ target, q.NamesType target →
        r.Knows ctx.table target) :
    (r.stateAfter ctx id (.alt span (p :: ps))).problems = [] ↔
      (u.stateAfter ctx id p).problems = [] ∧
      ∀ q ∈ ps, (u.stateAfter ctx id q).problems = [] ∧
        Binding.GoTogether u.pool (u.stateAfter ctx id p).bindings
          (u.stateAfter ctx id q).bindings := by
  rcases List.forall_mem_cons.mp hKnown with ⟨hHead, hTail⟩
  have hStart : r.Sliced ({ registry := r } : CheckState).registry := .refl
  rcases exists_paired_stateAfter hBuilt hAcyclic hAll hId hStart rfl rfl
    hHead with ⟨-, hPaired⟩
  have hStep :
      (r.stateAfter ctx id (.alt span (p :: ps))).problems =
        ((Pattern.checkBranches ctx id []
          (some (r.stateAfter ctx id p).bindings) ps).run
            (r.stateAfter ctx id p)).2.problems :=
    rfl
  have hProblems :
      (r.stateAfter ctx id p).problems = [] ↔
        (u.stateAfter ctx id p).problems = [] := by
    rw [← List.length_eq_zero_iff, ← List.length_eq_zero_iff,
      hPaired.problems]
    rfl
  rw [hStep]
  by_cases hNone : (u.stateAfter ctx id p).problems = []
  · rw [and_iff_right hNone]
    exact problems_checkBranches_iff hBuilt hAcyclic hAll hId hTail
      hPaired.registries.1 (hProblems.mpr hNone) hPaired.bindings
      (nodup_names_stateAfter hNone)
  · apply iff_of_false
    · exact fun h => hNone
        (hProblems.mp (Pattern.problems_of_checkBranches id _ _ ps h))
    · exact fun h => hNone h.1

end

end Registry

end MatchCompiler

------------------------------------------------------------
-- Types That Branches Bind
------------------------------------------------------------

namespace MatchCompiler

namespace SchemaPool

/- Components of twins are their own twins. -/
theorem Paired.composedOf
    {T : Twins}
    {p p' : SchemaPool}
    (h : Paired T p p')
    {a a' c : SchemaId}
    (hRel : T.Rel a a')
    (hComposed : p'.ComposedOf a' c) :
    ∃ b, p.ComposedOf a b ∧ T.Rel b c := by
  induction hComposed with
  | refl => exact ⟨a, .refl, hRel⟩
  | @tail c d _ hComponent ih =>
      rcases ih with ⟨b, hPart, hTwins⟩
      have hEnds := h.unwrap b c hTwins
      unfold Component at hComponent
      rw [h.get_eq _ _ hEnds] at hComponent
      have hOwn := (h.within _ _ hEnds).component hComponent
      exact ⟨d, .tail hPart hComponent, T.own d hOwn⟩

/-
  A type derives from another in a pool that has grown by
  sequences only if it did before.
-/
theorem Corresponds.derives
    {p q q' u : SchemaPool}
    (hSliced : p.SlicedFrom u)
    (hClosed : p.Closed)
    (hSettled : p.AllSettled)
    (hAcyclic : p.Acyclic)
    {a a' b b' : SchemaId}
    (hFirst : p.Corresponds q u a a')
    (hSecond : p.Corresponds q' u b b')
    (h : u.Derives a' b') :
    p.Derives a b := by
  have hTargets := hClosed.targetsWithin
  have hUnwrap :
      ∀ {slot : SchemaId}, slot < p.size → u.unwrap slot = p.unwrap slot :=
    fun hLt =>
      hSettled.unwrap_eq_of_grows hAcyclic hSliced.grows hTargets hLt
  rcases h with ⟨c, hc, hSame⟩
  cases hFirst with
  | slice hNone _ hFound =>
      -- A sequence has no ancestors.
      rw [unwrap_eq_of_isPlain (hSliced.isPlain hNone hFound),
        (hSliced.fresh _ a' hFound hNone).2.2.2] at hc
      cases hc
  | old hLt =>
      rw [hUnwrap hLt, hSliced.grows.get_eq (hClosed.unwrap_lt hLt)] at hc
      have hAncestor := (hClosed.slots _).ancestors c hc
      refine ⟨c, hc, ?_⟩
      rw [hUnwrap hAncestor] at hSame
      cases hSecond with
      | old hLt' => rw [hSame, hUnwrap hLt']
      | slice hNone _ hFound =>
          -- A new sequence is no ancestor.
          rw [unwrap_eq_of_isPlain (hSliced.isPlain hNone hFound)] at hSame
          have hNew := (hSliced.fresh _ b' hFound hNone).2.1
          have hOld := hClosed.unwrap_lt hAncestor
          exact absurd (hSame ▸ hOld) (Nat.not_lt.mpr hNew)

end SchemaPool

namespace Registry

/-
  A pattern is accepted by itself and binds a name at a type,
  of which a slot is a component.
-/
def BindsAt
    (r : Registry)
    (ctx : CheckContext)
    (id : SchemaId)
    (p : Pattern)
    (x : String)
    (slot : SchemaId) : Prop :=
  ∃ arm, (r.checkArm ctx id p).2 = .ok arm ∧
    ∃ b ∈ arm.bindings, b.name = x ∧
      (r.checkArm ctx id p).1.pool.ComposedOf b.schema slot

/-
  Where patterns bind a name, no type or component of one
  derives from that of another.
-/
def BindsApart
    (r : Registry)
    (ctx : CheckContext)
    (id : SchemaId)
    (ps : List Pattern) : Prop :=
  ∀ p ∈ ps, ∀ q ∈ ps, ∀ x a b,
    r.BindsAt ctx id p x a → r.BindsAt ctx id q x b →
    ¬ r.pool.Derives a b

/-
  The types at which patterns that are accepted bind a name,
  with their components.
-/
def BoundTypes
    (u : Registry)
    (ctx : CheckContext)
    (id : SchemaId)
    (ps : List Pattern)
    (x : String)
    (slot : SchemaId) : Prop :=
  ∃ p ∈ ps, (u.stateAfter ctx id p).problems = [] ∧
    ∃ b ∈ (u.stateAfter ctx id p).bindings, b.name = x ∧
      u.pool.ComposedOf b.schema slot

variable {ctx : CheckContext}
variable {id : SchemaId}
variable {r u : Registry}
variable {p : Pattern}

/- An arm that is accepted binds what its check has bound. -/
theorem checkArm_eq
    (h : (r.stateAfter ctx id p).problems = []) :
    ∃ pattern, r.checkArm ctx id p =
      ((r.stateAfter ctx id p).registry,
        .ok { pattern, bindings := (r.stateAfter ctx id p).bindings }) := by
  unfold stateAfter at h ⊢
  unfold checkArm
  generalize (p.check ctx id).run { registry := r } = x at h ⊢
  rcases x with ⟨q, s⟩
  dsimp only at h ⊢
  rw [if_pos (List.isEmpty_iff.mpr h)]
  exact ⟨q, rfl⟩

section

variable (hBuilt : r.BuiltWith ctx.table)
variable (hAcyclic : r.pool.Acyclic)
variable (hAll : r.AllSlices u)
variable (hId : id < r.pool.size)

include hBuilt hAcyclic hAll hId

/- What is bound with all sequences shared is bound without. -/
theorem exists_bindsAt
    (hKnown : ∀ target, p.NamesType target → r.Knows ctx.table target)
    (hNone : (u.stateAfter ctx id p).problems = [])
    {b : Binding}
    (hb : b ∈ (u.stateAfter ctx id p).bindings)
    {slot : SchemaId}
    (hComposed : u.pool.ComposedOf b.schema slot) :
    ∃ a, r.BindsAt ctx id p b.name a ∧
      r.pool.Corresponds (r.checkArm ctx id p).1.pool u.pool a slot := by
  have hStart : r.Sliced ({ registry := r } : CheckState).registry := .refl
  rcases exists_paired_stateAfter hBuilt hAcyclic hAll hId hStart rfl rfl
    hKnown with ⟨-, hPaired⟩
  have hProblems : (r.stateAfter ctx id p).problems = [] := by
    rw [← List.length_eq_zero_iff]
    exact hPaired.problems.symm.trans (List.length_eq_zero_iff.mpr hNone)
  rcases checkArm_eq hProblems with ⟨pattern, hArm⟩
  rcases exists_counterpart hPaired.bindings hb with ⟨c, hc, hTwins⟩
  have hPools := (slicing hBuilt hAcyclic hAll).pools hPaired.registries
  have hPool : (u.stateAfter ctx id p).registry.pool = u.pool :=
    hPaired.registries.2.2.1
  rw [hPool] at hPools
  rcases hPools.composedOf hTwins.schema hComposed with
    ⟨a, hPart, hCorresponds⟩
  rw [hArm]
  refine ⟨a, ⟨_, congrArg Prod.snd hArm, c, hc, hTwins.name.symm, ?_⟩,
    hCorresponds⟩
  rw [hArm]
  exact hPart

/- Types bound apart are apart where all sequences are shared. -/
theorem BindsApart.apart
    {ps : List Pattern}
    (h : r.BindsApart ctx id ps)
    (hKnown :
      ∀ p ∈ ps, ∀ target, p.NamesType target → r.Knows ctx.table target)
    (x : String) :
    u.pool.Apart (u.BoundTypes ctx id ps x) := by
  refine ⟨?_, ?_⟩
  · rintro a b ⟨p, hp, hNone, c, hc, hName, hComposed⟩ hComponent
    exact ⟨p, hp, hNone, c, hc, hName, hComposed.tail hComponent⟩
  · rintro a b ⟨p, hp, hNone, c, hc, rfl, hFirst⟩
      ⟨q, hq, hNone', d, hd, hName, hSecond⟩ hDerives
    rcases exists_bindsAt hBuilt hAcyclic hAll hId (hKnown p hp) hNone hc
      hFirst with ⟨a', hBinds, hCorresponds⟩
    rcases exists_bindsAt hBuilt hAcyclic hAll hId (hKnown q hq) hNone' hd
      hSecond with ⟨b', hBinds', hCorresponds'⟩
    rw [hName] at hBinds'
    apply h p hp q hq c.name a' b' hBinds hBinds'
    exact SchemaPool.Corresponds.derives hAll.pool
      hBuilt.settled.closed.pool (hBuilt.allSettled hAcyclic) hAcyclic
      hCorresponds hCorresponds' hDerives

end

end Registry

end MatchCompiler

------------------------------------------------------------
-- Branches In Any Order
------------------------------------------------------------

namespace MatchCompiler

/-
  If the others of a list are related to the first entry, then
  all pairs are, as long as the relation goes both ways and
  in a row.
-/
theorem pairwise_cons_iff_first
    {α : Type}
    {R : α → α → Prop}
    {x : α}
    {xs : List α}
    (hSymm : ∀ a b, R a b → R b a)
    (hTrans : ∀ a b c, R a b → R b c → R a c) :
    (∀ y ∈ xs, R x y) ↔ (x :: xs).Pairwise R := by
  rw [List.pairwise_cons]
  refine ⟨fun hFirst => ⟨hFirst, ?_⟩, fun hPairs => hPairs.1⟩
  apply List.pairwise_of_forall_mem_list
  intro a ha b hb
  exact hTrans a x b (hSymm x a (hFirst a ha)) (hFirst b hb)

namespace Registry

variable {ctx : CheckContext}
variable {id : SchemaId}
variable {r u : Registry}

/- Two of some branches are accepted and go together. -/
structure Joins
    (u : Registry)
    (ctx : CheckContext)
    (id : SchemaId)
    (ps : List Pattern)
    (p q : Pattern) : Prop where
  mem : p ∈ ps
  mem' : q ∈ ps
  accepted : (u.stateAfter ctx id p).problems = []
  accepted' : (u.stateAfter ctx id q).problems = []
  together :
    Binding.GoTogether u.pool (u.stateAfter ctx id p).bindings
      (u.stateAfter ctx id q).bindings

section

variable {ps : List Pattern}
variable (hApart : ∀ x, u.pool.Apart (u.BoundTypes ctx id ps x))

/- The types of a branch are among those that are bound. -/
theorem boundTypes_of_mem
    {p : Pattern}
    (hMem : p ∈ ps)
    (hAccepted : (u.stateAfter ctx id p).problems = []) :
    ∀ b ∈ (u.stateAfter ctx id p).bindings,
      u.BoundTypes ctx id ps b.name b.schema :=
  fun b hb => ⟨p, hMem, hAccepted, b, hb, rfl, .refl⟩

include hApart

theorem Joins.symm
    {p q : Pattern}
    (h : Joins u ctx id ps p q) :
    Joins u ctx id ps q p where
  mem := h.mem'
  mem' := h.mem
  accepted := h.accepted'
  accepted' := h.accepted
  together :=
    h.together.symm hApart (boundTypes_of_mem h.mem h.accepted)
      (boundTypes_of_mem h.mem' h.accepted')

theorem Joins.trans
    {p q s : Pattern}
    (h : Joins u ctx id ps p q)
    (h' : Joins u ctx id ps q s) :
    Joins u ctx id ps p s where
  mem := h.mem
  mem' := h'.mem'
  accepted := h.accepted
  accepted' := h'.accepted'
  together :=
    h.together.trans h'.together hApart
      (boundTypes_of_mem h.mem h.accepted)
      (boundTypes_of_mem h.mem' h.accepted')
      (boundTypes_of_mem h'.mem' h'.accepted')

end

/-
  Branches that bind apart are accepted together if each is
  accepted by itself and all of them go together.
-/
theorem problems_alt_iff_pairwise
    (hBuilt : r.BuiltWith ctx.table)
    (hAcyclic : r.pool.Acyclic)
    (hAll : r.AllSlices u)
    (hId : id < r.pool.size)
    (span : Span)
    {ps bs : List Pattern}
    (hSubset : bs ⊆ ps)
    (hKnown :
      ∀ p ∈ ps, ∀ target, p.NamesType target → r.Knows ctx.table target)
    (hApart : ∀ x, u.pool.Apart (u.BoundTypes ctx id ps x)) :
    (r.stateAfter ctx id (.alt span bs)).problems = [] ↔
      (∀ p ∈ bs, (u.stateAfter ctx id p).problems = []) ∧
      bs.Pairwise (Joins u ctx id ps) := by
  cases bs with
  | nil => exact iff_of_true rfl ⟨List.forall_mem_nil _, .nil⟩
  | cons p bs =>
      rcases List.cons_subset.mp hSubset with ⟨hMem, hRest⟩
      have hBranches :
          ∀ q ∈ p :: bs, ∀ target, q.NamesType target →
            r.Knows ctx.table target :=
        fun q hq => hKnown q (hSubset hq)
      have hPairs :
          (∀ q ∈ bs, Joins u ctx id ps p q) ↔
            (p :: bs).Pairwise (Joins u ctx id ps) :=
        pairwise_cons_iff_first (fun _ _ => Joins.symm hApart)
          (fun _ _ _ => Joins.trans hApart)
      rw [problems_alt_iff hBuilt hAcyclic hAll hId span hBranches,
        ← hPairs, List.forall_mem_cons]
      constructor
      · rintro ⟨hFirst, hOthers⟩
        refine ⟨⟨hFirst, fun q hq => (hOthers q hq).1⟩, fun q hq => ?_⟩
        exact ⟨hMem, hRest hq, hFirst, (hOthers q hq).1,
          (hOthers q hq).2⟩
      · rintro ⟨⟨hFirst, hOthers⟩, hJoins⟩
        exact ⟨hFirst, fun q hq => ⟨hOthers q hq, (hJoins q hq).together⟩⟩

/-
  Whether an alternation is accepted does not depend on the
  order of its branches, if the types that these name have
  been extracted before and no type at which one of them
  binds a name derives from one at which another does.
-/
theorem isOk_checkArm_alt_perm
    (hBuilt : r.BuiltWith ctx.table)
    (hAcyclic : r.pool.Acyclic)
    (hId : id < r.pool.size)
    {ps qs : List Pattern}
    (hKnown :
      ∀ p ∈ ps, ∀ target, p.NamesType target → r.Knows ctx.table target)
    (hApart : r.BindsApart ctx id ps)
    (hPerm : ps.Perm qs)
    (span span' : Span) :
    (r.checkArm ctx id (.alt span ps)).2.isOk = true ↔
      (r.checkArm ctx id (.alt span' qs)).2.isOk = true := by
  rcases r.exists_allSlices with ⟨u, hAll⟩
  have hTypes :=
    hApart.apart hBuilt hAcyclic hAll hId hKnown
  rw [isOk_checkArm_iff, isOk_checkArm_iff,
    problems_alt_iff_pairwise hBuilt hAcyclic hAll hId span
      (List.Subset.refl ps) hKnown hTypes,
    problems_alt_iff_pairwise hBuilt hAcyclic hAll hId span'
      hPerm.symm.subset hKnown hTypes]
  apply and_congr
  · exact forall_congr' fun p => imp_congr_left hPerm.mem_iff
  · exact hPerm.pairwise_iff fun h => Joins.symm hTypes h

/- A base, what derives from it, and pairs of the two. -/
def derivedPair : TypeTable :=
  { descriptors :=
      #[{ name := "Base", shape := .object { inheritable := true } },
        { name := "Derived",
          shape := .object { base := some (.described 0) } },
        { name := "Pair",
          shape :=
            .tuple [⟨none, .described 1⟩, ⟨none, .described 0⟩] }] }

/- The registry after the pair has been extracted. -/
def derivedPairRegistry : Registry :=
  ((extract? {} derivedPair 4 2).map Prod.fst).getD {}

theorem derivedPairRegistry_built :
    derivedPairRegistry.BuiltWith derivedPair ∧
    derivedPairRegistry.pool.Acyclic := by
  have hExtracts : Extracts {} derivedPair 2 derivedPairRegistry 0 :=
    extracts_of_map_snd (by decide +kernel)
  refine ⟨.extract (.fresh 'k') hExtracts, ?_⟩
  exact SchemaPool.acyclic_of_rank (fun slot => 3 - slot)
    (by decide +kernel)

/- Branches that bind a name left and right, by their patterns. -/
def sideBranches (left right : Pattern) : List Pattern :=
  let any := Pattern.wildcard {}
  [.seq {} [.item left none, .item any none],
   .seq {} [.item any none, .item right none]]

/- Such branches name the types that the sides name. -/
theorem namesType_of_mem_sideBranches
    {left right : Pattern}
    {p : Pattern}
    (hp : p ∈ sideBranches left right)
    {target : DescriptorId}
    (h : p.NamesType target) :
    left.NamesType target ∨ right.NamesType target := by
  have hAny : ¬ (Pattern.wildcard {}).NamesType target := by
    intro hAny
    cases hAny with
    | part hPart _ => cases hPart
  rcases List.mem_pair.mp hp with rfl | rfl
  all_goals
    cases h with
    | part hPart hInner =>
        cases hPart with
        | element _ hMem hPattern =>
            rcases List.mem_pair.mp hMem with rfl | rfl
            all_goals
              cases hPattern
              simp [hInner, hAny] at *

/-
  A name for the derived object on either side: as the whole
  pattern, or narrowed to. The branches can be swapped.
-/
theorem narrowed_sides_swap :
    let r := derivedPairRegistry
    let ctx : CheckContext := { table := derivedPair, marker := 'k' }
    let bs := sideBranches (.bind {} "x") (.narrow {} "x" 1)
    r.BindsApart ctx 0 bs ∧
    (r.checkArm ctx 0 (.alt {} bs)).2.isOk = true ∧
    (r.checkArm ctx 0 (.alt {} bs.reverse)).2.isOk = true := by
  intro r ctx bs
  rcases derivedPairRegistry_built with ⟨hBuilt, hAcyclic⟩
  have hKnown :
      ∀ p ∈ bs, ∀ target, p.NamesType target → r.Knows ctx.table target := by
    intro p hp target hNames
    rcases namesType_of_mem_sideBranches hp hNames with hLeft | hRight
    · cases hLeft with
      | part hPart _ => cases hPart
    · cases hRight with
      | narrow => exact ⟨rfl, 1, by decide +kernel, by decide +kernel⟩
      | part hPart _ => cases hPart
  have hBound :
      ∀ p ∈ bs, ∀ arm ∈ (r.checkArm ctx 0 p).2.toOption,
        ∀ b ∈ arm.bindings, b.schema = 1 := by
    decide +kernel
  have hSimple :
      ∀ p ∈ bs, ∀ slot, ¬ (r.checkArm ctx 0 p).1.pool.Component 1 slot := by
    have hParts :
        ∀ p ∈ bs,
          let pool := (r.checkArm ctx 0 p).1.pool
          let s := pool.get (pool.unwrap 1)
          s.element = none ∧ s.key = none ∧ s.value = none ∧
          s.kind = .record := by
      decide +kernel
    intro p hp slot hComponent
    rcases hParts p hp with ⟨hElement, hKey, hValue, hKind⟩
    cases hComponent with
    | element h => cases h.symm.trans hElement
    | key h => cases h.symm.trans hKey
    | value h => cases h.symm.trans hValue
    | field h _ => cases h.symm.trans hKind
  have hSlot : ∀ p ∈ bs, ∀ x slot, r.BindsAt ctx 0 p x slot → slot = 1 := by
    rintro p hp x slot ⟨arm, hArm, b, hb, -, hComposed⟩
    have hOne := hBound p hp arm (by rw [hArm]; rfl) b hb
    rw [hOne] at hComposed
    rcases Relation.ReflTransGen.cases_head hComposed with
      rfl | ⟨c, hComponent, -⟩
    · rfl
    · exact absurd hComponent (hSimple p hp c)
  have hApart : r.BindsApart ctx 0 bs := by
    intro p hp q hq x a b hFirst hSecond
    rw [hSlot p hp x a hFirst, hSlot q hq x b hSecond]
    unfold SchemaPool.Derives
    decide +kernel
  have hAccepted : (r.checkArm ctx 0 (.alt {} bs)).2.isOk = true := by
    decide +kernel
  refine ⟨hApart, hAccepted, ?_⟩
  exact (isOk_checkArm_alt_perm hBuilt hAcyclic (by decide +kernel) hKnown
    hApart bs.reverse_perm.symm {} {}).mp hAccepted

/-
  A name for the derived object on one side and for the base
  on the other. It depends on which branch comes first
  whether they are accepted.
-/
theorem related_sides_ordered :
    let r := derivedPairRegistry
    let ctx : CheckContext := { table := derivedPair, marker := 'k' }
    let bs := sideBranches (.bind {} "x") (.bind {} "x")
    r.BuiltWith derivedPair ∧ r.pool.Acyclic ∧
    bs.Perm bs.reverse ∧
    (r.checkArm ctx 0 (.alt {} bs)).2.isOk = true ∧
    (r.checkArm ctx 0 (.alt {} bs.reverse)).2.isOk = false := by
  intro r ctx bs
  rcases derivedPairRegistry_built with ⟨hBuilt, hAcyclic⟩
  exact ⟨hBuilt, hAcyclic, bs.reverse_perm.symm, by decide +kernel,
    by decide +kernel⟩

end Registry

end MatchCompiler
