import MatchCompiler.Proofs.Grouping
import MatchCompiler.Proofs.Names

/-
  This file follows the leaves of tests through lowering and
  simplification.

  Simplifying drops leaves and groups comparisons. A property
  of leaves that is kept by grouping is one of all leaves of
  the simplified test; and all leaves of a pattern have it if
  the tests that read what goes on from its access do.

  Key definitions include:
    * `Test.Leaves`
    * `Test.Grouped`
    * `Plan.Looks`

  Key theorems include:
    * `Test.Leaves.simplify`
    * `Plan.Looks.leaves_lower`
    * `Checked.looks_plan`
-/

------------------------------------------------------------
-- Simplified Tests
------------------------------------------------------------

namespace MatchCompiler

namespace Test

/- All leaves of a test have a property. -/
inductive Leaves (L : Test → Prop) : Test → Prop
| and
    {ts : List Test}
    (h : ∀ t ∈ ts, Leaves L t) :
    Leaves L (.and ts)
| or
    {ts : List Test}
    (h : ∀ t ∈ ts, Leaves L t) :
    Leaves L (.or ts)
| alt
    (i : Nat)
    {ts : List Test}
    (h : ∀ t ∈ ts, Leaves L t) :
    Leaves L (.alt i ts)
| guard
    (id : GuardId) :
    Leaves L (.guard id)
| leaf
    {t : Test}
    (hLeaf : t.IsLeaf)
    (h : L t) :
    Leaves L t

/-
  A property of leaves that is kept when comparisons of one
  part become one test, and that the constant tests have.
-/
structure Grouped (L : Test → Prop) : Prop where
  always : L .always
  never : L .never
  oneOf : ∀ {a k}, L (.equals a k) → ∀ ks, L (.oneOf a ks)
  oneOfTexts :
    ∀ {a k}, L (.equals a k) → ∀ texts, L (.oneOfTexts a texts)
  tagIn : ∀ {a label}, L (.tagIs a label) → ∀ ls, L (.tagIn a ls)

variable {L : Test → Prop}
variable {ts us : List Test}

theorem Leaves.of_and
    (h : Leaves L (.and ts)) :
    ∀ t ∈ ts, Leaves L t := by
  cases h with
  | and h => exact h
  | leaf hLeaf => exact hLeaf.elim

theorem Leaves.of_or
    (h : Leaves L (.or ts)) :
    ∀ t ∈ ts, Leaves L t := by
  cases h with
  | or h => exact h
  | leaf hLeaf => exact hLeaf.elim

theorem Leaves.of_isLeaf
    {t : Test}
    (h : t.Leaves L)
    (hLeaf : t.IsLeaf) :
    L t := by
  cases h with
  | leaf _ h => exact h
  | _ => exact hLeaf.elim

theorem leaves_conjuncts
    (h : ∀ t ∈ ts, Leaves L t)
    (hEq : conjuncts ts = some us) :
    ∀ u ∈ us, Leaves L u := by
  fun_induction conjuncts ts generalizing us with
  | case1 =>
      cases hEq
      exact List.forall_mem_nil _
  | case2 ts ih => exact ih (List.forall_mem_cons.mp h).2 hEq
  | case3 => cases hEq
  | case4 inner ts ih =>
      rcases List.forall_mem_cons.mp h with ⟨hHead, hTail⟩
      rcases Option.map_eq_some_iff.mp hEq with ⟨rest, hRest, rfl⟩
      exact List.forall_mem_append.mpr ⟨hHead.of_and, ih hTail hRest⟩
  | case5 t ts _ _ _ ih =>
      rcases List.forall_mem_cons.mp h with ⟨hHead, hTail⟩
      rcases Option.map_eq_some_iff.mp hEq with ⟨rest, hRest, rfl⟩
      exact List.forall_mem_cons.mpr ⟨hHead, ih hTail hRest⟩

theorem leaves_disjuncts
    (h : ∀ t ∈ ts, Leaves L t)
    (hEq : disjuncts ts = some us) :
    ∀ u ∈ us, Leaves L u := by
  fun_induction disjuncts ts generalizing us with
  | case1 =>
      cases hEq
      exact List.forall_mem_nil _
  | case2 => cases hEq
  | case3 ts ih => exact ih (List.forall_mem_cons.mp h).2 hEq
  | case4 inner ts ih =>
      rcases List.forall_mem_cons.mp h with ⟨hHead, hTail⟩
      rcases Option.map_eq_some_iff.mp hEq with ⟨rest, hRest, rfl⟩
      exact List.forall_mem_append.mpr ⟨hHead.of_or, ih hTail hRest⟩
  | case5 t ts _ _ _ ih =>
      rcases List.forall_mem_cons.mp h with ⟨hHead, hTail⟩
      rcases Option.map_eq_some_iff.mp hEq with ⟨rest, hRest, rfl⟩
      exact List.forall_mem_cons.mpr ⟨hHead, ih hTail hRest⟩

variable (hL : Grouped L)

include hL

theorem leaves_conjunction
    (h : ∀ t ∈ ts, Leaves L t) :
    (conjunction ts).Leaves L := by
  unfold conjunction
  split
  · exact .leaf trivial hL.never
  · exact .leaf trivial hL.always
  · rename_i t hEq
    exact leaves_conjuncts h hEq t List.mem_cons_self
  · rename_i several _ _ hEq
    exact .and (leaves_conjuncts h hEq)

theorem leaves_membership
    (o : LoweringOptions)
    {a : Access}
    {k : Literal}
    (h : L (.equals a k))
    (values : List Literal) :
    (membership o a values).Leaves L := by
  unfold membership
  split
  · split
    · exact .leaf trivial (hL.oneOfTexts h _)
    · exact .leaf trivial (hL.oneOf h _)
  · exact .leaf trivial (hL.oneOf h _)

/- The property of a group is that of its first comparison. -/
theorem leaves_groupRun
    (o : LoweringOptions)
    (h : ∀ t ∈ ts, Leaves L t) :
    ∀ u ∈ groupRun o ts, Leaves L u := by
  unfold groupRun
  split
  · exact h
  · split
    · have hHead := (h _ List.mem_cons_self).of_isLeaf trivial
      exact List.forall_mem_singleton.mpr
        (leaves_membership hL o hHead _)
    · have hHead := (h _ List.mem_cons_self).of_isLeaf trivial
      exact List.forall_mem_singleton.mpr
        (.leaf trivial (hL.tagIn hHead _))
    · exact h

theorem leaves_groupRuns
    (o : LoweringOptions)
    (h : ∀ t ∈ ts, Leaves L t) :
    ∀ u ∈ groupRuns o ts, Leaves L u := by
  intro u hu
  rcases List.mem_flatMap.mp hu with ⟨run, hRun, hu⟩
  refine leaves_groupRun hL o (fun t ht => h t ?_) u hu
  rw [← List.flatten_splitBy joins ts]
  exact List.mem_flatten.mpr ⟨run, hRun, ht⟩

theorem leaves_disjunction
    (o : LoweringOptions)
    (h : ∀ t ∈ ts, Leaves L t) :
    (disjunction o ts).Leaves L := by
  have hGroups :
      ∀ us, (disjuncts ts).map (groupRuns o) = some us →
        ∀ u ∈ us, Leaves L u := by
    intro us hEq
    rcases Option.map_eq_some_iff.mp hEq with ⟨ds, hDisjuncts, rfl⟩
    exact leaves_groupRuns hL o (leaves_disjuncts h hDisjuncts)
  unfold disjunction
  split
  · exact .leaf trivial hL.always
  · exact .leaf trivial hL.never
  · rename_i t hEq
    exact hGroups _ hEq t List.mem_cons_self
  · rename_i several _ _ hEq
    exact .or (hGroups _ hEq)

/- The leaves of the simplified test have the property. -/
theorem Leaves.simplify
    {t : Test}
    (h : t.Leaves L)
    (o : LoweringOptions) :
    (t.simplify o).Leaves L := by
  have hAll :
      ∀ {ts : List Test},
        (∀ t ∈ ts, (t.simplify o).Leaves L) →
        ∀ t ∈ simplifyAll o ts, t.Leaves L := by
    intro ts hts
    induction ts with
    | nil => exact nofun
    | cons t ts ih =>
        rcases List.forall_mem_cons.mp hts with ⟨hHead, hTail⟩
        exact List.forall_mem_cons.mpr ⟨hHead, ih hTail⟩
  induction h with
  | and _ ih => exact leaves_conjunction hL (hAll ih)
  | or _ ih => exact leaves_disjunction hL o (hAll ih)
  | alt i _ ih => exact .alt i (hAll ih)
  | guard id => exact .guard id
  | @leaf t hLeaf h =>
      have hForm : t.simplify o = t := by
        cases t <;> first | exact hLeaf.elim | rfl
      rw [hForm]
      exact .leaf hLeaf h

end Test

end MatchCompiler

------------------------------------------------------------
-- Plans
------------------------------------------------------------

namespace MatchCompiler

namespace Plan

/-
  A plan binds names to some accesses only, and its leaves
  have a property.
-/
inductive Looks
    (P : Access → Prop)
    (L : Test → Prop) : Plan → Prop
| test
    {t : Test}
    (h : t.Leaves L) :
    Looks P L (.test t)
| bind
    (name : String)
    {a : Access}
    (ha : P a)
    {p : Plan}
    (h : Looks P L p) :
    Looks P L (.bind name a p)
| alt
    {ps : List Plan}
    (h : ∀ p ∈ ps, Looks P L p) :
    Looks P L (.alt ps)
| all
    {ps : List Plan}
    (h : ∀ p ∈ ps, Looks P L p) :
    Looks P L (.all ps)

variable {P : Access → Prop}
variable {L : Test → Prop}

/- The lowered test of a plan has the leaves of the plan. -/
theorem Looks.leaves_lower
    (hNever : L .never)
    {p : Plan}
    (h : p.Looks P L)
    (o : LoweringOptions)
    (n : Nat) :
    (p.lower o n).1.test.Leaves L := by
  have hAll :
      ∀ {ps : List Plan},
        (∀ p ∈ ps, ∀ n, (p.lower o n).1.test.Leaves L) →
        ∀ n, ∀ t ∈ (lowerAll o ps n).1.map Lowered.test,
          t.Leaves L := by
    intro ps hps
    induction ps with
    | nil => exact fun _ => nofun
    | cons p ps ih =>
        rcases List.forall_mem_cons.mp hps with ⟨hHead, hTail⟩
        exact fun n => List.forall_mem_cons.mpr ⟨hHead n, ih hTail _⟩
  induction h generalizing n with
  | test h => exact h
  | bind name ha _ ih => exact ih n
  | @alt ps _ ih =>
      have hTests := hAll (fun p hp n => ih p hp n) n
      simp only [lower, Lowered.join]
      split
      · exact .leaf trivial hNever
      · split
        · exact .or hTests
        · exact .alt _ hTests
  | all _ ih => exact .and (hAll (fun p hp n => ih p hp n) n)

end Plan

end MatchCompiler

------------------------------------------------------------
-- Checked Patterns
------------------------------------------------------------

namespace MatchCompiler

namespace Checked

variable {P : Access → Prop}
variable {L : Test → Prop}
variable {o : LoweringOptions}
variable {inside : Bool}

/- The plans of labelled parts. -/
theorem looks_planParts
    {α : Type}
    {tests : α → List Test}
    {access : α → Access}
    {parts : List (α × Checked)}
    (hTests : ∀ part ∈ parts, ∀ t ∈ tests part.1, t.Leaves L)
    (hParts :
      ∀ part ∈ parts,
        (part.2.plan o inside (access part.1)).Looks P L) :
    ∀ p ∈ planParts o inside tests access parts, p.Looks P L := by
  intro p hp
  rcases List.mem_flatMap.mp hp with ⟨part, hPart, hp⟩
  rcases List.mem_append.mp hp with hTest | hOwn
  · rcases List.mem_map.mp hTest with ⟨t, ht, rfl⟩
    exact .test (hTests part hPart t ht)
  · cases List.mem_singleton.mp hOwn
    exact hParts part hPart

/- The plans of slots. -/
theorem looks_planSlots
    {items : List Checked}
    (hItems :
      ∀ p ∈ items, ∀ a : Access, P a →
        (p.plan o inside a).Looks P L)
    {slots : List Access}
    (hSlots : ∀ a ∈ slots, P a) :
    ∀ p ∈ planSlots o inside items slots, p.Looks P L := by
  rw [planSlots_eq]
  refine looks_planParts (fun _ _ => List.forall_mem_nil _)
    fun part hPart => ?_
  rcases List.of_mem_zip hPart with ⟨hSlot, hItem⟩
  exact hItems _ hItem _ (hSlots _ hSlot)

/- The plan of a spread. -/
theorem looks_planSpread
    {spread : Option Checked}
    (hSpread :
      ∀ p ∈ spread, ∀ a : Access, P a →
        (p.plan o inside a).Looks P L)
    {slice : Option Access}
    (hSlice : ∀ a ∈ slice, P a) :
    ∀ p ∈ planSpread o inside spread slice, p.Looks P L := by
  cases spread with
  | none => exact List.forall_mem_nil _
  | some q =>
      cases slice with
      | none => exact List.forall_mem_nil _
      | some a =>
          exact List.forall_mem_singleton.mpr
            (hSpread q rfl a (hSlice a rfl))

/-
  The plan of a pattern binds names to accesses that go on
  from its own, and its leaves read such accesses.
-/
theorem looks_plan
    (hP : Access.Paths P)
    (hL : Test.Grouped L)
    (hReads : ∀ t : Test, t.Reads P → L t)
    (p : Checked)
    (o : LoweringOptions)
    (inside : Bool)
    {a : Access}
    (ha : P a) :
    (p.plan o inside a).Looks P L := by
  have hTest {t : Test} (h : t.Reads P) : t.Leaves L :=
    .leaf h.isLeaf (hReads t h)
  have hAsks
      {t : Test} {a : Access}
      {q : Value → Except ShapeMismatch Bool}
      (ha : P a) (hQuery : t.query = Option.some (a, q)) :
      t.Leaves L :=
    hTest ⟨a, q, hQuery, ha⟩
  induction p using partInduction generalizing inside a with
  | wildcard s => exact .test (.leaf trivial hL.always)
  | literal s l => exact .test (hTest (Test.reads_literal ha l))
  | set s q => exact .test (hTest (Test.reads_set ha o q))
  | typeIs s id name => exact .test (hAsks ha rfl)
  | bind s x p ih => exact .bind x ha (ih inside ha)
  | guarded s p id ih =>
      simp only [plan]
      split
      · refine .all (List.forall_mem_cons.mpr ⟨ih inside ha, ?_⟩)
        exact List.forall_mem_singleton.mpr (.test (.guard id))
      · exact ih inside ha
  | some s p ih =>
      refine .all (List.forall_mem_cons.mpr ⟨.test (hAsks ha rfl), ?_⟩)
      exact List.forall_mem_singleton.mpr (ih inside (hP.payload ha))
  | alt s ps ih =>
      refine .alt ?_
      rw [planBranches_eq]
      exact List.forall_mem_map.mpr fun p hp => ih p hp true ha
  | object s head fs ih =>
      refine .all (List.forall_mem_append.mpr ⟨?_, ?_⟩)
      · exact List.forall_mem_map.mpr fun t ht =>
          .test (hTest (Test.reads_objectTests hP ha head t ht))
      · rw [planFields_eq]
        exact looks_planParts (fun _ _ => List.forall_mem_nil _)
          fun f hf => ih f hf inside (hP.field ha f.1.name)
  | tuple s items ih =>
      refine .all ?_
      rw [planTuple_eq]
      exact looks_planParts (fun _ _ => List.forall_mem_nil _)
        fun i hi => ih i hi inside (hP.index ha _)
  | map s es ih =>
      refine .all ?_
      rw [planEntries_eq]
      refine looks_planParts (fun e _ => ?_)
        fun e he => ih e he inside (hP.mapValue ha e.1)
      exact List.forall_mem_singleton.mpr (hAsks ha rfl)
  | seq s l fixed items spread ihItems ihSpread =>
      simp only [plan]
      rcases hAccesses : Lowered.seqAccesses l a fixed with
        _ | ⟨length, slots, slice⟩
      · exact .test (.leaf trivial hL.never)
      · rcases Lowered.paths_seqAccesses hP ha hAccesses with
          ⟨hSlots, hSlice⟩
        refine .all (List.forall_mem_append.mpr ⟨?_, ?_⟩)
        · exact List.forall_mem_map.mpr fun t ht =>
            .test (hTest (Test.reads_lengthTest ha hAccesses t ht))
        · refine List.forall_mem_append.mpr ⟨?_, ?_⟩
          · exact looks_planSlots
              (fun p hp a ha => ihItems p hp inside ha) hSlots
          · exact looks_planSpread
              (fun p hp a ha => ihSpread p hp inside ha) hSlice

end Checked

/- So do the plans of arms, whose last guards have no leaves. -/
theorem CheckedArm.looks_plan
    {P : Access → Prop}
    {L : Test → Prop}
    {arm : CheckedArm}
    {o : LoweringOptions}
    (h : (arm.pattern.plan o false .scrutinee).Looks P L) :
    (arm.plan o).Looks P L := by
  refine .all (List.forall_mem_cons.mpr ⟨h, ?_⟩)
  refine List.forall_mem_map.mpr fun t ht => .test ?_
  rcases List.mem_map.mp ht with ⟨id, -, rfl⟩
  exact .guard id

end MatchCompiler
