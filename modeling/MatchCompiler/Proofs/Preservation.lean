import MatchCompiler.Proofs.Scope

/-
  This file shows that the optimizer keeps the meaning of the
  tests it is used on.

  A test without alternations may be simplified under any
  bindings. The test of an accepted arm may be simplified
  under the bindings of its clause: no name shows a branch
  that has failed. Under bindings that belong to no clause it
  may not, as a dropped test can leave its note behind.

  Key definitions include:
    * `Test.KeepsMeaning`

  Key theorems include:
    * `Test.orderly_of_alts_eq_empty`
    * `CheckedArm.AcceptedFrom.orderly`
    * `keepsMeaning_of_plain_or_lowered`
-/

------------------------------------------------------------
-- Meaning Of Tests
------------------------------------------------------------

namespace MatchCompiler

namespace Test

/-
  If a test answers under a pure host, then its simplified
  form gives the same answer and, if that is yes, all names
  have the same values afterwards.
-/
def KeepsMeaning
    (o : LoweringOptions)
    (bindings : AccessBindings)
    (t : Test) : Prop :=
  ∀ ⦃σ : Type⦄ (host : GuardHost σ)
    (answer : GuardId → ValueBindings → Bool),
    host.AnsweredBy answer →
    ∀ root c d s s' b,
      t.eval host root bindings (c, s) = (.ok b, (d, s')) →
      ∃ d' s'',
        (t.simplify o).eval host root bindings (c, s) =
          (.ok b, (d', s'')) ∧
        (b = true →
          bindings.values root d' = bindings.values root d ∧
          bindings.readable root d' = bindings.readable root d)

/- Orderly tests keep their meaning. -/
theorem keepsMeaning_of_orderly
    (o : LoweringOptions)
    {bindings : AccessBindings}
    {U : Set Nat}
    {t : Test}
    (h : ∀ root, t.Orderly root bindings U)
    (hSub : t.alts ⊆ U) :
    t.KeepsMeaning o bindings := by
  intro σ host answer hHost root c d s s' b hEval
  rcases (h root).eval_simplify hHost o hSub hEval with
    ⟨d', s'', hEval', hRead⟩
  refine ⟨d', s'', hEval', fun hb => ?_⟩
  have hAlike := hRead hb
  exact ⟨hAlike.values_eq.symm, hAlike.readable_eq.symm⟩

/- A test without alternations is orderly. -/
theorem orderly_of_alts_eq_empty
    (root : Value)
    (bindings : AccessBindings)
    {t : Test}
    (h : t.alts = ∅) :
    t.Orderly root bindings ∅ := by
  have hEach :
      ∀ {ts : List Test}, altsOfAll ts = ∅ →
        ∀ t ∈ ts, t.alts = ∅ := by
    intro ts hNone t ht
    exact Set.subset_empty_iff.mp (hNone ▸ alts_subset_altsOfAll ht)
  induction t using shapeInduction with
  | and ts ih =>
      refine .and (fun t ht => ih t ht (hEach h t ht)) ?_
      refine List.pairwise_of_forall_mem_list fun t ht u _ => ?_
      rw [hEach h t ht]
      exact Set.empty_disjoint _
  | or ts ih => exact .or (fun t ht => ih t ht (hEach h t ht)) h
  | alt i ts ih =>
      have hMem : i ∈ (Test.alt i ts).alts := Set.mem_insert i _
      rw [h] at hMem
      exact absurd hMem (Set.notMem_empty i)
  | guard id => exact .guard id
  | leaf t hLeaf =>
      refine .leaf hLeaf fun c d hSame => ?_
      rw [hSame.eq_of_empty]

end Test

namespace CheckedArm

variable {arm : CheckedArm}
variable {p : Pattern}

/- The test of an accepted arm is orderly. -/
theorem AcceptedFrom.orderly
    (h : arm.AcceptedFrom p)
    (o : LoweringOptions)
    (i : Nat)
    (root : Value) :
    (arm.unsimplified o).Orderly root (arm.clause o i).bindings
      Set.univ := by
  have hTidy := (h.uniform o).tidy o 0
  rw [lower_plan o h.regular i] at hTidy
  exact hTidy.orderly root

end CheckedArm

end MatchCompiler

------------------------------------------------------------
-- Preservation
------------------------------------------------------------

namespace MatchCompiler

/-
  Simplifying keeps the meaning of every test without
  alternations, under any bindings, and of the test of every
  accepted arm, under bindings of its clause.
-/
theorem keepsMeaning_of_plain_or_lowered :
    (∀ (o : LoweringOptions) (bindings : AccessBindings) (t : Test),
      t.alts = ∅ → t.KeepsMeaning o bindings) ∧
    ∀ (o : LoweringOptions) (arm : CheckedArm) (p : Pattern),
      arm.AcceptedFrom p →
      ∀ i, (arm.clause o i).test = (arm.unsimplified o).simplify o ∧
        ∀ bindings ⊆ (arm.clause o i).bindings,
          (arm.unsimplified o).KeepsMeaning o bindings := by
  constructor
  · intro o bindings t hNone
    refine Test.keepsMeaning_of_orderly o
      (fun root => Test.orderly_of_alts_eq_empty root bindings hNone) ?_
    rw [hNone]
  · intro o arm p hArm i
    refine ⟨arm.clause_test o i, fun bindings hSub => ?_⟩
    refine Test.keepsMeaning_of_orderly o (fun root => ?_)
      (Set.subset_univ _)
    refine (hArm.orderly o i root).transfer fun c d _ hRead => ?_
    exact fun b hb => hRead b (hSub hb)

/- Integers, pairs of them, and a pair beside an integer. -/
def pairSchemas : Registry :=
  { pool :=
      { schemas :=
          #[.ofPrimitive .i64 "int",
            { kind := .tuple, name := "Pair",
              fields := [⟨"0", 0, 0, false⟩, ⟨"1", 0, 1, false⟩] },
            { kind := .tuple, name := "Nested",
              fields := [⟨"0", 1, 0, false⟩, ⟨"1", 0, 1, false⟩] }] } }

/- A pair pattern. -/
def pairPattern (p q : Pattern) : Pattern :=
  .seq {} [.item p none, .item q none]

/-
  An alternation whose first branch notes an alternation of
  its own and then never matches, and whose second branch
  asks a guard.
-/
def strayPattern : Pattern :=
  let one := Pattern.literal {} (.int 1 none)
  let x := Pattern.bind {} "x"
  let any := Pattern.wildcard {}
  .alt {}
    [pairPattern (.alt {} [pairPattern x one, pairPattern one x])
      (.alt {} []),
     .guarded {} (pairPattern (pairPattern x any) any)
      { id := 0, text := "", uses := ["x"] }]

/- What checking makes of it. -/
def strayArm : CheckedArm :=
  let one := Checked.literal {} (.value (.int 1 none))
  let x := Checked.bind {} "x" (.wildcard {})
  let any := Checked.wildcard {}
  { pattern :=
      .alt {}
        [.tuple {}
          [(0, .alt {}
            [.tuple {} [(0, x), (1, one)], .tuple {} [(0, one), (1, x)]]),
           (1, .alt {} [])],
         .guarded {}
          (.tuple {} [(0, .tuple {} [(0, x), (1, any)]), (1, any)]) 0]
    bindings := [⟨"x", 0, {}⟩] }

theorem strayArm_accepted :
    strayArm.AcceptedFrom strayPattern :=
  ⟨pairSchemas, { table := {}, marker := 'k' }, 2, rfl⟩

/- A name that shows the inner alternation. -/
def strayBindings : AccessBindings :=
  [("y",
    .choice 0
      [.mk 0 .always [] .scrutinee, .mk 1 .always [] .scrutinee])]

/- The guard holds if some name can be read. -/
def someNameBound : GuardHost Unit :=
  fun _ bs => pure (!bs.isEmpty)

/- The stray arm keeps its meaning under its own bindings. -/
theorem strayArm_keepsMeaning :
    strayArm.AcceptedFrom strayPattern ∧
    (strayArm.unsimplified {}).KeepsMeaning {}
      (strayArm.clause {} 0).bindings := by
  refine ⟨strayArm_accepted, ?_⟩
  have hArm := keepsMeaning_of_plain_or_lowered.2 {} strayArm
    strayPattern strayArm_accepted 0
  exact hArm.2 _ (List.Subset.refl _)

/-
  It does not under foreign ones: simplifying drops the first
  branch, and the note that lets the guard hold.
-/
theorem strayArm_changesMeaning :
    strayArm.AcceptedFrom strayPattern ∧
    ¬ (strayArm.unsimplified {}).KeepsMeaning {} strayBindings := by
  refine ⟨strayArm_accepted, fun hKeeps => ?_⟩
  let root : Value :=
    .tuple [.tuple [.int 5, .int 1], .int 0]
  have hOriginal :
      ((strayArm.unsimplified {}).eval someNameBound root strayBindings
        (Choices.empty, ())).1 = .ok true := rfl
  have hSimplified :
      (((strayArm.unsimplified {}).simplify {}).eval someNameBound root
        strayBindings (Choices.empty, ())).1 = .ok false := rfl
  rcases hKeeps someNameBound (fun _ bs => !bs.isEmpty)
    (fun _ _ _ => rfl) root Choices.empty _ () _ true
    (Prod.ext hOriginal rfl) with ⟨d', s'', hEval, -⟩
  rw [hEval] at hSimplified
  cases hSimplified

end MatchCompiler
