import MatchCompiler.Proofs.Leaves

/-
  This file compares the runs of a clause on two values that
  it cannot tell apart.

  An access that leads to the same from two values is a place
  where the values are alike, and so is every access that
  goes on from it. A plan that only looks at such places is
  lowered and simplified to a clause that does, and the runs
  of that clause on the two values are the same, whatever the
  host of the guards does.

  Key definitions include:
    * `Access.ReadsAlike`
    * `Test.AnswersAlike`
    * `Plan.ReadsAlike`

  Key theorems include:
    * `Test.eval_eq_of_leaves`
    * `Plan.ReadsAlike.bindings_lower`
    * `Checked.readsAlike_plan`
    * `CheckedArm.run_clause_eq`
-/

------------------------------------------------------------
-- Accesses
------------------------------------------------------------

namespace MatchCompiler

/- An access leads to the same part of two values. -/
def Access.ReadsAlike
    (v w : Value)
    (a : Access) : Prop :=
  ∀ c, a.resolve v c = a.resolve w c

namespace Access

variable {v w : Value}

/- Where values are alike, so are the parts further on. -/
theorem paths_readsAlike :
    Paths (ReadsAlike v w) where
  field := fun h name c => by simp only [resolve, h c]
  index := fun h i c => by simp only [resolve, h c]
  slice := fun h range c => by simp only [resolve, h c]
  payload := fun h c => by simp only [resolve, h c]
  mapValue := fun h key c => by simp only [resolve, h c]
  constant := fun _ _ => rfl
  byLength := by
    intro a cases otherwise h hCases hOtherwise c
    have hCase :
        ∀ n, resolveCase v c n cases = resolveCase w c n cases := by
      intro n
      induction cases with
      | nil => rfl
      | cons e es ih =>
          rcases List.forall_mem_cons.mp hCases with ⟨hHead, hTail⟩
          simp only [resolveCase, hHead c, ih hTail]
    simp only [resolve, h c, hCase, hOtherwise c]

/- The path for a branch is read alike if all paths are. -/
theorem readsAlike_choice
    (i : Nat)
    {choices : List Alternative}
    (h : ∀ b ∈ choices, b.access.ReadsAlike v w) :
    (choice i choices).ReadsAlike v w := by
  have hChoice :
      ∀ c k, resolveChoice v c k choices = resolveChoice w c k choices := by
    intro c k
    induction choices with
    | nil => rfl
    | cons b bs ih =>
        rcases List.forall_mem_cons.mp h with ⟨hHead, hTail⟩
        rcases b with ⟨j, t, bindings, a⟩
        have hOwn : ∀ c, a.resolve v c = a.resolve w c := hHead
        simp only [resolveChoice, hOwn c, ih hTail]
  intro c
  simp only [resolve, hChoice]

end Access

end MatchCompiler

------------------------------------------------------------
-- Tests
------------------------------------------------------------

namespace MatchCompiler

namespace Test

/-
  A leaf looks where two values are alike, or it answers the
  same for both and is never grouped with others.
-/
def AnswersAlike
    (v w : Value)
    (t : Test) : Prop :=
  t.Reads (Access.ReadsAlike v w) ∨
    (∀ u, t.joins u = false) ∧ ∀ c, t.reading v c = t.reading w c

variable {v w : Value}

/- Either way its reading is the same. -/
theorem AnswersAlike.reading_eq
    {t : Test}
    (h : t.AnswersAlike v w)
    (c : Choices) :
    t.reading v c = t.reading w c := by
  rcases h with ⟨a, q, hQuery, ha⟩ | ⟨-, hSame⟩
  · unfold reading
    rw [hQuery]
    simp only [ha c]
  · exact hSame c

/- What can be grouped looks where the values are alike. -/
theorem AnswersAlike.of_joins
    {t : Test}
    (h : t.AnswersAlike v w)
    {a : Access}
    {q : Value → Except ShapeMismatch Bool}
    (hQuery : t.query = some (a, q))
    (hJoins : t.joins t = true) :
    a.ReadsAlike v w := by
  rcases h with hReads | ⟨hAlone, -⟩
  · exact hReads.of_query hQuery
  · cases (hAlone t).symm.trans hJoins

theorem grouped_answersAlike :
    Grouped (AnswersAlike v w) where
  always := Or.inr ⟨fun _ => rfl, fun _ => rfl⟩
  never := Or.inr ⟨fun _ => rfl, fun _ => rfl⟩
  oneOf := fun {a _} h _ =>
    Or.inl ⟨a, _, rfl, h.of_joins rfl a.beq_self⟩
  oneOfTexts := fun {a _} h _ =>
    Or.inl ⟨a, _, rfl, h.of_joins rfl a.beq_self⟩
  tagIn := fun {a _} h _ =>
    Or.inl ⟨a, _, rfl, h.of_joins rfl a.beq_self⟩

section

variable {σ : Type}
variable {host : GuardHost σ}
variable {bindings : AccessBindings}
variable {ts : List Test}
variable (h :
  ∀ t ∈ ts, t.eval host v bindings = t.eval host w bindings)

include h

theorem evalAll_congr :
    evalAll host v bindings ts = evalAll host w bindings ts := by
  induction ts with
  | nil => rfl
  | cons t ts ih =>
      rcases List.forall_mem_cons.mp h with ⟨hHead, hTail⟩
      simp only [evalAll, hHead, ih hTail]

theorem evalAny_congr :
    evalAny host v bindings ts = evalAny host w bindings ts := by
  induction ts with
  | nil => rfl
  | cons t ts ih =>
      rcases List.forall_mem_cons.mp h with ⟨hHead, hTail⟩
      simp only [evalAny, hHead, ih hTail]

theorem evalBranches_congr
    (i k : Nat) :
    evalBranches host v bindings i k ts =
      evalBranches host w bindings i k ts := by
  induction ts generalizing k with
  | nil => rfl
  | cons t ts ih =>
      rcases List.forall_mem_cons.mp h with ⟨hHead, hTail⟩
      simp only [evalBranches, hHead, ih hTail]

end

/-
  A test whose leaves answer alike is evaluated the same on
  both values.
-/
theorem eval_eq_of_leaves
    {t : Test}
    (h : t.Leaves (AnswersAlike v w))
    {σ : Type}
    (host : GuardHost σ)
    {bindings : AccessBindings}
    (hBindings : ∀ b ∈ bindings, b.2.ReadsAlike v w) :
    t.eval host v bindings = t.eval host w bindings := by
  induction h with
  | and _ ih => exact evalAll_congr ih
  | or _ ih => exact evalAny_congr ih
  | alt i _ ih => exact evalBranches_congr ih i 0
  | guard id =>
      funext st
      rcases st with ⟨c, s⟩
      have hReadable :
          bindings.readable v c = bindings.readable w c :=
        AccessBindings.readable_congr fun b hb => hBindings b hb c
      change Run.guard host v bindings id (c, s) =
        Run.guard host w bindings id (c, s)
      rw [Run.guard_apply, Run.guard_apply, hReadable]
  | leaf hLeaf hAlike =>
      funext st
      rcases st with ⟨c, s⟩
      rw [eval_leaf _ _ _ hLeaf, eval_leaf _ _ _ hLeaf,
        hAlike.reading_eq]

end Test

end MatchCompiler

------------------------------------------------------------
-- Plans
------------------------------------------------------------

namespace MatchCompiler

variable {v w : Value}

/- A plan looks only where two values are alike. -/
abbrev Plan.ReadsAlike
    (v w : Value)
    (p : Plan) : Prop :=
  p.Looks (Access.ReadsAlike v w) (Test.AnswersAlike v w)

namespace Lowered

/- The path that depends on the branch goes through the branches. -/
theorem readsAlike_choice
    (o : LoweringOptions)
    (i : Nat)
    {parts : List Lowered}
    (hParts :
      ∀ l ∈ parts, ∀ b ∈ l.bindings, b.2.ReadsAlike v w)
    (name : String) :
    (choice o i parts name).ReadsAlike v w := by
  refine Access.readsAlike_choice i fun b hb => ?_
  rcases List.mem_filterMap.mp hb with ⟨⟨l, k⟩, hl, hEq⟩
  rcases Option.map_eq_some_iff.mp hEq with ⟨a, hLookup, rfl⟩
  exact hParts l (List.fst_mem_of_mem_zipIdx hl) (name, a)
    (mem_of_lookup_eq hLookup)

/- Joined branches bind names where the branches do. -/
theorem readsAlike_join
    (o : LoweringOptions)
    {parts : List Lowered}
    (hParts :
      ∀ l ∈ parts, ∀ b ∈ l.bindings, b.2.ReadsAlike v w)
    (n : Nat) :
    ∀ b ∈ (join o parts n).1.bindings, b.2.ReadsAlike v w := by
  have hBound :
      ∀ b ∈ (parts.head?.map Lowered.bindings).getD [],
        b.2.ReadsAlike v w := by
    cases parts with
    | nil => exact nofun
    | cons l ls => exact hParts l List.mem_cons_self
  unfold join
  dsimp only
  split
  · exact nofun
  · split
    · exact hBound
    · intro b hb
      rcases List.mem_map.mp hb with ⟨⟨name, a⟩, hMem, hEq⟩
      dsimp only at hEq
      split at hEq
      · cases hEq
        exact hBound _ hMem
      · cases hEq
        exact readsAlike_choice o n hParts name

end Lowered

/- Lowering a plan binds names where the values are alike. -/
theorem Plan.ReadsAlike.bindings_lower
    {p : Plan}
    (h : p.ReadsAlike v w)
    (o : LoweringOptions)
    (n : Nat) :
    ∀ b ∈ (p.lower o n).1.bindings, b.2.ReadsAlike v w := by
  have hAll :
      ∀ {ps : List Plan},
        (∀ p ∈ ps, ∀ n,
          ∀ b ∈ (p.lower o n).1.bindings, b.2.ReadsAlike v w) →
        ∀ n, ∀ l ∈ (lowerAll o ps n).1,
          ∀ b ∈ l.bindings, b.2.ReadsAlike v w := by
    intro ps hps
    induction ps with
    | nil => exact fun _ => nofun
    | cons p ps ih =>
        rcases List.forall_mem_cons.mp hps with ⟨hHead, hTail⟩
        exact fun n => List.forall_mem_cons.mpr ⟨hHead n, ih hTail _⟩
  induction h generalizing n with
  | test _ => exact nofun
  | bind name ha _ ih => exact List.forall_mem_cons.mpr ⟨ha, ih n⟩
  | alt _ ih =>
      exact Lowered.readsAlike_join o (hAll (fun p hp n => ih p hp n) n) _
  | all _ ih =>
      intro b hb
      rcases List.mem_flatMap.mp hb with ⟨l, hl, hb⟩
      exact hAll (fun p hp n => ih p hp n) n l hl b hb

end MatchCompiler

------------------------------------------------------------
-- Clauses
------------------------------------------------------------

namespace MatchCompiler

variable {v w : Value}

/-
  A pattern at an access that is read alike looks only where
  the two values are alike.
-/
theorem Checked.readsAlike_plan
    (p : Checked)
    (o : LoweringOptions)
    (inside : Bool)
    {a : Access}
    (ha : a.ReadsAlike v w) :
    (p.plan o inside a).ReadsAlike v w :=
  looks_plan Access.paths_readsAlike Test.grouped_answersAlike
    (fun _ => Or.inl) p o inside ha

/-
  The clause of a regular arm whose pattern looks only where
  two values are alike runs the same on both.
-/
theorem CheckedArm.run_clause_eq
    {arm : CheckedArm}
    (hRegular : arm.pattern.Regular)
    {o : LoweringOptions}
    (h : (arm.pattern.plan o false .scrutinee).ReadsAlike v w)
    (i : Nat)
    {σ : Type}
    (host : GuardHost σ)
    (s : σ) :
    (arm.clause o i).run host v s = (arm.clause o i).run host w s := by
  have hGrouped := Test.grouped_answersAlike (v := v) (w := w)
  have hPlan : (arm.plan o).ReadsAlike v w := looks_plan h
  have hTest := hPlan.leaves_lower hGrouped.never o 0
  have hBindings := hPlan.bindings_lower o 0
  rw [lower_plan o hRegular i] at hTest hBindings
  have hEval :=
    Test.eval_eq_of_leaves (hTest.simplify hGrouped o) host hBindings
  rw [← clause_test o arm i] at hEval
  have hValues :
      ∀ c, (arm.clause o i).bindings.values v c =
        (arm.clause o i).bindings.values w c :=
    fun c => AccessBindings.values_congr fun b hb => hBindings b hb c
  unfold Clause.run
  rw [hEval]
  simp only [hValues]

end MatchCompiler
