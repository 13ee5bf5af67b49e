import MatchCompiler.Proofs.LabelBounds

/-
  This file shows that coverage is sound.

  An arm that is walked over without matching leaves the
  label of the value uncovered. So the value of a match that
  is covered is matched by some arm, and an arm that is found
  redundant is not selected.

  Key definitions include:
    * `Coverage.Walk.Misses`
    * `CheckedArm.BoundFor`

  Key theorems include:
    * `Coverage.Walk.misses_next`
    * `SchemaPool.coverage_sound_of_bound`
-/

------------------------------------------------------------
-- Walking Over Arms
------------------------------------------------------------

namespace MatchCompiler

/-
  The labels of a closed schema bound an accepted arm, for a
  value with some label.
-/
structure CheckedArm.BoundFor
    (s : Schema)
    (o : LoweringOptions)
    (root : Value)
    (label : String)
    (arm : CheckedArm) : Prop where
  accepted : ∃ p, arm.AcceptedFrom p
  bound :
    s.structuralKind.isClosed = true →
      arm.pattern.BoundBy (Checked.cover s) (Checked.footprint s) o root
        .scrutinee label

namespace CheckedArm

variable {o : LoweringOptions}
variable {root : Value}
variable {arm : CheckedArm}

/- An arm fails by its pattern or by a guard. -/
theorem not_might_plan
    (hPattern :
      ¬ (arm.pattern.plan o false .scrutinee).Might root false)
    (hGuards : arm.pattern.outerGuards = []) :
    ¬ (arm.plan o).Might root false := by
  intro h
  rcases Plan.might_all_false.mp h with ⟨p, hp, h⟩
  rw [hGuards] at hp
  cases List.mem_singleton.mp hp
  exact hPattern h

/- An arm that matches matches by its pattern. -/
theorem might_pattern
    (h : (arm.plan o).Might root true) :
    (arm.pattern.plan o false .scrutinee).Might root true :=
  Plan.might_all_true.mp h _ List.mem_cons_self

end CheckedArm

namespace Coverage.Walk

variable {s : Schema}
variable {o : LoweringOptions}
variable {root : Value}
variable {label : String}
variable {w : Walk}

/- The arms walked over do not cover a label. -/
structure Misses
    (s : Schema)
    (label : String)
    (w : Walk) : Prop where
  catchAll : w.catchAll = none
  covered : s.structuralKind.isClosed = true → label ∉ w.covered

/- An arm that may fail to match covers nothing of the value. -/
theorem misses_next
    {arm : CheckedArm}
    (i : Nat)
    (hArm : arm.BoundFor s o root label)
    (hMight : (arm.plan o).Might root false)
    (h : w.Misses s label) :
    (next s w (arm, i)).Misses s label := by
  unfold next
  dsimp only
  split
  · exact ⟨h.catchAll, h.covered⟩
  · constructor
    · refine if_neg fun hAll => ?_
      exact CheckedArm.not_might_plan
        (Checked.not_might_of_isCatchAll hAll false .scrutinee)
        (Checked.outerGuards_of_isCatchAll hAll) hMight
    · intro hClosed hCovered
      rcases List.mem_append.mp hCovered with hOld | hNew
      · exact h.covered hClosed hOld
      · have hNever := (hArm.bound hClosed).holds hNew
        exact CheckedArm.not_might_plan (hNever.1 false) hNever.2 hMight

/- An arm that may match is not redundant. -/
theorem redundancy?_eq_none
    {arm : CheckedArm}
    (hArm : arm.BoundFor s o root label)
    (hMight : (arm.plan o).Might root true)
    (h : w.Misses s label) :
    w.redundancy? s arm.pattern = none := by
  unfold redundancy?
  rw [h.catchAll]
  refine if_neg fun hCovered => ?_
  simp only [Bool.and_eq_true, List.all_eq_true] at hCovered
  rcases hCovered with ⟨⟨hClosed, -⟩, hAll⟩
  have hLabel := (hArm.bound hClosed).matched false
    (CheckedArm.might_pattern hMight)
  exact h.covered hClosed (by simpa using hAll label hLabel)

/- Arms that are walked over are found redundant by number. -/
theorem mem_redundant
    {arms : List CheckedArm}
    {k i : Nat}
    (h :
      i ∈ ((arms.zipIdx k).foldl (next s) w).redundant.map Prod.fst) :
    i ∈ w.redundant.map Prod.fst ∨ k ≤ i := by
  induction arms generalizing k w with
  | nil => exact .inl h
  | cons arm arms ih =>
      rw [List.zipIdx_cons, List.foldl_cons] at h
      rcases ih h with h | h
      · unfold next at h
        dsimp only at h
        split at h
        · rw [List.map_append, List.mem_append] at h
          rcases h with h | h
          · exact .inl h
          · cases List.mem_singleton.mp h
            exact .inr (Nat.le_refl k)
        · exact .inl h
      · exact .inr (Nat.le_of_succ_le h)

/-
  Running the arms and walking over them go together: if none
  matches, the walk misses the label, and an arm that matches
  is not among the redundant ones.
-/
theorem misses_of_runFirst
    {arms : List CheckedArm}
    (hArms : ∀ arm ∈ arms, arm.BoundFor s o root label)
    {k : Nat}
    (hMisses : w.Misses s label)
    (hOld : ∀ i ∈ w.redundant.map Prod.fst, i < k)
    {σ : Type}
    {host : GuardHost σ}
    {state state' : σ}
    {outcome : Except Fault MatchOutcome}
    (hRun :
      Clause.runFirst host root
        ((arms.zipIdx k).map fun (a, i) => a.clause o i) state =
          (outcome, state')) :
    (outcome = .error .noMatch →
      ((arms.zipIdx k).foldl (next s) w).Misses s label) ∧
    ∀ found, outcome = .ok found →
      found.arm ∉
        ((arms.zipIdx k).foldl (next s) w).redundant.map Prod.fst := by
  induction arms generalizing k w state with
  | nil =>
      cases hRun
      exact ⟨fun _ => hMisses, nofun⟩
  | cons arm arms ih =>
      rcases List.forall_mem_cons.mp hArms with ⟨hArm, hArms⟩
      rcases hArm.accepted with ⟨p, hAccepted⟩
      rw [List.zipIdx_cons, List.map_cons, Clause.runFirst] at hRun
      rw [List.zipIdx_cons, List.foldl_cons]
      cases hClause : (arm.clause o k).run host root state with
      | mk result s₁ =>
          rw [hClause] at hRun
          cases result with
          | error cause =>
              cases hRun
              exact ⟨nofun, nofun⟩
          | ok found =>
              have hMight := hAccepted.might_of_run hClause
              cases found with
              | none =>
                  have hNext : ∀ i ∈
                      (next s w (arm, k)).redundant.map Prod.fst,
                      i < k + 1 := by
                    intro i hi
                    unfold next at hi
                    dsimp only at hi
                    split at hi
                    · rw [List.map_append, List.mem_append] at hi
                      rcases hi with hi | hi
                      · exact Nat.lt_succ_of_lt (hOld i hi)
                      · cases List.mem_singleton.mp hi
                        exact Nat.lt_succ_self k
                    · exact Nat.lt_succ_of_lt (hOld i hi)
                  exact ih hArms (misses_next k hArm hMight hMisses) hNext
                    hRun
              | some bindings =>
                  cases hRun
                  refine ⟨nofun, ?_⟩
                  rintro found ⟨⟩ hRedundant
                  have hNone := redundancy?_eq_none hArm hMight hMisses
                  rcases mem_redundant hRedundant with hOld' | hLater
                  · unfold next at hOld'
                    dsimp only at hOld'
                    rw [hNone] at hOld'
                    exact Nat.lt_irrefl k (hOld k hOld')
                  · exact Nat.lt_irrefl k hLater

end Coverage.Walk

/-
  If labels bound all arms, coverage tells the truth about a
  value: it is not refused by arms that cover everything, and
  no redundant arm is selected.
-/
theorem SchemaPool.coverage_sound_of_bound
    {p : SchemaPool}
    {slot : SchemaId}
    {arms : List CheckedArm}
    {o : LoweringOptions}
    {root : Value}
    {label : String}
    (hArms : ∀ arm ∈ arms, arm.BoundFor (p.get slot) o root label)
    (hLabel :
      (p.get slot).structuralKind.isClosed = true →
        label ∈ (p.get slot).coverLabels)
    (span : Span)
    (exhaustive : Bool)
    {σ : Type}
    (host : GuardHost σ)
    (state : σ) :
    ((p.coverage slot arms span).exhaustive = true →
      ((Procedure.ofArms o arms slot exhaustive).execute host root
        state).1 ≠ .error .noMatch) ∧
    ∀ found,
      ((Procedure.ofArms o arms slot exhaustive).execute host root
        state).1 = .ok found →
      found.arm ∉ (p.coverage slot arms span).redundant := by
  have hStart : Coverage.Walk.Misses (p.get slot) label {} :=
    ⟨rfl, fun _ => List.not_mem_nil⟩
  have hWalk := Coverage.Walk.misses_of_runFirst hArms hStart nofun
    (Prod.eta (Clause.runFirst host root
      ((arms.zipIdx 0).map fun (a, i) => a.clause o i) state)).symm
  refine ⟨fun hExhaustive hNoMatch => ?_, hWalk.2⟩
  have hMisses := hWalk.1 hNoMatch
  simp only [coverage, Schema.coverage, hMisses.catchAll,
    Option.isSome_none, Bool.false_or, Option.isNone_none, Bool.true_and,
    Bool.and_eq_true] at hExhaustive
  rcases hExhaustive with ⟨hClosed, hMissing⟩
  rw [if_pos hClosed, List.isEmpty_iff, List.filter_eq_nil_iff] at hMissing
  refine hMisses.covered hClosed ?_
  simpa using hMissing label (hLabel hClosed)

end MatchCompiler
