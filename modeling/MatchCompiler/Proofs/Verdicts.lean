import MatchCompiler.Proofs.Simulation

/-
  This file says which verdicts a test might give, whatever
  its guards answer and however faults are resolved.

  A test that faults when it is built may be left out when it
  is simplified. If a fault counts as any answer, then what a
  simplified test answers is an answer that the original test
  might give, and so is what a clause answers for the plan of
  its arm.

  Key definitions include:
    * `Test.Might`
    * `Plan.Might`

  Key theorems include:
    * `Test.might_of_canEnd`
    * `Test.might_of_simplify`
    * `Plan.might_of_lower`
    * `CheckedArm.AcceptedFrom.might_of_run`
-/

------------------------------------------------------------
-- Answers Of Tests
------------------------------------------------------------

namespace MatchCompiler

namespace Test

/-
  A test might answer yes or no. A guard might answer both,
  and so might a test that faults.
-/
inductive Might
    (root : Value) : Test → Bool → Prop
| leaf
    {t : Test}
    {c : Choices}
    {b : Bool}
    (hLeaf : t.IsLeaf)
    (hReading : t.reading root c = .ok b) :
    Might root t b
| fault
    {t : Test}
    {c : Choices}
    {cause : ShapeMismatch}
    (hLeaf : t.IsLeaf)
    (hReading : t.reading root c = .error cause)
    (b : Bool) :
    Might root t b
| guard
    (id : GuardId)
    (b : Bool) :
    Might root (.guard id) b
| andHolds
    {ts : List Test}
    (h : ∀ t ∈ ts, Might root t true) :
    Might root (.and ts) true
| andFails
    {ts : List Test}
    {t : Test}
    (hMem : t ∈ ts)
    (h : Might root t false) :
    Might root (.and ts) false
| orHolds
    {ts : List Test}
    {t : Test}
    (hMem : t ∈ ts)
    (h : Might root t true) :
    Might root (.or ts) true
| orFails
    {ts : List Test}
    (h : ∀ t ∈ ts, Might root t false) :
    Might root (.or ts) false
| altHolds
    {i : Nat}
    {ts : List Test}
    {t : Test}
    (hMem : t ∈ ts)
    (h : Might root t true) :
    Might root (.alt i ts) true
| altFails
    {i : Nat}
    {ts : List Test}
    (h : ∀ t ∈ ts, Might root t false) :
    Might root (.alt i ts) false

/-
  Several tests that are tried while they answer `go` might
  give an answer.
-/
def MightWhile
    (root : Value)
    (go : Bool)
    (ts : List Test)
    (b : Bool) : Prop :=
  (b = go ∧ ∀ t ∈ ts, t.Might root go) ∨
  (b ≠ go ∧ ∃ t ∈ ts, t.Might root b)

variable {root : Value}
variable {b go : Bool}

theorem might_and_iff
    {ts : List Test} :
    (Test.and ts).Might root b ↔ MightWhile root true ts b := by
  constructor
  · intro h
    cases h with
    | leaf hLeaf => exact hLeaf.elim
    | fault hLeaf => exact hLeaf.elim
    | andHolds h => exact .inl ⟨rfl, h⟩
    | andFails hMem h => exact .inr ⟨nofun, _, hMem, h⟩
  · rintro (⟨rfl, h⟩ | ⟨hNe, t, hMem, h⟩)
    · exact .andHolds h
    · rw [Bool.eq_false_of_not_eq_true hNe] at h ⊢
      exact .andFails hMem h

theorem might_or_iff
    {ts : List Test} :
    (Test.or ts).Might root b ↔ MightWhile root false ts b := by
  constructor
  · intro h
    cases h with
    | leaf hLeaf => exact hLeaf.elim
    | fault hLeaf => exact hLeaf.elim
    | orHolds hMem h => exact .inr ⟨nofun, _, hMem, h⟩
    | orFails h => exact .inl ⟨rfl, h⟩
  · rintro (⟨rfl, h⟩ | ⟨hNe, t, hMem, h⟩)
    · exact .orFails h
    · rw [Bool.eq_true_of_not_eq_false hNe] at h ⊢
      exact .orHolds hMem h

theorem might_alt_iff
    {i : Nat}
    {ts : List Test} :
    (Test.alt i ts).Might root b ↔ MightWhile root false ts b := by
  constructor
  · intro h
    cases h with
    | leaf hLeaf => exact hLeaf.elim
    | fault hLeaf => exact hLeaf.elim
    | altHolds hMem h => exact .inr ⟨nofun, _, hMem, h⟩
    | altFails h => exact .inl ⟨rfl, h⟩
  · rintro (⟨rfl, h⟩ | ⟨hNe, t, hMem, h⟩)
    · exact .altFails h
    · rw [Bool.eq_true_of_not_eq_false hNe] at h ⊢
      exact .altHolds hMem h

/- One more test in front. -/
theorem mightWhile_cons
    {t : Test}
    {ts : List Test} :
    MightWhile root go (t :: ts) b ↔
      (t.Might root b ∧ b ≠ go) ∨
      ((b = go → t.Might root go) ∧ MightWhile root go ts b) := by
  unfold MightWhile
  by_cases hGo : b = go
  · subst hGo
    simp
  · simp [hGo, and_comm]

theorem mightWhile_singleton
    {t : Test} :
    MightWhile root go [t] b ↔ t.Might root b := by
  unfold MightWhile
  by_cases hGo : b = go
  · subst hGo
    simp
  · simp [hGo]

/- Tests may be replaced by others that might say more. -/
theorem MightWhile.append
    {ts ts' us us' : List Test}
    (hFront : MightWhile root go ts b → MightWhile root go ts' b)
    (hBack : MightWhile root go us b → MightWhile root go us' b)
    (h : MightWhile root go (ts ++ us) b) :
    MightWhile root go (ts' ++ us') b := by
  unfold MightWhile at h hFront hBack ⊢
  by_cases hGo : b = go
  · subst hGo
    simp only [ne_eq, not_true_eq_false, false_and, or_false, true_and,
      List.forall_mem_append] at h hFront hBack ⊢
    exact ⟨hFront h.1, hBack h.2⟩
  · simp only [ne_eq, hGo, not_false_eq_true, false_and, true_and,
      false_or, List.mem_append] at h hFront hBack ⊢
    rcases h with ⟨t, hMem | hMem, hMight⟩
    · rcases hFront ⟨t, hMem, hMight⟩ with ⟨t', hMem', hMight'⟩
      exact ⟨t', .inl hMem', hMight'⟩
    · rcases hBack ⟨t, hMem, hMight⟩ with ⟨t', hMem', hMight'⟩
      exact ⟨t', .inr hMem', hMight'⟩

/- Tests after the first may be replaced. -/
theorem MightWhile.tail
    {t : Test}
    {us us' : List Test}
    (h : MightWhile root go (t :: us) b)
    (hBack : MightWhile root go us b → MightWhile root go us' b) :
    MightWhile root go (t :: us') b := by
  change MightWhile root go ([t] ++ us) b at h
  change MightWhile root go ([t] ++ us') b
  exact MightWhile.append id hBack h

/- A leaf that answers `go` may be dropped. -/
theorem MightWhile.cons_of_passing
    {t : Test}
    {ts : List Test}
    (hPassing : t.Might root go)
    (h : MightWhile root go ts b) :
    MightWhile root go (t :: ts) b :=
  mightWhile_cons.mpr (.inr ⟨fun _ => hPassing, h⟩)

end Test

end MatchCompiler

------------------------------------------------------------
-- Answers That Are Given
------------------------------------------------------------

namespace MatchCompiler

namespace Test

variable {can : GuardAnswers}
variable {root : Value}
variable {bindings : AccessBindings}
variable {b : Bool}
variable {c d : Choices}

theorem mightWhile_of_canEndWhile
    {go : Bool}
    {ts : List Test}
    (hTests :
      ∀ t ∈ ts, ∀ {c d b}, t.CanEnd can root bindings c (.ok b) d →
        t.Might root b)
    (h : CanEndWhile can root bindings go ts c (.ok b) d) :
    MightWhile root go ts b := by
  induction ts generalizing c with
  | nil =>
      cases h.2
      exact .inl ⟨rfl, List.forall_mem_nil _⟩
  | cons t ts ih =>
      rcases List.forall_mem_cons.mp hTests with ⟨hHead, hTail⟩
      rcases h with ⟨e, hPass, hRest⟩ | ⟨hNe, hEnd⟩
      · exact (ih hTail hRest).cons_of_passing (hHead hPass)
      · refine mightWhile_cons.mpr (.inl ⟨hHead hEnd, fun hGo => ?_⟩)
        exact hNe (hGo ▸ rfl)

theorem mightWhile_of_canEndBranches
    {i k : Nat}
    {ts : List Test}
    (hTests :
      ∀ t ∈ ts, ∀ {c d b}, t.CanEnd can root bindings c (.ok b) d →
        t.Might root b)
    (h : CanEndBranches can root bindings i k ts c (.ok b) d) :
    MightWhile root false ts b := by
  induction ts generalizing c k with
  | nil =>
      cases h.2
      exact .inl ⟨rfl, List.forall_mem_nil _⟩
  | cons t ts ih =>
      rcases List.forall_mem_cons.mp hTests with ⟨hHead, hTail⟩
      rcases h with ⟨e, hPass, hRest⟩ | ⟨hNe, hEnd⟩
      · exact (ih hTail hRest).cons_of_passing (hHead hPass)
      · refine mightWhile_cons.mpr (.inl ⟨hHead hEnd, fun hGo => ?_⟩)
        exact hNe (hGo ▸ rfl)

/- What a test can answer, it might answer. -/
theorem might_of_canEnd
    {t : Test}
    (h : t.CanEnd can root bindings c (.ok b) d) :
    t.Might root b := by
  induction t using shapeInduction generalizing c d b with
  | and ts ih =>
      exact might_and_iff.mpr
        (mightWhile_of_canEndWhile (fun t ht => ih t ht) h)
  | or ts ih =>
      exact might_or_iff.mpr
        (mightWhile_of_canEndWhile (fun t ht => ih t ht) h)
  | alt i ts ih =>
      exact might_alt_iff.mpr
        (mightWhile_of_canEndBranches (fun t ht => ih t ht) h)
  | guard id => exact .guard id b
  | leaf t hLeaf =>
      exact .leaf hLeaf ((canEnd_leaf hLeaf c _ d).mp h).2.symm

end Test

end MatchCompiler

------------------------------------------------------------
-- Simplified Tests
------------------------------------------------------------

namespace MatchCompiler

namespace Test

variable {root : Value}
variable {b : Bool}

/- The conjuncts say no more than the conjunction. -/
theorem mightWhile_of_conjuncts
    {ts us : List Test}
    (hUs : conjuncts ts = some us)
    (h : MightWhile root true us b) :
    MightWhile root true ts b := by
  fun_induction conjuncts ts generalizing us with
  | case1 =>
      cases hUs
      exact h
  | case2 ts ih =>
      exact (ih hUs h).cons_of_passing (.leaf (c := .empty) trivial rfl)
  | case3 ts => cases hUs
  | case4 inner ts ih =>
      rcases Option.map_eq_some_iff.mp hUs with ⟨vs, hVs, rfl⟩
      change MightWhile root true ([.and inner] ++ ts) b
      refine MightWhile.append (fun hInner => ?_) (ih hVs) h
      exact mightWhile_singleton.mpr (might_and_iff.mpr hInner)
  | case5 t ts _ _ _ ih =>
      rcases Option.map_eq_some_iff.mp hUs with ⟨vs, hVs, rfl⟩
      exact h.tail (ih hVs)

/- A simplified conjunction says no more. -/
theorem might_of_conjunction
    {ts : List Test}
    (h : (conjunction ts).Might root b) :
    MightWhile root true ts b := by
  cases hUs : conjuncts ts with
  | none =>
      rw [conjunction_of_none hUs] at h
      have hNever := never_mem_of_conjuncts hUs
      cases h with
      | leaf hLeaf hReading =>
          cases hReading
          exact .inr ⟨Bool.false_ne_true, _, hNever,
            .leaf (c := .empty) trivial rfl⟩
      | fault hLeaf hReading => cases hReading
  | some us =>
      refine mightWhile_of_conjuncts hUs ?_
      unfold conjunction at h
      rw [hUs] at h
      cases us with
      | nil =>
          cases h with
          | leaf hLeaf hReading =>
              cases hReading
              exact .inl ⟨rfl, List.forall_mem_nil _⟩
          | fault hLeaf hReading => cases hReading
      | cons t us =>
          cases us with
          | nil => exact mightWhile_singleton.mpr h
          | cons u vs => exact might_and_iff.mp h

/- The disjuncts say no more than the disjunction. -/
theorem mightWhile_of_disjuncts
    {ts us : List Test}
    (hUs : disjuncts ts = some us)
    (h : MightWhile root false us b) :
    MightWhile root false ts b := by
  fun_induction disjuncts ts generalizing us with
  | case1 =>
      cases hUs
      exact h
  | case2 ts => cases hUs
  | case3 ts ih =>
      exact (ih hUs h).cons_of_passing (.leaf (c := .empty) trivial rfl)
  | case4 inner ts ih =>
      rcases Option.map_eq_some_iff.mp hUs with ⟨vs, hVs, rfl⟩
      change MightWhile root false ([.or inner] ++ ts) b
      refine MightWhile.append (fun hInner => ?_) (ih hVs) h
      exact mightWhile_singleton.mpr (might_or_iff.mpr hInner)
  | case5 t ts _ _ _ ih =>
      rcases Option.map_eq_some_iff.mp hUs with ⟨vs, hVs, rfl⟩
      exact h.tail (ih hVs)

/-
  One test that asks whether some comparison with the same
  observation holds says no more than the comparisons.
-/
theorem mightWhile_of_observations
    {α β : Type}
    {seen : Choices → Except ShapeMismatch α}
    {holds : β → α → Bool}
    {compare : β → Test}
    (hCompare : ∀ k, Observes root seen (holds k) (compare k))
    {k : β}
    {ks : List β}
    {t : Test}
    (hTest :
      Observes root seen (fun y => (k :: ks).any (holds · y)) t)
    (h : t.Might root b) :
    MightWhile root false ((k :: ks).map compare) b := by
  have hCases :
      ∃ c, (∃ cause, seen c = .error cause) ∨
        ∃ y, seen c = .ok y ∧ (k :: ks).any (holds · y) = b := by
    rcases hTest with ⟨hLeaf, hReading⟩
    cases h with
    | @leaf _ c _ _ hOk =>
        rw [hReading c] at hOk
        refine ⟨c, .inr ?_⟩
        cases hSeen : seen c with
        | error cause =>
            rw [hSeen] at hOk
            cases hOk
        | ok y =>
            rw [hSeen] at hOk
            exact ⟨y, rfl, Except.ok.inj hOk⟩
    | @fault _ c cause _ hError =>
        rw [hReading c] at hError
        refine ⟨c, .inl ?_⟩
        cases hSeen : seen c with
        | error cause => exact ⟨cause, rfl⟩
        | ok y =>
            rw [hSeen] at hError
            cases hError
    | guard => exact hLeaf.elim
    | andHolds => exact hLeaf.elim
    | andFails => exact hLeaf.elim
    | orHolds => exact hLeaf.elim
    | orFails => exact hLeaf.elim
    | altHolds => exact hLeaf.elim
    | altFails => exact hLeaf.elim
  rcases hCases with ⟨c, ⟨cause, hSeen⟩ | ⟨y, hSeen, hAny⟩⟩
  · have hFault : ∀ k b, (compare k).Might root b := by
      intro k b
      have hReading : (compare k).reading root c = .error cause := by
        rw [(hCompare k).2, hSeen]
        rfl
      exact .fault (hCompare k).1 hReading b
    cases b with
    | false =>
        refine .inl ⟨rfl, fun u hu => ?_⟩
        rcases List.mem_map.mp hu with ⟨k', -, rfl⟩
        exact hFault k' false
    | true => exact .inr ⟨nofun, compare k, List.mem_cons_self, hFault k true⟩
  · have hAnswer : ∀ k, (compare k).Might root (holds k y) := by
      intro k
      refine .leaf (c := c) (hCompare k).1 ?_
      rw [(hCompare k).2, hSeen]
      rfl
    cases b with
    | false =>
        refine .inl ⟨rfl, fun u hu => ?_⟩
        rcases List.mem_map.mp hu with ⟨k', hk', rfl⟩
        have hNot := List.any_eq_false.mp hAny k' hk'
        exact Bool.eq_false_of_not_eq_true hNot ▸ hAnswer k'
    | true =>
        rcases List.any_eq_true.mp hAny with ⟨k', hk', hHolds⟩
        exact .inr ⟨nofun, compare k', List.mem_map_of_mem hk',
          hHolds ▸ hAnswer k'⟩

/- A run that is grouped says no more. -/
theorem mightWhile_of_groupRun
    (o : LoweringOptions)
    {run : List Test}
    (hChain : run.IsChain (fun t u => joins t u))
    (h : MightWhile root false (groupRun o run) b) :
    MightWhile root false run b := by
  unfold groupRun at h
  split at h
  · exact h
  · cases run with
    | nil => exact h
    | cons t rest =>
        cases t with
        | equals a k =>
            rcases exists_comparands hChain with ⟨ks, rfl⟩
            have hMap := comparands_map a (k :: ks)
            rw [List.map_cons] at hMap
            rw [hMap] at h
            refine mightWhile_of_observations (observes_equals a) ?_
              (mightWhile_singleton.mp h)
            have hTest := @observes_membership root o a (k :: ks).eraseDups
            refine ⟨hTest.1, fun c => (hTest.2 c).trans ?_⟩
            simp only [any_eraseDups]
        | tagIs a l =>
            rcases exists_comparedLabels hChain with ⟨ls, rfl⟩
            have hMap := comparedLabels_map a (l :: ls)
            rw [List.map_cons] at hMap
            rw [hMap] at h
            refine mightWhile_of_observations (observes_tagIs a) ?_
              (mightWhile_singleton.mp h)
            have hTest := @observes_tagIn root a
              ((l :: ls).eraseDupsBy (fun k l => k.ordinal == l.ordinal))
            refine ⟨hTest.1, fun c => (hTest.2 c).trans ?_⟩
            simp only [any_eraseDupsBy_ordinal]
        | _ => exact h

theorem mightWhile_of_groupRuns
    (o : LoweringOptions)
    {ts : List Test}
    (h : MightWhile root false (groupRuns o ts) b) :
    MightWhile root false ts b := by
  have hRuns :
      ∀ (runs : List (List Test)),
        (∀ run ∈ runs, run.IsChain (fun t u => joins t u)) →
        MightWhile root false (runs.flatMap (groupRun o)) b →
        MightWhile root false runs.flatten b := by
    intro runs hChains
    induction runs with
    | nil => exact id
    | cons run runs ih =>
        rcases List.forall_mem_cons.mp hChains with ⟨hHead, hTail⟩
        rw [List.flatMap_cons, List.flatten_cons]
        exact MightWhile.append (mightWhile_of_groupRun o hHead) (ih hTail)
  have hSplit := hRuns (ts.splitBy joins)
    (fun run hRun => List.isChain_of_mem_splitBy hRun) h
  rwa [List.flatten_splitBy] at hSplit

/- A simplified disjunction says no more. -/
theorem might_of_disjunction
    (o : LoweringOptions)
    {ts : List Test}
    (h : (disjunction o ts).Might root b) :
    MightWhile root false ts b := by
  cases hUs : disjuncts ts with
  | none =>
      rw [disjunction_of_none o hUs] at h
      have hAlways := always_mem_of_disjuncts hUs
      cases h with
      | leaf hLeaf hReading =>
          cases hReading
          exact .inr ⟨by decide, _, hAlways, .leaf (c := .empty) trivial rfl⟩
      | fault hLeaf hReading => cases hReading
  | some us =>
      refine mightWhile_of_disjuncts hUs (mightWhile_of_groupRuns o ?_)
      unfold disjunction at h
      rw [hUs, Option.map_some] at h
      generalize groupRuns o us = groups at h ⊢
      cases groups with
      | nil =>
          cases h with
          | leaf hLeaf hReading =>
              cases hReading
              exact .inl ⟨rfl, List.forall_mem_nil _⟩
          | fault hLeaf hReading => cases hReading
      | cons t groups =>
          cases groups with
          | nil => exact mightWhile_singleton.mpr h
          | cons u vs => exact might_or_iff.mp h

theorem mightWhile_of_simplifyAll
    (o : LoweringOptions)
    {go : Bool}
    {ts : List Test}
    (hTests :
      ∀ t ∈ ts, ∀ {b}, (t.simplify o).Might root b → t.Might root b)
    (h : MightWhile root go (simplifyAll o ts) b) :
    MightWhile root go ts b := by
  induction ts with
  | nil => exact h
  | cons t ts ih =>
      rcases List.forall_mem_cons.mp hTests with ⟨hHead, hTail⟩
      change MightWhile root go ([t.simplify o] ++ simplifyAll o ts) b at h
      change MightWhile root go ([t] ++ ts) b
      refine MightWhile.append (fun hFirst => ?_) (ih hTail) h
      exact mightWhile_singleton.mpr
        (hHead (mightWhile_singleton.mp hFirst))

/- What a simplified test might answer, the test might. -/
theorem might_of_simplify
    (o : LoweringOptions)
    {t : Test}
    (h : (t.simplify o).Might root b) :
    t.Might root b := by
  induction t using shapeInduction generalizing b with
  | and ts ih =>
      exact might_and_iff.mpr
        (mightWhile_of_simplifyAll o (fun t ht => ih t ht)
          (might_of_conjunction h))
  | or ts ih =>
      exact might_or_iff.mpr
        (mightWhile_of_simplifyAll o (fun t ht => ih t ht)
          (might_of_disjunction o h))
  | alt i ts ih =>
      exact might_alt_iff.mpr
        (mightWhile_of_simplifyAll o (fun t ht => ih t ht)
          (might_alt_iff.mp h))
  | guard id => exact h
  | leaf t hLeaf =>
      cases t <;> first | exact hLeaf.elim | exact h

end Test

end MatchCompiler

------------------------------------------------------------
-- Answers Of Plans
------------------------------------------------------------

namespace MatchCompiler

namespace Plan

/- A plan might match or not. -/
inductive Might
    (root : Value) : Plan → Bool → Prop
| test
    {t : Test}
    {b : Bool}
    (h : t.Might root b) :
    Might root (.test t) b
| bind
    {p : Plan}
    {b : Bool}
    (x : String)
    (a : Access)
    (h : Might root p b) :
    Might root (.bind x a p) b
| altMatches
    {ps : List Plan}
    {p : Plan}
    (hMem : p ∈ ps)
    (h : Might root p true) :
    Might root (.alt ps) true
| altFails
    {ps : List Plan}
    (h : ∀ p ∈ ps, Might root p false) :
    Might root (.alt ps) false
| allMatch
    {ps : List Plan}
    (h : ∀ p ∈ ps, Might root p true) :
    Might root (.all ps) true
| allFail
    {ps : List Plan}
    {p : Plan}
    (hMem : p ∈ ps)
    (h : Might root p false) :
    Might root (.all ps) false

variable {root : Value}
variable {b : Bool}

/- Plans are lowered one by one. -/
theorem forall₂_lowerAll
    (o : LoweringOptions)
    (ps : List Plan)
    (n : Nat) :
    List.Forall₂ (fun p l => ∃ m, (p.lower o m).1 = l) ps
      (lowerAll o ps n).1 := by
  induction ps generalizing n with
  | nil => exact .nil
  | cons p ps ih => exact .cons ⟨n, rfl⟩ (ih _)

/- The tests of lowered plans are tests of the plans. -/
theorem exists_of_lowerAll
    {o : LoweringOptions}
    {ps : List Plan}
    {n : Nat}
    {go : Bool}
    (hPlans :
      ∀ p ∈ ps, ∀ {n b}, (p.lower o n).1.test.Might root b →
        p.Might root b)
    (h :
      Test.MightWhile root go ((lowerAll o ps n).1.map Lowered.test) b) :
    (b = go ∧ ∀ p ∈ ps, p.Might root go) ∨
    (b ≠ go ∧ ∃ p ∈ ps, p.Might root b) := by
  have hEach := forall₂_lowerAll o ps n
  generalize (lowerAll o ps n).1 = parts at h hEach
  induction hEach with
  | nil =>
      rcases h with ⟨hGo, -⟩ | ⟨-, t, hMem, -⟩
      · exact .inl ⟨hGo, List.forall_mem_nil _⟩
      · cases hMem
  | @cons p l ps parts hFirst hRest ih =>
      rcases List.forall_mem_cons.mp hPlans with ⟨hHead, hTail⟩
      rcases hFirst with ⟨m, rfl⟩
      rcases Test.mightWhile_cons.mp h with ⟨hMight, hNe⟩ | ⟨hMight, hRest⟩
      · exact .inr ⟨hNe, p, List.mem_cons_self, hHead hMight⟩
      · rcases ih hTail hRest with ⟨hGo, hAll⟩ | ⟨hNe, q, hMem, hq⟩
        · exact .inl ⟨hGo,
            List.forall_mem_cons.mpr ⟨hHead (hMight hGo), hAll⟩⟩
        · exact .inr ⟨hNe, q, List.mem_cons_of_mem _ hMem, hq⟩

/- What the test of a lowered plan might answer, the plan might. -/
theorem might_of_lower
    {o : LoweringOptions}
    {p : Plan}
    {n : Nat}
    (h : (p.lower o n).1.test.Might root b) :
    p.Might root b := by
  induction p using partInduction generalizing n b with
  | test t => exact .test h
  | bind x a p ih => exact .bind x a (ih h)
  | alt ps ih =>
      have hBranches :
          Test.MightWhile root false
            ((lowerAll o ps n).1.map Lowered.test) b := by
        simp only [lower, Lowered.join] at h
        split at h
        · rename_i hEmpty
          rw [List.isEmpty_iff.mp hEmpty]
          cases h with
          | leaf hLeaf hReading =>
              cases hReading
              exact .inl ⟨rfl, List.forall_mem_nil _⟩
          | fault hLeaf hReading => cases hReading
        · split at h
          · exact Test.might_or_iff.mp h
          · exact Test.might_alt_iff.mp h
      rcases exists_of_lowerAll (fun p hp => ih p hp) hBranches with
        ⟨rfl, hAll⟩ | ⟨hNe, p, hMem, hMight⟩
      · exact .altFails hAll
      · rw [Bool.eq_true_of_not_eq_false hNe] at hMight ⊢
        exact .altMatches hMem hMight
  | all ps ih =>
      have hParts :
          Test.MightWhile root true
            ((lowerAll o ps n).1.map Lowered.test) b :=
        Test.might_and_iff.mp h
      rcases exists_of_lowerAll (fun p hp => ih p hp) hParts with
        ⟨rfl, hAll⟩ | ⟨hNe, p, hMem, hMight⟩
      · exact .allMatch hAll
      · rw [Bool.eq_false_of_not_eq_true hNe] at hMight ⊢
        exact .allFail hMem hMight

end Plan

/- What a clause answers, the plan of its arm might. -/
theorem CheckedArm.AcceptedFrom.might_of_run
    {arm : CheckedArm}
    {p : Pattern}
    (h : arm.AcceptedFrom p)
    {o : LoweringOptions}
    {i : Nat}
    {σ : Type}
    {host : GuardHost σ}
    {root : Value}
    {s s' : σ}
    {found : Option ValueBindings}
    (hRun : (arm.clause o i).run host root s = (.ok found, s')) :
    (arm.plan o).Might root found.isSome := by
  have hTest :
      ∀ {b d s₁}, (arm.clause o i).test.eval host root
          (arm.clause o i).bindings (Choices.empty, s) =
          (.ok b, (d, s₁)) →
        (arm.plan o).Might root b := by
    intro b d s₁ hEval
    have hEnd := Test.canEnd_of_eval host.within_any _ hEval
    have hMight := Test.might_of_canEnd hEnd
    rw [clause_test] at hMight
    refine Plan.might_of_lower (o := o) (n := 0) ?_
    rw [lower_plan o h.regular i]
    exact Test.might_of_simplify o hMight
  unfold Clause.run at hRun
  rcases hEval : (arm.clause o i).test.eval host root
    (arm.clause o i).bindings (Choices.empty, s) with ⟨r, d, s₁⟩
  rw [hEval] at hRun
  rcases r with cause | b
  · cases hRun
  · cases b with
    | false =>
        cases hRun
        exact hTest hEval
    | true =>
        have hSome : found.isSome = true := by
          simp only [Prod.mk.injEq] at hRun
          rcases hRun with ⟨hValues, -⟩
          cases hRead : (arm.clause o i).bindings.values root d with
          | error cause =>
              rw [hRead] at hValues
              cases hValues
          | ok vs =>
              rw [hRead] at hValues
              cases hValues
              rfl
        exact hSome ▸ hTest hEval

end MatchCompiler
