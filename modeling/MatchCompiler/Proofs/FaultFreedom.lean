import MatchCompiler.Proofs.LabelBounds

/-
  This file shows when running a match does not fault.

  A plan is free of faults if every value that it reads is
  there whatever the guards answer. Parts that are tried in
  turn need be free of faults only where the parts before
  them might match. The clause of an accepted arm faults only
  if its plan does, and this for its bindings as well.

  Key definitions include:
    * `Plan.FaultFree`
    * `Plan.FaultFreeInTurn`

  Key theorems include:
    * `Plan.Yields.might`
    * `Plan.FaultFreeInTurn.append`
    * `CheckedArm.AcceptedFrom.exists_ok_of_run`
    * `Procedure.execute_ne_shapeMismatch`
-/

------------------------------------------------------------
-- Plans That Do Not Fault
------------------------------------------------------------

namespace MatchCompiler

namespace Plan

/- Whatever guards answer, a plan does not fault. -/
def FaultFree
    (root : Value)
    (p : Plan) : Prop :=
  ∀ env r, p.Yields .any root env r → ∃ found, r = .ok found

/- Plans that are tried in turn do not fault. -/
def FaultFreeInTurn
    (root : Value)
    (ps : List Plan) : Prop :=
  ∀ env r, YieldsInTurn .any root ps env r → ∃ found, r = .ok found

variable {can : GuardAnswers}
variable {root : Value}

/- A plan that matches might match. -/
theorem Yields.might
    {p : Plan}
    {env env' : ValueBindings}
    (h : p.Yields can root env (.ok (some env'))) :
    p.Might root true := by
  induction p using partInduction generalizing env env' with
  | test t =>
      refine .test ?_
      have hLeaf :
          ∀ {t : Test}, t.IsLeaf →
            (Plan.test t).Yields can root env (.ok (some env')) →
            t.Might root true := by
        intro t hLeaf hYields
        have hEq := (yields_leaf hLeaf env _).mp hYields
        cases hReading : t.reading root .empty with
        | error cause =>
            rw [hReading] at hEq
            cases hEq
        | ok b =>
            rw [hReading] at hEq
            cases b with
            | false => cases hEq
            | true => exact .leaf hLeaf hReading
      cases t with
      | guard id => exact .guard id true
      | and ts => cases h
      | or ts => cases h
      | alt i ts => cases h
      | _ => exact hLeaf trivial h
  | bind x a p ih =>
      rcases h with ⟨env₁, hInner, -⟩ | ⟨hNe, -⟩
      · exact .bind x a (ih hInner)
      · exact absurd rfl (hNe env')
  | alt ps ih =>
      have hFirst :
          ∀ {ps : List Plan}, YieldsFirst can root ps env (.ok (some env')) →
            ∃ p ∈ ps, p.Yields can root env (.ok (some env')) := by
        intro ps hYields
        induction ps with
        | nil => cases hYields
        | cons p ps ihTail =>
            rcases hYields with ⟨-, hTail⟩ | ⟨-, hHead⟩
            · rcases ihTail hTail with ⟨q, hq, hYields⟩
              exact ⟨q, List.mem_cons_of_mem p hq, hYields⟩
            · exact ⟨p, List.mem_cons_self, hHead⟩
      rcases hFirst h with ⟨p, hp, hYields⟩
      exact .altMatches hp (ih p hp hYields)
  | all ps ih =>
      refine .allMatch ?_
      have hTurn :
          ∀ {ps : List Plan} {env},
            YieldsInTurn can root ps env (.ok (some env')) →
            ∀ p ∈ ps,
              ∃ env env', p.Yields can root env (.ok (some env')) := by
        intro ps env hYields
        induction ps generalizing env with
        | nil => exact List.forall_mem_nil _
        | cons p ps ihTail =>
            rcases hYields with ⟨env₁, hHead, hTail⟩ | ⟨hNe, -⟩
            · exact List.forall_mem_cons.mpr
                ⟨⟨env, env₁, hHead⟩, ihTail hTail⟩
            · exact absurd rfl (hNe env')
      intro p hp
      rcases hTurn h p hp with ⟨_, _, hYields⟩
      exact ih p hp hYields

/- A test that reads what it asks about does not fault. -/
theorem faultFree_leaf
    {t : Test}
    (hLeaf : t.IsLeaf)
    {b : Bool}
    (hReading : t.reading root .empty = .ok b) :
    (Plan.test t).FaultFree root := by
  intro env r h
  rw [(yields_leaf hLeaf env r).mp h, hReading]
  exact ⟨_, rfl⟩

theorem faultFree_always :
    (Plan.test .always).FaultFree root :=
  faultFree_leaf trivial rfl

theorem faultFree_guard
    (id : GuardId) :
    (Plan.test (.guard id)).FaultFree root := by
  rintro env r ⟨b, -, rfl⟩
  exact ⟨_, rfl⟩

theorem FaultFree.bind
    {p : Plan}
    (h : p.FaultFree root)
    (x : String)
    {a : Access}
    {v : Value}
    (hRead : a.resolve root .empty = .ok v) :
    (Plan.bind x a p).FaultFree root := by
  rintro env r (⟨env', -, rfl⟩ | ⟨-, hInner⟩)
  · rw [hRead]
    exact ⟨_, rfl⟩
  · exact h env r hInner

theorem faultFree_alt
    {ps : List Plan}
    (h : ∀ p ∈ ps, p.FaultFree root) :
    (Plan.alt ps).FaultFree root := by
  intro env r hYields
  change YieldsFirst .any root ps env r at hYields
  induction ps with
  | nil => exact ⟨none, hYields⟩
  | cons p ps ih =>
      rcases List.forall_mem_cons.mp h with ⟨hHead, hTail⟩
      rcases hYields with ⟨-, hRest⟩ | ⟨-, hFirst⟩
      · exact ih hTail hRest
      · exact hHead env r hFirst

theorem faultFree_all
    {ps : List Plan}
    (h : FaultFreeInTurn root ps) :
    (Plan.all ps).FaultFree root :=
  h

theorem faultFreeInTurn_nil :
    FaultFreeInTurn root [] :=
  fun env _ h => ⟨some env, h⟩

/- Plans after one are tried only if that one might match. -/
theorem FaultFree.cons
    {p : Plan}
    {ps : List Plan}
    (h : p.FaultFree root)
    (hRest : p.Might root true → FaultFreeInTurn root ps) :
    FaultFreeInTurn root (p :: ps) := by
  rintro env r (⟨env', hHead, hTail⟩ | ⟨-, hHead⟩)
  · exact hRest hHead.might env' r hTail
  · exact h env r hHead

/- Plans after others are tried only if those might match. -/
theorem FaultFreeInTurn.append
    {ps qs : List Plan}
    (h : FaultFreeInTurn root ps)
    (hRest :
      (∀ p ∈ ps, p.Might root true) → FaultFreeInTurn root qs) :
    FaultFreeInTurn root (ps ++ qs) := by
  intro env r hYields
  rcases hYields.split with ⟨env', hFront, hBack⟩ | ⟨-, hFront⟩
  · have hMight : (Plan.all ps).Might root true :=
      Yields.might (p := .all ps) hFront
    exact hRest (might_all_true.mp hMight) env' r hBack
  · exact h env r hFront

theorem faultFreeInTurn_of_forall
    {ps : List Plan}
    (h : ∀ p ∈ ps, p.FaultFree root) :
    FaultFreeInTurn root ps := by
  induction ps with
  | nil => exact faultFreeInTurn_nil
  | cons p ps ih =>
      rcases List.forall_mem_cons.mp h with ⟨hHead, hTail⟩
      exact hHead.cons fun _ => ih hTail

end Plan

end MatchCompiler

------------------------------------------------------------
-- Runs That Do Not Fault
------------------------------------------------------------

namespace MatchCompiler

variable {o : LoweringOptions}
variable {σ : Type}
variable {host : GuardHost σ}
variable {root : Value}

/- Guards that are put off do not fault. -/
theorem CheckedArm.faultFree_plan
    {arm : CheckedArm}
    (hFree : (arm.pattern.plan o false .scrutinee).FaultFree root) :
    (arm.plan o).FaultFree root := by
  refine Plan.faultFree_all (hFree.cons fun _ => ?_)
  refine Plan.faultFreeInTurn_of_forall fun q hq => ?_
  rw [List.map_map, List.mem_map] at hq
  rcases hq with ⟨id, -, rfl⟩
  exact Plan.faultFree_guard id

/-
  The clause of an arm ends with a verdict, and if it matches
  its bindings are read, if the pattern of the arm does not
  fault.
-/
theorem CheckedArm.AcceptedFrom.exists_ok_of_run
    {arm : CheckedArm}
    {p : Pattern}
    (h : arm.AcceptedFrom p)
    (hFree : (arm.pattern.plan o false .scrutinee).FaultFree root)
    {i : Nat}
    {s s' : σ}
    {r : MatchResult}
    (hRun : (arm.clause o i).run host root s = (r, s')) :
    ∃ found, r = .ok found := by
  rcases h.yields_of_run host.within_any (GuardAnswers.follow_any _ _) hRun
    with ⟨r', hYields, hSaid⟩
  rcases CheckedArm.faultFree_plan hFree [] r' hYields with ⟨found, rfl⟩
  cases hSaid with
  | fails => exact ⟨_, rfl⟩
  | «matches» => exact ⟨_, rfl⟩

/- Clauses that end with a verdict are tried without a fault. -/
theorem Clause.runFirst_ne_shapeMismatch
    {clauses : List Clause}
    (h :
      ∀ c ∈ clauses, ∀ s, ∃ found, (c.run host root s).1 = .ok found)
    (state : σ)
    (cause : ShapeMismatch) :
    (Clause.runFirst host root clauses state).1 ≠
      .error (.shapeMismatch cause) := by
  induction clauses generalizing state with
  | nil => exact nofun
  | cons c clauses ih =>
      rcases List.forall_mem_cons.mp h with ⟨hHead, hTail⟩
      rcases hHead state with ⟨found, hFound⟩
      rw [Clause.runFirst]
      cases hRun : c.run host root state with
      | mk r s =>
          rw [hRun] at hFound
          cases hFound
          cases found with
          | none => exact ih hTail s
          | some bindings => exact nofun

/-
  A procedure does not fault, neither in a test nor when the
  bindings of the clause that matches are read, if the
  patterns of its arms do not.
-/
theorem Procedure.execute_ne_shapeMismatch
    {arms : List CheckedArm}
    (h :
      ∀ arm ∈ arms, (∃ p, arm.AcceptedFrom p) ∧
        (arm.pattern.plan o false .scrutinee).FaultFree root)
    (scrutinee : SchemaId)
    (exhaustive : Bool)
    (state : σ)
    (cause : ShapeMismatch) :
    ((Procedure.ofArms o arms scrutinee exhaustive).execute host root
      state).1 ≠ .error (.shapeMismatch cause) := by
  refine Clause.runFirst_ne_shapeMismatch (fun c hc s => ?_) state cause
  rcases List.mem_map.mp hc with ⟨⟨arm, i⟩, hMem, rfl⟩
  rcases h arm (List.fst_mem_of_mem_zipIdx hMem) with ⟨⟨p, hAccepted⟩, hFree⟩
  exact hAccepted.exists_ok_of_run hFree rfl

end MatchCompiler
