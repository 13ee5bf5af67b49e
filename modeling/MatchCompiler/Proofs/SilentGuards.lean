import MatchCompiler.Proofs.FaultFreedom

/-
  This file shows when a match selects no arm although guards
  can only take arms away.

  All guards are answered with no. A plan then misses a value
  if no run of it matches; it misses exactly if every run
  even ends with a verdict. One part that misses is enough
  for parts that are tried in turn, and the parts before it
  count only if the plan has to miss exactly. A match whose
  arms all miss a value ends without an arm.

  Key definitions include:
    * `GuardAnswers.silent`
    * `Plan.Misses`
    * `Plan.MissesInTurn`

  Key theorems include:
    * `Plan.MissesInTurn.of_mem`
    * `CheckedArm.AcceptedFrom.run_of_misses`
    * `Procedure.execute_eq_noMatch`
-/

------------------------------------------------------------
-- Plans That Miss
------------------------------------------------------------

namespace MatchCompiler

/- Every guard is answered with no. -/
def GuardAnswers.silent : GuardAnswers :=
  .ofFunction fun _ _ => false

namespace Plan

/-
  With guards that answer no, a plan never matches. If it
  misses exactly, it does not fault either.
-/
def Misses
    (exact : Prop)
    (root : Value)
    (p : Plan) : Prop :=
  ∀ env r, p.Yields .silent root env r →
    (∀ env', r ≠ .ok (some env')) ∧ (exact → r = .ok none)

/- The same for plans that are tried in turn. -/
def MissesInTurn
    (exact : Prop)
    (root : Value)
    (ps : List Plan) : Prop :=
  ∀ env r, YieldsInTurn .silent root ps env r →
    (∀ env', r ≠ .ok (some env')) ∧ (exact → r = .ok none)

variable {exact : Prop}
variable {root : Value}

theorem misses_of_none
    {r : MatchResult}
    (h : r = .ok none) :
    (∀ env', r ≠ .ok (some env')) ∧ (exact → r = .ok none) := by
  subst h
  exact ⟨nofun, fun _ => rfl⟩

/- A test that fails misses. -/
theorem misses_leaf
    {t : Test}
    (hLeaf : t.IsLeaf)
    (hReading : t.reading root .empty = .ok false) :
    (Plan.test t).Misses exact root := by
  intro env r h
  rw [(yields_leaf hLeaf env r).mp h, hReading]
  exact misses_of_none rfl

/- So does a guard. -/
theorem misses_guard
    (id : GuardId) :
    (Plan.test (.guard id)).Misses exact root := by
  rintro env r ⟨b, rfl, rfl⟩
  exact misses_of_none rfl

theorem Misses.bind
    {p : Plan}
    (h : p.Misses exact root)
    (x : String)
    (a : Access) :
    (Plan.bind x a p).Misses exact root := by
  rintro env r (⟨env', hInner, -⟩ | ⟨-, hInner⟩)
  · exact absurd rfl ((h env _ hInner).1 env')
  · exact h env r hInner

/- An alternation misses if all branches do. -/
theorem misses_alt
    {ps : List Plan}
    (h : ∀ p ∈ ps, p.Misses exact root) :
    (Plan.alt ps).Misses exact root := by
  intro env r hYields
  change YieldsFirst .silent root ps env r at hYields
  induction ps with
  | nil => exact misses_of_none hYields
  | cons p ps ih =>
      rcases List.forall_mem_cons.mp h with ⟨hHead, hTail⟩
      rcases hYields with ⟨-, hRest⟩ | ⟨-, hFirst⟩
      · exact ih hTail hRest
      · exact hHead env r hFirst

theorem misses_all
    {ps : List Plan}
    (h : MissesInTurn exact root ps) :
    (Plan.all ps).Misses exact root :=
  h

/- What comes after a plan that misses is not tried. -/
theorem Misses.cons
    {p : Plan}
    (h : p.Misses exact root)
    (ps : List Plan) :
    MissesInTurn exact root (p :: ps) := by
  rintro env r (⟨env', hHead, -⟩ | ⟨-, hHead⟩)
  · exact absurd rfl ((h env _ hHead).1 env')
  · exact h env r hHead

/- A test with an answer may come before a plan that misses. -/
theorem MissesInTurn.cons_leaf
    {ps : List Plan}
    (h : MissesInTurn exact root ps)
    {t : Test}
    (hLeaf : t.IsLeaf)
    {b : Bool}
    (hReading : t.reading root .empty = .ok b) :
    MissesInTurn exact root (.test t :: ps) := by
  rintro env r (⟨env', -, hTail⟩ | ⟨hNe, hHead⟩)
  · exact h env' r hTail
  · have hResult := (yields_leaf hLeaf env r).mp hHead
    rw [hReading] at hResult
    cases b with
    | false => exact misses_of_none hResult
    | true => exact absurd hResult (hNe env)

/- So may several. -/
theorem MissesInTurn.append_leaves
    {ps : List Plan}
    (h : MissesInTurn exact root ps)
    {ts : List Test}
    (hLeaves :
      ∀ t ∈ ts, t.IsLeaf ∧ ∃ b, t.reading root .empty = .ok b) :
    MissesInTurn exact root (ts.map Plan.test ++ ps) := by
  induction ts with
  | nil => exact h
  | cons t ts ih =>
      rcases List.forall_mem_cons.mp hLeaves with ⟨⟨hLeaf, b, hb⟩, hRest⟩
      exact (ih hRest).cons_leaf hLeaf hb

/- Several tests with an answer, one of which is no. -/
theorem missesInTurn_of_leaf
    {ts : List Test}
    (hLeaves :
      ∀ t ∈ ts, t.IsLeaf ∧ ∃ b, t.reading root .empty = .ok b)
    {t : Test}
    (hMem : t ∈ ts)
    (hReading : t.reading root .empty = .ok false)
    (ps : List Plan) :
    MissesInTurn exact root (ts.map Plan.test ++ ps) := by
  rcases List.append_of_mem hMem with ⟨before, after, rfl⟩
  rcases List.forall_mem_append.mp hLeaves with ⟨hBefore, hAfter⟩
  have hFails : (Plan.test t).Misses exact root :=
    misses_leaf (hAfter t List.mem_cons_self).1 hReading
  rw [List.map_append, List.append_assoc, List.map_cons,
    List.cons_append]
  exact (hFails.cons _).append_leaves hBefore

/- Where faults do not count, one plan that misses is enough. -/
theorem MissesInTurn.of_mem
    (hLoose : ¬ exact)
    {p : Plan}
    {ps : List Plan}
    (hMem : p ∈ ps)
    (h : p.Misses exact root) :
    MissesInTurn exact root ps := by
  induction ps with
  | nil => cases hMem
  | cons q qs ih =>
      rcases List.mem_cons.mp hMem with rfl | hMem
      · exact h.cons qs
      · rintro env r (⟨env', -, hTail⟩ | ⟨hNe, -⟩)
        · exact ih hMem env' r hTail
        · exact ⟨hNe, fun hExact => absurd hExact hLoose⟩

/- More answers make more results possible. -/
theorem Yields.mono
    {can can' : GuardAnswers}
    (hCan : ∀ id env b, can id env b → can' id env b)
    {p : Plan}
    {env : ValueBindings}
    {r : MatchResult}
    (h : p.Yields can root env r) :
    p.Yields can' root env r := by
  induction p using partInduction generalizing env r with
  | test t =>
      by_cases hLeaf : t.IsLeaf
      · exact (yields_leaf hLeaf env r).mpr ((yields_leaf hLeaf env r).mp h)
      · cases t with
        | guard id =>
            rcases h with ⟨b, hb, rfl⟩
            exact ⟨b, hCan id env b hb, rfl⟩
        | and | or | alt => exact h
        | _ => exact absurd trivial hLeaf
  | bind x a p ih =>
      rcases h with ⟨env', hInner, hEq⟩ | ⟨hNe, hInner⟩
      · exact .inl ⟨env', ih hInner, hEq⟩
      · exact .inr ⟨hNe, ih hInner⟩
  | alt ps ih =>
      change YieldsFirst can root ps env r at h
      change YieldsFirst can' root ps env r
      induction ps with
      | nil => exact h
      | cons p ps ihAll =>
          rcases List.forall_mem_cons.mp ih with ⟨hHead, hTail⟩
          rcases h with ⟨hFails, hRest⟩ | ⟨hNe, hFirst⟩
          · exact .inl ⟨hHead hFails, ihAll hTail hRest⟩
          · exact .inr ⟨hNe, hHead hFirst⟩
  | all ps ih =>
      change YieldsInTurn can root ps env r at h
      change YieldsInTurn can' root ps env r
      induction ps generalizing env with
      | nil => exact h
      | cons p ps ihAll =>
          rcases List.forall_mem_cons.mp ih with ⟨hHead, hTail⟩
          rcases h with ⟨env', hFirst, hRest⟩ | ⟨hNe, hFirst⟩
          · exact .inl ⟨env', hHead hFirst, ihAll hTail hRest⟩
          · exact .inr ⟨hNe, hHead hFirst⟩

/- What has to miss exactly does so. -/
theorem Misses.exactly
    {p : Plan}
    (h : p.Misses exact root)
    (hExact : exact) :
    p.Misses True root :=
  fun env r hYields =>
    ⟨(h env r hYields).1, fun _ => (h env r hYields).2 hExact⟩

/- What misses and does not fault ends with no match. -/
theorem Misses.exact_of_faultFree
    {p : Plan}
    (h : p.Misses exact root)
    (hFree : p.FaultFree root) :
    p.Misses True root := by
  intro env r hYields
  rcases hFree env r (hYields.mono fun _ _ _ _ => trivial) with
    ⟨found, rfl⟩
  cases found with
  | none => exact misses_of_none rfl
  | some env' => exact absurd rfl ((h env _ hYields).1 env')

end Plan

end MatchCompiler

------------------------------------------------------------
-- Runs Without An Arm
------------------------------------------------------------

namespace MatchCompiler

variable {o : LoweringOptions}
variable {σ : Type}
variable {host : GuardHost σ}
variable {root : Value}

/- A clause whose plan misses exactly does not match. -/
theorem CheckedArm.AcceptedFrom.run_of_misses
    {arm : CheckedArm}
    {p : Pattern}
    (h : arm.AcceptedFrom p)
    (hHost : host.AnsweredBy fun _ _ => false)
    (hMisses : (arm.plan o).Misses True root)
    (i : Nat)
    (s : σ) :
    ((arm.clause o i).run host root s).1 = .ok none := by
  have hFollow :
      GuardAnswers.Follow (· ∈ p.guards)
        (.ofFunction fun _ _ => false) .silent :=
    fun _ _ _ _ _ _ hb => hb
  rcases h.yields_of_run hHost hFollow
      (Prod.eta ((arm.clause o i).run host root s)).symm with
    ⟨r, hYields, hSaid⟩
  cases (hMisses [] r hYields).2 trivial
  generalize ((arm.clause o i).run host root s).1 = found at hSaid ⊢
  cases hSaid with
  | fails => rfl

/- Clauses that do not match are all tried. -/
theorem Clause.runFirst_eq_noMatch
    {clauses : List Clause}
    (h : ∀ c ∈ clauses, ∀ s, (c.run host root s).1 = .ok none)
    (state : σ) :
    (Clause.runFirst host root clauses state).1 = .error .noMatch := by
  induction clauses generalizing state with
  | nil => rfl
  | cons c clauses ih =>
      rcases List.forall_mem_cons.mp h with ⟨hHead, hTail⟩
      have hFound := hHead state
      rw [Clause.runFirst]
      cases hRun : c.run host root state with
      | mk r s =>
          rw [hRun] at hFound
          cases hFound
          exact ih hTail s

/- A match whose arms all miss a value ends without an arm. -/
theorem Procedure.execute_eq_noMatch
    {arms : List CheckedArm}
    (hHost : host.AnsweredBy fun _ _ => false)
    (h :
      ∀ arm ∈ arms, (∃ p, arm.AcceptedFrom p) ∧
        (arm.plan o).Misses True root)
    (scrutinee : SchemaId)
    (exhaustive : Bool)
    (state : σ) :
    ((Procedure.ofArms o arms scrutinee exhaustive).execute host root
      state).1 = .error .noMatch := by
  refine Clause.runFirst_eq_noMatch (fun c hc s => ?_) state
  rcases List.mem_map.mp hc with ⟨⟨arm, i⟩, hMem, rfl⟩
  rcases h arm (List.fst_mem_of_mem_zipIdx hMem) with
    ⟨⟨p, hAccepted⟩, hMisses⟩
  exact hAccepted.run_of_misses hHost hMisses i s

end MatchCompiler
