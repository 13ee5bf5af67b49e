import MatchCompiler.Proofs.Grouping

/-
  This file shows what form a simplified test has.

  A test is in normal form if no conjunction or disjunction
  in it could be opened, shortened or grouped. Simplifying
  gives a normal form, whatever the limits, and changes no
  normal form. Both rest on the runs of neighbouring
  comparisons: grouping a run leaves a short run or a single
  test that joins no neighbour, so that no run becomes longer
  and the runs of what remains are the runs there were.

  Key definitions include:
    * `Test.Occurs`
    * `Test.ComparesAll`
    * `Test.IsNormal`

  Key theorems include:
    * `Test.groupRuns_short`
    * `Test.groupRuns_of_short`
    * `Test.isNormal_simplify`
    * `Test.simplify_of_isNormal`
    * `Test.simplify_normal_and_stable`
-/

------------------------------------------------------------
-- Normal Forms
------------------------------------------------------------

namespace MatchCompiler

namespace Test

/-
  A test occurs in another if the other is built from it. The
  accesses through which a test reads are no tests.
-/
inductive Occurs
    (u : Test) : Test → Prop
| self :
    Occurs u u
| conjunct
    {t : Test}
    {ts : List Test}
    (hMem : t ∈ ts)
    (h : Occurs u t) :
    Occurs u (.and ts)
| disjunct
    {t : Test}
    {ts : List Test}
    (hMem : t ∈ ts)
    (h : Occurs u t) :
    Occurs u (.or ts)
| branch
    {id : Nat}
    {t : Test}
    {ts : List Test}
    (hMem : t ∈ ts)
    (h : Occurs u t) :
    Occurs u (.alt id ts)

/- At least two tests, none of which is decided. -/
structure Several
    (ts : List Test) : Prop where
  two_le : 2 ≤ ts.length
  always : .always ∉ ts
  never : .never ∉ ts

/- All tests compare one part with constants, or all its tag. -/
def ComparesAll
    (access : Access)
    (run : List Test) : Prop :=
  (∀ t ∈ run, ∃ value, t = .equals access value) ∨
  (∀ t ∈ run, ∃ label, t = .tagIs access label)

/- Neighbours that compare one part are no more than allowed. -/
def ShortRuns
    (o : LoweringOptions)
    (ts : List Test) : Prop :=
  ∀ run access, run <:+: ts → ComparesAll access run →
    run.length ≤ o.literalSetThreshold

/-
  No conjunction or disjunction has fewer than two tests or a
  decided one, none stands directly in one of its kind, and
  the runs of comparisons in a disjunction are short.
-/
structure IsNormal
    (o : LoweringOptions)
    (t : Test) : Prop where
  and :
    ∀ ts, Occurs (.and ts) t → Several ts ∧ ∀ us, .and us ∉ ts
  or :
    ∀ ts, Occurs (.or ts) t →
      Several ts ∧ (∀ us, .or us ∉ ts) ∧ ShortRuns o ts

variable {o : LoweringOptions}
variable {t : Test}
variable {ts : List Test}

/- A conjunction is in normal form if its tests are. -/
theorem isNormal_and
    (hSeveral : Several ts)
    (hOpened : ∀ us, .and us ∉ ts)
    (hTests : ∀ t ∈ ts, t.IsNormal o) :
    IsNormal o (.and ts) where
  and us hOccurs := by
    cases hOccurs with
    | self => exact ⟨hSeveral, hOpened⟩
    | conjunct hMem h => exact (hTests _ hMem).and us h
  or us hOccurs := by
    cases hOccurs with
    | conjunct hMem h => exact (hTests _ hMem).or us h

/- A disjunction is in normal form if its tests are. -/
theorem isNormal_or
    (hSeveral : Several ts)
    (hOpened : ∀ us, .or us ∉ ts)
    (hShort : ShortRuns o ts)
    (hTests : ∀ t ∈ ts, t.IsNormal o) :
    IsNormal o (.or ts) where
  and us hOccurs := by
    cases hOccurs with
    | disjunct hMem h => exact (hTests _ hMem).and us h
  or us hOccurs := by
    cases hOccurs with
    | self => exact ⟨hSeveral, hOpened, hShort⟩
    | disjunct hMem h => exact (hTests _ hMem).or us h

/- An alternation is in normal form if its branches are. -/
theorem isNormal_alt
    (id : Nat)
    (hTests : ∀ t ∈ ts, t.IsNormal o) :
    IsNormal o (.alt id ts) where
  and us hOccurs := by
    cases hOccurs with
    | branch hMem h => exact (hTests _ hMem).and us h
  or us hOccurs := by
    cases hOccurs with
    | branch hMem h => exact (hTests _ hMem).or us h

theorem isNormal_guard
    (id : GuardId) :
    IsNormal o (.guard id) where
  and _ hOccurs := nomatch hOccurs
  or _ hOccurs := nomatch hOccurs

/- What is not built from others is in normal form. -/
theorem IsLeaf.isNormal
    (h : t.IsLeaf) :
    t.IsNormal o where
  and ts hOccurs := by
    cases hOccurs <;> exact h.elim
  or ts hOccurs := by
    cases hOccurs <;> exact h.elim

/- What occurs in a normal form is in normal form. -/
theorem IsNormal.of_occurs
    {u : Test}
    (h : t.IsNormal o)
    (hPart : ∀ {v}, Occurs v u → Occurs v t) :
    u.IsNormal o where
  and ts hOccurs := h.and ts (hPart hOccurs)
  or ts hOccurs := h.or ts (hPart hOccurs)

end Test

end MatchCompiler

------------------------------------------------------------
-- Opened Lists
------------------------------------------------------------

namespace MatchCompiler

namespace Test

variable {o : LoweringOptions}
variable {t u : Test}
variable {ts us : List Test}

/- The conjuncts that one test of a conjunction stands for. -/
def asConjuncts : Test → List Test
| .always => []
| .and inner => inner
| t => [t]

/- The disjuncts that one test of a disjunction stands for. -/
def asDisjuncts : Test → List Test
| .never => []
| .or inner => inner
| t => [t]

/- A conjunction is opened test by test. -/
theorem conjuncts_eq_flatMap
    (h : conjuncts ts = some us) :
    .never ∉ ts ∧ us = ts.flatMap asConjuncts := by
  fun_induction conjuncts ts generalizing us with
  | case1 =>
      cases h
      exact ⟨List.not_mem_nil, rfl⟩
  | case2 ts ih =>
      rcases ih h with ⟨hNever, rfl⟩
      exact ⟨by simp [hNever], rfl⟩
  | case3 => cases h
  | case4 inner ts ih =>
      rcases Option.map_eq_some_iff.mp h with ⟨vs, hRest, rfl⟩
      rcases ih hRest with ⟨hNever, rfl⟩
      exact ⟨by simp [hNever], rfl⟩
  | case5 t ts hAlways hNever hAnd ih =>
      rcases Option.map_eq_some_iff.mp h with ⟨vs, hRest, rfl⟩
      rcases ih hRest with ⟨hNone, rfl⟩
      refine ⟨List.not_mem_cons_of_ne_of_not_mem (Ne.symm hNever) hNone, ?_⟩
      cases t <;> simp_all [asConjuncts]

/- A disjunction is opened test by test. -/
theorem disjuncts_eq_flatMap
    (h : disjuncts ts = some us) :
    .always ∉ ts ∧ us = ts.flatMap asDisjuncts := by
  fun_induction disjuncts ts generalizing us with
  | case1 =>
      cases h
      exact ⟨List.not_mem_nil, rfl⟩
  | case2 => cases h
  | case3 ts ih =>
      rcases ih h with ⟨hAlways, rfl⟩
      exact ⟨by simp [hAlways], rfl⟩
  | case4 inner ts ih =>
      rcases Option.map_eq_some_iff.mp h with ⟨vs, hRest, rfl⟩
      rcases ih hRest with ⟨hAlways, rfl⟩
      exact ⟨by simp [hAlways], rfl⟩
  | case5 t ts hAlways hNever hOr ih =>
      rcases Option.map_eq_some_iff.mp h with ⟨vs, hRest, rfl⟩
      rcases ih hRest with ⟨hNone, rfl⟩
      refine ⟨List.not_mem_cons_of_ne_of_not_mem (Ne.symm hAlways) hNone, ?_⟩
      cases t <;> simp_all [asDisjuncts]

/- An opened conjunction of normal forms stays opened. -/
theorem isNormal_of_mem_conjuncts
    (hTests : ∀ t ∈ ts, t.IsNormal o)
    (h : conjuncts ts = some us)
    (hMem : u ∈ us) :
    u.IsNormal o ∧ u ≠ .always ∧ u ≠ .never ∧ ∀ vs, u ≠ .and vs := by
  rcases conjuncts_eq_flatMap h with ⟨hNever, rfl⟩
  rcases List.mem_flatMap.mp hMem with ⟨t, ht, hIn⟩
  have hNormal := hTests t ht
  by_cases hAnd : ∃ inner, t = .and inner
  · rcases hAnd with ⟨inner, rfl⟩
    have hMem : u ∈ inner := hIn
    rcases hNormal.and inner .self with ⟨hSeveral, hOpened⟩
    refine ⟨hNormal.of_occurs (.conjunct hMem), ?_, ?_, ?_⟩
    · rintro rfl
      exact hSeveral.always hMem
    · rintro rfl
      exact hSeveral.never hMem
    · rintro vs rfl
      exact hOpened vs hMem
  · have hOwn : u = t ∧ t ≠ .always := by
      cases t <;> simp_all [asConjuncts]
    rcases hOwn with ⟨rfl, hAlways⟩
    refine ⟨hNormal, hAlways, ?_, ?_⟩
    · rintro rfl
      exact hNever ht
    · rintro vs rfl
      exact hAnd ⟨vs, rfl⟩

/- An opened disjunction of normal forms stays opened. -/
theorem isNormal_of_mem_disjuncts
    (hTests : ∀ t ∈ ts, t.IsNormal o)
    (h : disjuncts ts = some us)
    (hMem : u ∈ us) :
    u.IsNormal o ∧ u ≠ .always ∧ u ≠ .never ∧ ∀ vs, u ≠ .or vs := by
  rcases disjuncts_eq_flatMap h with ⟨hAlways, rfl⟩
  rcases List.mem_flatMap.mp hMem with ⟨t, ht, hIn⟩
  have hNormal := hTests t ht
  by_cases hOr : ∃ inner, t = .or inner
  · rcases hOr with ⟨inner, rfl⟩
    have hMem : u ∈ inner := hIn
    rcases hNormal.or inner .self with ⟨hSeveral, hOpened, -⟩
    refine ⟨hNormal.of_occurs (.disjunct hMem), ?_, ?_, ?_⟩
    · rintro rfl
      exact hSeveral.always hMem
    · rintro rfl
      exact hSeveral.never hMem
    · rintro vs rfl
      exact hOpened vs hMem
  · have hOwn : u = t ∧ t ≠ .never := by
      cases t <;> simp_all [asDisjuncts]
    rcases hOwn with ⟨rfl, hNever⟩
    refine ⟨hNormal, ?_, hNever, ?_⟩
    · rintro rfl
      exact hAlways ht
    · rintro vs rfl
      exact hOr ⟨vs, rfl⟩

/- A list without nested and decided tests is opened already. -/
theorem conjuncts_of_opened
    (hSeveral : .always ∉ ts ∧ .never ∉ ts)
    (hOpened : ∀ us, .and us ∉ ts) :
    conjuncts ts = some ts := by
  fun_induction conjuncts ts with
  | case1 => rfl
  | case2 ts => exact absurd List.mem_cons_self hSeveral.1
  | case3 ts => exact absurd List.mem_cons_self hSeveral.2
  | case4 inner ts => exact absurd List.mem_cons_self (hOpened inner)
  | case5 t ts _ _ _ ih =>
      simp only [List.mem_cons, not_or] at hSeveral hOpened
      rw [ih ⟨hSeveral.1.2, hSeveral.2.2⟩ fun us => (hOpened us).2,
        Option.map_some]

theorem disjuncts_of_opened
    (hSeveral : .always ∉ ts ∧ .never ∉ ts)
    (hOpened : ∀ us, .or us ∉ ts) :
    disjuncts ts = some ts := by
  fun_induction disjuncts ts with
  | case1 => rfl
  | case2 ts => exact absurd List.mem_cons_self hSeveral.1
  | case3 ts => exact absurd List.mem_cons_self hSeveral.2
  | case4 inner ts => exact absurd List.mem_cons_self (hOpened inner)
  | case5 t ts _ _ _ ih =>
      simp only [List.mem_cons, not_or] at hSeveral hOpened
      rw [ih ⟨hSeveral.1.2, hSeveral.2.2⟩ fun us => (hOpened us).2,
        Option.map_some]

end Test

end MatchCompiler

------------------------------------------------------------
-- Runs Of Comparisons
------------------------------------------------------------

namespace MatchCompiler

/-
  A chain in joined groups lies in one group if the last of a
  group and the first of the next do not chain.
-/
theorem exists_infix_of_flatten
    {α : Type}
    {r : α → α → Bool}
    {groups : List (List α)}
    (hApart :
      groups.IsChain fun g g' =>
        ∃ ha hb, r (g.getLast ha) (g'.head hb) = false)
    {run : List α}
    (hRun : run <:+: groups.flatten)
    (hChain : run.IsChain fun a b => r a b)
    (hSome : run ≠ []) :
    ∃ g ∈ groups, run <:+: g := by
  induction groups with
  | nil => exact absurd (List.infix_nil.mp hRun) hSome
  | cons g groups ih =>
      have hLater :
          run <:+: groups.flatten → ∃ g' ∈ g :: groups, run <:+: g' := by
        intro hRest
        rcases ih hApart.tail hRest with ⟨g', hMem, hIn⟩
        exact ⟨g', List.mem_cons_of_mem _ hMem, hIn⟩
      rw [List.flatten_cons] at hRun
      rcases List.infix_append_iff.mp hRun with
        hHead | hTail | ⟨front, back, rfl, hFront, hBack⟩
      · exact ⟨g, List.mem_cons_self, hHead⟩
      · exact hLater hTail
      · by_cases hNoBack : back = []
        · rw [hNoBack, List.append_nil]
          exact ⟨g, List.mem_cons_self, hFront.isInfix⟩
        · by_cases hNoFront : front = []
          · rw [hNoFront, List.nil_append] at hLater ⊢
            exact hLater hBack.isInfix
          · -- A chain across the border joins what is apart.
            exfalso
            rcases hFront with ⟨before, rfl⟩
            rcases hBack with ⟨after, hAfter⟩
            cases groups with
            | nil => simp [hNoBack] at hAfter
            | cons g' groups =>
                rcases (List.isChain_cons_cons.mp hApart).1 with
                  ⟨hg, hg', hBorder⟩
                have hJoined := (List.isChain_append.mp hChain).2.2
                  _ (List.getLast?_eq_some_getLast hNoFront)
                  _ (List.head?_eq_some_head hNoBack)
                have hHead := congrArg List.head? hAfter
                rw [List.flatten_cons,
                  List.head?_append_of_ne_nil _ hNoBack,
                  List.head?_append_of_ne_nil _ hg',
                  List.head?_eq_some_head hNoBack,
                  List.head?_eq_some_head hg'] at hHead
                rw [List.getLast_append_of_ne_nil hg hNoFront,
                  ← Option.some.inj hHead, hJoined] at hBorder
                cases hBorder

namespace Test

variable {o : LoweringOptions}
variable {a : Access}
variable {t u : Test}
variable {ts run : List Test}

/- Comparisons of one part form a chain. -/
theorem ComparesAll.isChain
    (h : ComparesAll a run) :
    run.IsChain fun t u => joins t u := by
  induction run with
  | nil => exact .nil
  | cons t run ih =>
      refine List.isChain_cons.mpr ⟨fun u hu => ?_, ih ?_⟩
      · have hMem := List.mem_cons_of_mem t (List.mem_of_mem_head? hu)
        rcases h with h | h
        · rcases h t List.mem_cons_self with ⟨k, rfl⟩
          rcases h u hMem with ⟨l, rfl⟩
          exact a.beq_self
        · rcases h t List.mem_cons_self with ⟨k, rfl⟩
          rcases h u hMem with ⟨l, rfl⟩
          exact a.beq_self
      · exact h.imp (fun h => (List.forall_mem_cons.mp h).2)
          fun h => (List.forall_mem_cons.mp h).2

/- A test that compares one part, alone or in a longer chain. -/
theorem comparesAll_of_isChain
    (hChain : (t :: run).IsChain fun t u => joins t u)
    (hJoins : joins t u = true) :
    ∃ a, ComparesAll a (t :: run) := by
  cases t with
  | equals a k =>
      rcases exists_comparands hChain with ⟨ks, rfl⟩
      exact ⟨a, .inl (by simp)⟩
  | tagIs a l =>
      rcases exists_comparedLabels hChain with ⟨ls, rfl⟩
      exact ⟨a, .inr (by simp)⟩
  | _ => cases hJoins

/- A test that joins no other, on either side. -/
def StandsAlone (t : Test) : Prop :=
  ∀ u, joins t u = false ∧ joins u t = false

/- A test for membership, which a long run becomes. -/
def IsMembership : Test → Prop
| .oneOf _ _ | .oneOfTexts _ _ | .tagIn _ _ => True
| _ => False

theorem IsMembership.isLeaf
    (h : t.IsMembership) :
    t.IsLeaf := by
  cases t <;> trivial

theorem IsMembership.standsAlone
    (h : t.IsMembership) :
    t.StandsAlone := by
  intro u
  cases t <;> first | exact ⟨rfl, by cases u <;> rfl⟩ | exact h.elim

theorem isMembership_membership
    (o : LoweringOptions)
    (a : Access)
    (values : List Literal) :
    (membership o a values).IsMembership := by
  unfold membership
  split
  · split <;> trivial
  · trivial

/-
  A run that is grouped is short and stays, or becomes one
  test that joins no other.
-/
theorem groupRun_cases
    (o : LoweringOptions)
    (hChain : run.IsChain fun t u => joins t u) :
    (groupRun o run = run ∧ run.length ≤ o.literalSetThreshold) ∨
    ∃ t, groupRun o run = [t] ∧ t.StandsAlone ∧
      (t ∈ run ∨ t.IsMembership) := by
  -- A test that joins no other is a run by itself.
  have hAlone :
      ∀ t rest, run = t :: rest → t.StandsAlone →
        ∃ u, run = [u] ∧ u.StandsAlone ∧ (u ∈ run ∨ u.IsMembership) := by
    rintro t rest rfl hAlone
    cases rest with
    | nil => exact ⟨t, rfl, hAlone, .inl List.mem_cons_self⟩
    | cons u rest =>
        have hJoins := (List.isChain_cons_cons.mp hChain).1
        rw [(hAlone u).1] at hJoins
        cases hJoins
  unfold groupRun
  split
  · rename_i hShort
    exact .inl ⟨rfl, hShort⟩
  · rename_i hLong
    right
    cases run with
    | nil => exact absurd (Nat.zero_le _) hLong
    | cons t rest =>
        cases t with
        | equals a k =>
            have hMember := isMembership_membership o a
              (comparands (.equals a k :: rest)).eraseDups
            exact ⟨_, rfl, hMember.standsAlone, .inr hMember⟩
        | tagIs a l =>
            exact ⟨_, rfl, IsMembership.standsAlone trivial, .inr trivial⟩
        | _ =>
            exact hAlone _ rest rfl fun u => ⟨rfl, by cases u <;> rfl⟩

/- Grouped tests are tests of the list or memberships. -/
theorem mem_groupRuns
    (hMem : t ∈ groupRuns o ts) :
    t ∈ ts ∨ t.IsMembership := by
  rcases List.mem_flatMap.mp hMem with ⟨run, hRun, hIn⟩
  have hOwn : ∀ u ∈ run, u ∈ ts := by
    intro u hu
    rw [← List.flatten_splitBy joins ts]
    exact List.mem_flatten_of_mem hRun hu
  rcases groupRun_cases o (List.isChain_of_mem_splitBy hRun) with
    ⟨hSame, -⟩ | ⟨u, hSame, -, hMember⟩
  · rw [hSame] at hIn
    exact .inl (hOwn t hIn)
  · rw [hSame] at hIn
    cases List.mem_singleton.mp hIn
    exact hMember.imp_left (hOwn t)

/- What stood apart stands apart when it is grouped. -/
theorem groupRun_apart
    {run' : List Test}
    (hRun : run.IsChain fun t u => joins t u)
    (hRun' : run'.IsChain fun t u => joins t u)
    (hApart :
      ∃ ha hb, joins (run.getLast ha) (run'.head hb) = false) :
    ∃ ha hb,
      joins ((groupRun o run).getLast ha) ((groupRun o run').head hb) =
        false := by
  rcases hApart with ⟨ha, hb, hApart⟩
  rcases groupRun_cases o hRun with ⟨hKept, -⟩ | ⟨t, hOne, hAlone, -⟩ <;>
    rcases groupRun_cases o hRun' with
      ⟨hKept', -⟩ | ⟨u, hOne', hAlone', -⟩
  · simp only [hKept, hKept']
    exact ⟨ha, hb, hApart⟩
  · simp only [hKept, hOne']
    exact ⟨ha, List.cons_ne_nil _ _, (hAlone' _).2⟩
  · simp only [hOne, hKept']
    exact ⟨List.cons_ne_nil _ _, hb, (hAlone _).1⟩
  · simp only [hOne, hOne']
    exact ⟨List.cons_ne_nil _ _, List.cons_ne_nil _ _, (hAlone _).1⟩

/- Grouping leaves short runs only. -/
theorem groupRuns_short
    (o : LoweringOptions)
    (ts : List Test) :
    ShortRuns o (groupRuns o ts) := by
  intro run access hRun hCompares
  by_cases hNone : run = []
  · rw [hNone]
    exact Nat.zero_le _
  · have hChains :
        ∀ g ∈ ts.splitBy joins, g.IsChain fun t u => joins t u :=
      fun _ hg => List.isChain_of_mem_splitBy hg
    have hApart :
        ((ts.splitBy joins).map (groupRun o)).IsChain fun g g' =>
          ∃ ha hb, joins (g.getLast ha) (g'.head hb) = false := by
      rw [List.isChain_map]
      refine List.IsChain.imp_of_mem_imp ?_
        (List.isChain_getLast_head_splitBy joins ts)
      intro g g' hg hg' hApart
      exact groupRun_apart (hChains g hg) (hChains g' hg') hApart
    have hGroups :
        groupRuns o ts = ((ts.splitBy joins).map (groupRun o)).flatten :=
      List.flatMap_def
    rw [hGroups] at hRun
    rcases exists_infix_of_flatten hApart hRun hCompares.isChain hNone with
      ⟨group, hGroup, hIn⟩
    rcases List.mem_map.mp hGroup with ⟨g, hg, rfl⟩
    rcases groupRun_cases o (hChains g hg) with
      ⟨hKept, hShort⟩ | ⟨t, hOne, hAlone, -⟩
    · rw [hKept] at hIn
      exact hIn.length_le.trans hShort
    · -- The only test of the group would join itself.
      exfalso
      rw [hOne] at hIn
      have hMem : ∀ u ∈ run, u = t :=
        fun u hu => List.mem_singleton.mp (hIn.subset hu)
      rcases List.exists_mem_of_ne_nil run hNone with ⟨u, hu⟩
      cases hMem u hu
      have hJoins : joins t t = true := by
        rcases hCompares with h | h
        · rcases h t hu with ⟨k, rfl⟩
          exact access.beq_self
        · rcases h t hu with ⟨l, rfl⟩
          exact access.beq_self
      rw [(hAlone t).1] at hJoins
      cases hJoins

/- Short runs are not grouped. -/
theorem groupRuns_of_short
    (h : ShortRuns o ts) :
    groupRuns o ts = ts := by
  have hKept : ∀ run ∈ ts.splitBy joins, groupRun o run = run := by
    intro run hRun
    have hInfix : run <:+: ts := by
      rw [← List.flatten_splitBy joins ts]
      exact List.infix_of_mem_flatten hRun
    have hChain := List.isChain_of_mem_splitBy hRun
    unfold groupRun
    split
    · rfl
    · rename_i hLong
      cases run with
      | nil => rfl
      | cons t rest =>
          have hCompares : joins t t = true → False := by
            intro hJoins
            rcases comparesAll_of_isChain hChain hJoins with ⟨a, ha⟩
            exact hLong (h _ a hInfix ha)
          cases t with
          | equals a k => exact (hCompares a.beq_self).elim
          | tagIs a l => exact (hCompares a.beq_self).elim
          | _ => rfl
  unfold groupRuns
  rw [List.flatMap_congr hKept, List.flatMap_id', List.flatten_splitBy]

end Test

end MatchCompiler

------------------------------------------------------------
-- Simplified Tests
------------------------------------------------------------

namespace MatchCompiler

namespace Test

variable {o : LoweringOptions}
variable {t : Test}
variable {ts : List Test}

/- A conjunction of normal forms is brought into normal form. -/
theorem isNormal_conjunction
    (hTests : ∀ t ∈ ts, t.IsNormal o) :
    (conjunction ts).IsNormal o := by
  unfold conjunction
  cases h : conjuncts ts with
  | none => exact IsLeaf.isNormal trivial
  | some us =>
      have hParts := fun u => isNormal_of_mem_conjuncts (u := u) hTests h
      match us with
      | [] => exact IsLeaf.isNormal trivial
      | [t] => exact (hParts t List.mem_cons_self).1
      | t :: u :: vs =>
          refine isNormal_and ⟨by simp, fun hMem => ?_, fun hMem => ?_⟩
            (fun ws hMem => ?_) fun t ht => (hParts t ht).1
          · exact (hParts _ hMem).2.1 rfl
          · exact (hParts _ hMem).2.2.1 rfl
          · exact (hParts _ hMem).2.2.2 ws rfl

/- A disjunction of normal forms is brought into normal form. -/
theorem isNormal_disjunction
    (hTests : ∀ t ∈ ts, t.IsNormal o) :
    (disjunction o ts).IsNormal o := by
  unfold disjunction
  cases h : disjuncts ts with
  | none => exact IsLeaf.isNormal trivial
  | some us =>
      have hParts :
          ∀ u ∈ groupRuns o us,
            u.IsNormal o ∧ u ≠ .always ∧ u ≠ .never ∧
              ∀ vs, u ≠ .or vs := by
        intro u hu
        rcases mem_groupRuns hu with hOwn | hMember
        · exact isNormal_of_mem_disjuncts hTests h hOwn
        · refine ⟨hMember.isLeaf.isNormal, ?_, ?_, ?_⟩
          · rintro rfl
            exact hMember
          · rintro rfl
            exact hMember
          · rintro vs rfl
            exact hMember
      have hShort := groupRuns_short o us
      rw [Option.map_some]
      generalize groupRuns o us = groups at hParts hShort
      match groups with
      | [] => exact IsLeaf.isNormal trivial
      | [t] => exact (hParts t List.mem_cons_self).1
      | t :: u :: vs =>
          refine isNormal_or ⟨by simp, fun hMem => ?_, fun hMem => ?_⟩
            (fun ws hMem => ?_) hShort fun t ht => (hParts t ht).1
          · exact (hParts _ hMem).2.1 rfl
          · exact (hParts _ hMem).2.2.1 rfl
          · exact (hParts _ hMem).2.2.2 ws rfl

theorem simplifyAll_eq_map
    (o : LoweringOptions)
    (ts : List Test) :
    simplifyAll o ts = ts.map (simplify o) := by
  induction ts with
  | nil => rfl
  | cons t ts ih => rw [simplifyAll, ih, List.map_cons]

/- A simplified test is in normal form. -/
theorem isNormal_simplify
    (o : LoweringOptions)
    (t : Test) :
    (t.simplify o).IsNormal o := by
  have hAll :
      ∀ {ts : List Test}, (∀ t ∈ ts, (t.simplify o).IsNormal o) →
        ∀ u ∈ simplifyAll o ts, u.IsNormal o := by
    intro ts ih u hu
    rw [simplifyAll_eq_map] at hu
    rcases List.mem_map.mp hu with ⟨t, ht, rfl⟩
    exact ih t ht
  induction t using shapeInduction with
  | and ts ih => exact isNormal_conjunction (hAll ih)
  | or ts ih => exact isNormal_disjunction (hAll ih)
  | alt id ts ih => exact isNormal_alt id (hAll ih)
  | guard id => exact isNormal_guard id
  | leaf t hLeaf =>
      have hSame : t.simplify o = t := by
        cases t <;> first | rfl | exact hLeaf.elim
      rw [hSame]
      exact hLeaf.isNormal

/- A test in normal form is simplified to itself. -/
theorem simplify_of_isNormal
    (h : t.IsNormal o) :
    t.simplify o = t := by
  have hAll :
      ∀ {ts : List Test},
        (∀ t ∈ ts, t.IsNormal o → t.simplify o = t) →
        (∀ t ∈ ts, t.IsNormal o) → simplifyAll o ts = ts := by
    intro ts ih hTests
    rw [simplifyAll_eq_map]
    exact (List.map_congr_left fun t ht => ih t ht (hTests t ht)).trans
      (List.map_id ts)
  induction t using shapeInduction with
  | and ts ih =>
      rcases h.and ts .self with ⟨hSeveral, hOpened⟩
      have hTests : ∀ t ∈ ts, t.IsNormal o :=
        fun t ht => h.of_occurs (.conjunct ht)
      rw [simplify, hAll ih hTests, conjunction,
        conjuncts_of_opened ⟨hSeveral.always, hSeveral.never⟩ hOpened]
      match ts, hSeveral.two_le with
      | _ :: _ :: _, _ => rfl
  | or ts ih =>
      rcases h.or ts .self with ⟨hSeveral, hOpened, hShort⟩
      have hTests : ∀ t ∈ ts, t.IsNormal o :=
        fun t ht => h.of_occurs (.disjunct ht)
      rw [simplify, hAll ih hTests, disjunction,
        disjuncts_of_opened ⟨hSeveral.always, hSeveral.never⟩ hOpened,
        Option.map_some, groupRuns_of_short hShort]
      match ts, hSeveral.two_le with
      | _ :: _ :: _, _ => rfl
  | alt id ts ih =>
      rw [simplify, hAll ih fun t ht => h.of_occurs (.branch ht)]
  | guard id => rfl
  | leaf t hLeaf => cases t <;> first | rfl | exact hLeaf.elim

/-
  In a simplified test no conjunction or disjunction has
  fewer than two tests or a decided one, none stands directly
  in one of its kind, and no more comparisons of one part
  stand side by side in a disjunction than the limit allows.
  Simplifying once more changes nothing.
-/
theorem simplify_normal_and_stable
    (o : LoweringOptions)
    (t : Test) :
    (t.simplify o).IsNormal o ∧
    (t.simplify o).simplify o = t.simplify o :=
  ⟨isNormal_simplify o t, simplify_of_isNormal (isNormal_simplify o t)⟩

end Test

end MatchCompiler
