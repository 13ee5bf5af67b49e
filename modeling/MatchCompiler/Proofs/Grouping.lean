import Mathlib.Data.List.SplitBy
import MatchCompiler.Procedure.Simplify
import MatchCompiler.Proofs.Equality
import MatchCompiler.Proofs.Evaluation

/-
  This file shows which steps of simplification change no
  outcome at all.

  Opening nested conjunctions and disjunctions, dropping what
  is absorbed without cutting anything off, and grouping runs
  of comparisons keep exactly the outcomes, with the choices
  they end in. What is left is the one inexact step: a
  conjunction with a test that never holds becomes that test,
  and a disjunction with one that always holds likewise.

  Key theorems include:
    * `Test.canEndWhile_append`
    * `Test.canEnd_conjunction`
    * `Test.canEndWhile_groupRuns`
    * `Test.canEnd_disjunction`
-/

------------------------------------------------------------
-- Lists Of Tests
------------------------------------------------------------

namespace MatchCompiler

namespace Test

variable {can : GuardAnswers}
variable {root : Value}
variable {bindings : AccessBindings}
variable {go : Bool}
variable {c d : Choices}
variable {r : Except ShapeMismatch Bool}

/- One test alone ends as it does by itself. -/
theorem canEndWhile_singleton
    (t : Test) :
    CanEndWhile can root bindings go [t] c r d ↔
      t.CanEnd can root bindings c r d := by
  simp only [CanEndWhile]
  constructor
  · rintro (⟨e, hEnd, rfl, rfl⟩ | ⟨-, hEnd⟩)
    · exact hEnd
    · exact hEnd
  · intro hEnd
    by_cases hGo : r = .ok go
    · subst hGo
      exact Or.inl ⟨d, hEnd, rfl, rfl⟩
    · exact Or.inr ⟨hGo, hEnd⟩

/- Tests in two parts are tried one part after the other. -/
theorem canEndWhile_append
    (ts us : List Test) :
    CanEndWhile can root bindings go (ts ++ us) c r d ↔
      (∃ e, CanEndWhile can root bindings go ts c (.ok go) e ∧
        CanEndWhile can root bindings go us e r d) ∨
      (r ≠ .ok go ∧
        CanEndWhile can root bindings go ts c r d) := by
  induction ts generalizing c with
  | nil =>
      simp only [List.nil_append, CanEndWhile]
      constructor
      · intro h
        exact Or.inl ⟨c, ⟨rfl, trivial⟩, h⟩
      · rintro (⟨e, ⟨rfl, -⟩, h⟩ | ⟨hNe, -, hEq⟩)
        · exact h
        · exact absurd hEq hNe
  | cons t ts ih =>
      simp only [List.cons_append, CanEndWhile, ih]
      constructor
      · rintro (⟨e, hEnd, ⟨f, hTs, hUs⟩ | ⟨hNe, hTs⟩⟩ | ⟨hNe, hEnd⟩)
        · exact Or.inl ⟨f, Or.inl ⟨e, hEnd, hTs⟩, hUs⟩
        · exact Or.inr ⟨hNe, Or.inl ⟨e, hEnd, hTs⟩⟩
        · exact Or.inr ⟨hNe, Or.inr ⟨hNe, hEnd⟩⟩
      · rintro (⟨f, ⟨e, hEnd, hTs⟩ | ⟨hNe, -⟩, hUs⟩ |
          ⟨hNe, ⟨e, hEnd, hTs⟩ | ⟨-, hEnd⟩⟩)
        · exact Or.inl ⟨e, hEnd, Or.inl ⟨f, hTs, hUs⟩⟩
        · exact absurd rfl hNe
        · exact Or.inl ⟨e, hEnd, Or.inr ⟨hNe, hTs⟩⟩
        · exact Or.inr ⟨hNe, hEnd⟩

/- A list may be opened in front of other tests. -/
theorem canEndWhile_append_congr
    {ts ts' us us' : List Test}
    (hFront :
      ∀ {c d r}, CanEndWhile can root bindings go ts c r d ↔
        CanEndWhile can root bindings go ts' c r d)
    (hBack :
      ∀ {c d r}, CanEndWhile can root bindings go us c r d ↔
        CanEndWhile can root bindings go us' c r d) :
    CanEndWhile can root bindings go (ts ++ us) c r d ↔
      CanEndWhile can root bindings go (ts' ++ us') c r d := by
  simp only [canEndWhile_append, hFront, hBack]

/- The same tests may follow one test. -/
theorem canEndWhile_cons_congr
    (t : Test)
    {us us' : List Test}
    (hBack :
      ∀ {c d r}, CanEndWhile can root bindings go us c r d ↔
        CanEndWhile can root bindings go us' c r d) :
    CanEndWhile can root bindings go (t :: us) c r d ↔
      CanEndWhile can root bindings go (t :: us') c r d := by
  simp only [CanEndWhile, hBack]

/- A leaf that answers `go` under all choices is passed. -/
theorem canEndWhile_passing
    {t : Test}
    (hEnd :
      ∀ {c d r}, t.CanEnd can root bindings c r d ↔
        d = c ∧ r = .ok go)
    {ts : List Test} :
    CanEndWhile can root bindings go (t :: ts) c r d ↔
      CanEndWhile can root bindings go ts c r d := by
  simp only [CanEndWhile, hEnd]
  constructor
  · rintro (⟨e, ⟨rfl, -⟩, hRest⟩ | ⟨hNe, -, hEq⟩)
    · exact hRest
    · exact absurd hEq hNe
  · intro hRest
    exact Or.inl ⟨c, ⟨rfl, trivial⟩, hRest⟩

end Test

end MatchCompiler

------------------------------------------------------------
-- Conjunctions
------------------------------------------------------------

namespace MatchCompiler

namespace Test

variable {can : GuardAnswers}
variable {root : Value}
variable {bindings : AccessBindings}
variable {c d : Choices}
variable {r : Except ShapeMismatch Bool}

/- The conjuncts of a conjunction end as it does. -/
theorem canEndWhile_conjuncts
    {ts us : List Test}
    (h : conjuncts ts = some us) :
    CanEndWhile can root bindings true us c r d ↔
      CanEndWhile can root bindings true ts c r d := by
  fun_induction conjuncts ts generalizing us c d r with
  | case1 =>
      cases h
      rfl
  | case2 ts ih =>
      rw [ih h]
      exact (canEndWhile_passing Iff.rfl).symm
  | case3 ts => cases h
  | case4 inner ts ih =>
      rcases Option.map_eq_some_iff.mp h with ⟨vs, hVs, rfl⟩
      rw [← List.singleton_append]
      refine canEndWhile_append_congr ?_ (ih hVs)
      intro c d r
      exact (canEndWhile_singleton (.and inner)).symm
  | case5 t ts _ _ _ ih =>
      rcases Option.map_eq_some_iff.mp h with ⟨vs, hVs, rfl⟩
      exact canEndWhile_cons_congr t (ih hVs)

/- Only a test that never holds cuts a conjunction off. -/
theorem never_mem_of_conjuncts
    {ts : List Test}
    (h : conjuncts ts = none) :
    Test.never ∈ ts := by
  fun_induction conjuncts ts with
  | case1 => cases h
  | case2 ts ih => exact List.mem_cons_of_mem _ (ih h)
  | case3 ts => exact List.mem_cons_self
  | case4 inner ts ih =>
      exact List.mem_cons_of_mem _ (ih (Option.map_eq_none_iff.mp h))
  | case5 t ts _ _ _ ih =>
      exact List.mem_cons_of_mem _ (ih (Option.map_eq_none_iff.mp h))

/-
  A conjunction that is not cut off ends as its tests do one
  after the other.
-/
theorem canEnd_conjunction
    {ts us : List Test}
    (h : conjuncts ts = some us) :
    (conjunction ts).CanEnd can root bindings c r d ↔
      CanEndWhile can root bindings true ts c r d := by
  rw [← canEndWhile_conjuncts h]
  unfold conjunction
  rw [h]
  match us with
  | [] => rfl
  | [t] => exact (canEndWhile_singleton t).symm
  | t :: u :: vs => rfl

/- A conjunction that is cut off never holds. -/
theorem conjunction_of_none
    {ts : List Test}
    (h : conjuncts ts = none) :
    conjunction ts = .never := by
  unfold conjunction
  rw [h]

end Test

end MatchCompiler

------------------------------------------------------------
-- Runs Of Comparisons
------------------------------------------------------------

namespace MatchCompiler

namespace Test

variable {can : GuardAnswers}
variable {root : Value}
variable {bindings : AccessBindings}
variable {c d : Choices}
variable {r : Except ShapeMismatch Bool}

/-
  The test makes one observation and answers from it, and is
  not built from others.
-/
def Observes
    {α : Type}
    (root : Value)
    (seen : Choices → Except ShapeMismatch α)
    (holds : α → Bool)
    (t : Test) : Prop :=
  t.IsLeaf ∧ ∀ c, t.reading root c = (seen c).map holds

theorem canEnd_of_observes
    {α : Type}
    {seen : Choices → Except ShapeMismatch α}
    {holds : α → Bool}
    {t : Test}
    (h : Observes root seen holds t) :
    t.CanEnd can root bindings c r d ↔
      d = c ∧ r = (seen c).map holds := by
  rw [canEnd_leaf h.1, h.2]

/-
  A disjunction of tests on one observation is one test: it
  faults if the observation does, and otherwise asks whether
  some comparison holds.
-/
theorem canEndWhile_observations
    {α β : Type}
    {seen : Choices → Except ShapeMismatch α}
    {holds : β → α → Bool}
    {compare : β → Test}
    (hCompare : ∀ k, Observes root seen (holds k) (compare k))
    (k : β)
    (ks : List β) :
    CanEndWhile can root bindings false
        ((k :: ks).map compare) c r d ↔
      d = c ∧
        r = (seen c).map (fun y => (k :: ks).any (holds · y)) := by
  induction ks generalizing k with
  | nil =>
      rw [List.map_singleton, canEndWhile_singleton,
        canEnd_of_observes (hCompare k)]
      simp
  | cons k' ks ih =>
      rw [List.map_cons]
      simp only [CanEndWhile, canEnd_of_observes (hCompare k)]
      cases hSeen : seen c with
      | error cause =>
          simp only [Except.map]
          constructor
          · rintro (⟨e, ⟨-, hEq⟩, -⟩ | ⟨-, hEnd⟩)
            · cases hEq
            · exact hEnd
          · rintro ⟨rfl, rfl⟩
            exact Or.inr ⟨nofun, rfl, rfl⟩
      | ok y =>
          simp only [Except.map, List.any_cons]
          cases hHolds : holds k y with
          | true =>
              constructor
              · rintro (⟨e, ⟨-, hEq⟩, -⟩ | ⟨-, hEnd⟩)
                · cases hEq
                · simpa using hEnd
              · rintro ⟨rfl, rfl⟩
                exact Or.inr ⟨by simp, rfl, by simp⟩
          | false =>
              constructor
              · rintro (⟨e, ⟨rfl, -⟩, hRest⟩ | ⟨hNe, -, hEq⟩)
                · simpa [hSeen, Except.map] using (ih k').mp hRest
                · exact absurd hEq hNe
              · rintro ⟨rfl, rfl⟩
                refine Or.inl ⟨_, ⟨rfl, rfl⟩, (ih k').mpr ⟨rfl, ?_⟩⟩
                simp [hSeen, Except.map]

/- The value that an access leads to, as an observation. -/
theorem observes_equals
    (a : Access)
    (k : Literal) :
    Observes root (fun c => a.resolve root c)
      (fun v => v.equals k) (.equals a k) :=
  ⟨trivial, fun _ => rfl⟩

/- The number that an access leads to, as an observation. -/
theorem observes_tagIs
    (a : Access)
    (l : Member) :
    Observes root (fun c => a.resolve root c >>= Value.readOrdinal)
      (fun n => l.ordinal == n) (.tagIs a l) := by
  refine ⟨trivial, fun c => ?_⟩
  simp only [reading, query]
  cases a.resolve root c with
  | error cause => rfl
  | ok v =>
      simp only [bind, Except.bind]
      cases v.readOrdinal with
      | error cause => rfl
      | ok n =>
          change Except.ok (n == l.ordinal) = .ok (l.ordinal == n)
          rw [Bool.beq_comm]

/- Membership among labels is one comparison with each. -/
theorem observes_tagIn
    (a : Access)
    (ls : List Member) :
    Observes root (fun c => a.resolve root c >>= Value.readOrdinal)
      (fun n => ls.any (fun l => l.ordinal == n)) (.tagIn a ls) := by
  refine ⟨trivial, fun c => ?_⟩
  simp only [reading, query]
  cases a.resolve root c with
  | error cause => rfl
  | ok v =>
      simp only [bind, Except.bind]
      cases v.readOrdinal <;> rfl

/- A run that starts with a comparison holds only such. -/
theorem exists_comparands
    {a : Access}
    {k : Literal}
    {ts : List Test}
    (h : List.IsChain (fun t u => joins t u) (.equals a k :: ts)) :
    ∃ ks : List Literal, ts = ks.map (Test.equals a) := by
  induction ts generalizing k with
  | nil => exact ⟨[], rfl⟩
  | cons t ts ih =>
      rw [List.isChain_cons_cons] at h
      rcases h with ⟨hJoins, hTail⟩
      cases t <;> simp only [joins, Bool.false_eq_true] at hJoins
      cases Access.eq_of_beq hJoins
      rcases ih hTail with ⟨ks, rfl⟩
      exact ⟨_ :: ks, rfl⟩

/- A run that starts with a tag test holds only such. -/
theorem exists_comparedLabels
    {a : Access}
    {l : Member}
    {ts : List Test}
    (h : List.IsChain (fun t u => joins t u) (.tagIs a l :: ts)) :
    ∃ ls : List Member, ts = ls.map (Test.tagIs a) := by
  induction ts generalizing l with
  | nil => exact ⟨[], rfl⟩
  | cons t ts ih =>
      rw [List.isChain_cons_cons] at h
      rcases h with ⟨hJoins, hTail⟩
      cases t <;> simp only [joins, Bool.false_eq_true] at hJoins
      cases Access.eq_of_beq hJoins
      rcases ih hTail with ⟨ls, rfl⟩
      exact ⟨_ :: ls, rfl⟩

theorem comparands_map
    (a : Access)
    (ks : List Literal) :
    comparands (ks.map (Test.equals a)) = ks := by
  simp [comparands, List.filterMap_map]

theorem comparedLabels_map
    (a : Access)
    (ls : List Member) :
    comparedLabels (ls.map (Test.tagIs a)) = ls := by
  simp [comparedLabels, List.filterMap_map]

/- The texts of string literals spell the literals. -/
theorem eq_map_of_texts?
    {values : List Literal}
    {texts : List String}
    (h : texts? values = some texts) :
    values = texts.map Literal.str := by
  induction values generalizing texts with
  | nil =>
      cases h
      rfl
  | cons l ls ih =>
      unfold texts? at h ih
      rw [List.mapM_cons] at h
      cases l <;> simp only [Option.bind_eq_bind, Option.bind_some,
        Option.bind_none, Option.bind_eq_some_iff, reduceCtorEq] at h
      rcases h with ⟨rest, hRest, hEq⟩
      cases hEq
      rw [List.map_cons, ← ih hRest]

/- Membership is one comparison with each constant. -/
theorem observes_membership
    (o : LoweringOptions)
    (a : Access)
    (values : List Literal) :
    Observes root (fun c => a.resolve root c)
      (fun v => values.any v.equals) (membership o a values) := by
  unfold membership
  split
  · rename_i texts hTexts
    split
    · rw [eq_map_of_texts? hTexts]
      refine ⟨trivial, fun c => ?_⟩
      simp only [reading, query]
      cases a.resolve root c with
      | error cause => rfl
      | ok v =>
          simp only [bind, Except.bind, Except.map, pure,
            Except.pure, List.any_map, Function.comp_def]
          cases v with
          | str s =>
              simp only [Value.isTextIn, Value.equals]
              rw [List.contains_eq_any_beq]
          | _ => simp [Value.isTextIn, Value.equals]
    · exact ⟨trivial, fun _ => rfl⟩
  · exact ⟨trivial, fun _ => rfl⟩

/- Dropping repeated constants changes no membership. -/
theorem any_eraseDups
    {α : Type}
    [DecidableEq α]
    (f : α → Bool)
    (ks : List α) :
    ks.eraseDups.any f = ks.any f := by
  rw [Bool.eq_iff_iff]
  simp only [List.any_eq_true, List.mem_eraseDups]

/- Dropping labels with a repeated number changes none. -/
theorem any_eraseDupsBy_ordinal
    (n : Int)
    (ls : List Member) :
    (ls.eraseDupsBy (fun k l => k.ordinal == l.ordinal)).any
        (fun l => l.ordinal == n) =
      ls.any (fun l => l.ordinal == n) := by
  induction hLen : ls.length using Nat.strong_induction_on
    generalizing ls with
  | _ m ih =>
      cases ls with
      | nil => rfl
      | cons l ls =>
          rw [List.eraseDupsBy_cons]
          simp only [List.any_cons]
          have hShort :
              (ls.filter (fun k => (k.ordinal == l.ordinal) = false)).length
                < m := by
            have hLe := List.length_filter_le
              (fun k : Member => (k.ordinal == l.ordinal) = false) ls
            simp only [List.length_cons] at hLen
            omega
          rw [ih _ hShort _ rfl]
          cases hEq : l.ordinal == n with
          | true => rfl
          | false =>
              simp only [Bool.false_or]
              rw [List.any_filter]
              congr 1
              funext k
              by_cases hSame : k.ordinal = l.ordinal
              · simp [hSame, hEq]
              · simp [hSame]

/- Grouping one run changes no outcome. -/
theorem canEndWhile_groupRun
    (o : LoweringOptions)
    {run : List Test}
    (hChain : run.IsChain (fun t u => joins t u)) :
    CanEndWhile can root bindings false (groupRun o run) c r d ↔
      CanEndWhile can root bindings false run c r d := by
  unfold groupRun
  split
  · rfl
  · cases run with
    | nil => rfl
    | cons t rest =>
        cases t with
        | equals a k =>
            rcases exists_comparands hChain with ⟨ks, rfl⟩
            have hMap := comparands_map a (k :: ks)
            rw [List.map_cons] at hMap
            rw [hMap, canEndWhile_singleton, ← List.map_cons,
              canEnd_of_observes (observes_membership o a _),
              canEndWhile_observations (observes_equals a)]
            simp only [any_eraseDups]
        | tagIs a l =>
            rcases exists_comparedLabels hChain with ⟨ls, rfl⟩
            have hMap := comparedLabels_map a (l :: ls)
            rw [List.map_cons] at hMap
            rw [hMap, canEndWhile_singleton, ← List.map_cons,
              canEnd_of_observes (observes_tagIn a _),
              canEndWhile_observations (observes_tagIs a)]
            simp only [any_eraseDupsBy_ordinal]
        | _ => rfl

/- Grouping all runs changes no outcome. -/
theorem canEndWhile_groupRuns
    (o : LoweringOptions)
    (ts : List Test) :
    CanEndWhile can root bindings false (groupRuns o ts) c r d ↔
      CanEndWhile can root bindings false ts c r d := by
  have hRuns :
      ∀ (runs : List (List Test)),
        (∀ run ∈ runs, run.IsChain (fun t u => joins t u)) →
        ∀ {c d r},
          CanEndWhile can root bindings false
              (runs.flatMap (groupRun o)) c r d ↔
            CanEndWhile can root bindings false
              runs.flatten c r d := by
    intro runs hChains
    induction runs with
    | nil => exact Iff.rfl
    | cons run runs ih =>
        rcases List.forall_mem_cons.mp hChains with ⟨hHead, hTail⟩
        intro c d r
        rw [List.flatMap_cons, List.flatten_cons]
        exact canEndWhile_append_congr
          (canEndWhile_groupRun o hHead) (ih hTail)
  have hSplit :=
    @hRuns (ts.splitBy joins)
      (fun run hRun => List.isChain_of_mem_splitBy hRun) c d r
  rw [List.flatten_splitBy] at hSplit
  exact hSplit

end Test

end MatchCompiler

------------------------------------------------------------
-- Disjunctions
------------------------------------------------------------

namespace MatchCompiler

namespace Test

variable {can : GuardAnswers}
variable {root : Value}
variable {bindings : AccessBindings}
variable {c d : Choices}
variable {r : Except ShapeMismatch Bool}

/- The disjuncts of a disjunction end as it does. -/
theorem canEndWhile_disjuncts
    {ts us : List Test}
    (h : disjuncts ts = some us) :
    CanEndWhile can root bindings false us c r d ↔
      CanEndWhile can root bindings false ts c r d := by
  fun_induction disjuncts ts generalizing us c d r with
  | case1 =>
      cases h
      rfl
  | case2 ts => cases h
  | case3 ts ih =>
      rw [ih h]
      exact (canEndWhile_passing Iff.rfl).symm
  | case4 inner ts ih =>
      rcases Option.map_eq_some_iff.mp h with ⟨vs, hVs, rfl⟩
      rw [← List.singleton_append]
      refine canEndWhile_append_congr ?_ (ih hVs)
      intro c d r
      exact (canEndWhile_singleton (.or inner)).symm
  | case5 t ts _ _ _ ih =>
      rcases Option.map_eq_some_iff.mp h with ⟨vs, hVs, rfl⟩
      exact canEndWhile_cons_congr t (ih hVs)

/- Only a test that always holds cuts a disjunction off. -/
theorem always_mem_of_disjuncts
    {ts : List Test}
    (h : disjuncts ts = none) :
    Test.always ∈ ts := by
  fun_induction disjuncts ts with
  | case1 => cases h
  | case2 ts => exact List.mem_cons_self
  | case3 ts ih => exact List.mem_cons_of_mem _ (ih h)
  | case4 inner ts ih =>
      exact List.mem_cons_of_mem _ (ih (Option.map_eq_none_iff.mp h))
  | case5 t ts _ _ _ ih =>
      exact List.mem_cons_of_mem _ (ih (Option.map_eq_none_iff.mp h))

/-
  A disjunction that is not cut off ends as its tests do one
  after the other.
-/
theorem canEnd_disjunction
    (o : LoweringOptions)
    {ts us : List Test}
    (h : disjuncts ts = some us) :
    (disjunction o ts).CanEnd can root bindings c r d ↔
      CanEndWhile can root bindings false ts c r d := by
  rw [← canEndWhile_disjuncts h, ← canEndWhile_groupRuns o us]
  unfold disjunction
  rw [h, Option.map_some]
  match groupRuns o us with
  | [] => rfl
  | [t] => exact (canEndWhile_singleton t).symm
  | t :: u :: vs => rfl

/- A disjunction that is cut off always holds. -/
theorem disjunction_of_none
    (o : LoweringOptions)
    {ts : List Test}
    (h : disjuncts ts = none) :
    disjunction o ts = .always := by
  unfold disjunction
  rw [h, Option.map_none]

/- A disjunction of one test ends as that test. -/
theorem canEnd_disjunction_singleton
    (o : LoweringOptions)
    (t : Test) :
    (disjunction o [t]).CanEnd can root bindings c r d ↔
      t.CanEnd can root bindings c r d := by
  cases h : disjuncts [t] with
  | none =>
      have hMem := always_mem_of_disjuncts h
      rw [List.mem_singleton] at hMem
      rw [disjunction_of_none o h, hMem]
  | some us =>
      rw [canEnd_disjunction o h, canEndWhile_singleton]

end Test

end MatchCompiler
