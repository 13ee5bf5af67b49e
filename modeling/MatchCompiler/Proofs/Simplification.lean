import Mathlib.Data.Set.BooleanAlgebra
import Mathlib.Order.CompletePartialOrder
import MatchCompiler.Proofs.Grouping

/-
  This file shows that simplifying a test keeps its meaning.

  A cut-off conjunction or disjunction drops tests, and with
  them faults, guards and notes about alternations. Every
  outcome of the simplified test is therefore followed by an
  outcome of the test itself that faults or agrees, where the
  choices may differ at dead alternations: those in branches
  that have failed. The proof carries the set of the dead
  ones and the fact that no binding shows them.

  Key definitions include:
    * `AccessBindings.ReadAlike`
    * `AccessBindings.Hides`
    * `AccessBindings.HidesBranches`
    * `Test.Orderly`
    * `Test.Agrees`

  Key theorems include:
    * `Test.Orderly.followed`
    * `Test.Orderly.canEnd_of_simplify`
    * `Test.Orderly.eval_simplify`
-/

------------------------------------------------------------
-- Bindings That Do Not Show A Choice
------------------------------------------------------------

namespace MatchCompiler

namespace AccessBindings

/- The bindings are read alike under two sets of choices. -/
def ReadAlike
    (root : Value)
    (bindings : AccessBindings)
    (c d : Choices) : Prop :=
  ∀ b ∈ bindings, b.2.resolve root c = b.2.resolve root d

namespace ReadAlike

variable {root : Value}
variable {bindings : AccessBindings}
variable {c d e : Choices}

theorem trans
    (h : ReadAlike root bindings c d)
    (h' : ReadAlike root bindings d e) :
    ReadAlike root bindings c e :=
  fun b hb => (h b hb).trans (h' b hb)

/- A host sees the same bindings. -/
theorem readable_eq
    (h : ReadAlike root bindings c d) :
    bindings.readable root c = bindings.readable root d :=
  readable_congr h

/- The same values are read. -/
theorem values_eq
    (h : ReadAlike root bindings c d) :
    bindings.values root c = bindings.values root d :=
  values_congr h

end ReadAlike

/-
  From some choices on, and as long as alternations change
  only in `F`, no binding shows what is noted for `D`.
-/
def Hides
    (root : Value)
    (bindings : AccessBindings)
    (F D : Set Nat)
    (c : Choices) : Prop :=
  ∀ e d, Choices.SameOutside F e c → Choices.SameOutside D d e →
    ReadAlike root bindings e d

/-
  No binding shows what is noted inside a branch while some
  other branch of the alternation is noted.
-/
def HidesBranches
    (root : Value)
    (bindings : AccessBindings)
    (i : Nat)
    (branches : List Test) : Prop :=
  ∀ c d : Choices, c i = d i →
    (∀ j, c j = d j ∨
      ∃ k t, branches[k]? = some t ∧ j ∈ t.alts ∧ c i ≠ some k) →
    ReadAlike root bindings c d

namespace Hides

variable {root : Value}
variable {bindings : AccessBindings}
variable {F F' D : Set Nat}
variable {c c' : Choices}

/- What may change less is hidden the more. -/
theorem mono
    (h : Hides root bindings F D c)
    (hSub : F' ⊆ F) :
    Hides root bindings F' D c :=
  fun e d he hd => h e d (he.mono hSub) hd

/- Hiding lasts while alternations change in `F` only. -/
theorem step
    (h : Hides root bindings F D c)
    (hStep : Choices.SameOutside F c' c) :
    Hides root bindings F D c' :=
  fun e d he hd => h e d (he.trans hStep) hd

/- Nothing has to be hidden of no alternation. -/
theorem empty
    (root : Value)
    (bindings : AccessBindings)
    (F : Set Nat)
    (c : Choices) :
    Hides root bindings F ∅ c := by
  intro e d _ hd b _
  rw [hd.eq_of_empty]

/- Two runs that differ where it is hidden read alike. -/
theorem readAlike
    (h : Hides root bindings F D c)
    (hSame : Choices.SameOutside D c c') :
    ReadAlike root bindings c c' :=
  h c c' (.refl F c) hSame.symm

end Hides

end AccessBindings

end MatchCompiler

------------------------------------------------------------
-- Orderly Tests
------------------------------------------------------------

namespace MatchCompiler

namespace Test

/- No two of some tests have an alternation in common. -/
def Apart (ts : List Test) : Prop :=
  ts.Pairwise (fun t u => Disjoint t.alts u.alts)

/-
  The test notes alternations in a way that lets dead ones be
  told apart: each has a number of its own, a disjunction of
  several tests holds none, and a branch is hidden unless it
  is the one noted. Leaves do not read the numbers in `U`.
-/
inductive Orderly
    (root : Value)
    (bindings : AccessBindings)
    (U : Set Nat) : Test → Prop
| and
    {ts : List Test}
    (hTests : ∀ t ∈ ts, Orderly root bindings U t)
    (hApart : Apart ts) :
    Orderly root bindings U (.and ts)
| or
    {ts : List Test}
    (hTests : ∀ t ∈ ts, Orderly root bindings U t)
    (hPlain : altsOfAll ts = ∅) :
    Orderly root bindings U (.or ts)
| one
    {t : Test}
    (hTest : Orderly root bindings U t) :
    Orderly root bindings U (.or [t])
| alt
    {i : Nat}
    {ts : List Test}
    (hTests : ∀ t ∈ ts, Orderly root bindings U t)
    (hApart : Apart ts)
    (hOwn : i ∉ altsOfAll ts)
    (hHides : bindings.HidesBranches root i ts) :
    Orderly root bindings U (.alt i ts)
| guard
    (id : GuardId) :
    Orderly root bindings U (.guard id)
| leaf
    {t : Test}
    (hLeaf : t.IsLeaf)
    (hSame :
      ∀ c d, Choices.SameOutside U c d →
        t.reading root c = t.reading root d) :
    Orderly root bindings U t

/- The first of some tests that are apart. -/
theorem Apart.head
    {t : Test}
    {ts : List Test}
    (h : Apart (t :: ts)) :
    Disjoint t.alts (altsOfAll ts) := by
  rw [Set.disjoint_left]
  intro i hi hMem
  rcases mem_altsOfAll.mp hMem with ⟨u, hu, hiu⟩
  have hDisjoint := (List.pairwise_cons.mp h).1 u hu
  exact Set.disjoint_left.mp hDisjoint hi hiu

theorem Apart.tail
    {t : Test}
    {ts : List Test}
    (h : Apart (t :: ts)) :
    Apart ts :=
  (List.pairwise_cons.mp h).2

/- A test has no alternation in common with those before it. -/
theorem Apart.disjoint_done
    {done ts : List Test}
    {t : Test}
    (h : Apart (done ++ t :: ts)) :
    Disjoint (altsOfAll done) t.alts := by
  rw [Set.disjoint_left]
  intro j hj hjt
  rcases mem_altsOfAll.mp hj with ⟨u, hu, hju⟩
  have hPair := (List.pairwise_append.mp h).2.2
  exact Set.disjoint_left.mp (hPair u hu t List.mem_cons_self) hju hjt

end Test

end MatchCompiler

------------------------------------------------------------
-- Agreement Of Outcomes
------------------------------------------------------------

namespace MatchCompiler

namespace Test

/-
  An outcome of a test agrees with one of its simplified form
  if it faults, or if both hold or both fail. `D` are the
  alternations that were dead before and `A` those of the
  test; those in `K` change later. After success what is dead
  is hidden still.
-/
inductive Agrees
    (root : Value)
    (bindings : AccessBindings)
    (D K A : Set Nat) :
    Except ShapeMismatch Bool → Choices →
    Except ShapeMismatch Bool → Choices → Prop
| fault
    (cause : ShapeMismatch)
    (d₁ : Choices)
    (r₂ : Except ShapeMismatch Bool)
    (d₂ : Choices) :
    Agrees root bindings D K A (.error cause) d₁ r₂ d₂
| holds
    {d₁ d₂ : Choices}
    {D' : Set Nat}
    (hSub : D' ⊆ D ∪ A)
    (hSame : Choices.SameOutside D' d₁ d₂)
    (hHides : bindings.Hides root K D' d₁) :
    Agrees root bindings D K A (.ok true) d₁ (.ok true) d₂
| fails
    {d₁ d₂ : Choices}
    (hSame : Choices.SameOutside (D ∪ A) d₁ d₂) :
    Agrees root bindings D K A (.ok false) d₁ (.ok false) d₂

/- Agreement with fewer dead ones is agreement with more. -/
theorem Agrees.mono
    {root : Value}
    {bindings : AccessBindings}
    {D D' K A A' : Set Nat}
    {r₁ r₂ : Except ShapeMismatch Bool}
    {d₁ d₂ : Choices}
    (h : Agrees root bindings D K A r₁ d₁ r₂ d₂)
    (hSub : D ∪ A ⊆ D' ∪ A') :
    Agrees root bindings D' K A' r₁ d₁ r₂ d₂ := by
  cases h with
  | fault cause => exact .fault cause _ _ _
  | holds hIn hSame hHides =>
      exact .holds (hIn.trans hSub) hSame hHides
  | fails hSame => exact .fails (hSame.mono hSub)

/- An outcome that agrees does not have the other answer. -/
theorem Agrees.ne_not
    {root : Value}
    {bindings : AccessBindings}
    {D K A : Set Nat}
    {r₁ : Except ShapeMismatch Bool}
    {b : Bool}
    {d₁ d₂ : Choices}
    (h : Agrees root bindings D K A r₁ d₁ (.ok b) d₂) :
    r₁ ≠ .ok !b := by
  cases h <;> exact nofun

/-
  Each outcome of a simplified form is followed by an outcome
  that agrees, when both start from choices that differ at
  dead and hidden alternations only.
-/
def Followed
    (root : Value)
    (bindings : AccessBindings)
    (U A : Set Nat)
    (end₁ end₂ :
      Choices → Except ShapeMismatch Bool → Choices → Prop) : Prop :=
  ∀ ⦃D K : Set Nat⦄ ⦃c₁ c₂ d₂ : Choices⦄
    ⦃r₂ : Except ShapeMismatch Bool⦄,
    A ⊆ U → D ⊆ U → Disjoint D A → Disjoint K A →
    bindings.Hides root (A ∪ K) D c₁ →
    Choices.SameOutside D c₁ c₂ →
    end₂ c₂ r₂ d₂ →
    ∃ r₁ d₁, end₁ c₁ r₁ d₁ ∧
      Agrees root bindings D K A r₁ d₁ r₂ d₂

end Test

end MatchCompiler

------------------------------------------------------------
-- Conjunctions And Disjunctions
------------------------------------------------------------

namespace MatchCompiler

namespace Test

variable {can : GuardAnswers}
variable {root : Value}
variable {bindings : AccessBindings}
variable {U : Set Nat}
variable {o : LoweringOptions}

/- The outcomes of a test follow those of its simplified form. -/
abbrev FollowsSimplified
    (can : GuardAnswers)
    (root : Value)
    (bindings : AccessBindings)
    (U : Set Nat)
    (o : LoweringOptions)
    (t : Test) : Prop :=
  Followed root bindings U t.alts
    (t.CanEnd can root bindings)
    ((t.simplify o).CanEnd can root bindings)

/- A conjunction follows the one of its simplified tests. -/
theorem followed_all
    {ts : List Test}
    (hTests :
      ∀ t ∈ ts, FollowsSimplified can root bindings U o t)
    (hApart : Apart ts) :
    Followed root bindings U (altsOfAll ts)
      (CanEndWhile can root bindings true ts)
      (CanEndWhile can root bindings true (simplifyAll o ts)) := by
  induction ts with
  | nil =>
      rintro D K c₁ c₂ d₂ r₂ - - - - hHides hSame ⟨rfl, rfl⟩
      refine ⟨.ok true, c₁, ⟨rfl, rfl⟩, ?_⟩
      exact .holds Set.subset_union_left hSame
        (hHides.mono Set.subset_union_right)
  | cons t ts ih =>
      rcases List.forall_mem_cons.mp hTests with ⟨hHead, hTail⟩
      intro D K c₁ c₂ d₂ r₂ hA hD hDA hKA hHides hSame hEnd
      have hLeft : t.alts ⊆ altsOfAll (t :: ts) :=
        Set.subset_union_left
      have hRight : altsOfAll ts ⊆ altsOfAll (t :: ts) :=
        Set.subset_union_right
      -- The tests behind `t` are among what changes later.
      have hLater : Disjoint (altsOfAll ts ∪ K) t.alts :=
        Set.disjoint_union_left.mpr
          ⟨hApart.head.symm, hKA.mono_right hLeft⟩
      have hNow :
          bindings.Hides root (t.alts ∪ (altsOfAll ts ∪ K)) D c₁ := by
        rw [← Set.union_assoc]
        exact hHides
      rcases hEnd with ⟨e₂, hEnd, hRest⟩ | ⟨hNe, hEnd⟩
      · rcases hHead (hLeft.trans hA) hD (hDA.mono_right hLeft)
          hLater hNow hSame hEnd with ⟨r₁, d₁, hEnd₁, hAgrees⟩
        cases hAgrees with
        | fault cause =>
            exact ⟨.error cause, d₁, Or.inr ⟨nofun, hEnd₁⟩,
              .fault cause _ _ _⟩
        | @holds _ _ D' hSub hSame' hHides' =>
            have hSub' : D' ⊆ D ∪ altsOfAll (t :: ts) :=
              hSub.trans (Set.union_subset_union_right D hLeft)
            have hApart' : Disjoint D' (altsOfAll ts) :=
              (Set.disjoint_union_left.mpr
                ⟨hDA.mono_right hRight, hApart.head⟩).mono_left hSub
            rcases ih hTail hApart.tail (hRight.trans hA)
              (hSub'.trans (Set.union_subset hD hA)) hApart'
              (hKA.mono_right hRight) hHides' hSame' hRest with
              ⟨r, d, hRest₁, hAgrees⟩
            refine ⟨r, d, Or.inl ⟨d₁, hEnd₁, hRest₁⟩, ?_⟩
            exact hAgrees.mono (Set.union_subset hSub'
              (hRight.trans Set.subset_union_right))
      · rcases hHead (hLeft.trans hA) hD (hDA.mono_right hLeft)
          hLater hNow hSame hEnd with ⟨r₁, d₁, hEnd₁, hAgrees⟩
        cases hAgrees with
        | fault cause =>
            exact ⟨.error cause, d₁, Or.inr ⟨nofun, hEnd₁⟩,
              .fault cause _ _ _⟩
        | holds => exact absurd rfl hNe
        | fails hSame' =>
            refine ⟨.ok false, d₁, Or.inr ⟨nofun, hEnd₁⟩, .fails ?_⟩
            exact hSame'.mono (Set.union_subset_union_right D hLeft)

/- A disjunction without alternations does so too. -/
theorem followed_any
    {ts : List Test}
    (hTests :
      ∀ t ∈ ts, FollowsSimplified can root bindings U o t)
    (hPlain : altsOfAll ts = ∅) :
    Followed root bindings U (altsOfAll ts)
      (CanEndWhile can root bindings false ts)
      (CanEndWhile can root bindings false (simplifyAll o ts)) := by
  induction ts with
  | nil =>
      rintro D K c₁ c₂ d₂ r₂ - - - - hHides hSame ⟨rfl, rfl⟩
      refine ⟨.ok false, c₁, ⟨rfl, rfl⟩, ?_⟩
      exact .fails (hSame.mono Set.subset_union_left)
  | cons t ts ih =>
      rcases List.forall_mem_cons.mp hTests with ⟨hHead, hTail⟩
      rcases Set.union_empty_iff.mp hPlain with ⟨hNone, hNone'⟩
      rw [hPlain]
      intro D K c₁ c₂ d₂ r₂ hA hD hDA hKA hHides hSame hEnd
      have hHead' := hHead
      have hTail' := ih hTail hNone'
      rw [FollowsSimplified, hNone] at hHead'
      rw [hNone'] at hTail'
      rcases hEnd with ⟨e₂, hEnd, hRest⟩ | ⟨hNe, hEnd⟩
      · rcases hHead' hA hD hDA hKA hHides hSame hEnd with
          ⟨r₁, d₁, hEnd₁, hAgrees⟩
        cases hAgrees with
        | fault cause =>
            exact ⟨.error cause, d₁, Or.inr ⟨nofun, hEnd₁⟩,
              .fault cause _ _ _⟩
        | fails hSame' =>
            rw [Set.union_empty] at hSame'
            have hStay := CanEnd.sameOutside t hEnd₁
            rw [hNone] at hStay
            have hHides' := hHides.step
              (hStay.mono (Set.empty_subset (∅ ∪ K)))
            rcases hTail' hA hD hDA hKA hHides' hSame' hRest with
              ⟨r, d, hRest₁, hAgrees⟩
            exact ⟨r, d, Or.inl ⟨d₁, hEnd₁, hRest₁⟩, hAgrees⟩
      · rcases hHead' hA hD hDA hKA hHides hSame hEnd with
          ⟨r₁, d₁, hEnd₁, hAgrees⟩
        cases hAgrees with
        | fault cause =>
            exact ⟨.error cause, d₁, Or.inr ⟨nofun, hEnd₁⟩,
              .fault cause _ _ _⟩
        | holds hSub hSame' hHides' =>
            refine ⟨.ok true, d₁, Or.inr ⟨nofun, hEnd₁⟩, ?_⟩
            exact .holds hSub hSame' hHides'
        | fails => exact absurd rfl hNe

end Test

end MatchCompiler

------------------------------------------------------------
-- Cutting Off
------------------------------------------------------------

namespace MatchCompiler

namespace Test

variable {can : GuardAnswers}
variable {root : Value}
variable {bindings : AccessBindings}
variable {U : Set Nat}
variable {o : LoweringOptions}

/-
  A test whose simplified form always answers `b` can end
  without the other answer.
-/
theorem exists_canEnd_ne
    {t u : Test}
    {b : Bool}
    (h : FollowsSimplified can root bindings U o t)
    (hSub : t.alts ⊆ U)
    (hForm : t.simplify o = u)
    (hEnd : ∀ c, u.CanEnd can root bindings c (.ok b) c)
    (c : Choices) :
    ∃ r d, t.CanEnd can root bindings c r d ∧ r ≠ .ok !b := by
  rcases h hSub (Set.empty_subset U) (Set.empty_disjoint _)
    (Set.empty_disjoint _)
    (AccessBindings.Hides.empty root bindings (t.alts ∪ ∅) c)
    (.refl ∅ c) (hForm ▸ hEnd c) with ⟨r, d, hEnd, hAgrees⟩
  exact ⟨r, d, hEnd, hAgrees.ne_not⟩

/-
  If one of some tests can always stop them, then they can be
  stopped.
-/
theorem exists_canEndWhile_ne
    (hCan : ∀ id bs, ∃ b, can id bs b)
    {go : Bool}
    {t : Test}
    {ts : List Test}
    (hMem : t ∈ ts)
    (hStop :
      ∀ c, ∃ r d, t.CanEnd can root bindings c r d ∧ r ≠ .ok go)
    (c : Choices) :
    ∃ r d, CanEndWhile can root bindings go ts c r d ∧
      r ≠ .ok go := by
  induction ts generalizing c with
  | nil => cases hMem
  | cons u us ih =>
      rcases List.mem_cons.mp hMem with rfl | hMem
      · rcases hStop c with ⟨r, d, hEnd, hNe⟩
        exact ⟨r, d, Or.inr ⟨hNe, hEnd⟩, hNe⟩
      · rcases exists_canEnd hCan u c with ⟨r, d, hEnd⟩
        by_cases hGo : r = .ok go
        · subst hGo
          rcases ih hMem d with ⟨r', d', hRest, hNe⟩
          exact ⟨r', d', Or.inl ⟨d, hEnd, hRest⟩, hNe⟩
        · exact ⟨r, d, Or.inr ⟨hGo, hEnd⟩, hGo⟩

/- An answer other than `b` is a fault or the other answer. -/
theorem eq_error_or_of_ne
    {r : Except ShapeMismatch Bool}
    {b : Bool}
    (h : r ≠ .ok b) :
    (∃ cause, r = .error cause) ∨ r = .ok !b := by
  rcases r with cause | b'
  · exact Or.inl ⟨cause, rfl⟩
  · refine Or.inr ?_
    cases b <;> cases b' <;> first | rfl | exact absurd rfl h

/- Some tests change choices at their alternations only. -/
theorem sameOutside_altsOfAll
    {go : Bool}
    {ts : List Test}
    {c d : Choices}
    {r : Except ShapeMismatch Bool}
    (h : CanEndWhile can root bindings go ts c r d) :
    Choices.SameOutside (altsOfAll ts) d c :=
  sameOutside_of_canEndWhile
    (fun t ht _ _ _ hEnd =>
      (CanEnd.sameOutside t hEnd).mono (alts_subset_altsOfAll ht)) h

/- The simplified form of a test is among those of its list. -/
theorem exists_of_mem_simplifyAll
    {u : Test}
    {ts : List Test}
    (h : u ∈ simplifyAll o ts) :
    ∃ t ∈ ts, t.simplify o = u := by
  induction ts with
  | nil => cases h
  | cons t ts ih =>
      rcases List.mem_cons.mp h with rfl | hMem
      · exact ⟨t, List.mem_cons_self, rfl⟩
      · rcases ih hMem with ⟨t', ht', hForm⟩
        exact ⟨t', List.mem_cons_of_mem t ht', hForm⟩

/- A conjunction follows its simplified form. -/
theorem followed_and
    (hCan : ∀ id bs, ∃ b, can id bs b)
    {ts : List Test}
    (hTests :
      ∀ t ∈ ts, FollowsSimplified can root bindings U o t)
    (hApart : Apart ts) :
    FollowsSimplified can root bindings U o (.and ts) := by
  intro D K c₁ c₂ d₂ r₂ hA hD hDA hKA hHides hSame hEnd
  change (conjunction (simplifyAll o ts)).CanEnd _ _ _ _ _ _ at hEnd
  cases hForm : conjuncts (simplifyAll o ts) with
  | some us =>
      rw [canEnd_conjunction hForm] at hEnd
      exact followed_all hTests hApart hA hD hDA hKA hHides hSame hEnd
  | none =>
      -- The whole is cut off: the test that never holds stops
      -- the original too, unless it faults before.
      rcases exists_of_mem_simplifyAll (never_mem_of_conjuncts hForm)
        with ⟨t, ht, hNever⟩
      rw [conjunction_of_none hForm] at hEnd
      rcases hEnd with ⟨rfl, rfl⟩
      have hStop := exists_canEnd_ne (hTests t ht)
        ((alts_subset_altsOfAll ht).trans hA) hNever
        (fun c => ⟨rfl, rfl⟩)
      rcases exists_canEndWhile_ne hCan ht hStop c₁ with
        ⟨r, d, hEnd, hNe⟩
      refine ⟨r, d, hEnd, ?_⟩
      rcases eq_error_or_of_ne hNe with ⟨cause, rfl⟩ | rfl
      · exact .fault cause _ _ _
      · refine .fails ?_
        exact ((sameOutside_altsOfAll hEnd).mono
          Set.subset_union_right).trans
            (hSame.mono Set.subset_union_left)

/- A disjunction without alternations does so too. -/
theorem followed_or
    (hCan : ∀ id bs, ∃ b, can id bs b)
    {ts : List Test}
    (hTests :
      ∀ t ∈ ts, FollowsSimplified can root bindings U o t)
    (hPlain : altsOfAll ts = ∅) :
    FollowsSimplified can root bindings U o (.or ts) := by
  intro D K c₁ c₂ d₂ r₂ hA hD hDA hKA hHides hSame hEnd
  change (disjunction o (simplifyAll o ts)).CanEnd _ _ _ _ _ _
    at hEnd
  cases hForm : disjuncts (simplifyAll o ts) with
  | some us =>
      rw [canEnd_disjunction o hForm] at hEnd
      exact followed_any hTests hPlain hA hD hDA hKA hHides hSame hEnd
  | none =>
      rcases exists_of_mem_simplifyAll (always_mem_of_disjuncts hForm)
        with ⟨t, ht, hAlways⟩
      rw [disjunction_of_none o hForm] at hEnd
      rcases hEnd with ⟨rfl, rfl⟩
      have hStop := exists_canEnd_ne (hTests t ht)
        ((alts_subset_altsOfAll ht).trans hA) hAlways
        (fun c => ⟨rfl, rfl⟩)
      rcases exists_canEndWhile_ne hCan ht hStop c₁ with
        ⟨r, d, hEnd, hNe⟩
      have hStay := sameOutside_altsOfAll hEnd
      rw [hPlain] at hStay
      rw [hStay.eq_of_empty] at hEnd
      refine ⟨r, c₁, hEnd, ?_⟩
      rcases eq_error_or_of_ne hNe with ⟨cause, rfl⟩ | rfl
      · exact .fault cause _ _ _
      · exact .holds Set.subset_union_left hSame
          (hHides.mono Set.subset_union_right)

end Test

end MatchCompiler

------------------------------------------------------------
-- Alternations
------------------------------------------------------------

namespace MatchCompiler

namespace Test

variable {can : GuardAnswers}
variable {root : Value}
variable {bindings : AccessBindings}
variable {U : Set Nat}
variable {o : LoweringOptions}

open Classical in
/-
  While a branch is noted, the alternations of the branches
  before it are hidden as well.
-/
theorem hides_branch
    {i : Nat}
    {done ts : List Test}
    {t : Test}
    {D K : Set Nat}
    {c : Choices}
    (hBranches :
      bindings.HidesBranches root i (done ++ t :: ts))
    (hOwn : i ∉ altsOfAll (done ++ t :: ts))
    (hK : i ∉ K)
    (hHides :
      bindings.Hides root
        (insert i (altsOfAll (done ++ t :: ts)) ∪ K) D c) :
    bindings.Hides root (t.alts ∪ K) (D ∪ altsOfAll done)
      (c.choose i done.length) := by
  intro e d he hd
  rw [altsOfAll_append] at hOwn hHides
  have hDone : i ∉ altsOfAll done := fun h => hOwn (Or.inl h)
  have hHere : i ∉ t.alts := fun h => hOwn (Or.inr (Or.inl h))
  have hNoted : e i = some done.length := by
    rw [he i (not_or.mpr ⟨hHere, hK⟩)]
    exact c.choose_self i done.length
  -- Between the two stand choices that differ from the first
  -- in the branches before and from the second in `D`.
  let f : Choices := fun j => if j ∈ D then e j else d j
  have hf : ∀ j, j ∉ D → f j = d j := fun j hj => if_neg hj
  have hfe : ∀ j, j ∉ altsOfAll done → f j = e j := by
    intro j hj
    by_cases hjD : j ∈ D
    · exact if_pos hjD
    · rw [hf j hjD]
      exact hd j (not_or.mpr ⟨hjD, hj⟩)
  have hFirst : bindings.ReadAlike root e f := by
    refine hBranches e f (hfe i hDone).symm (fun j => ?_)
    by_cases hj : j ∈ altsOfAll done
    · rcases mem_altsOfAll.mp hj with ⟨u, hu, hju⟩
      rcases List.getElem?_of_mem hu with ⟨k, hk⟩
      have hLt : k < done.length := (List.getElem?_eq_some_iff.mp hk).1
      refine Or.inr ⟨k, u, ?_, hju, ?_⟩
      · rw [List.getElem?_append_left hLt]
        exact hk
      · rw [hNoted]
        intro hEq
        cases hEq
        exact absurd hLt (Nat.lt_irrefl _)
    · exact Or.inl (hfe j hj).symm
  have hSecond : bindings.ReadAlike root f d := by
    refine hHides f d (fun j hj => ?_) (fun j hj => (hf j hj).symm)
    rcases not_or.mp hj with ⟨hjA, hjK⟩
    rcases not_or.mp hjA with ⟨hji, hjAll⟩
    rcases not_or.mp hjAll with ⟨hjDone, hjRest⟩
    rw [hfe j hjDone]
    rw [he j (not_or.mpr ⟨fun h => hjRest (Or.inl h), hjK⟩)]
    exact c.choose_of_ne done.length hji
  exact hFirst.trans hSecond

/-
  The branches from some place on follow their simplified
  forms; those before have failed and are dead.
-/
theorem followed_branches
    {i : Nat}
    {all : List Test}
    (hTests :
      ∀ t ∈ all, FollowsSimplified can root bindings U o t)
    (hApart : Apart all)
    (hOwn : i ∉ altsOfAll all)
    (hBranches : bindings.HidesBranches root i all)
    {D K : Set Nat}
    (hA : insert i (altsOfAll all) ⊆ U)
    (hD : D ⊆ U)
    (hDA : Disjoint D (insert i (altsOfAll all)))
    (hKA : Disjoint K (insert i (altsOfAll all)))
    (done ts : List Test)
    (hAll : all = done ++ ts)
    {c₁ c₂ d₂ : Choices}
    {r₂ : Except ShapeMismatch Bool}
    (hHides :
      bindings.Hides root (insert i (altsOfAll all) ∪ K) D c₁)
    (hSame : Choices.SameOutside (D ∪ altsOfAll done) c₁ c₂)
    (hEnd :
      CanEndBranches can root bindings i done.length
        (simplifyAll o ts) c₂ r₂ d₂) :
    ∃ r₁ d₁,
      CanEndBranches can root bindings i done.length ts c₁ r₁ d₁ ∧
        Agrees root bindings D K (insert i (altsOfAll all))
          r₁ d₁ r₂ d₂ := by
  have hiK : i ∉ K := fun h =>
    Set.disjoint_left.mp hKA h (Set.mem_insert i _)
  induction ts generalizing done c₁ c₂ with
  | nil =>
      rcases hEnd with ⟨rfl, rfl⟩
      refine ⟨.ok false, c₁.forget i, ⟨rfl, rfl⟩, .fails ?_⟩
      have hSub : altsOfAll done ⊆ insert i (altsOfAll all) := by
        rw [hAll, List.append_nil]
        exact Set.subset_insert i _
      exact (hSame.forget i).mono (Set.union_subset_union_right D hSub)
  | cons t ts ih =>
      have hMem : t ∈ all := by
        rw [hAll]
        exact List.mem_append_right done List.mem_cons_self
      have hHere : t.alts ⊆ insert i (altsOfAll all) :=
        (alts_subset_altsOfAll hMem).trans (Set.subset_insert i _)
      have hDone : altsOfAll done ⊆ insert i (altsOfAll all) := by
        rw [hAll, altsOfAll_append]
        exact Set.subset_union_left.trans (Set.subset_insert i _)
      have hDead : Disjoint (D ∪ altsOfAll done) t.alts := by
        rw [hAll] at hApart
        exact Set.disjoint_union_left.mpr
          ⟨hDA.mono_right hHere, hApart.disjoint_done⟩
      have hHidden :
          bindings.Hides root (t.alts ∪ K) (D ∪ altsOfAll done)
            (c₁.choose i done.length) := by
        rw [hAll] at hBranches hOwn hHides
        exact hides_branch hBranches hOwn hiK hHides
      have hStart := hSame.choose i done.length
      have hLive := Set.union_subset hD (hDone.trans hA)
      rcases hEnd with ⟨e₂, hEnd, hRest⟩ | ⟨hNe, hEnd⟩
      · rcases hTests t hMem (hHere.trans hA) hLive hDead
          (hKA.mono_right hHere) hHidden hStart hEnd with
          ⟨r₁, d₁, hEnd₁, hAgrees⟩
        cases hAgrees with
        | fault cause =>
            exact ⟨.error cause, d₁, Or.inr ⟨nofun, hEnd₁⟩,
              .fault cause _ _ _⟩
        | fails hSame' =>
            have hNext : all = (done ++ [t]) ++ ts := by
              rw [hAll, List.append_assoc, List.singleton_append]
            have hMoved :
                Choices.SameOutside
                  (insert i (altsOfAll all) ∪ K) d₁ c₁ := by
              have hRun := (CanEnd.sameOutside t hEnd₁).mono hHere
              have hNote := Choices.sameOutside_choose c₁
                (Set.mem_insert i (altsOfAll all)) done.length
              exact (hRun.trans hNote).mono Set.subset_union_left
            have hSame'' :
                Choices.SameOutside
                  (D ∪ altsOfAll (done ++ [t])) d₁ e₂ := by
              refine hSame'.mono ?_
              rw [altsOfAll_append, Set.union_assoc]
              exact Set.union_subset_union_right D
                (Set.union_subset_union_right _ Set.subset_union_left)
            have hLength : (done ++ [t]).length = done.length + 1 :=
              List.length_append
            rw [← hLength] at hRest
            rcases ih (done ++ [t]) hNext (hHides.step hMoved) hSame''
              hRest with ⟨r, d, hRest₁, hAgrees⟩
            rw [hLength] at hRest₁
            exact ⟨r, d, Or.inl ⟨d₁, hEnd₁, hRest₁⟩, hAgrees⟩
      · rcases hTests t hMem (hHere.trans hA) hLive hDead
          (hKA.mono_right hHere) hHidden hStart hEnd with
          ⟨r₁, d₁, hEnd₁, hAgrees⟩
        have hWithin :
            D ∪ altsOfAll done ∪ t.alts ⊆
              D ∪ insert i (altsOfAll all) :=
          Set.union_subset (Set.union_subset_union_right D hDone)
            (hHere.trans Set.subset_union_right)
        cases hAgrees with
        | fault cause =>
            exact ⟨.error cause, d₁, Or.inr ⟨nofun, hEnd₁⟩,
              .fault cause _ _ _⟩
        | holds hSub hSame' hHides' =>
            refine ⟨.ok true, d₁, Or.inr ⟨nofun, hEnd₁⟩, ?_⟩
            exact .holds (hSub.trans hWithin) hSame' hHides'
        | fails => exact absurd rfl hNe

end Test

end MatchCompiler

------------------------------------------------------------
-- Simplification
------------------------------------------------------------

namespace MatchCompiler

namespace Test

variable {can : GuardAnswers}
variable {root : Value}
variable {bindings : AccessBindings}
variable {U : Set Nat}

/- An orderly test follows its simplified form. -/
theorem Orderly.followed
    (hCan : ∀ id bs, ∃ b, can id bs b)
    (o : LoweringOptions)
    {t : Test}
    (h : Orderly root bindings U t) :
    FollowsSimplified can root bindings U o t := by
  induction h with
  | and hTests hApart ih => exact followed_and hCan ih hApart
  | or hTests hPlain ih => exact followed_or hCan ih hPlain
  | @one t hTest ih =>
      have hAlts : (Test.or [t]).alts = t.alts := Set.union_empty _
      intro D K c₁ c₂ d₂ r₂ hA hD hDA hKA hHides hSame hEnd
      rw [hAlts] at hA hDA hKA hHides ⊢
      have hEnd₂ := (canEnd_disjunction_singleton o _).mp hEnd
      rcases ih hA hD hDA hKA hHides hSame hEnd₂ with
        ⟨r₁, d₁, hEnd₁, hAgrees⟩
      exact ⟨r₁, d₁, (canEndWhile_singleton t).mpr hEnd₁, hAgrees⟩
  | @alt i ts hTests hApart hOwn hBranches ih =>
      intro D K c₁ c₂ d₂ r₂ hA hD hDA hKA hHides hSame hEnd
      exact followed_branches ih hApart hOwn hBranches hA hD hDA hKA
        [] ts rfl hHides (hSame.mono Set.subset_union_left) hEnd
  | guard id =>
      rintro D K c₁ c₂ d₂ r₂ - - - - hHides hSame ⟨rfl, b, hb, rfl⟩
      rw [← (hHides.readAlike hSame).readable_eq] at hb
      refine ⟨.ok b, c₁, ⟨rfl, b, hb, rfl⟩, ?_⟩
      cases b with
      | true =>
          exact .holds Set.subset_union_left hSame
            (hHides.mono Set.subset_union_right)
      | false => exact .fails (hSame.mono Set.subset_union_left)
  | @leaf t hLeaf hReads =>
      have hForm : t.simplify o = t := by
        cases t <;> first | exact hLeaf.elim | rfl
      intro D K c₁ c₂ d₂ r₂ hA hD hDA hKA hHides hSame hEnd
      rw [hForm] at hEnd
      rcases (canEnd_leaf hLeaf c₂ r₂ d₂).mp hEnd with ⟨rfl, rfl⟩
      rw [← hReads c₁ _ (hSame.mono hD)]
      refine ⟨_, c₁, (canEnd_leaf hLeaf c₁ _ c₁).mpr ⟨rfl, rfl⟩, ?_⟩
      rcases t.reading root c₁ with cause | b
      · exact .fault cause _ _ _
      · cases b with
        | true =>
            exact .holds Set.subset_union_left hSame
              (hHides.mono Set.subset_union_right)
        | false => exact .fails (hSame.mono Set.subset_union_left)

/-
  An outcome of the simplified form is that of the test, or
  the test can fault; if both hold, the bindings are read
  alike.
-/
theorem Orderly.canEnd_of_simplify
    (hCan : ∀ id bs, ∃ b, can id bs b)
    (o : LoweringOptions)
    {t : Test}
    (h : Orderly root bindings U t)
    (hSub : t.alts ⊆ U)
    {c d₂ : Choices}
    {r₂ : Except ShapeMismatch Bool}
    (hEnd : (t.simplify o).CanEnd can root bindings c r₂ d₂) :
    ∃ r₁ d₁, t.CanEnd can root bindings c r₁ d₁ ∧
      ((∃ cause, r₁ = .error cause) ∨
        r₁ = r₂ ∧
          (r₁ = .ok true → bindings.ReadAlike root d₁ d₂)) := by
  rcases h.followed hCan o hSub (Set.empty_subset U)
    (Set.empty_disjoint _) (Set.empty_disjoint _)
    (AccessBindings.Hides.empty root bindings (t.alts ∪ ∅) c)
    (.refl ∅ c) hEnd with ⟨r₁, d₁, hEnd₁, hAgrees⟩
  refine ⟨r₁, d₁, hEnd₁, ?_⟩
  cases hAgrees with
  | fault cause => exact Or.inl ⟨cause, rfl⟩
  | holds hSub hSame hHides =>
      exact Or.inr ⟨rfl, fun _ => hHides.readAlike hSame⟩
  | fails hSame => exact Or.inr ⟨rfl, nofun⟩

variable {σ : Type}
variable {host : GuardHost σ}
variable {answer : GuardId → ValueBindings → Bool}

/-
  With a pure host, if an orderly test answers, then its
  simplified form gives the same answer and, if that is yes,
  leads to the same values of the bindings.
-/
theorem Orderly.eval_simplify
    (hHost : host.AnsweredBy answer)
    (o : LoweringOptions)
    {t : Test}
    (h : Orderly root bindings U t)
    (hSub : t.alts ⊆ U)
    {c d : Choices}
    {s s' : σ}
    {b : Bool}
    (hEval : t.eval host root bindings (c, s) = (.ok b, (d, s'))) :
    ∃ d' s'',
      (t.simplify o).eval host root bindings (c, s) =
        (.ok b, (d', s'')) ∧
      (b = true → bindings.ReadAlike root d d') := by
  have hCan : ∀ id bs, ∃ b, GuardAnswers.ofFunction answer id bs b :=
    fun id bs => ⟨answer id bs, rfl⟩
  have hEnd := canEnd_of_eval hHost t hEval
  rcases hRun : (t.simplify o).eval host root bindings (c, s) with
    ⟨r₂, d₂, s₂⟩
  have hEnd₂ := canEnd_of_eval hHost (t.simplify o) hRun
  rcases h.canEnd_of_simplify hCan o hSub hEnd₂ with
    ⟨r₁, d₁, hEnd₁, hCase⟩
  rcases CanEnd.unique t hEnd₁ hEnd with ⟨rfl, rfl⟩
  rcases hCase with ⟨cause, hFault⟩ | ⟨rfl, hRead⟩
  · cases hFault
  · refine ⟨d₂, s₂, rfl, fun hb => hRead ?_⟩
    rw [hb]

end Test

end MatchCompiler
