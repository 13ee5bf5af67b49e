import Mathlib.Data.List.Basic
import Mathlib.Data.Set.Insert
import MatchCompiler.Procedure.Execute

/-
  This file describes what a run of a test can do.

  Tests that are not built from others read one access and
  ask one question of the value. What a host answers is left
  open: `Test.CanEnd` relates a test to every outcome that
  some answers to its guards lead to. A run changes the
  choices only at the alternations inside the test.

  Key definitions include:
    * `Choices.SameOutside`
    * `Test.alts`
    * `Test.query`
    * `GuardAnswers`
    * `Test.CanEnd`

  Key theorems include:
    * `Test.eval_leaf`
    * `Test.canEnd_of_eval`
    * `Test.CanEnd.sameOutside`
    * `Test.CanEnd.unique`
-/

------------------------------------------------------------
-- Choices
------------------------------------------------------------

namespace MatchCompiler

namespace Choices

/- Two sets of choices that differ at most at some numbers. -/
def SameOutside
    (D : Set Nat)
    (c d : Choices) : Prop :=
  ∀ i, i ∉ D → c i = d i

namespace SameOutside

variable {D E : Set Nat}
variable {c d e : Choices}

theorem refl
    (D : Set Nat)
    (c : Choices) :
    SameOutside D c c :=
  fun _ _ => rfl

theorem symm
    (h : SameOutside D c d) :
    SameOutside D d c :=
  fun i hi => (h i hi).symm

theorem trans
    (h : SameOutside D c d)
    (h' : SameOutside D d e) :
    SameOutside D c e :=
  fun i hi => (h i hi).trans (h' i hi)

/- A larger set of numbers allows more differences. -/
theorem mono
    (h : SameOutside D c d)
    (hSub : D ⊆ E) :
    SameOutside E c d :=
  fun i hi => h i (fun hD => hi (hSub hD))

/- Choices that differ nowhere are equal. -/
theorem eq_of_empty
    (h : SameOutside ∅ c d) :
    c = d :=
  funext fun i => h i (Set.notMem_empty i)

/- Noting one branch on both sides keeps the agreement. -/
theorem choose
    (h : SameOutside D c d)
    (alt branch : Nat) :
    SameOutside D (c.choose alt branch) (d.choose alt branch) := by
  intro i hi
  unfold Choices.choose
  split
  · rfl
  · exact h i hi

/- Forgetting on both sides keeps the agreement. -/
theorem forget
    (h : SameOutside D c d)
    (alt : Nat) :
    SameOutside D (c.forget alt) (d.forget alt) := by
  intro i hi
  unfold Choices.forget
  split
  · rfl
  · exact h i hi

end SameOutside

/- Noting a branch changes the choices at one number. -/
theorem sameOutside_choose
    (c : Choices)
    {D : Set Nat}
    {alt : Nat}
    (h : alt ∈ D)
    (branch : Nat) :
    SameOutside D (c.choose alt branch) c := by
  intro i hi
  have hNe : i ≠ alt := fun hEq => hi (hEq ▸ h)
  exact choose_of_ne c branch hNe

/- Forgetting a branch changes the choices at one number. -/
theorem sameOutside_forget
    (c : Choices)
    {D : Set Nat}
    {alt : Nat}
    (h : alt ∈ D) :
    SameOutside D (c.forget alt) c := by
  intro i hi
  have hNe : i ≠ alt := fun hEq => hi (hEq ▸ h)
  exact forget_of_ne c hNe

end Choices

end MatchCompiler

------------------------------------------------------------
-- Alternations Of A Test
------------------------------------------------------------

namespace MatchCompiler

namespace Test

mutual

/- The numbers of the alternations in a test. -/
def alts : Test → Set Nat
| .and ts => altsOfAll ts
| .or ts => altsOfAll ts
| .alt i ts => insert i (altsOfAll ts)
| _ => ∅
termination_by structural t => t

/- The numbers of the alternations in several tests. -/
def altsOfAll : List Test → Set Nat
| [] => ∅
| t :: ts => t.alts ∪ altsOfAll ts
termination_by structural ts => ts

end

/- Several tests hold the alternations of each of them. -/
theorem alts_subset_altsOfAll
    {t : Test}
    {ts : List Test}
    (h : t ∈ ts) :
    t.alts ⊆ altsOfAll ts := by
  induction ts with
  | nil => cases h
  | cons u us ih =>
      unfold altsOfAll
      rcases List.mem_cons.mp h with rfl | hMem
      · exact Set.subset_union_left
      · exact (ih hMem).trans Set.subset_union_right

/- An alternation of several tests is one of some test. -/
theorem mem_altsOfAll
    {i : Nat}
    {ts : List Test} :
    i ∈ altsOfAll ts ↔ ∃ t ∈ ts, i ∈ t.alts := by
  induction ts with
  | nil => simp [altsOfAll]
  | cons t ts ih => simp [altsOfAll, ih]

theorem altsOfAll_append
    (ts us : List Test) :
    altsOfAll (ts ++ us) = altsOfAll ts ∪ altsOfAll us := by
  ext i
  simp only [mem_altsOfAll, List.mem_append, Set.mem_union]
  constructor
  · rintro ⟨t, ht | ht, hi⟩
    · exact Or.inl ⟨t, ht, hi⟩
    · exact Or.inr ⟨t, ht, hi⟩
  · rintro (⟨t, ht, hi⟩ | ⟨t, ht, hi⟩)
    · exact ⟨t, Or.inl ht, hi⟩
    · exact ⟨t, Or.inr ht, hi⟩

end Test

end MatchCompiler

------------------------------------------------------------
-- Questions
------------------------------------------------------------

namespace MatchCompiler

/-
  The access that a test reads and the question that it asks
  of the value, for the tests that are not built from others
  and do not ask the host.
-/
def Test.query :
    Test → Option (Access × (Value → Except ShapeMismatch Bool))
| .equals a k => some (a, fun v => return v.equals k)
| .oneOf a ks => some (a, fun v => return ks.any v.equals)
| .oneOfTexts a ks => some (a, fun v => return v.isTextIn ks)
| .tagIs a label =>
    some (a, fun v => return (← v.readOrdinal) == label.ordinal)
| .tagIn a labels =>
    some (a, fun v => do
      let n ← v.readOrdinal
      return labels.any (fun l => l.ordinal == n))
| .lengthIs a n => some (a, fun v => return (← v.readLength) == n)
| .lengthAtLeast a n =>
    some (a, fun v => return decide (n ≤ (← v.readLength)))
| .lengthIn a least greatest =>
    some (a, fun v => do
      let n ← v.readLength
      return decide (least ≤ n) && decide (n ≤ greatest))
| .isNil a => some (a, fun v => return v.isNil)
| .isNotNil a => some (a, fun v => return !v.isNil)
| .typeIs a name => some (a, fun v => return v.isOfType name)
| .isSome a => some (a, fun v => v.readPresence)
| .isNone a => some (a, fun v => return !(← v.readPresence))
| .hasKey a key => some (a, fun v => v.hasKey key)
| .setContains a members exact =>
    some (a, fun v =>
      return Value.setContains members exact (← v.readSet))
| .setMask a mask exact =>
    some (a, fun v => do
      let bits ← Value.maskOf (← v.readSet)
      return if exact then bits == mask else bits &&& mask == mask)
| _ => none

namespace Test

/-
  What a test that is not built from others and asks no
  guard answers under some choices.
-/
def reading
    (root : Value)
    (c : Choices)
    (t : Test) : Except ShapeMismatch Bool :=
  match t.query with
  | some (a, q) => a.resolve root c >>= q
  | none => .ok t.isAlways

/- A test that reads a value answers its question. -/
theorem reading_of_query
    {root : Value}
    {c : Choices}
    {t : Test}
    {a : Access}
    {q : Value → Except ShapeMismatch Bool}
    (h : t.query = some (a, q))
    {v : Value}
    (hRead : a.resolve root c = .ok v) :
    t.reading root c = q v := by
  unfold reading
  rw [h]
  change (a.resolve root c >>= q) = q v
  rw [hRead]
  rfl

/- The test is not built from others and asks no guard. -/
def IsLeaf : Test → Prop
| .and _ | .or _ | .alt _ _ | .guard _ => False
| _ => True

mutual

/-
  Induction over tests: all tests that are not built from
  others and ask no guard are one case.
-/
@[elab_as_elim]
theorem shapeInduction
    {motive : Test → Prop}
    (and : ∀ ts, (∀ t ∈ ts, motive t) → motive (.and ts))
    (or : ∀ ts, (∀ t ∈ ts, motive t) → motive (.or ts))
    (alt : ∀ i ts, (∀ t ∈ ts, motive t) → motive (.alt i ts))
    (guard : ∀ id, motive (.guard id))
    (leaf : ∀ t, t.IsLeaf → motive t)
    (t : Test) :
    motive t := by
  cases t with
  | and ts =>
      exact and ts (shapeInductionAll and or alt guard leaf ts)
  | or ts =>
      exact or ts (shapeInductionAll and or alt guard leaf ts)
  | alt i ts =>
      exact alt i ts (shapeInductionAll and or alt guard leaf ts)
  | guard id => exact guard id
  | _ => exact leaf _ trivial
termination_by structural t

/- The same for the tests of a list. -/
theorem shapeInductionAll
    {motive : Test → Prop}
    (and : ∀ ts, (∀ t ∈ ts, motive t) → motive (.and ts))
    (or : ∀ ts, (∀ t ∈ ts, motive t) → motive (.or ts))
    (alt : ∀ i ts, (∀ t ∈ ts, motive t) → motive (.alt i ts))
    (guard : ∀ id, motive (.guard id))
    (leaf : ∀ t, t.IsLeaf → motive t)
    (ts : List Test) :
    ∀ t ∈ ts, motive t := by
  cases ts with
  | nil =>
      intro t ht
      cases ht
  | cons u us =>
      intro t ht
      have hHead := shapeInduction and or alt guard leaf u
      have hTail := shapeInductionAll and or alt guard leaf us
      rcases List.mem_cons.mp ht with rfl | hMem
      · exact hHead
      · exact hTail t hMem
termination_by structural ts

end

end Test

end MatchCompiler

------------------------------------------------------------
-- Values Of Bindings
------------------------------------------------------------

namespace MatchCompiler

namespace AccessBindings

variable {bindings : AccessBindings}
variable {v w : Value}
variable {c d : Choices}
variable (h : ∀ b ∈ bindings, b.2.resolve v c = b.2.resolve w d)

include h

/- A host sees the same where all accesses lead to the same. -/
theorem readable_congr :
    bindings.readable v c = bindings.readable w d := by
  unfold readable
  apply List.filterMap_congr
  rintro ⟨name, access⟩ hMem
  simp only [h _ hMem]

/- The same values are read. -/
theorem values_congr :
    bindings.values v c = bindings.values w d := by
  unfold values
  induction bindings with
  | nil => rfl
  | cons b bs ih =>
      rcases List.forall_mem_cons.mp h with ⟨hHead, hTail⟩
      rw [List.mapM_cons, List.mapM_cons, ih hTail]
      simp only [hHead]

end AccessBindings

end MatchCompiler

------------------------------------------------------------
-- Single Steps
------------------------------------------------------------

namespace MatchCompiler

variable {σ : Type}

/- Asking a question changes nothing. -/
theorem Run.ask_apply
    (root : Value)
    (a : Access)
    (q : Value → Except ShapeMismatch Bool)
    (c : Choices)
    (s : σ) :
    Run.ask root a q (c, s) = (a.resolve root c >>= q, (c, s)) := by
  unfold Run.ask
  simp only [bind, ExceptT.bind, ExceptT.mk, StateT.bind, get,
    getThe, MonadStateOf.get, liftM, monadLift, MonadLift.monadLift,
    ExceptT.lift, StateT.get, Functor.map, StateT.map, pure,
    ExceptT.bindCont]
  cases Except.bind (a.resolve root c) q with
  | ok b => rfl
  | error e => rfl

/- A guard is answered by the host and changes no choice. -/
theorem Run.guard_apply
    (host : GuardHost σ)
    (root : Value)
    (bindings : AccessBindings)
    (id : GuardId)
    (c : Choices)
    (s : σ) :
    Run.guard host root bindings id (c, s) =
      (.ok (host id (bindings.readable root c) s).1,
        (c, (host id (bindings.readable root c) s).2)) := by
  rfl

namespace Test

variable (host : GuardHost σ)
variable (root : Value)
variable (bindings : AccessBindings)

/- A leaf is decided by its reading and changes nothing. -/
theorem eval_leaf
    {t : Test}
    (h : t.IsLeaf)
    (c : Choices)
    (s : σ) :
    t.eval host root bindings (c, s) =
      (t.reading root c, (c, s)) := by
  cases t <;>
    first
    | exact h.elim
    | rfl
    | exact Run.ask_apply root _ _ c s

theorem evalAll_nil
    (st : Choices × σ) :
    evalAll host root bindings [] st = (.ok true, st) :=
  rfl

theorem evalAny_nil
    (st : Choices × σ) :
    evalAny host root bindings [] st = (.ok false, st) :=
  rfl

/- A conjunction goes on while its tests hold. -/
theorem evalAll_cons
    (t : Test)
    (ts : List Test)
    (st : Choices × σ) :
    evalAll host root bindings (t :: ts) st =
      match t.eval host root bindings st with
      | (.ok true, st') => evalAll host root bindings ts st'
      | (.ok false, st') => (.ok false, st')
      | (.error e, st') => (.error e, st') := by
  rw [evalAll]
  simp only [bind, ExceptT.bind, ExceptT.mk, StateT.bind,
    ExceptT.bindCont]
  rcases t.eval host root bindings st with ⟨r, st'⟩
  cases r with
  | error e => rfl
  | ok b => cases b <;> rfl

/- A disjunction goes on while its tests fail. -/
theorem evalAny_cons
    (t : Test)
    (ts : List Test)
    (st : Choices × σ) :
    evalAny host root bindings (t :: ts) st =
      match t.eval host root bindings st with
      | (.ok true, st') => (.ok true, st')
      | (.ok false, st') => evalAny host root bindings ts st'
      | (.error e, st') => (.error e, st') := by
  rw [evalAny]
  simp only [bind, ExceptT.bind, ExceptT.mk, StateT.bind,
    ExceptT.bindCont]
  rcases t.eval host root bindings st with ⟨r, st'⟩
  cases r with
  | error e => rfl
  | ok b => cases b <;> rfl

/- An alternation that has failed has no branch. -/
theorem evalBranches_nil
    (i k : Nat)
    (c : Choices)
    (s : σ) :
    evalBranches host root bindings i k [] (c, s) =
      (.ok false, (c.forget i, s)) :=
  rfl

/- A branch is noted and tried before the next one. -/
theorem evalBranches_cons
    (i k : Nat)
    (t : Test)
    (ts : List Test)
    (c : Choices)
    (s : σ) :
    evalBranches host root bindings i k (t :: ts) (c, s) =
      match t.eval host root bindings (c.choose i k, s) with
      | (.ok true, st') => (.ok true, st')
      | (.ok false, st') =>
          evalBranches host root bindings i (k + 1) ts st'
      | (.error e, st') => (.error e, st') := by
  rw [evalBranches]
  change StateT.bind (t.eval host root bindings)
    (ExceptT.bindCont fun b =>
      if b then pure true
      else evalBranches host root bindings i (k + 1) ts)
    (c.choose i k, s) = _
  simp only [StateT.bind, bind, ExceptT.bindCont]
  rcases t.eval host root bindings (c.choose i k, s) with ⟨r, st'⟩
  cases r with
  | error e => rfl
  | ok b => cases b <;> rfl

end Test

end MatchCompiler

------------------------------------------------------------
-- Possible Outcomes
------------------------------------------------------------

namespace MatchCompiler

/-
  The answers that a guard may be given under the bindings
  that can be read.
-/
abbrev GuardAnswers :=
  GuardId → ValueBindings → Bool → Prop

namespace GuardAnswers

/- Every answer is possible. -/
def any : GuardAnswers :=
  fun _ _ _ => True

/- The answers that a function of the bindings gives. -/
def ofFunction
    (answer : GuardId → ValueBindings → Bool) : GuardAnswers :=
  fun id bs b => b = answer id bs

end GuardAnswers

variable {σ : Type}

/- Whatever its state, the host gives possible answers. -/
def GuardHost.Within
    (host : GuardHost σ)
    (can : GuardAnswers) : Prop :=
  ∀ id bs s, can id bs (host id bs s).1

theorem GuardHost.within_any
    (host : GuardHost σ) :
    host.Within .any :=
  fun _ _ _ => trivial

/-
  The host is pure: its answers are a function of the guard
  and of the bindings that it sees.
-/
def GuardHost.AnsweredBy
    (host : GuardHost σ)
    (answer : GuardId → ValueBindings → Bool) : Prop :=
  host.Within (GuardAnswers.ofFunction answer)

namespace Test

mutual

/-
  Under possible answers to its guards, a test can end with a
  result and new choices.
-/
def CanEnd
    (can : GuardAnswers)
    (root : Value)
    (bindings : AccessBindings) :
    Test → Choices → Except ShapeMismatch Bool → Choices → Prop
| .and ts => CanEndWhile can root bindings true ts
| .or ts => CanEndWhile can root bindings false ts
| .alt i ts => CanEndBranches can root bindings i 0 ts
| .guard id => fun c r d =>
    d = c ∧ ∃ b, can id (bindings.readable root c) b ∧ r = .ok b
| t => fun c r d => d = c ∧ r = t.reading root c
termination_by structural t => t

/-
  Several tests are tried while they answer `go`: true in a
  conjunction and false in a disjunction.
-/
def CanEndWhile
    (can : GuardAnswers)
    (root : Value)
    (bindings : AccessBindings)
    (go : Bool) :
    List Test → Choices → Except ShapeMismatch Bool → Choices → Prop
| [] => fun c r d => d = c ∧ r = .ok go
| t :: ts => fun c r d =>
    (∃ e, t.CanEnd can root bindings c (.ok go) e ∧
      CanEndWhile can root bindings go ts e r d) ∨
    (r ≠ .ok go ∧ t.CanEnd can root bindings c r d)
termination_by structural ts => ts

/- An alternation notes each branch before it is tried. -/
def CanEndBranches
    (can : GuardAnswers)
    (root : Value)
    (bindings : AccessBindings)
    (i : Nat) :
    Nat → List Test → Choices → Except ShapeMismatch Bool →
    Choices → Prop
| _, [] => fun c r d => d = c.forget i ∧ r = .ok false
| k, t :: ts => fun c r d =>
    (∃ e, t.CanEnd can root bindings (c.choose i k) (.ok false) e ∧
      CanEndBranches can root bindings i (k + 1) ts e r d) ∨
    (r ≠ .ok false ∧ t.CanEnd can root bindings (c.choose i k) r d)
termination_by structural _ ts => ts

end

variable {can : GuardAnswers}
variable {root : Value}
variable {bindings : AccessBindings}

/- A leaf ends with its reading. -/
theorem canEnd_leaf
    {t : Test}
    (h : t.IsLeaf)
    (c : Choices)
    (r : Except ShapeMismatch Bool)
    (d : Choices) :
    t.CanEnd can root bindings c r d ↔
      d = c ∧ r = t.reading root c := by
  cases t <;> first | exact h.elim | rfl

end Test

end MatchCompiler

------------------------------------------------------------
-- Runs And Outcomes
------------------------------------------------------------

namespace MatchCompiler

namespace Test

variable {σ : Type}
variable {can : GuardAnswers}
variable {root : Value}
variable {bindings : AccessBindings}
variable {host : GuardHost σ}

/- Every run of a test ends in a possible outcome. -/
def RunsPossible
    (can : GuardAnswers)
    (root : Value)
    (bindings : AccessBindings)
    (host : GuardHost σ)
    (t : Test) : Prop :=
  ∀ ⦃c d : Choices⦄ ⦃s s' : σ⦄ ⦃r : Except ShapeMismatch Bool⦄,
    t.eval host root bindings (c, s) = (r, (d, s')) →
    t.CanEnd can root bindings c r d

theorem canEndWhile_of_evalAll
    {ts : List Test}
    (hTests :
      ∀ t ∈ ts, RunsPossible can root bindings host t)
    {c d : Choices}
    {s s' : σ}
    {r : Except ShapeMismatch Bool}
    (h : evalAll host root bindings ts (c, s) = (r, (d, s'))) :
    CanEndWhile can root bindings true ts c r d := by
  induction ts generalizing c s with
  | nil =>
      rw [evalAll_nil] at h
      cases h
      exact ⟨rfl, rfl⟩
  | cons t ts ih =>
      rw [evalAll_cons] at h
      rcases List.forall_mem_cons.mp hTests with ⟨hHead, hTail⟩
      rcases hRun : t.eval host root bindings (c, s) with ⟨r₁, e, s₁⟩
      rw [hRun] at h
      rcases r₁ with cause | b
      · cases h
        exact Or.inr ⟨nofun, hHead hRun⟩
      · cases b with
        | true => exact Or.inl ⟨e, hHead hRun, ih hTail h⟩
        | false =>
            cases h
            exact Or.inr ⟨nofun, hHead hRun⟩

theorem canEndWhile_of_evalAny
    {ts : List Test}
    (hTests :
      ∀ t ∈ ts, RunsPossible can root bindings host t)
    {c d : Choices}
    {s s' : σ}
    {r : Except ShapeMismatch Bool}
    (h : evalAny host root bindings ts (c, s) = (r, (d, s'))) :
    CanEndWhile can root bindings false ts c r d := by
  induction ts generalizing c s with
  | nil =>
      rw [evalAny_nil] at h
      cases h
      exact ⟨rfl, rfl⟩
  | cons t ts ih =>
      rw [evalAny_cons] at h
      rcases List.forall_mem_cons.mp hTests with ⟨hHead, hTail⟩
      rcases hRun : t.eval host root bindings (c, s) with ⟨r₁, e, s₁⟩
      rw [hRun] at h
      rcases r₁ with cause | b
      · cases h
        exact Or.inr ⟨nofun, hHead hRun⟩
      · cases b with
        | false => exact Or.inl ⟨e, hHead hRun, ih hTail h⟩
        | true =>
            cases h
            exact Or.inr ⟨nofun, hHead hRun⟩

theorem canEndBranches_of_evalBranches
    {i : Nat}
    {ts : List Test}
    (hTests :
      ∀ t ∈ ts, RunsPossible can root bindings host t)
    {k : Nat}
    {c d : Choices}
    {s s' : σ}
    {r : Except ShapeMismatch Bool}
    (h :
      evalBranches host root bindings i k ts (c, s) =
        (r, (d, s'))) :
    CanEndBranches can root bindings i k ts c r d := by
  induction ts generalizing c s k with
  | nil =>
      rw [evalBranches_nil] at h
      cases h
      exact ⟨rfl, rfl⟩
  | cons t ts ih =>
      rw [evalBranches_cons] at h
      rcases List.forall_mem_cons.mp hTests with ⟨hHead, hTail⟩
      rcases hRun : t.eval host root bindings (c.choose i k, s) with
        ⟨r₁, e, s₁⟩
      rw [hRun] at h
      rcases r₁ with cause | b
      · cases h
        exact Or.inr ⟨nofun, hHead hRun⟩
      · cases b with
        | false => exact Or.inl ⟨e, hHead hRun, ih hTail h⟩
        | true =>
            cases h
            exact Or.inr ⟨nofun, hHead hRun⟩

/- A run with a host ends in a possible outcome. -/
theorem canEnd_of_eval
    (hHost : host.Within can)
    (t : Test) :
    RunsPossible can root bindings host t := by
  induction t using shapeInduction with
  | and ts ih =>
      intro c d s s' r h
      exact canEndWhile_of_evalAll ih h
  | or ts ih =>
      intro c d s s' r h
      exact canEndWhile_of_evalAny ih h
  | alt i ts ih =>
      intro c d s s' r h
      exact canEndBranches_of_evalBranches ih h
  | guard id =>
      intro c d s s' r h
      have hRun := Run.guard_apply host root bindings id c s
      have hEq := hRun.symm.trans h
      have hResult := congrArg Prod.fst hEq
      have hChoices := congrArg (fun x => x.2.1) hEq
      exact ⟨hChoices.symm, _, hHost id _ s, hResult.symm⟩
  | leaf t hLeaf =>
      intro c d s s' r h
      rw [eval_leaf host root bindings hLeaf] at h
      cases h
      exact (canEnd_leaf hLeaf c _ c).mpr ⟨rfl, rfl⟩

/-
  If every guard has a possible answer, then every test has a
  possible outcome.
-/
theorem exists_canEnd
    (hCan : ∀ id bs, ∃ b, can id bs b)
    (t : Test)
    (c : Choices) :
    ∃ r d, t.CanEnd can root bindings c r d := by
  choose answer hAnswer using hCan
  let host : GuardHost Unit := fun id bs s => (answer id bs, s)
  have hHost : host.Within can := fun id bs _ => hAnswer id bs
  rcases hRun : t.eval host root bindings (c, ()) with ⟨r, d, s⟩
  exact ⟨r, d, canEnd_of_eval hHost t hRun⟩

end Test

end MatchCompiler

------------------------------------------------------------
-- Changes Of Choices
------------------------------------------------------------

namespace MatchCompiler

namespace Test

variable {can : GuardAnswers}
variable {root : Value}
variable {bindings : AccessBindings}

/- Every outcome keeps the choices outside of some numbers. -/
def ChangesWithin
    (can : GuardAnswers)
    (root : Value)
    (bindings : AccessBindings)
    (D : Set Nat)
    (t : Test) : Prop :=
  ∀ ⦃c d : Choices⦄ ⦃r : Except ShapeMismatch Bool⦄,
    t.CanEnd can root bindings c r d →
    Choices.SameOutside D d c

theorem sameOutside_of_canEndWhile
    {go : Bool}
    {D : Set Nat}
    {ts : List Test}
    (hTests :
      ∀ t ∈ ts, ChangesWithin can root bindings D t)
    {c d : Choices}
    {r : Except ShapeMismatch Bool}
    (h : CanEndWhile can root bindings go ts c r d) :
    Choices.SameOutside D d c := by
  induction ts generalizing c with
  | nil =>
      rcases h with ⟨rfl, -⟩
      exact .refl D _
  | cons t ts ih =>
      rcases List.forall_mem_cons.mp hTests with ⟨hHead, hTail⟩
      rcases h with ⟨e, hEnd, hRest⟩ | ⟨-, hEnd⟩
      · exact (ih hTail hRest).trans (hHead hEnd)
      · exact hHead hEnd

theorem sameOutside_of_canEndBranches
    {i : Nat}
    {D : Set Nat}
    (hMem : i ∈ D)
    {ts : List Test}
    (hTests :
      ∀ t ∈ ts, ChangesWithin can root bindings D t)
    {k : Nat}
    {c d : Choices}
    {r : Except ShapeMismatch Bool}
    (h : CanEndBranches can root bindings i k ts c r d) :
    Choices.SameOutside D d c := by
  induction ts generalizing c k with
  | nil =>
      rcases h with ⟨rfl, -⟩
      exact Choices.sameOutside_forget c hMem
  | cons t ts ih =>
      rcases List.forall_mem_cons.mp hTests with ⟨hHead, hTail⟩
      have hNote := Choices.sameOutside_choose c hMem k
      rcases h with ⟨e, hEnd, hRest⟩ | ⟨-, hEnd⟩
      · exact ((ih hTail hRest).trans (hHead hEnd)).trans hNote
      · exact (hHead hEnd).trans hNote

/- A test changes choices at its own alternations only. -/
theorem CanEnd.sameOutside
    (t : Test) :
    ChangesWithin can root bindings t.alts t := by
  have hMono :
      ∀ {D E : Set Nat} {t : Test}, D ⊆ E →
        ChangesWithin can root bindings D t →
        ChangesWithin can root bindings E t :=
    fun hSub hIn _ _ _ h => (hIn h).mono hSub
  induction t using shapeInduction with
  | and ts ih =>
      intro c d r h
      refine sameOutside_of_canEndWhile (fun t ht => ?_) h
      exact hMono (alts_subset_altsOfAll ht) (ih t ht)
  | or ts ih =>
      intro c d r h
      refine sameOutside_of_canEndWhile (fun t ht => ?_) h
      exact hMono (alts_subset_altsOfAll ht) (ih t ht)
  | alt i ts ih =>
      intro c d r h
      have hMem : i ∈ (Test.alt i ts).alts := Set.mem_insert i _
      refine sameOutside_of_canEndBranches hMem (fun t ht => ?_) h
      have hSub := (alts_subset_altsOfAll ht).trans
        (Set.subset_insert i (altsOfAll ts))
      exact hMono hSub (ih t ht)
  | guard id =>
      rintro c d r ⟨rfl, -⟩
      exact .refl _ _
  | leaf t hLeaf =>
      intro c d r h
      rcases (canEnd_leaf hLeaf c r d).mp h with ⟨rfl, -⟩
      exact .refl _ _

end Test

end MatchCompiler

------------------------------------------------------------
-- Pure Hosts
------------------------------------------------------------

namespace MatchCompiler

namespace Test

variable {answer : GuardId → ValueBindings → Bool}
variable {root : Value}
variable {bindings : AccessBindings}

/- A test has at most one outcome from given choices. -/
def Determined
    (can : GuardAnswers)
    (root : Value)
    (bindings : AccessBindings)
    (t : Test) : Prop :=
  ∀ ⦃c d d' : Choices⦄ ⦃r r' : Except ShapeMismatch Bool⦄,
    t.CanEnd can root bindings c r d →
    t.CanEnd can root bindings c r' d' →
    r = r' ∧ d = d'

theorem canEndWhile_unique
    {can : GuardAnswers}
    {go : Bool}
    {ts : List Test}
    (hTests : ∀ t ∈ ts, Determined can root bindings t)
    {c d d' : Choices}
    {r r' : Except ShapeMismatch Bool}
    (h : CanEndWhile can root bindings go ts c r d)
    (h' : CanEndWhile can root bindings go ts c r' d') :
    r = r' ∧ d = d' := by
  induction ts generalizing c with
  | nil =>
      rcases h with ⟨rfl, rfl⟩
      rcases h' with ⟨rfl, rfl⟩
      exact ⟨rfl, rfl⟩
  | cons t ts ih =>
      rcases List.forall_mem_cons.mp hTests with ⟨hHead, hTail⟩
      rcases h with ⟨e, hEnd, hRest⟩ | ⟨hNe, hEnd⟩
      · rcases h' with ⟨e', hEnd', hRest'⟩ | ⟨hNe', hEnd'⟩
        · rcases hHead hEnd hEnd' with ⟨-, rfl⟩
          exact ih hTail hRest hRest'
        · exact absurd (hHead hEnd hEnd').1.symm hNe'
      · rcases h' with ⟨e', hEnd', hRest'⟩ | ⟨hNe', hEnd'⟩
        · exact absurd (hHead hEnd hEnd').1 hNe
        · exact hHead hEnd hEnd'

theorem canEndBranches_unique
    {can : GuardAnswers}
    {i : Nat}
    {ts : List Test}
    (hTests : ∀ t ∈ ts, Determined can root bindings t)
    {k : Nat}
    {c d d' : Choices}
    {r r' : Except ShapeMismatch Bool}
    (h : CanEndBranches can root bindings i k ts c r d)
    (h' : CanEndBranches can root bindings i k ts c r' d') :
    r = r' ∧ d = d' := by
  induction ts generalizing c k with
  | nil =>
      rcases h with ⟨rfl, rfl⟩
      rcases h' with ⟨rfl, rfl⟩
      exact ⟨rfl, rfl⟩
  | cons t ts ih =>
      rcases List.forall_mem_cons.mp hTests with ⟨hHead, hTail⟩
      rcases h with ⟨e, hEnd, hRest⟩ | ⟨hNe, hEnd⟩
      · rcases h' with ⟨e', hEnd', hRest'⟩ | ⟨hNe', hEnd'⟩
        · rcases hHead hEnd hEnd' with ⟨-, rfl⟩
          exact ih hTail hRest hRest'
        · exact absurd (hHead hEnd hEnd').1.symm hNe'
      · rcases h' with ⟨e', hEnd', hRest'⟩ | ⟨hNe', hEnd'⟩
        · exact absurd (hHead hEnd hEnd').1 hNe
        · exact hHead hEnd hEnd'

/- Under a pure host every test has one outcome. -/
theorem CanEnd.unique
    (t : Test) :
    Determined (.ofFunction answer) root bindings t := by
  induction t using shapeInduction with
  | and ts ih =>
      intro c d d' r r' h h'
      exact canEndWhile_unique ih h h'
  | or ts ih =>
      intro c d d' r r' h h'
      exact canEndWhile_unique ih h h'
  | alt i ts ih =>
      intro c d d' r r' h h'
      exact canEndBranches_unique ih h h'
  | guard id =>
      rintro c d d' r r' ⟨rfl, b, rfl, rfl⟩ ⟨rfl, b', rfl, rfl⟩
      exact ⟨rfl, rfl⟩
  | leaf t hLeaf =>
      intro c d d' r r' h h'
      rcases (canEnd_leaf hLeaf c r d).mp h with ⟨rfl, rfl⟩
      rcases (canEnd_leaf hLeaf _ r' d').mp h' with ⟨rfl, rfl⟩
      exact ⟨rfl, rfl⟩

end Test

end MatchCompiler
