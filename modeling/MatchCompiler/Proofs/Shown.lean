import MatchCompiler.Procedure.Render
import MatchCompiler.Proofs.Leaves
import MatchCompiler.Proofs.Simplification

/-
  This file says what the rendered text of accesses and tests
  computes.

  A run notes which branch of an alternation matched. The
  text of a procedure has no such notes: it tests the branches
  again where a name depends on them, the last one excepted,
  and asks the guards inside with the names that the branch
  binds. A test that is read again asks its guards as a run
  does whose host answers each of them once and for all.

  Key definitions include:
    * `Access.shown`
    * `Test.shown`
    * `Alternative.selected`
    * `Access.IsShown`
    * `GuardAnswers.fixed`

  Key theorems include:
    * `Access.shownChoice_eq`
    * `Test.shown_of_canEnd`
    * `CheckedArm.looksShown_plan`
-/

------------------------------------------------------------
-- Reading The Text
------------------------------------------------------------

namespace MatchCompiler

/- The answer of a test once it has the value that it reads. -/
def Test.question
    (t : Test)
    (v : Value) : Except ShapeMismatch Bool :=
  match t.query with
  | some (_, q) => q v
  | none => .ok t.isAlways

mutual

/- What the text of an access leads to. -/
def Access.shown
    (answer : GuardId → ValueBindings → Bool)
    (root : Value) : Access → Except ShapeMismatch Value
| .scrutinee => .ok root
| .field base name => do
    (← base.shown answer root).readField name
| .index base i => do
    (← base.shown answer root).readItem i
| .slice base r => do
    (← base.shown answer root).readSlice r
| .payload base => do
    (← base.shown answer root).readPayload
| .mapValue base key => do
    (← base.shown answer root).readKey key
| .constant value => .ok (.ofLiteral value)
| .byLength base cases otherwise => do
    let n ← (← base.shown answer root).readLength
    match Access.shownCase answer root n cases with
    | some result => result
    | none => otherwise.shown answer root
| .choice _ choices => Access.shownChoice answer root choices
termination_by structural a => a

/- What the first case with a length leads to. -/
def Access.shownCase
    (answer : GuardId → ValueBindings → Bool)
    (root : Value)
    (length : Nat) :
    List (Nat × Access) → Option (Except ShapeMismatch Value)
| [] => none
| (n, a) :: cs =>
    if n == length then
      some (a.shown answer root)
    else
      Access.shownCase answer root length cs
termination_by structural cs => cs

/-
  What the branches of a choice lead to: those of a
  conditional whose last branch needs no condition.
-/
def Access.shownChoice
    (answer : GuardId → ValueBindings → Bool)
    (root : Value) :
    List Alternative → Except ShapeMismatch Value
| [] => .ok root
| [.mk _ _ _ a] => a.shown answer root
| .mk _ t bs a :: c :: cs => do
    if ← t.shown answer root (Access.shownScope answer root bs) then
      a.shown answer root
    else
      Access.shownChoice answer root (c :: cs)
termination_by structural cs => cs

/- The bindings that are repeated for a guard, where readable. -/
def Access.shownScope
    (answer : GuardId → ValueBindings → Bool)
    (root : Value) :
    List (String × Access) → ValueBindings
| [] => []
| (name, a) :: bs =>
    match a.shown answer root with
    | .ok v => (name, v) :: Access.shownScope answer root bs
    | .error _ => Access.shownScope answer root bs
termination_by structural bs => bs

/-
  What the text of a test answers in the scope of bindings
  that its guards repeat. An alternation is written as a
  disjunction.
-/
def Test.shown
    (answer : GuardId → ValueBindings → Bool)
    (root : Value)
    (scope : ValueBindings) : Test → Except ShapeMismatch Bool
| .always => .ok true
| .never => .ok false
| .and tests => Test.shownAll answer root scope tests
| .or tests => Test.shownAny answer root scope tests
| .alt _ branches => Test.shownAny answer root scope branches
| .equals a k => do
    (Test.equals a k).question (← a.shown answer root)
| .oneOf a ks => do
    (Test.oneOf a ks).question (← a.shown answer root)
| .oneOfTexts a ks => do
    (Test.oneOfTexts a ks).question (← a.shown answer root)
| .tagIs a label => do
    (Test.tagIs a label).question (← a.shown answer root)
| .tagIn a labels => do
    (Test.tagIn a labels).question (← a.shown answer root)
| .lengthIs a n => do
    (Test.lengthIs a n).question (← a.shown answer root)
| .lengthAtLeast a n => do
    (Test.lengthAtLeast a n).question (← a.shown answer root)
| .lengthIn a least greatest => do
    (Test.lengthIn a least greatest).question (← a.shown answer root)
| .isNil a => do
    (Test.isNil a).question (← a.shown answer root)
| .isNotNil a => do
    (Test.isNotNil a).question (← a.shown answer root)
| .typeIs a name => do
    (Test.typeIs a name).question (← a.shown answer root)
| .isSome a => do
    (Test.isSome a).question (← a.shown answer root)
| .isNone a => do
    (Test.isNone a).question (← a.shown answer root)
| .hasKey a key => do
    (Test.hasKey a key).question (← a.shown answer root)
| .setContains a members exact => do
    (Test.setContains a members exact).question
      (← a.shown answer root)
| .setMask a mask exact => do
    (Test.setMask a mask exact).question (← a.shown answer root)
| .guard id => .ok (answer id scope)
termination_by structural t => t

/- Whether all tests hold, up to the first that does not. -/
def Test.shownAll
    (answer : GuardId → ValueBindings → Bool)
    (root : Value)
    (scope : ValueBindings) :
    List Test → Except ShapeMismatch Bool
| [] => .ok true
| t :: ts => do
    if ← t.shown answer root scope then
      Test.shownAll answer root scope ts
    else
      return false
termination_by structural ts => ts

/- Whether some test holds, up to the first that does. -/
def Test.shownAny
    (answer : GuardId → ValueBindings → Bool)
    (root : Value)
    (scope : ValueBindings) :
    List Test → Except ShapeMismatch Bool
| [] => .ok false
| t :: ts => do
    if ← t.shown answer root scope then
      return true
    else
      Test.shownAny answer root scope ts
termination_by structural ts => ts

end

/-
  The branch that the text of a choice takes: the first but
  the last whose test holds when its guards are given the
  bindings of that branch, or else the last.
-/
def Alternative.selected
    (answer : GuardId → ValueBindings → Bool)
    (root : Value) :
    List Alternative → Except ShapeMismatch (Option Alternative)
| [] => .ok none
| [c] => .ok (some c)
| c :: c' :: cs => do
    let scope := Access.shownScope answer root c.bindings
    if ← c.test.shown answer root scope then
      return some c
    else
      selected answer root (c' :: cs)

variable {answer : GuardId → ValueBindings → Bool}
variable {root : Value}

/- The first branch is taken if its test holds. -/
theorem Alternative.selected_of_true
    {c : Alternative}
    (h :
      c.test.shown answer root
        (Access.shownScope answer root c.bindings) = .ok true)
    (cs : List Alternative) :
    selected answer root (c :: cs) = .ok (some c) := by
  cases cs with
  | nil => rfl
  | cons c' cs =>
      rw [selected, h]
      rfl

/- If its test fails, the branch is taken from the others. -/
theorem Alternative.selected_of_false
    {c : Alternative}
    (h :
      c.test.shown answer root
        (Access.shownScope answer root c.bindings) = .ok false)
    {cs : List Alternative}
    (hMore : cs ≠ []) :
    selected answer root (c :: cs) = selected answer root cs := by
  cases cs with
  | nil => exact absurd rfl hMore
  | cons c' cs =>
      rw [selected, h]
      rfl

/- A choice leads where the branch that it takes leads. -/
theorem Access.shownChoice_eq
    (cs : List Alternative) :
    shownChoice answer root cs = (do
      match ← Alternative.selected answer root cs with
      | some c => c.access.shown answer root
      | none => .ok root) := by
  induction cs with
  | nil => rfl
  | cons c cs ih =>
      rcases c with ⟨k, t, bs, a⟩
      cases cs with
      | nil => rfl
      | cons c' cs =>
          rw [shownChoice, Alternative.selected, ih]
          simp only [Alternative.test, Alternative.bindings]
          rcases t.shown answer root (shownScope answer root bs) with
            cause | b
          · rfl
          · cases b <;> rfl

end MatchCompiler

------------------------------------------------------------
-- Accesses Without Choices
------------------------------------------------------------

namespace MatchCompiler

variable {answer : GuardId → ValueBindings → Bool}
variable {root : Value}

/- The text of the access leads where a run reads, always. -/
def Access.IsShown
    (answer : GuardId → ValueBindings → Bool)
    (root : Value)
    (a : Access) : Prop :=
  ∀ c, a.resolve root c = a.shown answer root

namespace Access

theorem isShown_scrutinee :
    IsShown answer root .scrutinee :=
  fun _ => rfl

/- So does what goes on from it. -/
theorem paths_isShown :
    Paths (IsShown answer root) where
  field := fun h name c => by simp only [resolve, shown, h c]
  index := fun h i c => by simp only [resolve, shown, h c]
  slice := fun h range c => by simp only [resolve, shown, h c]
  payload := fun h c => by simp only [resolve, shown, h c]
  mapValue := fun h key c => by simp only [resolve, shown, h c]
  constant := fun _ _ => rfl
  byLength := by
    intro a cases otherwise h hCases hOtherwise c
    have hCase :
        ∀ n, resolveCase root c n cases =
          shownCase answer root n cases := by
      intro n
      induction cases with
      | nil => rfl
      | cons e es ih =>
          rcases List.forall_mem_cons.mp hCases with ⟨hHead, hTail⟩
          simp only [resolveCase, shownCase, hHead c, ih hTail]
    rw [resolve, shown, h c]
    refine bind_congr fun v => bind_congr fun n => ?_
    rw [hCase n]
    cases shownCase answer root n cases with
    | none => exact hOtherwise c
    | some result => rfl

end Access

namespace AccessBindings

/- The names of some bindings with what is read for them. -/
def readBy
    (read : Access → Except ShapeMismatch Value)
    (bindings : AccessBindings) : ValueBindings :=
  bindings.filterMap fun (name, access) =>
    match read access with
    | .ok v => some (name, v)
    | .error _ => none

variable {read : Access → Except ShapeMismatch Value}

theorem readBy_cons
    (b : String × Access)
    (bindings : AccessBindings) :
    readBy read (b :: bindings) =
      match read b.2 with
      | .ok v => (b.1, v) :: readBy read bindings
      | .error _ => readBy read bindings := by
  unfold readBy
  rw [List.filterMap_cons]
  dsimp only
  cases read b.2 <;> rfl

/- A guard sees in a scope what the text reads. -/
theorem shownScope_eq
    (bindings : AccessBindings) :
    Access.shownScope answer root bindings =
      bindings.readBy (Access.shown answer root) := by
  induction bindings with
  | nil => rfl
  | cons b bs ih =>
      rw [readBy_cons, Access.shownScope, ih]

/- A name that is not bound is not read. -/
theorem lookup_readBy_eq_none
    {bindings : AccessBindings}
    {x : String}
    (h : x ∉ bindings.names) :
    (bindings.readBy read).lookup x = none := by
  induction bindings with
  | nil => rfl
  | cons b bs ih =>
      rcases not_or.mp (mt List.mem_cons.mpr h) with ⟨hNe, hRest⟩
      rw [readBy_cons]
      cases read b.2 with
      | error cause => exact ih hRest
      | ok v =>
          have hFalse : (x == b.1) = false := beq_eq_false_iff_ne.mpr hNe
          rw [List.lookup_cons, hFalse]
          exact ih hRest

/- A name that is bound once has what its access leads to. -/
theorem lookup_readBy
    {bindings : AccessBindings}
    (hNodup : bindings.names.Nodup)
    {x : String}
    {a : Access}
    (hLookup : bindings.lookup x = some a) :
    (bindings.readBy read).lookup x = (read a).toOption := by
  induction bindings with
  | nil => cases hLookup
  | cons b bs ih =>
      rcases List.nodup_cons.mp hNodup with ⟨hFresh, hRest⟩
      rw [List.lookup_cons] at hLookup
      rw [readBy_cons]
      cases hSame : x == b.1 with
      | true =>
          rw [hSame] at hLookup
          cases hLookup
          cases read b.2 with
          | ok v =>
              dsimp only
              rw [List.lookup_cons, hSame]
              rfl
          | error cause =>
              refine lookup_readBy_eq_none ?_
              rw [beq_iff_eq.mp hSame]
              exact hFresh
      | false =>
          rw [hSame] at hLookup
          cases read b.2 with
          | ok v =>
              dsimp only
              rw [List.lookup_cons, hSame]
              exact ih hRest hLookup
          | error cause => exact ih hRest hLookup

end AccessBindings

end MatchCompiler

------------------------------------------------------------
-- Tests
------------------------------------------------------------

namespace MatchCompiler

/- Each guard is answered as it is in one scope. -/
def GuardAnswers.fixed
    (answer : GuardId → ValueBindings → Bool)
    (scope : ValueBindings) : GuardAnswers :=
  fun id _ b => b = answer id scope

variable {answer : GuardId → ValueBindings → Bool}
variable {root : Value}

namespace Test

/- The text of a leaf reads what a run reads, always. -/
def IsShown
    (answer : GuardId → ValueBindings → Bool)
    (root : Value)
    (t : Test) : Prop :=
  ∀ a q, t.query = some (a, q) → a.IsShown answer root

theorem grouped_isShown :
    Grouped (IsShown answer root) where
  always := nofun
  never := nofun
  oneOf := by
    rintro a k h ks _ _ ⟨⟩
    exact h a _ rfl
  oneOfTexts := by
    rintro a k h texts _ _ ⟨⟩
    exact h a _ rfl
  tagIn := by
    rintro a label h ls _ _ ⟨⟩
    exact h a _ rfl

/- The text of such a leaf answers what a run answers. -/
theorem IsShown.shown_eq
    {t : Test}
    (h : t.IsShown answer root)
    (hLeaf : t.IsLeaf)
    (scope : ValueBindings)
    (c : Choices) :
    t.shown answer root scope = t.reading root c := by
  unfold reading
  cases t <;>
    first
    | exact hLeaf.elim
    | rfl
    | (dsimp only [query]
       rw [h _ _ rfl c]
       rfl)

section

variable {scope : ValueBindings}
variable {bindings : AccessBindings}
variable {ts : List Test}
variable (hTests :
  ∀ t ∈ ts, ∀ {c d : Choices} {r : Except ShapeMismatch Bool},
    t.CanEnd (.fixed answer scope) root bindings c r d →
    t.shown answer root scope = r)
variable {c d : Choices}
variable {r : Except ShapeMismatch Bool}

include hTests

theorem shownAll_of_canEnd
    (h :
      CanEndWhile (.fixed answer scope) root bindings true ts c r d) :
    shownAll answer root scope ts = r := by
  induction ts generalizing c with
  | nil => exact h.2.symm
  | cons t ts ih =>
      rcases List.forall_mem_cons.mp hTests with ⟨hHead, hTail⟩
      rcases h with ⟨e, hHere, hRest⟩ | ⟨hNe, hHere⟩
      · rw [shownAll, hHead hHere]
        exact ih hTail hRest
      · rw [shownAll, hHead hHere]
        rcases eq_error_or_of_ne hNe with ⟨cause, rfl⟩ | rfl <;> rfl

theorem shownAny_of_canEnd
    (h :
      CanEndWhile (.fixed answer scope) root bindings false ts c r d) :
    shownAny answer root scope ts = r := by
  induction ts generalizing c with
  | nil => exact h.2.symm
  | cons t ts ih =>
      rcases List.forall_mem_cons.mp hTests with ⟨hHead, hTail⟩
      rcases h with ⟨e, hHere, hRest⟩ | ⟨hNe, hHere⟩
      · rw [shownAny, hHead hHere]
        exact ih hTail hRest
      · rw [shownAny, hHead hHere]
        rcases eq_error_or_of_ne hNe with ⟨cause, rfl⟩ | rfl <;> rfl

theorem shownAny_of_branches
    {i k : Nat}
    (h :
      CanEndBranches (.fixed answer scope) root bindings i k ts c r d) :
    shownAny answer root scope ts = r := by
  induction ts generalizing c k with
  | nil => exact h.2.symm
  | cons t ts ih =>
      rcases List.forall_mem_cons.mp hTests with ⟨hHead, hTail⟩
      rcases h with ⟨e, hHere, hRest⟩ | ⟨hNe, hHere⟩
      · rw [shownAny, hHead hHere]
        exact ih hTail hRest
      · rw [shownAny, hHead hHere]
        rcases eq_error_or_of_ne hNe with ⟨cause, rfl⟩ | rfl <;> rfl

end

/-
  A test that looks at no choices answers in a scope what a
  run answers whose guards are answered as in that scope.
-/
theorem shown_of_canEnd
    {scope : ValueBindings}
    {bindings : AccessBindings}
    {t : Test}
    (hLeaves : t.Leaves (IsShown answer root))
    {c d : Choices}
    {r : Except ShapeMismatch Bool}
    (h : t.CanEnd (.fixed answer scope) root bindings c r d) :
    t.shown answer root scope = r := by
  induction hLeaves generalizing c d r with
  | and _ ih => exact shownAll_of_canEnd (fun t ht => ih t ht) h
  | or _ ih => exact shownAny_of_canEnd (fun t ht => ih t ht) h
  | alt i _ ih => exact shownAny_of_branches (fun t ht => ih t ht) h
  | guard id =>
      rcases h with ⟨-, b, rfl, rfl⟩
      rfl
  | leaf hLeaf hShown =>
      rcases (canEnd_leaf hLeaf c r d).mp h with ⟨-, rfl⟩
      exact hShown.shown_eq hLeaf scope c

end Test

end MatchCompiler

------------------------------------------------------------
-- Patterns
------------------------------------------------------------

namespace MatchCompiler

/- A plan binds names to paths, and its leaves read paths. -/
abbrev Plan.LooksShown
    (answer : GuardId → ValueBindings → Bool)
    (root : Value)
    (p : Plan) : Prop :=
  p.Looks (Access.IsShown answer root) (Test.IsShown answer root)

variable {answer : GuardId → ValueBindings → Bool}
variable {root : Value}

/- So does the plan of an arm. -/
theorem CheckedArm.looksShown_plan
    (arm : CheckedArm)
    (o : LoweringOptions) :
    (arm.plan o).LooksShown answer root := by
  refine looks_plan (Checked.looks_plan Access.paths_isShown
    Test.grouped_isShown (fun t h a q hQuery => h.of_query hQuery)
    arm.pattern o false Access.isShown_scrutinee)

/- The simplified test of a plan can be read from its text. -/
theorem Plan.LooksShown.shown_of_canEnd
    {p : Plan}
    (h : p.LooksShown answer root)
    {o : LoweringOptions}
    {n : Nat}
    {scope : ValueBindings}
    {bindings : AccessBindings}
    {c d : Choices}
    {r : Except ShapeMismatch Bool}
    (hEnd :
      ((p.lower o n).1.test.simplify o).CanEnd (.fixed answer scope)
        root bindings c r d) :
    ((p.lower o n).1.test.simplify o).shown answer root scope = r := by
  have hLeaves := h.leaves_lower Test.grouped_isShown.never o n
  exact Test.shown_of_canEnd
    (hLeaves.simplify Test.grouped_isShown o) hEnd

end MatchCompiler
