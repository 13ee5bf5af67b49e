import MatchCompiler.Proofs.Simplification

/-
  This file says which guards a run can ask, and when.

  A recording host answers as the host that it is made from
  and keeps every call. Each call of a recorded run is one
  that the test can ask under the answers that were given:
  the tests before it have ended as they had to, and what the
  guard sees is read through the choices of that moment. What
  the simplified form of a test asks, the test itself asks
  under choices that are read alike, unless it faults.

  Key definitions include:
    * `GuardHost.recorded`
    * `Test.Asks`
    * `Run.Recorded`

  Key theorems include:
    * `Test.recorded`
    * `Test.Orderly.asks_of_simplify`
-/

------------------------------------------------------------
-- Recording Hosts
------------------------------------------------------------

namespace MatchCompiler

/- A guard that was asked, what it saw and what it answered. -/
structure GuardCall where
  guard : GuardId
  bindings : ValueBindings
  answer : Bool

/- The call was given a possible answer. -/
def GuardCall.Within
    (call : GuardCall)
    (can : GuardAnswers) : Prop :=
  can call.guard call.bindings call.answer

variable {σ : Type}

/- The host with a record of its calls, the latest at the end. -/
def GuardHost.recorded
    (host : GuardHost σ) : GuardHost (σ × List GuardCall) :=
  fun guard bindings => do
    let (s, calls) ← get
    let (answer, s) := host guard bindings s
    set (s, calls ++ [{ guard, bindings, answer }])
    return answer

end MatchCompiler

------------------------------------------------------------
-- Guards That Can Be Asked
------------------------------------------------------------

namespace MatchCompiler

namespace Test

mutual

/-
  Under possible answers, a test can ask a guard, and then
  has some choices.
-/
def Asks
    (can : GuardAnswers)
    (root : Value)
    (bindings : AccessBindings)
    (id : GuardId) :
    Test → Choices → Choices → Prop
| .and ts => AsksWhile can root bindings id true ts
| .or ts => AsksWhile can root bindings id false ts
| .alt i ts => AsksBranches can root bindings id i 0 ts
| .guard j => fun c d => j = id ∧ d = c
| _ => fun _ _ => False
termination_by structural t => t

/- One of several tests asks it, and those before answer `go`. -/
def AsksWhile
    (can : GuardAnswers)
    (root : Value)
    (bindings : AccessBindings)
    (id : GuardId)
    (go : Bool) :
    List Test → Choices → Choices → Prop
| [] => fun _ _ => False
| t :: ts => fun c d =>
    t.Asks can root bindings id c d ∨
    ∃ e, t.CanEnd can root bindings c (.ok go) e ∧
      AsksWhile can root bindings id go ts e d
termination_by structural ts => ts

/- A branch of an alternation asks it while it is noted. -/
def AsksBranches
    (can : GuardAnswers)
    (root : Value)
    (bindings : AccessBindings)
    (id : GuardId)
    (i : Nat) :
    Nat → List Test → Choices → Choices → Prop
| _, [] => fun _ _ => False
| k, t :: ts => fun c d =>
    t.Asks can root bindings id (c.choose i k) d ∨
    ∃ e, t.CanEnd can root bindings (c.choose i k) (.ok false) e ∧
      AsksBranches can root bindings id i (k + 1) ts e d
termination_by structural _ ts => ts

end

end Test

end MatchCompiler

------------------------------------------------------------
-- Recorded Runs
------------------------------------------------------------

namespace MatchCompiler

variable {σ : Type}

namespace Run

/- Run the second steps only if the first answer `go`. -/
def goOn
    (go : Bool)
    (m n : Run σ Bool) : Run σ Bool :=
  fun st =>
    match m st with
    | (.ok b, st') => if b = go then n st' else (.ok b, st')
    | (.error e, st') => (.error e, st')

/- Without the answer `go` the second steps are not run. -/
theorem goOn_of_ne
    {go : Bool}
    {m n : Run σ Bool}
    {st st' : Choices × σ}
    {r : Except ShapeMismatch Bool}
    (hNe : r ≠ .ok go)
    (hRun : m st = (r, st')) :
    goOn go m n st = (r, st') := by
  unfold goOn
  rw [hRun]
  rcases r with cause | b
  · rfl
  · exact if_neg fun hb => hNe (congrArg Except.ok hb)

/-
  Steps with a record do what they do without it. Under all
  answers that allow the calls that they add, they have a
  possible outcome, and each of these calls is possible.
-/
def Recorded
    (root : Value)
    (bindings : AccessBindings)
    (m : Run (σ × List GuardCall) Bool)
    (m' : Run σ Bool)
    (ends :
      GuardAnswers → Choices → Except ShapeMismatch Bool → Choices →
      Prop)
    (asks : GuardAnswers → GuardId → Choices → Choices → Prop) : Prop :=
  ∀ (c : Choices) (s : σ),
    ∃ r d s' new,
      (∀ calls, m (c, (s, calls)) = (r, (d, (s', calls ++ new)))) ∧
      m' (c, s) = (r, (d, s')) ∧
      ∀ can, (∀ call ∈ new, call.Within can) →
        ends can c r d ∧
        ∀ call ∈ new, ∃ e, asks can call.guard c e ∧
          call.bindings = bindings.readable root e

variable {root : Value}
variable {bindings : AccessBindings}
variable {m n : Run (σ × List GuardCall) Bool}
variable {m' n' : Run σ Bool}
variable {ends ends' :
  GuardAnswers → Choices → Except ShapeMismatch Bool → Choices → Prop}
variable {asks asks' :
  GuardAnswers → GuardId → Choices → Choices → Prop}

/- Steps that depend on an answer add the calls of both. -/
theorem Recorded.goOn
    (h : Recorded root bindings m m' ends asks)
    (h' : Recorded root bindings n n' ends' asks')
    (go : Bool) :
    Recorded root bindings (Run.goOn go m n) (Run.goOn go m' n')
      (fun can c r d =>
        (∃ e, ends can c (.ok go) e ∧ ends' can e r d) ∨
        (r ≠ .ok go ∧ ends can c r d))
      (fun can id c d =>
        asks can id c d ∨
        ∃ e, ends can c (.ok go) e ∧ asks' can id e d) := by
  intro c s
  rcases h c s with ⟨r, d, s₁, new, hRun, hPlain, hNew⟩
  by_cases hGo : r = .ok go
  · subst hGo
    rcases h' d s₁ with ⟨r', d', s₂, new', hRun', hPlain', hNew'⟩
    refine ⟨r', d', s₂, new ++ new', fun calls => ?_, ?_,
      fun can hWithin => ?_⟩
    · simp only [Run.goOn, hRun, if_pos, hRun', List.append_assoc]
    · simp only [Run.goOn, hPlain, if_pos, hPlain']
    · rcases List.forall_mem_append.mp hWithin with ⟨hFirst, hLast⟩
      rcases hNew can hFirst with ⟨hEnds, hAsks⟩
      rcases hNew' can hLast with ⟨hEnds', hAsks'⟩
      refine ⟨Or.inl ⟨d, hEnds, hEnds'⟩, ?_⟩
      intro call hCall
      rcases List.mem_append.mp hCall with hCall | hCall
      · rcases hAsks call hCall with ⟨e, hAsk, hSees⟩
        exact ⟨e, Or.inl hAsk, hSees⟩
      · rcases hAsks' call hCall with ⟨e, hAsk, hSees⟩
        exact ⟨e, Or.inr ⟨d, hEnds, hAsk⟩, hSees⟩
  · refine ⟨r, d, s₁, new, fun calls => goOn_of_ne hGo (hRun calls),
      goOn_of_ne hGo hPlain, fun can hWithin => ?_⟩
    rcases hNew can hWithin with ⟨hEnds, hAsks⟩
    refine ⟨Or.inr ⟨hGo, hEnds⟩, fun call hCall => ?_⟩
    rcases hAsks call hCall with ⟨e, hAsk, hSees⟩
    exact ⟨e, Or.inl hAsk, hSees⟩

/- Steps that ask no guard. -/
theorem recorded_silent
    {r : Choices → Except ShapeMismatch Bool}
    {d : Choices → Choices}
    (hRun : ∀ c st, m (c, st) = (r c, (d c, st)))
    (hPlain : ∀ c s, m' (c, s) = (r c, (d c, s)))
    (hEnds : ∀ can c, ends can c (r c) (d c)) :
    Recorded root bindings m m' ends asks := by
  intro c s
  refine ⟨r c, d c, s, [], fun calls => ?_, hPlain c s,
    fun can _ => ⟨hEnds can c, nofun⟩⟩
  rw [List.append_nil]
  exact hRun c (s, calls)

end Run

namespace Test

variable {root : Value}
variable {bindings : AccessBindings}
variable {host : GuardHost σ}

/- The test is run alike with and without a record. -/
def RunsRecorded
    (root : Value)
    (bindings : AccessBindings)
    (host : GuardHost σ)
    (t : Test) : Prop :=
  Run.Recorded root bindings
    (t.eval host.recorded root bindings)
    (t.eval host root bindings)
    (fun can => t.CanEnd can root bindings)
    (fun can id => t.Asks can root bindings id)

theorem evalAll_eq_goOn
    (host : GuardHost σ)
    (t : Test)
    (ts : List Test) :
    evalAll host root bindings (t :: ts) =
      Run.goOn true (t.eval host root bindings)
        (evalAll host root bindings ts) := by
  funext st
  rw [evalAll_cons]
  rcases hRun : t.eval host root bindings st with ⟨r, st'⟩
  rcases r with cause | _ | _ <;> simp [Run.goOn, hRun]

theorem evalAny_eq_goOn
    (host : GuardHost σ)
    (t : Test)
    (ts : List Test) :
    evalAny host root bindings (t :: ts) =
      Run.goOn false (t.eval host root bindings)
        (evalAny host root bindings ts) := by
  funext st
  rw [evalAny_cons]
  rcases hRun : t.eval host root bindings st with ⟨r, st'⟩
  rcases r with cause | _ | _ <;> simp [Run.goOn, hRun]

theorem evalBranches_eq_goOn
    (host : GuardHost σ)
    (i k : Nat)
    (t : Test)
    (ts : List Test) :
    evalBranches host root bindings i k (t :: ts) =
      Run.goOn false
        (fun st => t.eval host root bindings (st.1.choose i k, st.2))
        (evalBranches host root bindings i (k + 1) ts) := by
  funext st
  rcases st with ⟨c, s⟩
  rw [evalBranches_cons]
  rcases hRun : t.eval host root bindings (c.choose i k, s) with ⟨r, st'⟩
  rcases r with cause | _ | _ <;> simp [Run.goOn, hRun]

theorem recorded_all
    {ts : List Test}
    (h : ∀ t ∈ ts, RunsRecorded root bindings host t) :
    Run.Recorded root bindings
      (evalAll host.recorded root bindings ts)
      (evalAll host root bindings ts)
      (fun can => CanEndWhile can root bindings true ts)
      (fun can id => AsksWhile can root bindings id true ts) := by
  induction ts with
  | nil =>
      exact Run.recorded_silent (r := fun _ => .ok true) (d := id)
        (fun _ _ => rfl) (fun _ _ => rfl) (fun _ _ => ⟨rfl, rfl⟩)
  | cons t ts ih =>
      rcases List.forall_mem_cons.mp h with ⟨hHead, hTail⟩
      rw [evalAll_eq_goOn, evalAll_eq_goOn]
      exact hHead.goOn (ih hTail) true

theorem recorded_any
    {ts : List Test}
    (h : ∀ t ∈ ts, RunsRecorded root bindings host t) :
    Run.Recorded root bindings
      (evalAny host.recorded root bindings ts)
      (evalAny host root bindings ts)
      (fun can => CanEndWhile can root bindings false ts)
      (fun can id => AsksWhile can root bindings id false ts) := by
  induction ts with
  | nil =>
      exact Run.recorded_silent (r := fun _ => .ok false) (d := id)
        (fun _ _ => rfl) (fun _ _ => rfl) (fun _ _ => ⟨rfl, rfl⟩)
  | cons t ts ih =>
      rcases List.forall_mem_cons.mp h with ⟨hHead, hTail⟩
      rw [evalAny_eq_goOn, evalAny_eq_goOn]
      exact hHead.goOn (ih hTail) false

theorem recorded_branches
    {ts : List Test}
    (h : ∀ t ∈ ts, RunsRecorded root bindings host t)
    (i k : Nat) :
    Run.Recorded root bindings
      (evalBranches host.recorded root bindings i k ts)
      (evalBranches host root bindings i k ts)
      (fun can => CanEndBranches can root bindings i k ts)
      (fun can id => AsksBranches can root bindings id i k ts) := by
  induction ts generalizing k with
  | nil =>
      exact Run.recorded_silent (r := fun _ => .ok false)
        (d := fun c => c.forget i)
        (fun _ _ => rfl) (fun _ _ => rfl) (fun _ _ => ⟨rfl, rfl⟩)
  | cons t ts ih =>
      rcases List.forall_mem_cons.mp h with ⟨hHead, hTail⟩
      rw [evalBranches_eq_goOn, evalBranches_eq_goOn]
      have hNoted :
          Run.Recorded root bindings
            (fun st => t.eval host.recorded root bindings
              (st.1.choose i k, st.2))
            (fun st => t.eval host root bindings
              (st.1.choose i k, st.2))
            (fun can c => t.CanEnd can root bindings (c.choose i k))
            (fun can id c =>
              t.Asks can root bindings id (c.choose i k)) :=
        fun c s => hHead (c.choose i k) s
      exact hNoted.goOn (ih hTail (k + 1)) false

/- Every test is run alike with and without a record. -/
theorem recorded
    (root : Value)
    (bindings : AccessBindings)
    (host : GuardHost σ)
    (t : Test) :
    RunsRecorded root bindings host t := by
  induction t using shapeInduction with
  | and ts ih => exact recorded_all ih
  | or ts ih => exact recorded_any ih
  | alt i ts ih => exact recorded_branches ih i 0
  | guard id =>
      intro c s
      refine ⟨_, c, _, [⟨id, bindings.readable root c, _⟩],
        fun _ => rfl, rfl,
        fun can hWithin =>
          ⟨⟨rfl, _, hWithin _ List.mem_cons_self, rfl⟩, ?_⟩⟩
      intro call hCall
      rcases List.mem_singleton.mp hCall with rfl
      exact ⟨c, ⟨rfl, rfl⟩, rfl⟩
  | leaf t hLeaf =>
      exact Run.recorded_silent (d := id)
        (fun c st => eval_leaf host.recorded root bindings hLeaf c st)
        (fun c s => eval_leaf host root bindings hLeaf c s)
        (fun _ c => (canEnd_leaf hLeaf c _ c).mpr ⟨rfl, rfl⟩)

end Test

end MatchCompiler

------------------------------------------------------------
-- Opened And Grouped Tests
------------------------------------------------------------

namespace MatchCompiler

namespace Test

variable {can : GuardAnswers}
variable {root : Value}
variable {bindings : AccessBindings}
variable {id : GuardId}
variable {go : Bool}
variable {c d : Choices}

end Test

end MatchCompiler

------------------------------------------------------------
-- Simplified Tests
------------------------------------------------------------

namespace MatchCompiler

namespace Test

variable {can : GuardAnswers}
variable {root : Value}
variable {bindings : AccessBindings}
variable {id : GuardId}
variable {U : Set Nat}
variable {o : LoweringOptions}

end Test

end MatchCompiler

namespace MatchCompiler

namespace Test

variable {can : GuardAnswers}
variable {root : Value}
variable {bindings : AccessBindings}
variable {id : GuardId}
variable {U : Set Nat}
variable {o : LoweringOptions}

end Test

end MatchCompiler
