import MatchCompiler.Procedure.Test
import MatchCompiler.Schema.Basic

/-
  This file defines procedures, the compiled form of a match:
  clauses that are tried in order, each with a test and the
  names it binds.

  Key definitions include:
    * `Clause`
    * `Procedure`
    * `Procedure.canFail`
-/

------------------------------------------------------------
-- Procedures
------------------------------------------------------------

namespace MatchCompiler

/- A compiled arm and the number of the arm. -/
structure Clause where
  arm : Nat
  test : Test
  bindings : AccessBindings

namespace Clause

/- Whether the clause takes every value unasked. -/
def isCatchAll (c : Clause) : Bool :=
  c.test.isAlways

/- The path of a name that the clause binds. -/
def binding?
    (c : Clause)
    (name : String) : Option Access :=
  c.bindings.lookup name

end Clause

/-
  A compiled match: its clauses, the schema of what it is run
  on, and whether the arms are known to cover every value.
-/
structure Procedure where
  clauses : List Clause
  scrutinee : SchemaId
  exhaustive : Bool

namespace Procedure

/- The clause of an arm. -/
def clauseFor?
    (p : Procedure)
    (arm : Nat) : Option Clause :=
  p.clauses.find? (fun c => c.arm == arm)

/- Whether some clause takes every value. -/
def hasCatchAll (p : Procedure) : Bool :=
  p.clauses.any Clause.isCatchAll

/- Whether a value may fall through all clauses. -/
def canFail (p : Procedure) : Bool :=
  !p.exhaustive && !p.hasCatchAll

end Procedure

end MatchCompiler
