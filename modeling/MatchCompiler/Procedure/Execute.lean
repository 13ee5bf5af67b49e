import MatchCompiler.Procedure.Basic
import MatchCompiler.Procedure.Value

/-
  This file runs a procedure on a value.

  Clauses are tried in order and the first whose test holds
  wins. Guards are answered by a host, which may keep a state
  of its own; it sees those bindings of the clause that can
  be read at the time. A value without the shape that the
  procedure was compiled for makes the run fault.

  Key definitions include:
    * `ShapeMismatch`
    * `Fault`
    * `Access.resolve`
    * `GuardHost`
    * `Test.eval`
    * `Clause.run`
    * `Procedure.execute`

  Key theorems include:
    * `Choices.choose_self`
    * `Choices.choose_of_ne`
    * `Choices.forget_self`
    * `Choices.forget_of_ne`
-/

------------------------------------------------------------
-- Faults
------------------------------------------------------------

namespace MatchCompiler

/-
  Why a value does not fit a procedure; most causes name the
  kind of value that was met.
-/
inductive ShapeMismatch where
| missingField
| fieldOf (kind : String)
| outOfBounds
| notSequence (kind : String)
| payloadOf (kind : String)
| missingKey
| keyReadOn (kind : String)
| unevaluatedAlternation
| unboundName
| lengthOf (kind : String)
| presenceOf (kind : String)
| keyTestOn (kind : String)
| membershipIn (kind : String)
| outsideDomain
| tagOf (kind : String)
deriving DecidableEq

/- The wording of a mismatch. -/
def ShapeMismatch.text : ShapeMismatch → String
| .missingField => "object lacks a matched field"
| .fieldOf kind => s!"field read on {kind}"
| .outOfBounds => "index out of bounds"
| .notSequence kind => s!"expected a sequence, found {kind}"
| .payloadOf kind => s!"payload read on {kind}"
| .missingKey => "map lacks a matched key"
| .keyReadOn kind => s!"key read on {kind}"
| .unevaluatedAlternation => "alternation not evaluated"
| .unboundName => "no alternative binds the name"
| .lengthOf kind => s!"length of {kind}"
| .presenceOf kind => s!"presence test on {kind}"
| .keyTestOn kind => s!"key test on {kind}"
| .membershipIn kind => s!"membership test on {kind}"
| .outsideDomain => "set element outside the ordinal domain"
| .tagOf kind => s!"tag test on {kind}"

/- Why a run ends without an outcome. -/
inductive Fault where
| noMatch
| shapeMismatch (cause : ShapeMismatch)
deriving DecidableEq

/- The wording of a fault. -/
def Fault.text : Fault → String
| .noMatch => "no match arm accepts the value"
| .shapeMismatch cause =>
    s!"value does not fit the match: {cause.text}"

end MatchCompiler

------------------------------------------------------------
-- Reading Values
------------------------------------------------------------

namespace MatchCompiler

namespace Value

/- A field of an object. -/
def readField
    (name : String)
    (v : Value) : Except ShapeMismatch Value :=
  match v with
  | .object .. =>
      match v.field? name with
      | Option.some w => .ok w
      | Option.none => .error .missingField
  | _ => .error (.fieldOf v.kindName)

/- The items of what is read by position. -/
def readItems (v : Value) : Except ShapeMismatch (List Value) :=
  match v.items? with
  | Option.some items => .ok items
  | Option.none => .error (.notSequence v.kindName)

/- An item by its place. -/
def itemAt?
    (items : List Value) : ElementIndex → Option Value
| .fromStart i => items[i]?
| .fromEnd i =>
    if i ≤ items.length then items[items.length - i]? else Option.none

/- An item of what is read by position. -/
def readItem
    (i : ElementIndex)
    (v : Value) : Except ShapeMismatch Value := do
  match itemAt? (← v.readItems) i with
  | Option.some w => return w
  | Option.none => throw .outOfBounds

/- The part that a spread takes, cut off at both ends. -/
def readSlice
    (r : SpreadRange)
    (v : Value) : Except ShapeMismatch Value := do
  let items ← v.readItems
  let kept := items.take (items.length - r.endFromEnd)
  return .seq (kept.drop r.start)

/- What a present optional holds. -/
def readPayload (v : Value) : Except ShapeMismatch Value :=
  match v with
  | .some w => .ok w
  | _ => .error (.payloadOf v.kindName)

/- The value of the first entry with a key. -/
def entry?
    (entries : List (Value × Value))
    (key : Literal) : Option Value :=
  (entries.find? (fun e => e.1.equals key)).map Prod.snd

/- The value that a map has for a key. -/
def readKey
    (key : Literal)
    (v : Value) : Except ShapeMismatch Value :=
  match v with
  | .map entries =>
      match entry? entries key with
      | Option.some w => .ok w
      | Option.none => .error .missingKey
  | _ => .error (.keyReadOn v.kindName)

/- Number of items of what is read by position. -/
def readLength (v : Value) : Except ShapeMismatch Nat :=
  match v.length? with
  | Option.some n => .ok n
  | Option.none => .error (.lengthOf v.kindName)

/- The number of an enumeration member or boolean. -/
def readOrdinal (v : Value) : Except ShapeMismatch Int :=
  match v.ordinal? with
  | Option.some n => .ok n
  | Option.none => .error (.tagOf v.kindName)

/- Whether an optional is present. -/
def readPresence (v : Value) : Except ShapeMismatch Bool :=
  match v with
  | .some _ => .ok true
  | .none => .ok false
  | _ => .error (.presenceOf v.kindName)

/- Whether a map has an entry with a key. -/
def hasKey
    (key : Literal)
    (v : Value) : Except ShapeMismatch Bool :=
  match v with
  | .map entries => .ok (entries.any (fun e => e.1.equals key))
  | _ => .error (.keyTestOn v.kindName)

/- The items of a set. -/
def readSet (v : Value) : Except ShapeMismatch (List Value) :=
  match v with
  | .set items => .ok items
  | _ => .error (.membershipIn v.kindName)

/-
  Whether a set has all members and, if the comparison is
  exact, nothing else.
-/
def setContains
    (members : List Literal)
    (exact : Bool)
    (items : List Value) : Bool :=
  members.all (fun m => items.any (fun i => i.equals m)) &&
    (!exact || items.all (fun i => members.any (fun m => i.equals m)))

/- The mask of the numbers of a set's items. -/
def maskOf : List Value → Except ShapeMismatch Nat
| [] => .ok 0
| v :: vs =>
    match v.ordinal? with
    | Option.some n =>
        if 0 ≤ n && n < 128 then
          (maskOf vs).map (fun mask => 1 <<< n.toNat ||| mask)
        else
          .error .outsideDomain
    | Option.none => .error .outsideDomain

/- Whether the type of an object is, or derives from, a type. -/
def isOfType
    (typeName : String)
    (v : Value) : Bool :=
  match v with
  | .object chain _ => chain.contains typeName
  | _ => false

/- Whether a value is one of several texts. -/
def isTextIn
    (texts : List String)
    (v : Value) : Bool :=
  match v with
  | .str s => texts.contains s
  | _ => false

/- Whether a value is nil. -/
def isNil : Value → Bool
| .nil => true
| _ => false

end Value

end MatchCompiler

------------------------------------------------------------
-- Accesses
------------------------------------------------------------

namespace MatchCompiler

/-
  The branch of each alternation that matched or is being
  tried, by the number of the alternation.
-/
abbrev Choices :=
  Nat → Option Nat

namespace Choices

/- No alternation has been tried. -/
def empty : Choices :=
  fun _ => none

/- Note the branch of an alternation. -/
def choose
    (c : Choices)
    (alt branch : Nat) : Choices :=
  fun i => if i = alt then some branch else c i

/- Forget the branch of an alternation. -/
def forget
    (c : Choices)
    (alt : Nat) : Choices :=
  fun i => if i = alt then none else c i

end Choices

mutual

/- The part of a value that an access leads to. -/
def Access.resolve
    (root : Value)
    (chosen : Choices) :
    Access → Except ShapeMismatch Value
| .scrutinee => .ok root
| .field base name => do
    (← base.resolve root chosen).readField name
| .index base i => do
    (← base.resolve root chosen).readItem i
| .slice base r => do
    (← base.resolve root chosen).readSlice r
| .payload base => do
    (← base.resolve root chosen).readPayload
| .mapValue base key => do
    (← base.resolve root chosen).readKey key
| .constant value => .ok (.ofLiteral value)
| .byLength base cases otherwise => do
    let n ← (← base.resolve root chosen).readLength
    match resolveCase root chosen n cases with
    | some result => result
    | none => otherwise.resolve root chosen
| .choice alt choices =>
    match chosen alt with
    | none => .error .unevaluatedAlternation
    | some branch =>
        match resolveChoice root chosen branch choices with
        | some result => result
        | none => .error .unboundName
termination_by structural a => a

/- The part read for the first case with a length. -/
def Access.resolveCase
    (root : Value)
    (chosen : Choices)
    (length : Nat) :
    List (Nat × Access) → Option (Except ShapeMismatch Value)
| [] => none
| (n, a) :: cs =>
    if n == length then
      some (a.resolve root chosen)
    else
      resolveCase root chosen length cs
termination_by structural cs => cs

/- The part read for the first entry with a branch. -/
def Access.resolveChoice
    (root : Value)
    (chosen : Choices)
    (branch : Nat) :
    List Alternative → Option (Except ShapeMismatch Value)
| [] => none
| .mk i _ _ a :: cs =>
    if i == branch then
      some (a.resolve root chosen)
    else
      resolveChoice root chosen branch cs
termination_by structural cs => cs

end

end MatchCompiler

------------------------------------------------------------
-- Properties Of Choices
------------------------------------------------------------

namespace MatchCompiler

namespace Choices

/- The branch just noted is found. -/
theorem choose_self
    (c : Choices)
    (alt branch : Nat) :
    c.choose alt branch alt = some branch := by
  simp [choose]

/- Noting a branch leaves the other alternations alone. -/
theorem choose_of_ne
    (c : Choices)
    {alt other : Nat}
    (branch : Nat)
    (h : other ≠ alt) :
    c.choose alt branch other = c other := by
  simp [choose, h]

/- A forgotten alternation has no branch. -/
theorem forget_self
    (c : Choices)
    (alt : Nat) :
    c.forget alt alt = none := by
  simp [forget]

/- Forgetting leaves the other alternations alone. -/
theorem forget_of_ne
    (c : Choices)
    {alt other : Nat}
    (h : other ≠ alt) :
    c.forget alt other = c other := by
  simp [forget, h]

end Choices

end MatchCompiler

------------------------------------------------------------
-- Tests
------------------------------------------------------------

namespace MatchCompiler

/- Names with their values. -/
abbrev ValueBindings :=
  List (String × Value)

/-
  A host answers a guard from its number and the bindings
  that can be read, and may change a state of its own.
-/
abbrev GuardHost (σ : Type) :=
  GuardId → ValueBindings → StateM σ Bool

/-
  Steps of a run: they can fault, and they change the choices
  and the state of the host.
-/
abbrev Run (σ : Type) :=
  ExceptT ShapeMismatch (StateM (Choices × σ))

/- The bindings that can be read under some choices. -/
def AccessBindings.readable
    (root : Value)
    (chosen : Choices)
    (bindings : AccessBindings) : ValueBindings :=
  bindings.filterMap fun (name, access) =>
    match access.resolve root chosen with
    | .ok v => some (name, v)
    | .error _ => none

/- All bindings, or the first mismatch. -/
def AccessBindings.values
    (root : Value)
    (chosen : Choices)
    (bindings : AccessBindings) :
    Except ShapeMismatch ValueBindings :=
  bindings.mapM fun (name, access) => do
    return (name, ← access.resolve root chosen)

namespace Run

variable {σ : Type}

/- Read through an access and ask a question of the value. -/
def ask
    {α : Type}
    (root : Value)
    (access : Access)
    (question : Value → Except ShapeMismatch α) : Run σ α := do
  let (chosen, _) ← get
  match access.resolve root chosen >>= question with
  | .ok answer => return answer
  | .error cause => throw cause

/- Change the choices. -/
def choices (f : Choices → Choices) : Run σ Unit :=
  modify fun (chosen, s) => (f chosen, s)

/- Let the host answer a guard. -/
def guard
    (host : GuardHost σ)
    (root : Value)
    (bindings : AccessBindings)
    (id : GuardId) : Run σ Bool := do
  let (chosen, s) ← get
  let (answer, s) := host id (bindings.readable root chosen) s
  set (chosen, s)
  return answer

end Run

namespace Test

variable {σ : Type}

mutual

/-
  Whether a test holds; `bindings` are those of the clause,
  for the guards.
-/
def eval
    (host : GuardHost σ)
    (root : Value)
    (bindings : AccessBindings) : Test → Run σ Bool
| .always => return true
| .never => return false
| .and tests => evalAll host root bindings tests
| .or tests => evalAny host root bindings tests
| .alt id branches => evalBranches host root bindings id 0 branches
| .equals a k => Run.ask root a fun v => return v.equals k
| .oneOf a ks => Run.ask root a fun v => return ks.any v.equals
| .oneOfTexts a ks => Run.ask root a fun v => return v.isTextIn ks
| .tagIs a label =>
    Run.ask root a fun v => return (← v.readOrdinal) == label.ordinal
| .tagIn a labels =>
    Run.ask root a fun v => do
      let n ← v.readOrdinal
      return labels.any (fun l => l.ordinal == n)
| .lengthIs a n =>
    Run.ask root a fun v => return (← v.readLength) == n
| .lengthAtLeast a n =>
    Run.ask root a fun v => return decide (n ≤ (← v.readLength))
| .lengthIn a least greatest =>
    Run.ask root a fun v => do
      let n ← v.readLength
      return decide (least ≤ n) && decide (n ≤ greatest)
| .isNil a => Run.ask root a fun v => return v.isNil
| .isNotNil a => Run.ask root a fun v => return !v.isNil
| .typeIs a name => Run.ask root a fun v => return v.isOfType name
| .isSome a => Run.ask root a fun v => v.readPresence
| .isNone a => Run.ask root a fun v => return !(← v.readPresence)
| .hasKey a key => Run.ask root a fun v => v.hasKey key
| .setContains a members exact =>
    Run.ask root a fun v =>
      return Value.setContains members exact (← v.readSet)
| .setMask a mask exact =>
    Run.ask root a fun v => do
      let bits ← Value.maskOf (← v.readSet)
      return if exact then bits == mask else bits &&& mask == mask
| .guard id => Run.guard host root bindings id
termination_by structural t => t

/- Whether all tests hold, up to the first that does not. -/
def evalAll
    (host : GuardHost σ)
    (root : Value)
    (bindings : AccessBindings) : List Test → Run σ Bool
| [] => return true
| t :: ts => do
    if ← t.eval host root bindings then
      evalAll host root bindings ts
    else
      return false
termination_by structural ts => ts

/- Whether some test holds, up to the first that does. -/
def evalAny
    (host : GuardHost σ)
    (root : Value)
    (bindings : AccessBindings) : List Test → Run σ Bool
| [] => return false
| t :: ts => do
    if ← t.eval host root bindings then
      return true
    else
      evalAny host root bindings ts
termination_by structural ts => ts

/-
  Whether some branch of an alternation holds. The branch is
  noted before it is tried, since its guards read the names
  that it binds.
-/
def evalBranches
    (host : GuardHost σ)
    (root : Value)
    (bindings : AccessBindings)
    (id : Nat) :
    Nat → List Test → Run σ Bool
| _, [] => do
    Run.choices (Choices.forget · id)
    return false
| branch, t :: ts => do
    Run.choices (Choices.choose · id branch)
    if ← t.eval host root bindings then
      return true
    else
      evalBranches host root bindings id (branch + 1) ts
termination_by structural _ ts => ts

end

end Test

end MatchCompiler

------------------------------------------------------------
-- Procedures
------------------------------------------------------------

namespace MatchCompiler

/- The arm that was selected and the values of its names. -/
structure MatchOutcome where
  arm : Nat
  bindings : ValueBindings

/- The value of a name that the arm binds. -/
def MatchOutcome.binding?
    (o : MatchOutcome)
    (name : String) : Option Value :=
  o.bindings.lookup name

variable {σ : Type}

/-
  Run one clause from a state of the host: the values of its
  names if its test holds.
-/
def Clause.run
    (host : GuardHost σ)
    (root : Value)
    (c : Clause)
    (s : σ) :
    Except ShapeMismatch (Option ValueBindings) × σ :=
  match c.test.eval host root c.bindings (Choices.empty, s) with
  | (.error cause, _, s) => (.error cause, s)
  | (.ok false, _, s) => (.ok none, s)
  | (.ok true, chosen, s) =>
      ((c.bindings.values root chosen).map some, s)

/- Run clauses up to the first that matches or faults. -/
def Clause.runFirst
    (host : GuardHost σ)
    (root : Value) :
    List Clause → σ → Except Fault MatchOutcome × σ
| [], s => (.error .noMatch, s)
| c :: cs, s =>
    match c.run host root s with
    | (.error cause, s) => (.error (.shapeMismatch cause), s)
    | (.ok none, s) => runFirst host root cs s
    | (.ok (some bindings), s) => (.ok { arm := c.arm, bindings }, s)

/- Run a procedure on a value from a state of the host. -/
def Procedure.execute
    (host : GuardHost σ)
    (p : Procedure)
    (root : Value)
    (s : σ) : Except Fault MatchOutcome × σ :=
  Clause.runFirst host root p.clauses s

end MatchCompiler
