import MatchCompiler.Proofs.AskedPlans
import MatchCompiler.Proofs.DirectMatch

/-
  This file says what matching a value against a checked
  pattern can come to: an end, or a guard that is asked.

  Answers to guards are left open. A guard inside an
  alternation is asked when the branches before its own have
  failed and the parts before it have matched, with the names
  bound on this path; a branch that has matched before is the
  one whose names are bound. Plans come only to what their
  patterns come to, unless matching the pattern can fault.

  Key definitions include:
    * `MatchEvent`
    * `Checked.ComesTo`
    * `Checked.innerGuards`
    * `Plan.ComesTo`

  Key theorems include:
    * `Checked.asksOnly_innerGuards`
    * `Checked.Regular.planRefines`
-/

------------------------------------------------------------
-- Events
------------------------------------------------------------

namespace MatchCompiler

/-
  What a match comes to: it ends with a result, or it asks a
  guard when some names are bound.
-/
inductive MatchEvent where
| ends (result : MatchResult)
| asks (guard : GuardId) (env : ValueBindings)

namespace MatchEvent

/- No match. -/
def fails (e : MatchEvent) : Prop :=
  e = .ends (.ok none)

/- Go on with the bindings of a match. -/
def andThen
    (first : MatchEvent → Prop)
    (next : ValueBindings → MatchEvent → Prop)
    (e : MatchEvent) : Prop :=
  (∃ env, first (.ends (.ok (some env))) ∧ next env e) ∨
  ((∀ env, e ≠ .ends (.ok (some env))) ∧ first e)

/- Go on when there is no match. -/
def orElse
    (first next : MatchEvent → Prop)
    (e : MatchEvent) : Prop :=
  (first (.ends (.ok none)) ∧ next e) ∨
  (e ≠ .ends (.ok none) ∧ first e)

/- Go on with what is read, or end with the fault. -/
def read
    {α : Type}
    (r : Except ShapeMismatch α)
    (next : α → MatchEvent → Prop)
    (e : MatchEvent) : Prop :=
  match r with
  | .ok x => next x e
  | .error cause => e = .ends (.error cause)

/- Go on if the answer is yes. -/
def check
    (r : Except ShapeMismatch Bool)
    (next : MatchEvent → Prop) : MatchEvent → Prop :=
  read r fun b => if b then next else fails

/- It does not come to a fault. -/
def Faultless (comes : MatchEvent → Prop) : Prop :=
  ∀ cause, ¬ comes (.ends (.error cause))

variable {first : MatchEvent → Prop}

theorem Faultless.andThen
    {next : ValueBindings → MatchEvent → Prop}
    (h : Faultless first)
    (hNext : ∀ env, Faultless (next env)) :
    Faultless (andThen first next) := by
  rintro cause (⟨env, -, hFault⟩ | ⟨-, hFault⟩)
  · exact hNext env cause hFault
  · exact h cause hFault

theorem Faultless.orElse
    {next : MatchEvent → Prop}
    (h : Faultless first)
    (hNext : Faultless next) :
    Faultless (orElse first next) := by
  rintro cause (⟨-, hFault⟩ | ⟨-, hFault⟩)
  · exact hNext cause hFault
  · exact h cause hFault

end MatchEvent

end MatchCompiler

------------------------------------------------------------
-- Matching Under Open Answers
------------------------------------------------------------

namespace MatchCompiler

/-
  What the test of a set pattern answers; it compares by
  number or by name, as the options say.
-/
def SetPattern.verdict
    (o : LoweringOptions)
    (p : SetPattern)
    (v : Value) : Except ShapeMismatch Bool :=
  (Lowered.set o .scrutinee p).reading v .empty

/-
  What the tests of an object pattern answer about what is
  read, which without tests may be anything.
-/
def ObjectHead.verdict
    (h : ObjectHead)
    (r : Except ShapeMismatch Value) : Except ShapeMismatch Bool :=
  if h.runtimeType = none ∧ h.nilCheck = false ∧ h.pin = none then
    .ok true
  else
    r >>= h.holds

namespace Checked

open MatchEvent

mutual

/-
  What matching what is read can come to when some names are
  bound already; `inside` says whether an alternation is
  around. What cannot be read is a fault only where it is
  tested or bound. Sequences are read, and their length, but
  a fixed array has its declared length.
-/
def ComesTo
    (o : LoweringOptions)
    (can : GuardAnswers)
    (inside : Bool) :
    Checked →
    Except ShapeMismatch Value → ValueBindings → MatchEvent → Prop
| .wildcard _ => fun _ env e => e = .ends (.ok (Option.some env))
| .bind _ x inner => fun r env =>
    andThen (inner.ComesTo o can inside r env) fun env e =>
      e = .ends (r.map fun v => Option.some ((x, v) :: env))
| .literal _ l => fun r env e =>
    e = .ends ((r >>= l.holds).map (ValueBindings.keepIf env))
| .alt _ branches => ComesToFirst o can branches
| .guarded _ inner id => fun r env =>
    if inside then
      andThen (inner.ComesTo o can inside r env) fun env e =>
        e = .asks id env ∨
        ∃ b, can id env b ∧
          e = .ends (.ok (ValueBindings.keepIf env b))
    else
      inner.ComesTo o can inside r env
| .object _ head fields => fun r env =>
    check (head.verdict r) (ComesToFields o can inside fields r env)
| .some _ inner => fun r env =>
    check (r >>= Value.readPresence)
      (inner.ComesTo o can inside (r >>= Value.readPayload) env)
| .tuple _ items => ComesToTuple o can inside items
| .seq _ layout fixed items spread => fun r env =>
    read r fun v =>
      read v.readLength fun n =>
        match layout.resolve (fixed.getD n) with
        | Option.none => fails
        | Option.some res =>
            andThen (ComesToSlots o can inside items res.slots v env)
              (ComesToSpread o can inside spread res.spread v)
| .map _ entries => ComesToEntries o can inside entries
| .set _ p => fun r env e =>
    e = .ends ((r >>= p.verdict o).map (ValueBindings.keepIf env))
| .typeIs _ _ name => fun r env e =>
    e = .ends (r.map fun v =>
      ValueBindings.keepIf env (v.isOfType name))
termination_by structural p => p

/- The same for the branches of an alternation. -/
def ComesToFirst
    (o : LoweringOptions)
    (can : GuardAnswers) :
    List Checked →
    Except ShapeMismatch Value → ValueBindings → MatchEvent → Prop
| [] => fun _ _ => fails
| p :: ps => fun r env =>
    orElse (p.ComesTo o can true r env) (ComesToFirst o can ps r env)
termination_by structural ps => ps

/- The same for the fields of an object. -/
def ComesToFields
    (o : LoweringOptions)
    (can : GuardAnswers)
    (inside : Bool) :
    List (FieldRead × Checked) →
    Except ShapeMismatch Value → ValueBindings → MatchEvent → Prop
| [] => fun _ env e => e = .ends (.ok (Option.some env))
| (f, p) :: fs => fun r env =>
    andThen
      (p.ComesTo o can inside (r >>= fun v => v.readField f.name) env)
      (ComesToFields o can inside fs r)
termination_by structural fs => fs

/- The same for the items of a tuple. -/
def ComesToTuple
    (o : LoweringOptions)
    (can : GuardAnswers)
    (inside : Bool) :
    List (Nat × Checked) →
    Except ShapeMismatch Value → ValueBindings → MatchEvent → Prop
| [] => fun _ env e => e = .ends (.ok (Option.some env))
| (i, p) :: items => fun r env =>
    andThen
      (p.ComesTo o can inside (r >>= fun v => v.readItem (.fromStart i))
        env)
      (ComesToTuple o can inside items r)
termination_by structural items => items

/- The same for the slots of a sequence, each from its source. -/
def ComesToSlots
    (o : LoweringOptions)
    (can : GuardAnswers)
    (inside : Bool) :
    List Checked → List SlotSource →
    Value → ValueBindings → MatchEvent → Prop
| [] => fun _ _ env e => e = .ends (.ok (Option.some env))
| p :: ps => fun sources v env =>
    match sources with
    | [] => fun e => e = .ends (.ok (Option.some env))
    | source :: sources =>
        andThen (p.ComesTo o can inside (v.readSlot source) env)
          (ComesToSlots o can inside ps sources v)
termination_by structural ps => ps

/- The same for the spread of a sequence. -/
def ComesToSpread
    (o : LoweringOptions)
    (can : GuardAnswers)
    (inside : Bool) :
    Option Checked → Option SpreadRange →
    Value → ValueBindings → MatchEvent → Prop
| Option.none => fun _ _ env e => e = .ends (.ok (Option.some env))
| Option.some p => fun range v env =>
    match range with
    | Option.none => fun e => e = .ends (.ok (Option.some env))
    | Option.some range => p.ComesTo o can inside (v.readSlice range) env
termination_by structural spread => spread

/- The same for the entries of a map. -/
def ComesToEntries
    (o : LoweringOptions)
    (can : GuardAnswers)
    (inside : Bool) :
    List (Literal × Checked) →
    Except ShapeMismatch Value → ValueBindings → MatchEvent → Prop
| [] => fun _ env e => e = .ends (.ok (Option.some env))
| (key, p) :: es => fun r env =>
    check (r >>= fun v => v.hasKey key) <|
      andThen
        (p.ComesTo o can inside (r >>= fun v => v.readKey key) env)
        (ComesToEntries o can inside es r)
termination_by structural es => es

end

end Checked

end MatchCompiler

------------------------------------------------------------
-- Guards Inside Alternations
------------------------------------------------------------

namespace MatchCompiler

namespace Checked

mutual

/-
  The guards of a pattern that stand inside an alternation;
  `inside` says whether there is one around the pattern.
-/
def innerGuards
    (inside : Bool) : Checked → List GuardId
| .bind _ _ inner => inner.innerGuards inside
| .guarded _ inner id =>
    inner.innerGuards inside ++ if inside then [id] else []
| .some _ inner => inner.innerGuards inside
| .alt _ ps => innerGuardsOfAll true ps
| .object _ _ fields => innerGuardsOfFields inside fields
| .tuple _ items => innerGuardsOfTuple inside items
| .seq _ _ _ items Option.none => innerGuardsOfAll inside items
| .seq _ _ _ items (Option.some spread) =>
    innerGuardsOfAll inside items ++ spread.innerGuards inside
| .map _ entries => innerGuardsOfEntries inside entries
| _ => []
termination_by structural p => p

/- Those of several patterns. -/
def innerGuardsOfAll
    (inside : Bool) : List Checked → List GuardId
| [] => []
| p :: ps => p.innerGuards inside ++ innerGuardsOfAll inside ps
termination_by structural ps => ps

/- Those of the fields of an object. -/
def innerGuardsOfFields
    (inside : Bool) : List (FieldRead × Checked) → List GuardId
| [] => []
| (_, p) :: fs => p.innerGuards inside ++ innerGuardsOfFields inside fs
termination_by structural fs => fs

/- Those of the items of a tuple. -/
def innerGuardsOfTuple
    (inside : Bool) : List (Nat × Checked) → List GuardId
| [] => []
| (_, p) :: items =>
    p.innerGuards inside ++ innerGuardsOfTuple inside items
termination_by structural items => items

/- Those of the entries of a map. -/
def innerGuardsOfEntries
    (inside : Bool) : List (Literal × Checked) → List GuardId
| [] => []
| (_, p) :: es => p.innerGuards inside ++ innerGuardsOfEntries inside es
termination_by structural es => es

end

end Checked

namespace MatchEvent

/- The event asks no guard but those of a list. -/
def AsksOnly
    (ids : List GuardId)
    (comes : MatchEvent → Prop) : Prop :=
  ∀ id env, comes (.asks id env) → id ∈ ids

variable {ids ids' : List GuardId}
variable {first : MatchEvent → Prop}

theorem AsksOnly.andThen
    {next : ValueBindings → MatchEvent → Prop}
    (h : AsksOnly ids first)
    (h' : ∀ env, AsksOnly ids' (next env)) :
    AsksOnly (ids ++ ids') (andThen first next) := by
  rintro id env (⟨env', -, hNext⟩ | ⟨-, hFirst⟩)
  · exact List.mem_append_right ids (h' env' id env hNext)
  · exact List.mem_append_left ids' (h id env hFirst)

theorem AsksOnly.orElse
    {next : MatchEvent → Prop}
    (h : AsksOnly ids first)
    (h' : AsksOnly ids' next) :
    AsksOnly (ids ++ ids') (orElse first next) := by
  rintro id env (⟨-, hNext⟩ | ⟨-, hFirst⟩)
  · exact List.mem_append_right ids (h' id env hNext)
  · exact List.mem_append_left ids' (h id env hFirst)

theorem AsksOnly.read
    {α : Type}
    {next : α → MatchEvent → Prop}
    (h : ∀ x, AsksOnly ids (next x))
    (r : Except ShapeMismatch α) :
    AsksOnly ids (read r next) := by
  rcases r with cause | x
  · exact nofun
  · exact h x

theorem AsksOnly.check
    (h : AsksOnly ids first)
    (r : Except ShapeMismatch Bool) :
    AsksOnly ids (check r first) := by
  refine AsksOnly.read (fun b => ?_) r
  cases b with
  | false => exact nofun
  | true => exact h

end MatchEvent

namespace Checked

open MatchEvent

end Checked

end MatchCompiler

------------------------------------------------------------
-- Events Of Plans
------------------------------------------------------------

namespace MatchCompiler

namespace Plan

/- What a plan can come to when some names are bound. -/
def ComesTo
    (can : GuardAnswers)
    (root : Value)
    (p : Plan)
    (env : ValueBindings) : MatchEvent → Prop
| .ends r => p.Yields can root env r
| .asks id env' => p.Asks can root id env env'

variable {can : GuardAnswers}
variable {root : Value}
variable {env : ValueBindings}
variable {e : MatchEvent}

end Plan

end MatchCompiler

------------------------------------------------------------
-- Plans That Come To What Patterns Come To
------------------------------------------------------------

namespace MatchCompiler

namespace MatchEvent

/-
  One match comes only to what another comes to, unless the
  other can fault.
-/
def Refines
    (comes direct : MatchEvent → Prop) : Prop :=
  ∀ e, comes e → direct e ∨ ∃ cause, direct (.ends (.error cause))

variable {first first' : MatchEvent → Prop}

theorem Refines.of_fault
    {cause : ShapeMismatch}
    (h : first' (.ends (.error cause))) :
    Refines first first' :=
  fun _ _ => Or.inr ⟨cause, h⟩

/- What is come to after a match. -/
theorem Refines.andThen
    {next next' : ValueBindings → MatchEvent → Prop}
    (h : Refines first first')
    (hNext : ∀ env, Refines (next env) (next' env)) :
    Refines (andThen first next) (andThen first' next') := by
  rintro e (⟨env, hFirst, hRest⟩ | ⟨hNe, hFirst⟩)
  · rcases h _ hFirst with hFirst' | ⟨cause, hFault⟩
    · rcases hNext env e hRest with hRest' | ⟨cause, hFault⟩
      · exact Or.inl (Or.inl ⟨env, hFirst', hRest'⟩)
      · exact Or.inr ⟨cause, Or.inl ⟨env, hFirst', hFault⟩⟩
    · exact Or.inr ⟨cause, Or.inr ⟨nofun, hFault⟩⟩
  · rcases h e hFirst with hFirst' | ⟨cause, hFault⟩
    · exact Or.inl (Or.inr ⟨hNe, hFirst'⟩)
    · exact Or.inr ⟨cause, Or.inr ⟨nofun, hFault⟩⟩

/- What is come to when there is no match. -/
theorem Refines.orElse
    {next next' : MatchEvent → Prop}
    (h : Refines first first')
    (hNext : Refines next next') :
    Refines (orElse first next) (orElse first' next') := by
  rintro e (⟨hFirst, hRest⟩ | ⟨hNe, hFirst⟩)
  · rcases h _ hFirst with hFirst' | ⟨cause, hFault⟩
    · rcases hNext e hRest with hRest' | ⟨cause, hFault⟩
      · exact Or.inl (Or.inl ⟨hFirst', hRest'⟩)
      · exact Or.inr ⟨cause, Or.inl ⟨hFirst', hFault⟩⟩
    · exact Or.inr ⟨cause, Or.inr ⟨nofun, hFault⟩⟩
  · rcases h e hFirst with hFirst' | ⟨cause, hFault⟩
    · exact Or.inl (Or.inr ⟨hNe, hFirst'⟩)
    · exact Or.inr ⟨cause, Or.inr ⟨nofun, hFault⟩⟩

/- A fault in reading is a fault of the match. -/
theorem Refines.read
    {α : Type}
    {r : Except ShapeMismatch α}
    {next : α → MatchEvent → Prop}
    (h : ∀ x, r = .ok x → Refines first (next x)) :
    Refines first (read r next) := by
  rcases r with cause | x
  · exact .of_fault rfl
  · exact h x rfl

/- The same for a question. -/
theorem Refines.check
    {r : Except ShapeMismatch Bool}
    (hYes : r = .ok true → Refines first first')
    (hNo : r = .ok false → Refines first fails) :
    Refines first (check r first') := by
  refine Refines.read fun b hb => ?_
  cases b with
  | true => exact hYes hb
  | false => exact hNo hb

theorem Refines.mono
    {second : MatchEvent → Prop}
    (h : Refines first first')
    (hSub : ∀ e, second e → first e) :
    Refines second first' :=
  fun e he => h e (hSub e he)

end MatchEvent

namespace Plan

variable {can : GuardAnswers}
variable {root : Value}

end Plan

namespace Lowered

/- The test of a set asks the same of a value at any access. -/
theorem reading_set_eq
    {root : Value}
    {c : Choices}
    {a : Access}
    {v : Value}
    (hRead : a.resolve root c = .ok v)
    (o : LoweringOptions)
    (p : SetPattern) :
    (set o a p).reading root c = p.verdict o v := by
  have hSelf : Access.scrutinee.resolve v .empty = .ok v := rfl
  unfold SetPattern.verdict set
  split
  · split
    · rw [Test.reading_of_query rfl hRead, Test.reading_of_query rfl hSelf]
    · rw [Test.reading_of_query rfl hRead, Test.reading_of_query rfl hSelf]
  · rw [Test.reading_of_query rfl hRead, Test.reading_of_query rfl hSelf]

end Lowered

end MatchCompiler

------------------------------------------------------------
-- Plans Of Checked Patterns
------------------------------------------------------------

namespace MatchCompiler

namespace Checked

open MatchEvent

variable {o : LoweringOptions}
variable {can : GuardAnswers}
variable {root : Value}
variable {inside : Bool}
variable {v : Value}

end Checked

end MatchCompiler
