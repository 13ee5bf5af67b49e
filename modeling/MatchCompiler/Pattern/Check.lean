import MatchCompiler.Pattern.Constructor
import MatchCompiler.Pattern.LiteralCheck

/-
  This file checks patterns against schemas.

  Every offending node has one problem reported; checking
  goes on past it as if a wildcard stood there, so that one
  pass finds all problems of an arm. Names are collected in
  the order in which they are bound. The branches of an
  alternation bind the same names at compatible types.

  Key definitions include:
    * `CheckContext`
    * `CheckState`
    * `Pattern.check`
    * `Registry.checkArm`
    * `Registry.checkArms`
-/

------------------------------------------------------------
-- State
------------------------------------------------------------

namespace MatchCompiler

/-
  What checking refers to: the described types, for the types
  that patterns name, the marker of branch labels, and how
  deep descriptors may be nested when a type is extracted.
-/
structure CheckContext where
  table : TypeTable
  marker : Char
  depth : Nat := Registry.depthLimit table

/- The registry, and the problems and names found so far. -/
structure CheckState where
  registry : Registry
  problems : List Problem := []
  bindings : List Binding := []

/- Steps of checking. -/
abbrev Check :=
  StateM CheckState

namespace Check

/- Note a problem. -/
def report (problem : Problem) : Check Unit :=
  modify fun s => { s with problems := s.problems ++ [problem] }

/- Note a problem and let the node match anything. -/
def reject
    (span : Span)
    (problem : Problem) : Check Checked := do
  report problem
  return .wildcard span

/- The pool of schemas. -/
def pool : Check SchemaPool :=
  return (← get).registry.pool

/- A schema. -/
def schema (id : SchemaId) : Check Schema :=
  return (← pool).get id

/- The name that a type is shown by. -/
def typeName (id : SchemaId) : Check String :=
  return (← pool).nameOf id

/- The schema of a type that a pattern names. -/
def schemaOf
    (ctx : CheckContext)
    (id : DescriptorId) : Check SchemaId := do
  let s ← get
  let (registry, slot) :=
    s.registry.schemaWithin ctx.table ctx.depth id
  set { s with registry }
  return slot

/- The schema of the sequences of an element type. -/
def sequenceOf (element : SchemaId) : Check SchemaId := do
  let s ← get
  let (pool, slot) := s.registry.pool.sequenceOf element
  set { s with registry := { s.registry with pool } }
  return slot

/- Replace the names found so far. -/
def resetBindings (bindings : List Binding) : Check Unit :=
  modify fun s => { s with bindings }

/- Bind a name, unless it is bound already. -/
def bind
    (name : String)
    (schema : SchemaId)
    (span : Span) : Check Unit := do
  let bound := (← get).bindings
  match bound.find? (fun b => b.name == name) with
  | some first => report (.boundTwice span first.span name)
  | none => resetBindings (bound ++ [⟨name, schema, span⟩])

end Check

end MatchCompiler

------------------------------------------------------------
-- Nodes Without Parts
------------------------------------------------------------

namespace MatchCompiler

namespace Check

/- A literal. -/
def literal
    (ctx : CheckContext)
    (span : Span)
    (id : SchemaId)
    (l : Literal) : Check Checked := do
  match (← pool).checkLiteral ctx.marker id l with
  | .ok meaning => return .literal span meaning
  | .error cause =>
      reject span (.literal span (← typeName id) cause)

/-
  A type test. It needs no test at run time if every value
  passes.
-/
def typeTest
    (ctx : CheckContext)
    (span : Span)
    (id : SchemaId)
    (target : DescriptorId) : Check (Checked × SchemaId) := do
  let target ← schemaOf ctx target
  match (← pool).compat target id with
  | .exact | .numeric => return (.wildcard span, target)
  | .deferred =>
      return (.typeIs span target (← schema target).name, target)
  | .incompatible =>
      let problem :=
        Problem.hopelessTest span (← typeName id) (← typeName target)
      return (← reject span problem, target)

/- The members of a set pattern that fit the element type. -/
def setMembers
    (ctx : CheckContext)
    (span : Span)
    (element : SchemaId)
    (numbered : Bool) :
    List Literal → Check (List SetMember)
| [] => return []
| l :: ls => do
    match (← pool).checkLiteral ctx.marker element l with
    | .ok meaning =>
        let ordinal := if numbered then meaning.ordinal? else none
        let literal := meaning.orWritten l
        let rest ← setMembers ctx span element numbered ls
        return { literal, ordinal } :: rest
    | .error cause =>
        report (.setMember span (← typeName element) cause)
        setMembers ctx span element numbered ls

/- A set pattern. -/
def setPattern
    (ctx : CheckContext)
    (span : Span)
    (id : SchemaId)
    (members : List Literal)
    (exact : Bool) : Check Checked := do
  let s ← schema id
  match s.structuralKind, s.element with
  | .set, some element =>
      let domain := (← pool).ordinalDomain element
      let members ← setMembers ctx span element domain.isSome members
      return .set span { members, exact, domain }
  | kind, _ => reject span (.notSet span s.displayName kind)

end Check

end MatchCompiler

------------------------------------------------------------
-- Alternatives And Guards
------------------------------------------------------------

namespace MatchCompiler

namespace Check

/- The names among some bindings that others lack. -/
def namesOutside
    (bindings others : List Binding) : List String :=
  (bindings.map Binding.name).filter
    (fun n => !others.any (fun b => b.name == n))

/- The first binding at a type that does not go together. -/
def typeConflict?
    (p : SchemaPool)
    (first bound : List Binding) : Option Problem :=
  bound.findSome? fun b => do
    let r ← first.find? (fun r => r.name == b.name)
    match p.compat b.schema r.schema with
    | .exact | .numeric => none
    | _ =>
        some (.alternativeTypes b.span r.span b.name
          (p.nameOf b.schema) (p.nameOf r.schema))

/-
  Compare the names that an alternative binds with those of
  the first alternative.
-/
def compareAlternative
    (first bound : List Binding)
    (span : Span) : Check Unit := do
  let missing := namesOutside first bound
  let extra := namesOutside bound first
  if missing.isEmpty && extra.isEmpty then
    match typeConflict? (← pool) first bound with
    | some problem => report problem
    | none => return
  else
    report (.alternativeNames span missing extra)

/- Report the names of a guard that are not bound. -/
def guardNames
    (span : Span)
    (guard : Guard) : Check Unit := do
  let bound := (← get).bindings.map Binding.name
  let unbound := guard.uses.filter (fun n => !bound.contains n)
  if !unbound.isEmpty then
    report (.unboundInGuard span unbound bound)

end Check

end MatchCompiler

------------------------------------------------------------
-- Constructor Heads
------------------------------------------------------------

namespace MatchCompiler

/-
  What the head of a constructor pattern comes to: the schema
  of its fields, the type to test for at run time, and the
  case it names.
-/
structure ResolvedHead where
  target : SchemaId
  runtimeType : Option String := none
  caseName : Option String := none

namespace Check

/-
  The head of a constructor pattern over an object. A name
  that is not the scrutinee's can be that of a derived type,
  given by its descriptor, or of a case.
-/
def head
    (ctx : CheckContext)
    (span : Span)
    (scrutinee : SchemaId)
    (h : ConstructorHead) : Check (Except Problem ResolvedHead) := do
  let own : ResolvedHead :=
    { target := scrutinee, caseName := h.caseName }
  match h.typeName, h.target with
  | none, _ => return .ok own
  | some name, target? =>
      if (← pool).names scrutinee name then
        return .ok own
      else
        match target? with
        | some descriptor =>
            let target ← schemaOf ctx descriptor
            match (← pool).compat target scrutinee with
            | .exact => return .ok { own with target }
            | .deferred =>
                let runtimeType := some (← schema target).name
                return .ok { own with target, runtimeType }
            | _ =>
                return .error
                  (.unrelatedType span name (← typeName scrutinee))
        | none =>
            let s ← schema scrutinee
            if h.caseName.isNone && s.isCaseName ctx.marker name then
              return .ok { own with caseName := some name }
            else
              let candidates := (← pool).headCandidates scrutinee
              return .error
                (.differentType span name s.displayName candidates)

/-
  What is wrong with a constructor pattern over an optional
  that has a number of parts.
-/
def optionalProblem
    (span : Span)
    (type : String)
    (h : ConstructorHead)
    (count : Nat) : Problem :=
  if h.name == some "Some" then
    .someArguments span count
  else if h.name == some "None" then
    .noneArguments span
  else
    .notOptionalCase span (h.name.getD "") type

/-
  The branches pinned once the discriminator pattern is
  known: those of the case name, of the pattern, or of both.
-/
def pinBoth
    (s : Schema)
    (field : FieldName)
    (fromCase : Option (List Member))
    (pattern : Checked) : Check (Option (List Member)) := do
  match pattern.labels s, fromCase with
  | none, _ => return fromCase
  | some labels, none => return some labels
  | some labels, some named =>
      let both :=
        labels.filter (fun l => named.any (fun c => c.name == l.name))
      if both.isEmpty then
        report (.contradiction field.span field.name)
      return some both

end Check

end MatchCompiler

------------------------------------------------------------
-- Positional Patterns
------------------------------------------------------------

namespace MatchCompiler

namespace SeqElement

variable {α : Type}

/- The spans of the spreads. -/
def spreadSpans (es : List (SeqElement α)) : List Span :=
  es.filterMap fun
    | .spread _ span => some span
    | .item _ _ => none

/- The defaults of the items. -/
def defaults (es : List (SeqElement α)) : List (Option Literal) :=
  es.filterMap fun
    | .item _ d => some d
    | .spread _ _ => none

/- Number of items in front of the spread. -/
def spreadAt? : List (SeqElement α) → Option Nat
| [] => none
| .spread _ _ :: _ => some 0
| .item _ _ :: es => (spreadAt? es).map (· + 1)

/- The layout of the items and the spread. -/
def layout (es : List (SeqElement α)) : SeqLayout :=
  .ofSlots (defaults es) (spreadAt? es)

/- The first element that a tuple does not allow. -/
def tupleProblem?
    (type : String)
    (es : List (SeqElement Pattern)) : Option Problem :=
  es.findSome? fun
    | .spread _ span => some (.tupleSpread span type)
    | .item p (some _) => some (.tupleDefault p.span)
    | .item _ none => none

end SeqElement

namespace Check

/- Report the defaults that are not of the element type. -/
def slotDefaults
    (ctx : CheckContext)
    (element : SchemaId) :
    List (SeqElement Pattern) → Check Unit
| [] => return
| .item p (some value) :: es => do
    match (← pool).checkLiteral ctx.marker element value with
    | .ok _ => pure ()
    | .error cause =>
        report (.slotDefault p.span value (← typeName element) cause)
    slotDefaults ctx element es
| _ :: es => slotDefaults ctx element es

/- Why an array can never have a length that fits. -/
def arrayProblem?
    (span : Span)
    (type : String)
    (layout : SeqLayout)
    (length : Nat) : Option Problem :=
  if layout.accepts length then
    none
  else
    match layout.maxLength with
    | some most =>
        if most < length then
          some (.arrayTooLong span type length most)
        else
          some (.arrayTooShort span type length layout.minLength)
    | none => some (.arrayTooShort span type length layout.minLength)

end Check

end MatchCompiler

------------------------------------------------------------
-- Patterns
------------------------------------------------------------

namespace MatchCompiler

namespace Pattern

mutual

/- Check a pattern against a schema. -/
def check
    (ctx : CheckContext) : Pattern → SchemaId → Check Checked
| .wildcard span, _ => return .wildcard span
| .bind span name, id => do
    Check.bind name id span
    return .bind span name (.wildcard span)
| .named span name inner, id => do
    let inner ← inner.check ctx id
    Check.bind name id span
    return .bind span name inner
| .literal span l, id => Check.literal ctx span id l
| .alt span branches, id => do
    let before := (← get).bindings
    let (checked, first) ← checkBranches ctx id before none branches
    Check.resetBindings (before ++ first.getD [])
    return .alt span checked
| .guarded span inner guard, id => do
    let inner ← inner.check ctx id
    Check.guardNames span guard
    return .guarded span inner guard.id
| .constructor span h fields args, id => do
    let s ← Check.schema id
    match s.structuralKind with
    | .optional => checkOptional ctx span s h fields.length args
    | .record | .union =>
        match ← Check.head ctx span id h with
        | .error problem => Check.reject span problem
        | .ok resolved =>
            let target ← Check.schema resolved.target
            match resolved.caseName.mapM
                (fun c => target.pinCase ctx.marker c span) with
            | .error problem => Check.reject span problem
            | .ok fromCase =>
                let disc ←
                  match target.discriminator with
                  | none => pure none
                  | some d => checkField ctx d fields
                let pinned ←
                  match disc with
                  | none => pure fromCase
                  | some (name, p) => Check.pinBoth target name fromCase p
                let read := disc.map fun (name, p) =>
                  let position :=
                    ((target.field? name.name).map Field.position).getD 0
                  (({ name := name.name, position } : FieldRead), p)
                let named ← checkFields ctx target pinned fields
                let positional := target.positionalFields pinned
                if positional.length < args.length then
                  Check.report
                    (.tooManyArguments span target.displayName
                      positional.length args.length)
                let unnamed ← checkArgs ctx args positional
                let pin := fromCase.map fun labels =>
                  ({ discriminator := target.discriminatorName, labels } :
                    Pin)
                let head : ObjectHead :=
                  { schema := resolved.target
                    nilCheck := s.isReference
                    runtimeType := resolved.runtimeType
                    pin }
                return .object span head (read.toList ++ named ++ unnamed)
    | .unknown =>
        Check.reject span (.unknownConstructed span s.displayName)
    | kind =>
        Check.reject span (.notConstructed span s.displayName kind)
| .seq span elements, id => do
    match SeqElement.spreadSpans elements with
    | first :: second :: _ =>
        Check.reject span (.twoSpreads second first)
    | _ =>
        let s ← Check.schema id
        match s.structuralKind, s.element with
        | .sequence, some element | .array, some element =>
            Check.slotDefaults ctx element elements
            let layout := SeqElement.layout elements
            match s.fixedLength?.bind
                (Check.arrayProblem? span s.displayName layout) with
            | some problem => Check.reject span problem
            | none =>
                let items ← checkItems ctx element elements
                let spread ← checkSpread ctx element elements
                return .seq span layout s.fixedLength? items spread
        | .tuple, _ =>
            match SeqElement.tupleProblem? s.displayName elements with
            | some problem => Check.reject span problem
            | none =>
                if elements.length != s.fields.length then
                  Check.reject span
                    (.tupleLength span s.displayName s.fields.length
                      elements.length)
                else
                  return .tuple span (← checkTuple ctx elements s.fields)
        | .unknown, _ =>
            Check.reject span (.unknownDestructured span s.displayName)
        | kind, _ =>
            Check.reject span (.notPositional span s.displayName kind)
| .typeTest span target, id => do
    return (← Check.typeTest ctx span id target).1
| .narrow span name target, id => do
    let (test, target) ← Check.typeTest ctx span id target
    Check.bind name target span
    return .bind span name test
| .map span entries, id => do
    let s ← Check.schema id
    match s.key, s.value with
    | some key, some value =>
        return .map span (← checkEntries ctx key value entries)
    | _, _ =>
        Check.reject span (.notMap span s.displayName s.structuralKind)
| .set span members exact, id =>
    Check.setPattern ctx span id members exact
termination_by structural p => p

/-
  Check the branches of an alternation, each from the names
  bound before; the names of the first are those of the
  whole.
-/
def checkBranches
    (ctx : CheckContext)
    (id : SchemaId)
    (before : List Binding) :
    Option (List Binding) → List Pattern →
    Check (List Checked × Option (List Binding))
| first, [] => return ([], first)
| first, p :: ps => do
    Check.resetBindings before
    let checked ← p.check ctx id
    let bound := (← get).bindings.drop before.length
    match first with
    | none => pure ()
    | some reference => Check.compareAlternative reference bound p.span
    let (rest, first) ←
      checkBranches ctx id before (some (first.getD bound)) ps
    return (checked :: rest, first)
termination_by structural _ ps => ps

/-
  Check a constructor pattern over an optional, given the
  number of its named fields.
-/
def checkOptional
    (ctx : CheckContext)
    (span : Span)
    (s : Schema)
    (h : ConstructorHead)
    (fieldCount : Nat) :
    List Pattern → Check Checked
| [arg] => do
    if h.name == some "Some" && fieldCount == 0 then
      match s.element with
      | some element => return .some span (← arg.check ctx element)
      | none => return .some span (.wildcard arg.span)
    else
      Check.reject span
        (Check.optionalProblem span s.displayName h (1 + fieldCount))
| args =>
    let count := args.length + fieldCount
    if h.name == some "None" && count == 0 then
      return .literal span .none
    else
      Check.reject span
        (Check.optionalProblem span s.displayName h count)
termination_by structural args => args

/- Check the first named field that is the discriminator. -/
def checkField
    (ctx : CheckContext)
    (d : Discriminator) :
    List (FieldName × Pattern) → Check (Option (FieldName × Checked))
| [] => return none
| (name, p) :: fs => do
    if name.name == d.field then
      return some (name, ← p.check ctx d.schema)
    else
      checkField ctx d fs
termination_by structural fs => fs

/- Check the named fields other than the discriminator. -/
def checkFields
    (ctx : CheckContext)
    (s : Schema)
    (pinned : Option (List Member)) :
    List (FieldName × Pattern) → Check (List (FieldRead × Checked))
| [] => return []
| (name, p) :: fs => do
    if s.isDiscriminator name.name then
      checkFields ctx s pinned fs
    else
      match s.readable pinned name.name name.span with
      | .error problem =>
          Check.report problem
          checkFields ctx s pinned fs
      | .ok none => checkFields ctx s pinned fs
      | .ok (some f) =>
          let checked ← p.check ctx f.schema
          let rest ← checkFields ctx s pinned fs
          return ({ name := f.name, position := f.position }, checked) ::
            rest
termination_by structural fs => fs

/- Check arguments against the fields they stand for. -/
def checkArgs
    (ctx : CheckContext) :
    List Pattern → List Field → Check (List (FieldRead × Checked))
| p :: ps, f :: fs => do
    let checked ← p.check ctx f.schema
    let rest ← checkArgs ctx ps fs
    return ({ name := f.name, position := f.position }, checked) :: rest
| _, _ => return []
termination_by structural ps => ps

/- Check the items of a sequence pattern. -/
def checkItems
    (ctx : CheckContext)
    (element : SchemaId) :
    List (SeqElement Pattern) → Check (List Checked)
| [] => return []
| .spread _ _ :: es => checkItems ctx element es
| .item p _ :: es => do
    let checked ← p.check ctx element
    let rest ← checkItems ctx element es
    return checked :: rest
termination_by structural es => es

/- Check what the spread of a sequence pattern is bound to. -/
def checkSpread
    (ctx : CheckContext)
    (element : SchemaId) :
    List (SeqElement Pattern) → Check (Option Checked)
| [] => return none
| .item _ _ :: es => checkSpread ctx element es
| .spread none _ :: es => checkSpread ctx element es
| .spread (some p) _ :: _ => do
    let slice ← Check.sequenceOf element
    return some (← p.check ctx slice)
termination_by structural es => es

/- Check the items of a tuple pattern. -/
def checkTuple
    (ctx : CheckContext) :
    List (SeqElement Pattern) → List Field →
    Check (List (Nat × Checked))
| .item p _ :: es, f :: fs => do
    let checked ← p.check ctx f.schema
    let rest ← checkTuple ctx es fs
    return (f.position, checked) :: rest
| .spread _ _ :: es, _ :: fs => checkTuple ctx es fs
| _, _ => return []
termination_by structural es => es

/- Check the entries of a map pattern. -/
def checkEntries
    (ctx : CheckContext)
    (key value : SchemaId) :
    List (Literal × Pattern) → Check (List (Literal × Checked))
| [] => return []
| (l, p) :: es => do
    match (← Check.pool).checkLiteral ctx.marker key l with
    | .ok _ =>
        let checked ← p.check ctx value
        let rest ← checkEntries ctx key value es
        return (l, checked) :: rest
    | .error cause =>
        Check.report (.mapKey p.span (← Check.typeName key) cause)
        checkEntries ctx key value es
termination_by structural es => es

end

end Pattern

end MatchCompiler

------------------------------------------------------------
-- Arms
------------------------------------------------------------

namespace MatchCompiler

namespace Registry

/-
  Check an arm: the checked pattern with its names, or all
  problems. The registry grows by the types that the pattern
  names.
-/
def checkArm
    (r : Registry)
    (ctx : CheckContext)
    (id : SchemaId)
    (p : Pattern) : Registry × Except (List Problem) CheckedArm :=
  let (pattern, s) := (p.check ctx id).run { registry := r }
  if s.problems.isEmpty then
    (s.registry, .ok { pattern, bindings := s.bindings })
  else
    (s.registry, .error s.problems)

/- Check arms in order. -/
def checkArms
    (r : Registry)
    (ctx : CheckContext)
    (id : SchemaId) :
    List Pattern →
    Registry × List (Except (List Problem) CheckedArm)
| [] => (r, [])
| p :: ps =>
    let (r, result) := r.checkArm ctx id p
    let (r, results) := checkArms r ctx id ps
    (r, result :: results)

end Registry

end MatchCompiler
