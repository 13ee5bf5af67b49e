import MatchCompiler.Proofs.ExtractTrials

/-
  This file checks patterns by runs that stop at the first
  fault.

  They take the steps of checking in the same order, but a
  slot that is looked up has to be there, also while a type
  that a pattern names is extracted, and that extraction has
  to end. Steps that look up no slot are taken over as they
  are.

  Key definitions include:
    * `CheckTrial`
    * `CheckTrial.plain`
    * `Pattern.check?`
    * `Registry.checkArms?`
-/

------------------------------------------------------------
-- Single Steps
------------------------------------------------------------

namespace MatchCompiler

/- Steps of checking that stop at a fault. -/
abbrev CheckTrial :=
  StateT CheckState Trial

namespace CheckTrial

/- A step that looks up no slot. -/
def plain
    {α : Type}
    (m : Check α) : CheckTrial α :=
  fun s => .ok (m.run s)

/- The pool of schemas. -/
def pool : CheckTrial SchemaPool :=
  return (← get).registry.pool

/- A schema. -/
def schema (id : SchemaId) : CheckTrial Schema := do
  (← pool).look id

/- The name that a type is shown by. -/
def typeName (id : SchemaId) : CheckTrial String := do
  (← pool).nameOf? id

/- The schema of a type that a pattern names. -/
def schemaOf
    (ctx : CheckContext)
    (id : DescriptorId) : CheckTrial SchemaId := do
  let s ← get
  let (registry, slot) ←
    s.registry.extractTrial ctx.table (ctx.depth + 1) id
  set { s with registry }
  return slot

/- The schema of the sequences of an element type. -/
def sequenceOf (element : SchemaId) : CheckTrial SchemaId := do
  let _ ← typeName element
  plain (Check.sequenceOf element)

end CheckTrial

end MatchCompiler

------------------------------------------------------------
-- Nodes Without Parts
------------------------------------------------------------

namespace MatchCompiler

namespace CheckTrial

/- A literal. -/
def literal
    (ctx : CheckContext)
    (span : Span)
    (id : SchemaId)
    (l : Literal) : CheckTrial Checked := do
  match ← (← pool).checkLiteral? ctx.marker id l with
  | .ok meaning => return .literal span meaning
  | .error cause =>
      let type ← typeName id
      plain (Check.reject span (.literal span type cause))

/- A type test. -/
def typeTest
    (ctx : CheckContext)
    (span : Span)
    (id : SchemaId)
    (target : DescriptorId) : CheckTrial (Checked × SchemaId) := do
  let target ← schemaOf ctx target
  match ← (← pool).compat? target id with
  | .exact | .numeric => return (.wildcard span, target)
  | .deferred =>
      return (.typeIs span target (← schema target).name, target)
  | .incompatible =>
      let type ← typeName id
      let tested ← typeName target
      let problem := Problem.hopelessTest span type tested
      return (← plain (Check.reject span problem), target)

/- The members of a set pattern that fit the element type. -/
def setMembers
    (ctx : CheckContext)
    (span : Span)
    (element : SchemaId)
    (numbered : Bool) :
    List Literal → CheckTrial (List SetMember)
| [] => return []
| l :: ls => do
    match ← (← pool).checkLiteral? ctx.marker element l with
    | .ok meaning =>
        let ordinal := if numbered then meaning.ordinal? else none
        let literal := meaning.orWritten l
        let rest ← setMembers ctx span element numbered ls
        return { literal, ordinal } :: rest
    | .error cause =>
        let type ← typeName element
        plain (Check.report (.setMember span type cause))
        setMembers ctx span element numbered ls

/- A set pattern. -/
def setPattern
    (ctx : CheckContext)
    (span : Span)
    (id : SchemaId)
    (members : List Literal)
    (exact : Bool) : CheckTrial Checked := do
  let s ← schema id
  match s.structuralKind, s.element with
  | .set, some element =>
      let domain ← (← pool).ordinalDomain? element
      let members ← setMembers ctx span element domain.isSome members
      return .set span { members, exact, domain }
  | kind, _ =>
      plain (Check.reject span (.notSet span s.displayName kind))

/- The names of an alternative and those of the first. -/
def compareAlternative
    (first bound : List Binding)
    (span : Span) : CheckTrial Unit := do
  let missing := Check.namesOutside first bound
  let extra := Check.namesOutside bound first
  if missing.isEmpty && extra.isEmpty then
    match ← (← pool).conflict? first bound with
    | some problem => plain (Check.report problem)
    | none => return
  else
    plain (Check.report (.alternativeNames span missing extra))

/- The head of a constructor pattern over an object. -/
def head
    (ctx : CheckContext)
    (span : Span)
    (scrutinee : SchemaId)
    (h : ConstructorHead) :
    CheckTrial (Except Problem ResolvedHead) := do
  let own : ResolvedHead :=
    { target := scrutinee, caseName := h.caseName }
  match h.typeName, h.target with
  | none, _ => return .ok own
  | some name, target? =>
      if ← (← pool).names? scrutinee name then
        return .ok own
      else
        match target? with
        | some descriptor =>
            let target ← schemaOf ctx descriptor
            match ← (← pool).compat? target scrutinee with
            | .exact => return .ok { own with target }
            | .deferred =>
                let runtimeType := some (← schema target).name
                return .ok { own with target, runtimeType }
            | _ =>
                return .error
                  (.unrelatedType span name (← typeName scrutinee))
        | none =>
            let s ← schema scrutinee
            if h.caseName.isNone && s.isCaseName ctx.marker name then
              return .ok { own with caseName := some name }
            else
              let candidates ← (← pool).headCandidates? scrutinee
              return .error
                (.differentType span name s.displayName candidates)

/- The defaults that are not of the element type. -/
def slotDefaults
    (ctx : CheckContext)
    (element : SchemaId) :
    List (SeqElement Pattern) → CheckTrial Unit
| [] => return
| .item p (some value) :: es => do
    match ← (← pool).checkLiteral? ctx.marker element value with
    | .ok _ => pure ()
    | .error cause =>
        let type ← typeName element
        plain (Check.report (.slotDefault p.span value type cause))
    slotDefaults ctx element es
| _ :: es => slotDefaults ctx element es

end CheckTrial

end MatchCompiler

------------------------------------------------------------
-- Patterns
------------------------------------------------------------

namespace MatchCompiler

namespace Pattern

open CheckTrial (plain)

mutual

/- Check a pattern against a schema. -/
def check?
    (ctx : CheckContext) : Pattern → SchemaId → CheckTrial Checked
| .wildcard span, _ => return .wildcard span
| .bind span name, id => do
    plain (Check.bind name id span)
    return .bind span name (.wildcard span)
| .named span name inner, id => do
    let inner ← inner.check? ctx id
    plain (Check.bind name id span)
    return .bind span name inner
| .literal span l, id => CheckTrial.literal ctx span id l
| .alt span branches, id => do
    let before := (← get).bindings
    let (checked, first) ← checkBranches? ctx id before none branches
    plain (Check.resetBindings (before ++ first.getD []))
    return .alt span checked
| .guarded span inner guard, id => do
    let inner ← inner.check? ctx id
    plain (Check.guardNames span guard)
    return .guarded span inner guard.id
| .constructor span h fields args, id => do
    let s ← CheckTrial.schema id
    match s.structuralKind with
    | .optional => checkOptional? ctx span s h fields.length args
    | .record | .union =>
        match ← CheckTrial.head ctx span id h with
        | .error problem => plain (Check.reject span problem)
        | .ok resolved =>
            let target ← CheckTrial.schema resolved.target
            match resolved.caseName.mapM
                (fun c => target.pinCase ctx.marker c span) with
            | .error problem => plain (Check.reject span problem)
            | .ok fromCase =>
                let disc ←
                  match target.discriminator with
                  | none => pure none
                  | some d => checkField? ctx d fields
                let pinned ←
                  match disc with
                  | none => pure fromCase
                  | some (name, p) =>
                      plain (Check.pinBoth target name fromCase p)
                let read := disc.map fun (name, p) =>
                  let position :=
                    ((target.field? name.name).map Field.position).getD 0
                  (({ name := name.name, position } : FieldRead), p)
                let named ← checkFields? ctx target pinned fields
                let positional := target.positionalFields pinned
                if positional.length < args.length then
                  plain (Check.report
                    (.tooManyArguments span target.displayName
                      positional.length args.length))
                let unnamed ← checkArgs? ctx args positional
                let pin := fromCase.map fun labels =>
                  ({ discriminator := target.discriminatorName, labels } :
                    Pin)
                let head : ObjectHead :=
                  { schema := resolved.target
                    nilCheck := s.isReference
                    runtimeType := resolved.runtimeType
                    pin }
                return .object span head (read.toList ++ named ++ unnamed)
    | .unknown =>
        plain (Check.reject span (.unknownConstructed span s.displayName))
    | kind =>
        plain (Check.reject span
          (.notConstructed span s.displayName kind))
| .seq span elements, id => do
    match SeqElement.spreadSpans elements with
    | first :: second :: _ =>
        plain (Check.reject span (.twoSpreads second first))
    | _ =>
        let s ← CheckTrial.schema id
        match s.structuralKind, s.element with
        | .sequence, some element | .array, some element =>
            CheckTrial.slotDefaults ctx element elements
            let layout := SeqElement.layout elements
            match s.fixedLength?.bind
                (Check.arrayProblem? span s.displayName layout) with
            | some problem => plain (Check.reject span problem)
            | none =>
                let items ← checkItems? ctx element elements
                let spread ← checkSpread? ctx element elements
                return .seq span layout s.fixedLength? items spread
        | .tuple, _ =>
            match SeqElement.tupleProblem? s.displayName elements with
            | some problem => plain (Check.reject span problem)
            | none =>
                if elements.length != s.fields.length then
                  plain (Check.reject span
                    (.tupleLength span s.displayName s.fields.length
                      elements.length))
                else
                  return .tuple span (← checkTuple? ctx elements s.fields)
        | .unknown, _ =>
            plain (Check.reject span
              (.unknownDestructured span s.displayName))
        | kind, _ =>
            plain (Check.reject span
              (.notPositional span s.displayName kind))
| .typeTest span target, id => do
    return (← CheckTrial.typeTest ctx span id target).1
| .narrow span name target, id => do
    let (test, target) ← CheckTrial.typeTest ctx span id target
    plain (Check.bind name target span)
    return .bind span name test
| .map span entries, id => do
    let s ← CheckTrial.schema id
    match s.key, s.value with
    | some key, some value =>
        return .map span (← checkEntries? ctx key value entries)
    | _, _ =>
        plain (Check.reject span
          (.notMap span s.displayName s.structuralKind))
| .set span members exact, id =>
    CheckTrial.setPattern ctx span id members exact
termination_by structural p => p

/- Check the branches of an alternation. -/
def checkBranches?
    (ctx : CheckContext)
    (id : SchemaId)
    (before : List Binding) :
    Option (List Binding) → List Pattern →
    CheckTrial (List Checked × Option (List Binding))
| first, [] => return ([], first)
| first, p :: ps => do
    plain (Check.resetBindings before)
    let checked ← p.check? ctx id
    let bound := (← get).bindings.drop before.length
    match first with
    | none => pure ()
    | some reference =>
        CheckTrial.compareAlternative reference bound p.span
    let (rest, first) ←
      checkBranches? ctx id before (some (first.getD bound)) ps
    return (checked :: rest, first)
termination_by structural _ ps => ps

/- Check a constructor pattern over an optional. -/
def checkOptional?
    (ctx : CheckContext)
    (span : Span)
    (s : Schema)
    (h : ConstructorHead)
    (fieldCount : Nat) :
    List Pattern → CheckTrial Checked
| [arg] => do
    if h.name == some "Some" && fieldCount == 0 then
      match s.element with
      | some element => return .some span (← arg.check? ctx element)
      | none => return .some span (.wildcard arg.span)
    else
      plain (Check.reject span
        (Check.optionalProblem span s.displayName h (1 + fieldCount)))
| args =>
    let count := args.length + fieldCount
    if h.name == some "None" && count == 0 then
      return .literal span .none
    else
      plain (Check.reject span
        (Check.optionalProblem span s.displayName h count))
termination_by structural args => args

/- Check the first named field that is the discriminator. -/
def checkField?
    (ctx : CheckContext)
    (d : Discriminator) :
    List (FieldName × Pattern) →
    CheckTrial (Option (FieldName × Checked))
| [] => return none
| (name, p) :: fs => do
    if name.name == d.field then
      return some (name, ← p.check? ctx d.schema)
    else
      checkField? ctx d fs
termination_by structural fs => fs

/- Check the named fields other than the discriminator. -/
def checkFields?
    (ctx : CheckContext)
    (s : Schema)
    (pinned : Option (List Member)) :
    List (FieldName × Pattern) →
    CheckTrial (List (FieldRead × Checked))
| [] => return []
| (name, p) :: fs => do
    if s.isDiscriminator name.name then
      checkFields? ctx s pinned fs
    else
      match s.readable pinned name.name name.span with
      | .error problem =>
          plain (Check.report problem)
          checkFields? ctx s pinned fs
      | .ok none => checkFields? ctx s pinned fs
      | .ok (some f) =>
          let checked ← p.check? ctx f.schema
          let rest ← checkFields? ctx s pinned fs
          return ({ name := f.name, position := f.position }, checked) ::
            rest
termination_by structural fs => fs

/- Check arguments against the fields they stand for. -/
def checkArgs?
    (ctx : CheckContext) :
    List Pattern → List Field → CheckTrial (List (FieldRead × Checked))
| p :: ps, f :: fs => do
    let checked ← p.check? ctx f.schema
    let rest ← checkArgs? ctx ps fs
    return ({ name := f.name, position := f.position }, checked) :: rest
| _, _ => return []
termination_by structural ps => ps

/- Check the items of a sequence pattern. -/
def checkItems?
    (ctx : CheckContext)
    (element : SchemaId) :
    List (SeqElement Pattern) → CheckTrial (List Checked)
| [] => return []
| .spread _ _ :: es => checkItems? ctx element es
| .item p _ :: es => do
    let checked ← p.check? ctx element
    let rest ← checkItems? ctx element es
    return checked :: rest
termination_by structural es => es

/- Check what the spread of a sequence pattern is bound to. -/
def checkSpread?
    (ctx : CheckContext)
    (element : SchemaId) :
    List (SeqElement Pattern) → CheckTrial (Option Checked)
| [] => return none
| .item _ _ :: es => checkSpread? ctx element es
| .spread none _ :: es => checkSpread? ctx element es
| .spread (some p) _ :: _ => do
    let slice ← CheckTrial.sequenceOf element
    return some (← p.check? ctx slice)
termination_by structural es => es

/- Check the items of a tuple pattern. -/
def checkTuple?
    (ctx : CheckContext) :
    List (SeqElement Pattern) → List Field →
    CheckTrial (List (Nat × Checked))
| .item p _ :: es, f :: fs => do
    let checked ← p.check? ctx f.schema
    let rest ← checkTuple? ctx es fs
    return (f.position, checked) :: rest
| .spread _ _ :: es, _ :: fs => checkTuple? ctx es fs
| _, _ => return []
termination_by structural es => es

/- Check the entries of a map pattern. -/
def checkEntries?
    (ctx : CheckContext)
    (key value : SchemaId) :
    List (Literal × Pattern) → CheckTrial (List (Literal × Checked))
| [] => return []
| (l, p) :: es => do
    match ← (← CheckTrial.pool).checkLiteral? ctx.marker key l with
    | .ok _ =>
        let checked ← p.check? ctx value
        let rest ← checkEntries? ctx key value es
        return (l, checked) :: rest
    | .error cause =>
        let type ← CheckTrial.typeName key
        plain (Check.report (.mapKey p.span type cause))
        checkEntries? ctx key value es
termination_by structural es => es

end

end Pattern

end MatchCompiler

------------------------------------------------------------
-- Arms And Matches
------------------------------------------------------------

namespace MatchCompiler

namespace Registry

/- Check an arm. -/
def checkArm?
    (r : Registry)
    (ctx : CheckContext)
    (id : SchemaId)
    (p : Pattern) :
    Trial (Registry × Except (List Problem) CheckedArm) := do
  let (pattern, s) ← (p.check? ctx id).run { registry := r }
  if s.problems.isEmpty then
    return (s.registry, .ok { pattern, bindings := s.bindings })
  else
    return (s.registry, .error s.problems)

/- Check arms in order. -/
def checkArms?
    (r : Registry)
    (ctx : CheckContext)
    (id : SchemaId) :
    List Pattern →
    Trial (Registry × List (Except (List Problem) CheckedArm))
| [] => return (r, [])
| p :: ps => do
    let (r, result) ← r.checkArm? ctx id p
    let (r, results) ← checkArms? r ctx id ps
    return (r, result :: results)

end Registry

end MatchCompiler
