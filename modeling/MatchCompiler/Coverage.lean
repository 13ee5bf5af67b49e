import MatchCompiler.Diagnostic.Basic
import MatchCompiler.Pattern.Checked
import MatchCompiler.Pattern.Problem
import MatchCompiler.Schema.Pool

/-
  This file decides whether the arms of a match cover every
  value and finds arms that are never selected.

  Coverage is computed over the cases of a closed type, and
  nil if it is a reference. Each arm has two sets of labels:
  its footprint, the labels of the values that it may match,
  and its cover, the labels all of whose values it matches.
  Guarded arms and arms that look further into the value
  cover nothing.

  Key definitions include:
    * `Schema.coverLabels`
    * `Checked.cover`
    * `Checked.footprint`
    * `Coverage`
    * `Schema.coverage`
    * `SchemaPool.coverage`
-/

------------------------------------------------------------
-- Labels
------------------------------------------------------------

namespace MatchCompiler

namespace Schema

/- The labels of a union's branches. -/
def branchLabels (s : Schema) : List String :=
  s.branches.map Branch.label

/- The labels that a match has to cover. -/
def coverLabels (s : Schema) : List String :=
  s.caseLabels ++ (if s.isReference then ["nil"] else [])

end Schema

/- The label of the values that a literal matches. -/
def CheckedLiteral.coverLabels : CheckedLiteral → List String
| .value _ => []
| .member m => [m.name]
| .nil => ["nil"]
| .none => ["None"]

end MatchCompiler

------------------------------------------------------------
-- Discriminators
------------------------------------------------------------

namespace MatchCompiler

namespace Checked

mutual

/-
  The branches that a discriminator pattern selects. If only
  whole branches count, a guard selects none.
-/
def discriminatorLabels
    (s : Schema)
    (whole : Bool) : Checked → List String
| .wildcard _ => s.branchLabels
| .bind _ _ inner => inner.discriminatorLabels s whole
| .guarded _ inner _ =>
    if whole then [] else inner.discriminatorLabels s whole
| .literal _ (.member m) => [m.name]
| .literal _ (.value (.bool b)) => [if b then "true" else "false"]
| .alt _ branches => discriminatorLabelsOfAll s whole branches
| _ => []
termination_by structural p => p

/- The branches that some discriminator patterns select. -/
def discriminatorLabelsOfAll
    (s : Schema)
    (whole : Bool) : List Checked → List String
| [] => []
| p :: ps =>
    p.discriminatorLabels s whole ++
      discriminatorLabelsOfAll s whole ps
termination_by structural ps => ps

end

/- Whether a field is the discriminator of a union. -/
def readsDiscriminator
    (s : Schema)
    (field : FieldRead × Checked) : Bool :=
  s.discriminator.any (fun d => d.field == field.1.name)

/-
  Whether an object pattern asks for nothing but a branch:
  no type, and no part of a field beside the discriminator.
-/
def asksBranchOnly
    (s : Schema)
    (head : ObjectHead)
    (fields : List (FieldRead × Checked)) : Bool :=
  head.runtimeType.isNone &&
    fields.all (fun f => readsDiscriminator s f || f.2.isCatchAll)

/-
  The branches that an object pattern selects: those of its
  case name that its discriminator pattern selects too.
-/
def objectLabels
    (s : Schema)
    (whole : Bool)
    (head : ObjectHead)
    (fields : List (FieldRead × Checked)) : List String :=
  let pinned := s.branchLabels.filter fun l =>
    head.pin.all (fun p => p.labels.any (fun m => m.name == l))
  match fields.find? (readsDiscriminator s) with
  | Option.none => pinned
  | Option.some (_, p) =>
      let selected := p.discriminatorLabels s whole
      pinned.filter (fun l => selected.contains l)

end Checked

end MatchCompiler

------------------------------------------------------------
-- Cover And Footprint
------------------------------------------------------------

namespace MatchCompiler

namespace Checked

mutual

/- The labels all of whose values a pattern matches. -/
def cover
    (s : Schema) : Checked → List String
| .wildcard _ => s.coverLabels
| .bind _ _ inner => inner.cover s
| .literal _ l => l.coverLabels
| .some _ inner => if inner.isCatchAll then ["Some"] else []
| .alt _ branches => coverOfAll s branches
| .object _ head fields =>
    if asksBranchOnly s head fields then
      objectLabels s true head fields
    else
      []
| _ => []
termination_by structural p => p

/- The labels all of whose values one of several matches. -/
def coverOfAll
    (s : Schema) : List Checked → List String
| [] => []
| p :: ps => p.cover s ++ coverOfAll s ps
termination_by structural ps => ps

end

mutual

/- The labels of the values that a pattern may match. -/
def footprint
    (s : Schema) : Checked → List String
| .wildcard _ => s.coverLabels
| .typeIs _ _ _ => s.coverLabels
| .bind _ _ inner => inner.footprint s
| .guarded _ inner _ => inner.footprint s
| .literal _ l => l.coverLabels
| .some _ _ => ["Some"]
| .alt _ branches => footprintOfAll s branches
| .object _ head fields => objectLabels s false head fields
| _ => []
termination_by structural p => p

/- The labels of the values that one of several may match. -/
def footprintOfAll
    (s : Schema) : List Checked → List String
| [] => []
| p :: ps => p.footprint s ++ footprintOfAll s ps
termination_by structural ps => ps

end

end Checked

end MatchCompiler

------------------------------------------------------------
-- Findings
------------------------------------------------------------

namespace MatchCompiler

/- What coverage has to say about a match. -/
inductive CoverageFinding where
| missing
    (span : Span) (type : String) (labels : List String)
    (guarded : List Span)
| afterCatchAll (span earlier : Span)
| alreadyCovered (span : Span) (labels : List String)

namespace CoverageFinding

/- A warning about an arm that is never selected. -/
def unreachable (span : Span) : Diagnostic :=
  (Diagnostic.warning .unreachableArm "unreachable match arm").withLabel
    span "this arm never matches"

/- The report of a finding. -/
def diagnostic : CoverageFinding → Diagnostic
| .missing span type labels guarded =>
    let listed := quotedNames labels.eraseDups
    let noun := if labels.length == 1 then "case" else "cases"
    let first := labels.headD ""
    let d := ((Diagnostic.error .missingCases
      (s!"match on `{type}` is not exhaustive: " ++
        s!"{noun} {listed} not covered")).withLabel
      span s!"{listed} not covered").withSuggestion
      s!"add an arm for `{first}` or a wildcard `_` arm"
    guarded.foldl
      (fun d span =>
        d.withContext span
          "guarded arms do not count towards exhaustiveness")
      d
| .afterCatchAll span earlier =>
    (unreachable span).withContext earlier
      "every value already matches here"
| .alreadyCovered span labels =>
    let listed := quotedNames labels.eraseDups
    (unreachable span).withNote
      s!"{listed} already covered by earlier arms"

end CoverageFinding

end MatchCompiler

------------------------------------------------------------
-- Coverage
------------------------------------------------------------

namespace MatchCompiler

/-
  The verdict on a match: whether every value is covered,
  the labels that are not, in declaration order, the numbers
  of the arms that are never selected, and what to report.
-/
structure Coverage where
  exhaustive : Bool
  missing : List String
  redundant : List Nat
  findings : List CoverageFinding

namespace Coverage

/- The reports. -/
def diagnostics (c : Coverage) : List Diagnostic :=
  c.findings.map CoverageFinding.diagnostic

/- Whether an error is reported. -/
def hasErrors (c : Coverage) : Bool :=
  c.diagnostics.any Diagnostic.isError

/-
  A walk over the arms: the labels covered so far, the arm
  that matches every value, and the redundant arms with the
  reasons.
-/
structure Walk where
  covered : List String := []
  catchAll : Option Span := none
  redundant : List (Nat × CoverageFinding) := []

/- Why an arm is never selected after those walked over. -/
def Walk.redundancy?
    (w : Walk)
    (s : Schema)
    (p : Checked) : Option CoverageFinding :=
  match w.catchAll with
  | some earlier => some (.afterCatchAll p.span earlier)
  | none =>
      let labels := p.footprint s
      if s.structuralKind.isClosed && !labels.isEmpty &&
          labels.all (fun l => w.covered.contains l) then
        some (.alreadyCovered p.span labels)
      else
        none

/- Walk over one more arm. -/
def Walk.next
    (s : Schema)
    (w : Walk)
    (arm : CheckedArm × Nat) : Walk :=
  let p := arm.1.pattern
  match w.redundancy? s p with
  | some finding =>
      { w with redundant := w.redundant ++ [(arm.2, finding)] }
  | none =>
      { w with
        covered := w.covered ++ p.cover s
        catchAll := if p.isCatchAll then some p.span else none }

/- The guarded arms that may match a label not covered. -/
def guardedSpans
    (s : Schema)
    (missing : List String)
    (arms : List CheckedArm) : List Span :=
  (arms.filter fun a =>
    a.pattern.hasGuard &&
      (a.pattern.footprint s).any (fun l => missing.contains l)).map
    (fun a => a.pattern.span)

end Coverage

/-
  Coverage of a type by arms in order; `span` is that of the
  whole match. A type that is not closed is covered only by
  an arm that matches every value.
-/
def Schema.coverage
    (s : Schema)
    (arms : List CheckedArm)
    (span : Span) : Coverage :=
  let closed := s.structuralKind.isClosed
  let w := arms.zipIdx.foldl (Coverage.Walk.next s) {}
  let missing :=
    if w.catchAll.isNone && closed then
      s.coverLabels.filter (fun l => !w.covered.contains l)
    else
      []
  let incomplete :=
    if missing.isEmpty then
      []
    else
      [.missing span s.displayName missing
        (Coverage.guardedSpans s missing arms)]
  { exhaustive := w.catchAll.isSome || (closed && missing.isEmpty)
    missing
    redundant := w.redundant.map Prod.fst
    findings := incomplete ++ w.redundant.map Prod.snd }

/- Coverage of the scrutinee in a slot. -/
def SchemaPool.coverage
    (p : SchemaPool)
    (scrutinee : SchemaId)
    (arms : List CheckedArm)
    (span : Span) : Coverage :=
  (p.get scrutinee).coverage arms span

end MatchCompiler
