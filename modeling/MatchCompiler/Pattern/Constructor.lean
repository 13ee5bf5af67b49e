import MatchCompiler.Pattern.CaseName
import MatchCompiler.Pattern.Checked
import MatchCompiler.Pattern.Problem
import MatchCompiler.Schema.Compat
import MatchCompiler.Schema.Registry

/-
  This file resolves what constructor patterns name: types,
  cases and fields.

  A field may be read if all branches share it or if every
  branch that the pattern pins declares it. Branches are
  pinned by a case name and by the labels that the pattern of
  the discriminator allows.

  Key definitions include:
    * `SchemaPool.names`
    * `Schema.pinCase`
    * `Checked.labels`
    * `Schema.readable`
    * `Schema.positionalFields`
-/

------------------------------------------------------------
-- Types
------------------------------------------------------------

namespace MatchCompiler

namespace SchemaPool

/-
  Whether a name stands for a type: its own name, that of its
  alias, of what it points to, or of a base.
-/
def names
    (p : SchemaPool)
    (id : SchemaId)
    (head : String) : Bool :=
  let pointee := p.unwrap id
  [id, p.canonical id, pointee].any
      (fun i =>
        (p.get i).name == head || (p.get i).aliasName == some head) ||
    (p.get pointee).ancestors.any (fun a => p.nameOf a == head)

/- The names that could have been meant for a type. -/
def headCandidates
    (p : SchemaPool)
    (id : SchemaId) : List String :=
  let s := p.get id
  let cases :=
    if s.structuralKind == .union then
      s.branches.map Branch.label
    else
      []
  ([s.name] ++ s.aliasName.toList ++ [(p.get (p.unwrap id)).name] ++
    cases).eraseReps

end SchemaPool

end MatchCompiler

------------------------------------------------------------
-- Cases
------------------------------------------------------------

namespace MatchCompiler

namespace Schema

/- Whether a name stands for one case of a union. -/
def isCaseName
    (s : Schema)
    (marker : Char)
    (name : String) : Bool :=
  s.structuralKind == .union &&
    (resolveCase (s.branches.map Branch.label) name marker).label?.isSome

/- The branch that a case name pins. -/
def pinCase
    (s : Schema)
    (marker : Char)
    (caseName : String)
    (span : Span) : Except Problem (List Member) :=
  let labels := s.branches.map Branch.label
  let type := s.displayName
  if s.structuralKind != .union then
    .error (.noCases span type caseName)
  else
    match resolveCase labels caseName marker with
    | .exact label | .marked label =>
        let ordinal := ((s.branch? label).map Branch.ordinal).getD 0
        .ok [{ name := label, ordinal }]
    | .ambiguous several =>
        .error (.ambiguousCase span type caseName several)
    | .unknown => .error (.unknownCase span type caseName labels)

/- The label of a branch with its number. -/
def label?
    (s : Schema)
    (label : String) : Option Member :=
  (s.branch? label).map
    (fun b => { name := label, ordinal := b.ordinal })

end Schema

namespace Checked

/- Add the labels that are not there yet. -/
def addLabels
    (known new : List Member) : List Member :=
  new.foldl
    (fun ls l =>
      if ls.any (fun k => k.name == l.name) then ls else ls ++ [l])
    known

mutual

/-
  The labels that a discriminator pattern allows, if it
  allows only some.
-/
def labels
    (s : Schema) : Checked → Option (List Member)
| .literal _ (.member m) => Option.some [m]
| .literal _ (.value (.bool b)) =>
    (s.label? (if b then "true" else "false")).map (fun l => [l])
| .literal _ (.value (.sym name)) =>
    (s.label? name).map (fun l => [l])
| .alt _ branches => labelsOfAll s [] branches
| .bind _ _ inner => inner.labels s
| .guarded _ inner _ => inner.labels s
| _ => Option.none
termination_by structural p => p

/- The labels that some branches allow, besides known ones. -/
def labelsOfAll
    (s : Schema)
    (known : List Member) :
    List Checked → Option (List Member)
| [] => Option.some known
| p :: ps =>
    match p.labels s with
    | Option.none => Option.none
    | Option.some ls => labelsOfAll s (addLabels known ls) ps
termination_by structural ps => ps

end

end Checked

end MatchCompiler

------------------------------------------------------------
-- Fields
------------------------------------------------------------

namespace MatchCompiler

namespace Schema

/- The name of the discriminator, or of the type if none. -/
def discriminatorName (s : Schema) : String :=
  (s.discriminator.map Discriminator.field).getD s.name

/- Whether a name is that of the discriminator. -/
def isDiscriminator
    (s : Schema)
    (name : String) : Bool :=
  s.discriminator.any (fun d => d.field == name)

/- The field of the first pinned branch. -/
def pinnedField?
    (s : Schema)
    (pinned : List Member)
    (name : String) : Option Field := do
  let first ← pinned.head?
  let branch ← s.branch? first.name
  branch.field? name

/-
  The field that a name reads while some branches are pinned.
  A field that is not shared must belong to all of them.
-/
def readable
    (s : Schema)
    (pinned : Option (List Member))
    (name : String)
    (span : Span) : Except Problem (Option Field) :=
  match s.field? name with
  | some f => .ok (some f)
  | none =>
      let owners := s.owners name
      let discriminator := s.discriminatorName
      if owners.isEmpty then
        .error (.unknownField span s.displayName name s.allFieldNames)
      else
        match pinned with
        | none => .error (.unpinnedField span name discriminator owners)
        | some labels =>
            let outside :=
              (labels.map Member.name).filter
                (fun l => !owners.contains l)
            if outside.isEmpty then
              .ok (s.pinnedField? labels name)
            else
              .error
                (.foreignField span name discriminator outside owners)

/-
  The fields that arguments stand for in turn: those of the
  branch if exactly one is pinned, and otherwise the shared
  ones without the discriminator.
-/
def positionalFields
    (s : Schema)
    (pinned : Option (List Member)) : List Field :=
  let shared := s.fields.filter (fun f => !s.isDiscriminator f.name)
  match pinned with
  | some [only] =>
      match s.branch? only.name with
      | some b => b.fields
      | none => shared
  | _ => shared

end Schema

end MatchCompiler
