import MatchCompiler.Pattern.CaseName
import MatchCompiler.Pattern.Checked
import MatchCompiler.Pattern.Problem
import MatchCompiler.Schema.Pool

/-
  This file checks literals against schemas.

  An integer without a suffix fits every integer type whose
  range holds it, and a float without a suffix every float
  type; a suffix pins exactly one width. Members of an
  enumeration may be named in short.

  Key definitions include:
    * `checkPrimitive`
    * `checkMember`
    * `Schema.checkLiteral`
    * `Schema.ordinalDomain`
    * `SchemaPool.checkLiteral`
-/

------------------------------------------------------------
-- Primitives
------------------------------------------------------------

namespace MatchCompiler

/-
  A number against a float type; a suffix must be that very
  type.
-/
def checkFloat
    (type : String)
    (kind : Primitive)
    (l : Literal) : Except LiteralProblem CheckedLiteral :=
  if kind.isFloat && l.suffix.all (· == kind) then
    .ok (.value l)
  else
    .error (.mismatch l type)

/- An integer against an integer type. -/
def checkInteger
    (type : String)
    (kind : Primitive)
    (l : Literal)
    (n : Int) : Except LiteralProblem CheckedLiteral :=
  if kind.isInteger && l.suffix.all (· == kind) then
    match kind.range with
    | some (least, greatest) =>
        if least ≤ n && n ≤ greatest then
          .ok (.value l)
        else
          .error (.outOfRange l kind (least, greatest))
    | none => .ok (.value l)
  else
    .error (.mismatch l type)

/-
  A literal against a primitive. Booleans may be written as
  bare names.
-/
def checkPrimitive
    (type : String)
    (kind : Primitive)
    (l : Literal) : Except LiteralProblem CheckedLiteral :=
  match l with
  | .int n suffix =>
      if suffix.any Primitive.isFloat then
        checkFloat type kind l
      else
        checkInteger type kind l n
  | .float _ _ => checkFloat type kind l
  | .str _ => expect (kind == .str) l
  | .char _ => expect (kind == .char) l
  | .bool _ => expect (kind == .bool) l
  | .sym name =>
      if name = "true" then
        expect (kind == .bool) (.bool true)
      else if name = "false" then
        expect (kind == .bool) (.bool false)
      else
        .error (.mismatch l type)
  | .nil => .error (.mismatch l type)
where
  expect
      (fits : Bool)
      (meaning : Literal) : Except LiteralProblem CheckedLiteral :=
    if fits then .ok (.value meaning) else .error (.mismatch l type)

end MatchCompiler

------------------------------------------------------------
-- Enumerations
------------------------------------------------------------

namespace MatchCompiler

/- A name against an enumeration. -/
def checkMember
    (marker : Char)
    (s : Schema)
    (name : String) : Except LiteralProblem CheckedLiteral :=
  let names := s.members.map Member.name
  match s.member? name with
  | some m => .ok (.member m)
  | none =>
      match resolveCase names name marker with
      | .exact label | .marked label =>
          match s.member? label with
          | some m => .ok (.member m)
          | none => .ok (.member { name := label, ordinal := 0 })
      | .ambiguous labels =>
          .error (.ambiguousMember name labels s.displayName)
      | .unknown => .error (.unknownMember name names s.displayName)

end MatchCompiler

------------------------------------------------------------
-- Schemas
------------------------------------------------------------

namespace MatchCompiler

namespace Schema

/-
  What a literal means at a type. Nil is a reference, an
  absent optional, or anything of unknown type; of unknown
  type is every other literal too.
-/
def checkLiteral
    (s : Schema)
    (marker : Char)
    (l : Literal) : Except LiteralProblem CheckedLiteral :=
  let type := s.displayName
  if l == .nil && s.isReference then
    .ok .nil
  else
    match s.structuralKind, l with
    | .optional, .nil => .ok .none
    | .unknown, .nil => .ok .nil
    | .unknown, _ => .ok (.value l)
    | .optional, _ => .error (.payloadOnly l type)
    | .primitive, _ =>
        match s.primitive with
        | some kind => checkPrimitive type kind l
        | none => .error (.mismatch l type)
    | .enumeration, .sym name => checkMember marker s name
    | _, _ => .error (.mismatch l type)

/-
  Number of values of an element type whose values are
  numbered: an enumeration with ordinals of 32 bits, short of
  the greatest, or the booleans.
-/
def ordinalDomain (s : Schema) : Option Nat :=
  match s.structuralKind with
  | .enumeration =>
      s.members.foldlM
        (fun most m =>
          if 0 ≤ m.ordinal && m.ordinal + 1 < 4294967296 then
            some (max most (m.ordinal.toNat + 1))
          else
            none)
        0
  | .primitive => if s.primitive == some .bool then some 2 else none
  | _ => none

end Schema

namespace SchemaPool

/- What a literal means at the type in a slot. -/
def checkLiteral
    (p : SchemaPool)
    (marker : Char)
    (id : SchemaId)
    (l : Literal) : Except LiteralProblem CheckedLiteral :=
  (p.get id).checkLiteral marker l

/- The numbered values of the element type in a slot. -/
def ordinalDomain
    (p : SchemaPool)
    (id : SchemaId) : Option Nat :=
  (p.get id).ordinalDomain

end SchemaPool

/- The number of a set member, if it has 32 bits. -/
def CheckedLiteral.ordinal? : CheckedLiteral → Option Nat
| .member m =>
    if 0 ≤ m.ordinal && m.ordinal < 4294967296 then
      some m.ordinal.toNat
    else
      Option.none
| .value (.bool b) => some (if b then 1 else 0)
| _ => Option.none

/- The literal that a set member is compared with. -/
def CheckedLiteral.orWritten
    (written : Literal) : CheckedLiteral → Literal
| .value l => l
| _ => written

end MatchCompiler
