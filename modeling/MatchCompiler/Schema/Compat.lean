import MatchCompiler.Schema.Pool

/-
  This file decides whether a value of one type may match a
  pattern that names another.

  Aliases and references are looked through on both sides.
  Primitives follow the numeric families, containers and
  tuples compare their parts, and other types compare by kind
  and name and by ancestry: an ancestor of the scrutinee is
  the scrutinee's type too, and a type derived from an open
  scrutinee can be told only by a test at run time.

  Key definitions include:
    * `Compat`
    * `Compat.both`
    * `SchemaPool.compat`

  Key theorems include:
    * `Compat.both_comm`
    * `Compat.both_assoc`
    * `Compat.both_ne_deferred`
-/

------------------------------------------------------------
-- Verdicts
------------------------------------------------------------

namespace MatchCompiler

/- How two types go together, strongest first. -/
inductive Compat where
| exact
| numeric
| deferred
| incompatible
deriving DecidableEq

namespace Compat

/- Anything but the weakest verdict. -/
def isCompatible (c : Compat) : Bool :=
  c != .incompatible

/- Place in the order from strong to weak. -/
def rank : Compat → Nat
| .exact => 0
| .numeric => 1
| .deferred => 2
| .incompatible => 3

/-
  The verdict on two parts: the weaker one. A part of a
  container cannot be tested for its type at run time, so
  that a deferred part makes the whole incompatible.
-/
def both (c d : Compat) : Compat :=
  match if c.rank ≤ d.rank then d else c with
  | .deferred => .incompatible
  | weaker => weaker

end Compat

end MatchCompiler

------------------------------------------------------------
-- Comparison
------------------------------------------------------------

namespace MatchCompiler

namespace SchemaPool

/- Two primitives, if both are known. -/
def compatPrimitive : Option Primitive → Option Primitive → Compat
| some p, some q =>
    if p == q then
      .exact
    else if p.agrees q then
      .numeric
    else
      .incompatible
| _, _ => .incompatible

/-
  Two types that are not compared by their parts: one name
  and kind, or one the ancestor of the other.
-/
def compatNominal
    (p : SchemaPool)
    (pattern scrutinee : SchemaId) : Compat :=
  let ps := p.get pattern
  let ss := p.get scrutinee
  if ps.kind == ss.kind && ps.name == ss.name then
    .exact
  else if ss.ancestors.any (fun a => p.unwrap a == pattern) then
    .exact
  else if ss.isExtensible &&
      ps.ancestors.any (fun a => p.unwrap a == scrutinee) then
    .deferred
  else
    .incompatible

/- Two optional parts, compared if both are present. -/
def compatPart
    (compare : SchemaId → SchemaId → Compat) :
    Option SchemaId → Option SchemaId → Compat
| some a, some b => compare a b
| _, _ => .incompatible

/-
  Two schemas that have been unwrapped and differ; `compare`
  compares their parts.
-/
def compatParts
    (p : SchemaPool)
    (compare : SchemaId → SchemaId → Compat)
    (pattern scrutinee : SchemaId) : Compat :=
  let ps := p.get pattern
  let ss := p.get scrutinee
  match ps.kind, ss.kind with
  | .primitive, .primitive =>
      compatPrimitive ps.primitive ss.primitive
  | .sequence, .sequence | .set, .set | .optional, .optional =>
      Compat.exact.both (compatPart compare ps.element ss.element)
  | .array, .array =>
      if ps.arrayLength == ss.arrayLength then
        Compat.exact.both (compatPart compare ps.element ss.element)
      else
        .incompatible
  | .map, .map =>
      (compatPart compare ps.key ss.key).both
        (compatPart compare ps.value ss.value)
  | .tuple, .tuple =>
      if ps.fields.length == ss.fields.length then
        (ps.fields.zip ss.fields).foldl
          (fun c fg => c.both (compare fg.1.schema fg.2.schema))
          .exact
      else
        .incompatible
  | _, _ => p.compatNominal pattern scrutinee

/-
  Compare two schemas through at most a number of nested
  containers; deeper ones count as incompatible.
-/
def compatWithin
    (p : SchemaPool) :
    Nat → SchemaId → SchemaId → Compat
| 0, _, _ => .incompatible
| n + 1, pattern, scrutinee =>
    let a := p.unwrap pattern
    let b := p.unwrap scrutinee
    if a == b then
      .exact
    else
      p.compatParts (compatWithin p n) a b

/- Containers are compared through 32 levels of nesting. -/
def compatDepth : Nat :=
  33

/-
  Whether a value of the scrutinee's type may match a pattern
  that names the pattern's type.
-/
def compat
    (p : SchemaPool)
    (pattern scrutinee : SchemaId) : Compat :=
  p.compatWithin compatDepth pattern scrutinee

end SchemaPool

end MatchCompiler

------------------------------------------------------------
-- Properties Of Verdicts
------------------------------------------------------------

namespace MatchCompiler

namespace Compat

/- The verdict on two parts does not depend on their order. -/
theorem both_comm
    (c d : Compat) :
    c.both d = d.both c := by
  cases c <;> cases d <;> rfl

/- Parts may be joined in any grouping. -/
theorem both_assoc
    (c d e : Compat) :
    (c.both d).both e = c.both (d.both e) := by
  cases c <;> cases d <;> cases e <;> rfl

/- The verdict on two parts is never deferred. -/
theorem both_ne_deferred
    (c d : Compat) :
    c.both d ≠ .deferred := by
  cases c <;> cases d <;> decide

end Compat

end MatchCompiler
