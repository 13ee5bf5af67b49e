/-
  This file defines the primitive types and the rules of the
  numeric families.

  Two numeric primitives agree when they belong to one
  family, whatever their widths: signed integers, unsigned
  integers or floats. A primitive outside the families
  agrees with itself only.

  Key definitions include:
    * `NumericFamily`
    * `Primitive`
    * `Primitive.family`
    * `Primitive.agrees`
    * `Primitive.range`
    * `Primitive.ordinalCount`
    * `Primitive.name`
    * `Primitive.ofName?`

  Key theorems include:
    * `Primitive.ofName?_name`
    * `Primitive.agrees_self`
    * `Primitive.agrees_comm`
-/

------------------------------------------------------------
-- Numeric Families
------------------------------------------------------------

namespace MatchCompiler

/- The three families of numeric primitives. -/
inductive NumericFamily where
| signed
| unsigned
| float
deriving DecidableEq

/- The two integer families. -/
def NumericFamily.isInteger : NumericFamily → Bool
| .signed => true
| .unsigned => true
| .float => false

end MatchCompiler

------------------------------------------------------------
-- Primitives
------------------------------------------------------------

namespace MatchCompiler

/- The types that have no parts. -/
inductive Primitive where
| i8
| i16
| i32
| i64
| i128
| isize
| u8
| u16
| u32
| u64
| u128
| usize
| f32
| f64
| bool
| char
| str
| unit
deriving DecidableEq

namespace Primitive

/- Every primitive, in declaration order. -/
def all : List Primitive :=
  [.i8, .i16, .i32, .i64, .i128, .isize,
    .u8, .u16, .u32, .u64, .u128, .usize,
    .f32, .f64, .bool, .char, .str, .unit]

/- The family of a numeric primitive. -/
def family : Primitive → Option NumericFamily
| .i8 | .i16 | .i32 | .i64 | .i128 | .isize => some .signed
| .u8 | .u16 | .u32 | .u64 | .u128 | .usize => some .unsigned
| .f32 | .f64 => some .float
| .bool | .char | .str | .unit => none

/- A primitive of one of the integer families. -/
def isInteger (p : Primitive) : Bool :=
  p.family == some .signed || p.family == some .unsigned

/- A primitive of the float family. -/
def isFloat (p : Primitive) : Bool :=
  p.family == some .float

/-
  Numeric primitives agree within their family; the others
  agree with themselves only.
-/
def agrees (p q : Primitive) : Bool :=
  match p.family, q.family with
  | some f, some g => f == g
  | none, none => p == q
  | _, _ => false

/- Values of a two's complement integer of `bits` bits. -/
def signedRange (bits : Nat) : Int × Int :=
  (-Int.pow 2 (bits - 1), Int.pow 2 (bits - 1) - 1)

/- Values of an unsigned integer of `bits` bits. -/
def unsignedRange (bits : Nat) : Int × Int :=
  (0, Int.pow 2 bits - 1)

/-
  Least and greatest value of an integer primitive. Pointer
  widths have 64 bits, and the widest unsigned primitive is
  cut off at the greatest value of the widest signed one.
-/
def range : Primitive → Option (Int × Int)
| .i8 => some (signedRange 8)
| .i16 => some (signedRange 16)
| .i32 => some (signedRange 32)
| .i64 | .isize => some (signedRange 64)
| .i128 => some (signedRange 128)
| .u8 => some (unsignedRange 8)
| .u16 => some (unsignedRange 16)
| .u32 => some (unsignedRange 32)
| .u64 | .usize => some (unsignedRange 64)
| .u128 => some (unsignedRange 127)
| .f32 | .f64 | .bool | .char | .str | .unit => none

/-
  Number of values, for the primitives that are small enough
  to be numbered as the members of a finite set.
-/
def ordinalCount : Primitive → Option Nat
| .bool => some 2
| .i8 | .u8 | .char => some 256
| .i16 | .u16 => some 65536
| _ => none

/- The spelling of a primitive. -/
def name : Primitive → String
| .i8 => "i8"
| .i16 => "i16"
| .i32 => "i32"
| .i64 => "i64"
| .i128 => "i128"
| .isize => "isize"
| .u8 => "u8"
| .u16 => "u16"
| .u32 => "u32"
| .u64 => "u64"
| .u128 => "u128"
| .usize => "usize"
| .f32 => "f32"
| .f64 => "f64"
| .bool => "bool"
| .char => "char"
| .str => "str"
| .unit => "()"

/- The primitive with a given spelling. -/
def ofName? (s : String) : Option Primitive :=
  all.find? (fun p => p.name == s)

end Primitive

end MatchCompiler

------------------------------------------------------------
-- Properties Of Primitives
------------------------------------------------------------

namespace MatchCompiler

namespace Primitive

/- A spelling is read back as the primitive it belongs to. -/
theorem ofName?_name
    (p : Primitive) :
    ofName? p.name = some p := by
  cases p <;> decide

/- Every primitive agrees with itself. -/
theorem agrees_self
    (p : Primitive) :
    p.agrees p = true := by
  cases p <;> rfl

/- Agreement does not depend on the order. -/
theorem agrees_comm
    (p q : Primitive) :
    p.agrees q = q.agrees p := by
  unfold agrees
  cases p.family with
  | none =>
      cases q.family with
      | none => exact BEq.comm
      | some g => rfl
  | some f =>
      cases q.family with
      | none => rfl
      | some g => exact BEq.comm

end Primitive

end MatchCompiler
