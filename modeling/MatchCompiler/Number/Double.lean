/-
  This file defines double-precision numbers as their 64
  bits, with the comparisons and the conversion from an
  integer that matching needs.

  The bits are a sign, eleven exponent bits and 52 fraction
  bits. Everything here is exact integer arithmetic, so that
  statements about it need no floating-point axioms.

  Key definitions include:
    * `Double`
    * `Double.isNaN`
    * `Double.same`
    * `Double.mantissa`
    * `Double.scale`
    * `Double.ofInt`

  Key theorems include:
    * `Double.same_comm`
-/

------------------------------------------------------------
-- Doubles
------------------------------------------------------------

namespace MatchCompiler

/-
  A double, told apart from others by its bits: the two
  zeros differ, and so do two NaNs with different payloads.
-/
structure Double where
  bits : UInt64
deriving DecidableEq, Inhabited

namespace Double

/- The sign bit is set. -/
def isNegative (x : Double) : Bool :=
  Nat.pow 2 63 ≤ x.bits.toNat

/- The eleven exponent bits. -/
def exponentBits (x : Double) : Nat :=
  x.bits.toNat / Nat.pow 2 52 % Nat.pow 2 11

/- The 52 fraction bits. -/
def fractionBits (x : Double) : Nat :=
  x.bits.toNat % Nat.pow 2 52

/- Not a number: all exponent bits set and some fraction. -/
def isNaN (x : Double) : Bool :=
  x.exponentBits == 2047 && x.fractionBits != 0

/- One of the two infinities. -/
def isInfinite (x : Double) : Bool :=
  x.exponentBits == 2047 && x.fractionBits == 0

/- One of the two zeros. -/
def isZero (x : Double) : Bool :=
  x.exponentBits == 0 && x.fractionBits == 0

/-
  Numeric equality: a NaN equals nothing, the two zeros are
  equal, and everything else is equal to itself only.
-/
def same (x y : Double) : Bool :=
  !x.isNaN && !y.isNaN &&
    (x == y || (x.isZero && y.isZero))

end Double

end MatchCompiler

------------------------------------------------------------
-- Exact Magnitude
------------------------------------------------------------

namespace MatchCompiler

namespace Double

/-
  The magnitude of a finite double is
  `mantissa * 2 ^ scale`. Normal numbers have a hidden
  leading bit, numbers with zero exponent bits do not.
-/
def mantissa (x : Double) : Nat :=
  if x.exponentBits == 0 then
    x.fractionBits
  else
    Nat.pow 2 52 + x.fractionBits

/- The power of two that scales `mantissa`. -/
def scale (x : Double) : Int :=
  (max x.exponentBits 1 : Int) - 1075

/-
  Round a quotient by a power of two to the nearest integer,
  a half going to the even neighbour.
-/
def roundShift
    (m : Nat)
    (shift : Nat) : Nat :=
  let q := m / Nat.pow 2 shift
  let r := m % Nat.pow 2 shift
  let half := Nat.pow 2 shift / 2
  if half < r || (r == half && shift != 0 && q % 2 == 1) then
    q + 1
  else
    q

/-
  The bits of the double nearest to a natural number below
  the overflow threshold. A carry out of the fraction runs
  into the exponent, which is what rounding up to the next
  power of two asks for.
-/
def magnitudeBits (m : Nat) : Nat :=
  if m == 0 then
    0
  else
    let e := m.log2
    let f :=
      if e ≤ 52 then m * Nat.pow 2 (52 - e)
      else roundShift m (e - 52)
    (e + 1023) * Nat.pow 2 52 + (f - Nat.pow 2 52)

/- The double nearest to an integer, a half going to even. -/
def ofInt (n : Int) : Double :=
  let bits := magnitudeBits n.natAbs
  { bits := .ofNat (if n < 0 then Nat.pow 2 63 + bits else bits) }

end Double

end MatchCompiler

------------------------------------------------------------
-- Properties Of Equality
------------------------------------------------------------

namespace MatchCompiler

namespace Double

/- Numeric equality does not depend on the order. -/
theorem same_comm
    (x y : Double) :
    x.same y = y.same x := by
  have hEq : (x == y) = (y == x) := BEq.comm
  unfold same
  rw [hEq, Bool.and_comm (!x.isNaN), Bool.and_comm x.isZero]

end Double

end MatchCompiler
