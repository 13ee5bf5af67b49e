import MatchCompiler.Number.Double

/-
  This file writes doubles in decimal with the fewest digits
  that read back as the same double.

  A finite double is surrounded by an interval of reals that
  round to it; the ends belong to it when the mantissa is
  even. For one digit, two digits and so on up to seventeen,
  the two neighbours of the value on that decimal grid are
  tested. The first grid with a neighbour in the interval
  gives the digits; of two such neighbours the nearer one is
  taken, and of two equally near ones the upper.

  Key definitions include:
    * `Decimal`
    * `Double.shortest`
    * `FloatStyle`
    * `Double.render`
-/

------------------------------------------------------------
-- Decimals
------------------------------------------------------------

namespace MatchCompiler

/- The number `digits * 10 ^ exponent`. -/
structure Decimal where
  digits : Nat
  exponent : Int

namespace Decimal

/- Number of decimal digits; zero has none. -/
def width (n : Nat) : Nat :=
  if n == 0 then 0 else (Nat.toDigits 10 n).length

/- Exponent of the leading digit. -/
def leading (d : Decimal) : Int :=
  d.exponent + width d.digits - 1

end Decimal

end MatchCompiler

------------------------------------------------------------
-- Shortest Digits
------------------------------------------------------------

namespace MatchCompiler

/-
  A positive value together with the interval that rounds to
  it, as numerators over one denominator.
-/
structure RoundingInterval where
  value : Nat
  low : Nat
  high : Nat
  denominator : Nat
  closed : Bool

namespace RoundingInterval

/-
  The interval of a finite double other than zero. Just
  above a power of two the gap below is half the gap above.
-/
def ofDouble (x : Double) : RoundingInterval :=
  let m := x.mantissa
  let narrow := x.fractionBits == 0 && 1 < x.exponentBits
  let up := if 2 ≤ x.scale then Nat.pow 2 (x.scale - 2).toNat else 1
  let down := if x.scale < 2 then Nat.pow 2 (2 - x.scale).toNat else 1
  { value := 4 * m * up
    low := (if narrow then 4 * m - 1 else 4 * m - 2) * up
    high := (4 * m + 2) * up
    denominator := down
    closed := m % 2 == 0 }

/- Exponent of the leading decimal digit of `value`. -/
def leading (r : RoundingInterval) : Int :=
  if r.denominator ≤ r.value then
    Decimal.width (r.value / r.denominator) - 1
  else
    let quotient := (r.denominator + r.value - 1) / r.value
    Int.negOfNat (Decimal.width (quotient - 1))

/-
  `value / 10 ^ k` as a fraction, for comparison with the
  points of the grid of multiples of `10 ^ k`.
-/
def onGrid
    (r : RoundingInterval)
    (k : Int) : RoundingInterval :=
  if k < 0 then
    let p := Nat.pow 10 (-k).toNat
    { r with
      value := r.value * p
      low := r.low * p
      high := r.high * p }
  else
    { r with denominator := r.denominator * Nat.pow 10 k.toNat }

/- Whether an integer lies in the interval. -/
def holds
    (r : RoundingInterval)
    (n : Nat) : Bool :=
  let scaled := n * r.denominator
  if r.closed then
    r.low ≤ scaled && scaled ≤ r.high
  else
    r.low < scaled && scaled < r.high

/- The integer neighbour of `value` in the interval. -/
def nearest? (r : RoundingInterval) : Option Nat :=
  let below := r.value / r.denominator
  let above :=
    if r.value % r.denominator == 0 then below else below + 1
  match r.holds below, r.holds above with
  | false, false => none
  | true, false => some below
  | false, true => some above
  | true, true =>
      if r.value - below * r.denominator <
          above * r.denominator - r.value then
        some below
      else
        some above

/-
  The decimal of `n` digits that the grid of the value's
  leading digit offers. A neighbour that carries into one
  more digit is a power of ten.
-/
def ofWidth?
    (r : RoundingInterval)
    (n : Nat) : Option Decimal :=
  let k := r.leading - n + 1
  (r.onGrid k).nearest?.map fun d =>
    if d == Nat.pow 10 n then
      { digits := 1, exponent := k + n }
    else
      { digits := d, exponent := k }

end RoundingInterval

/-
  The decimal with the fewest digits that rounds to a finite
  double other than zero. Seventeen digits always suffice.
-/
def Double.shortest (x : Double) : Decimal :=
  let r := RoundingInterval.ofDouble x
  ((List.range' 1 17).findSome? r.ofWidth?).getD
    { digits := 0, exponent := 0 }

end MatchCompiler

------------------------------------------------------------
-- Decimal Text
------------------------------------------------------------

namespace MatchCompiler

/-
  How a double is written: positionally when its leading
  digit's exponent lies between `least` and `greatest`, with
  at least one place after the point, and otherwise with a
  marked exponent and no superfluous places.
-/
structure FloatStyle where
  least : Int
  greatest : Int
  mark : String
  notANumber : String
  infinity : String

/- `n` zeros. -/
def zeros (n : Nat) : String :=
  String.ofList (List.replicate n '0')

namespace FloatStyle

/- Positional text of a positive decimal. -/
def positional (d : Decimal) : String :=
  let ds := Nat.toDigits 10 d.digits
  if 0 ≤ d.exponent then
    String.ofList ds ++ zeros d.exponent.toNat ++ ".0"
  else
    let places := (-d.exponent).toNat
    if places < ds.length then
      String.ofList (ds.take (ds.length - places)) ++ "." ++
        String.ofList (ds.drop (ds.length - places))
    else
      "0." ++ zeros (places - ds.length) ++ String.ofList ds

/- Text of a positive decimal with a marked exponent. -/
def scientific
    (style : FloatStyle)
    (d : Decimal) : String :=
  let ds := Nat.toDigits 10 d.digits
  let fraction := ds.drop 1
  String.ofList (ds.take 1) ++
    (if fraction.isEmpty then "" else "." ++ String.ofList fraction) ++
    style.mark ++ toString d.leading

/- Text of the magnitude of a double. -/
def magnitude
    (style : FloatStyle)
    (x : Double) : String :=
  if x.isInfinite then
    style.infinity
  else if x.isZero then
    "0.0"
  else
    let d := x.shortest
    if style.least ≤ d.leading && d.leading ≤ style.greatest then
      positional d
    else
      style.scientific d

end FloatStyle

/- Text of a double; only a NaN has no sign. -/
def Double.render
    (x : Double)
    (style : FloatStyle) : String :=
  if x.isNaN then
    style.notANumber
  else if x.isNegative then
    "-" ++ style.magnitude x
  else
    style.magnitude x

end MatchCompiler
