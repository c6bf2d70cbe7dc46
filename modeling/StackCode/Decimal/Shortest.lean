import StackCode.Double

/-!
# The shortest decimal of a binary number

Among the decimals that read back as a given binary number, the one with the fewest digits, and
among those the one nearest to the number; of two equally near ones the larger.

A finite positive number is `m · 2 ^ q`. The reals that round to it form an interval whose ends are
the midpoints to its neighbours, and the ends belong to it when `m` is even. All arithmetic is done
on natural numbers: value and ends are multiplied by four and written over one power of two, so that
a point of the decimal grid `10 ^ e` is compared with them exactly.

* `Decimal`: digits and the place of the point;
* `Decimal.shortest`: the shortest decimal of a finite nonzero number.
-/

namespace StackCode

/-- The number `0.d₁d₂… · 10 ^ point` with digits `d₁ d₂ …`. -/
structure Decimal where
  digits : List Char
  point : Int
  deriving DecidableEq, Repr

namespace Decimal

/-- The reals that round to a binary number, over a common denominator. -/
structure Interval where
  lower : Nat
  value : Nat
  upper : Nat
  denominator : Nat
  /-- Whether the ends round to the number as well. -/
  closed : Bool

/-- The interval of a finite nonzero number. -/
def Interval.of (x : Double) : Interval :=
  let m := x.mantissa
  let below := if x.hasCloseLower then 1 else 2
  let q := x.scale - 2
  let up := Nat.pow 2 q.toNat
  { lower := (4 * m - below) * up
    value := 4 * m * up
    upper := (4 * m + 2) * up
    denominator := Nat.pow 2 (-q).toNat
    closed := m % 2 == 0 }

/-- Whether `d · 10 ^ e` lies in the interval. -/
def Interval.contains (i : Interval) (d : Nat) (e : Int) : Bool :=
  let point := d * Nat.pow 10 e.toNat * i.denominator
  let lower := i.lower * Nat.pow 10 (-e).toNat
  let upper := i.upper * Nat.pow 10 (-e).toNat
  if i.closed then lower ≤ point && point ≤ upper else lower < point && point < upper

/-- The largest `d` with `d · 10 ^ e` not above the value. -/
def Interval.below (i : Interval) (e : Int) : Nat :=
  i.value * Nat.pow 10 (-e).toNat / (Nat.pow 10 e.toNat * i.denominator)

/-- Whether the value is at least as near to `(d + 1) · 10 ^ e` as to `d · 10 ^ e`. -/
def Interval.roundsUp (i : Interval) (d : Nat) (e : Int) : Bool :=
  let unit := Nat.pow 10 e.toNat * i.denominator
  (2 * d + 1) * unit ≤ 2 * (i.value * Nat.pow 10 (-e).toNat)

/-- How many digits stand before the point of the value: the `k` with
`10 ^ (k - 1) ≤ value < 10 ^ k`. The search goes up from an exponent that is low enough. -/
def Interval.pointFrom (i : Interval) : Nat → Int → Int
  | 0, k => k
  | fuel + 1, k =>
    if i.value * Nat.pow 10 (-k).toNat < Nat.pow 10 k.toNat * i.denominator then k
    else i.pointFrom fuel (k + 1)

/-- The point of the value of any finite number; none is below `10 ^ -324` or reaches `10 ^ 309`. -/
def Interval.point (i : Interval) : Int := i.pointFrom 640 (-325)

/-- The digits of `d` without the zeros at the end. -/
def significant (d : Nat) : List Char :=
  ((Nat.toDigits 10 d).reverse.dropWhile (· == '0')).reverse

/-- The decimal `d · 10 ^ e`. -/
def ofGrid (d : Nat) (e : Int) : Decimal :=
  { digits := significant d, point := (Nat.toDigits 10 d).length + e }

/-- The best decimal on the grid `10 ^ e`, if a point of the grid next to the value is in the
interval. -/
def Interval.onGrid? (i : Interval) (e : Int) : Option Decimal :=
  let d := i.below e
  match i.contains d e, i.contains (d + 1) e with
  | false, false => none
  | true, false => some (ofGrid d e)
  | false, true => some (ofGrid (d + 1) e)
  | true, true => some (ofGrid (if i.roundsUp d e then d + 1 else d) e)

/-- Tries grids of `n`, `n + 1`, … digits; seventeen digits always suffice. -/
def Interval.searchFrom (i : Interval) (point : Int) : Nat → Nat → Decimal
  | 0, n => ofGrid (i.below (point - n)) (point - n)
  | fuel + 1, n =>
    match i.onGrid? (point - n) with
    | some d => d
    | none => i.searchFrom point fuel (n + 1)

/-- The shortest decimal that reads back as the finite nonzero number `|x|`. -/
def shortest (x : Double) : Decimal :=
  let i := Interval.of x
  i.searchFrom i.point 17 1

end Decimal

end StackCode
