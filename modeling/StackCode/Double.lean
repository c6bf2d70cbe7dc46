/-!
# Binary floating point numbers by their bits

A `Double` is the 64-bit word of a binary64 number: one bit of sign, eleven of exponent, fifty-two
of fraction. Keeping the word and not the number keeps the payload of a NaN and the sign of zero.

* `Double.isNegative`, `exponent`, `fraction`: the fields;
* `isNaN`, `isInfinite`, `isZero`: the classes outside the ordinary numbers;
* `mantissa`, `scale`: a finite number is `± mantissa · 2 ^ scale`;
* `equals`: numeric equality, for which a NaN differs from everything and the two zeros agree.
-/

namespace StackCode

/-- A binary64 number, identified by its bits. -/
structure Double where
  bits : UInt64
  deriving DecidableEq, Repr, Inhabited

namespace Double

/-- The sign bit. -/
def isNegative (x : Double) : Bool := 0x8000000000000000 ≤ x.bits.toNat

/-- The biased exponent. -/
def exponent (x : Double) : Nat := x.bits.toNat / 0x10000000000000 % 0x800

/-- The fraction below the leading bit. -/
def fraction (x : Double) : Nat := x.bits.toNat % 0x10000000000000

def isNaN (x : Double) : Bool := x.exponent == 2047 && x.fraction != 0

def isInfinite (x : Double) : Bool := x.exponent == 2047 && x.fraction == 0

def isZero (x : Double) : Bool := x.exponent == 0 && x.fraction == 0

/-- The integer significand of a finite number; the leading bit of a normal number is restored. -/
def mantissa (x : Double) : Nat :=
  if x.exponent = 0 then x.fraction else x.fraction + 0x10000000000000

/-- The power of two by which the significand is multiplied. -/
def scale (x : Double) : Int :=
  if x.exponent = 0 then -1074 else (x.exponent : Int) - 1075

/-- Whether the number below `x` is closer than the number above it, which happens at a power of
two. -/
def hasCloseLower (x : Double) : Bool := x.fraction == 0 && 1 < x.exponent

/-- Numeric equality. -/
def equals (x y : Double) : Bool :=
  !x.isNaN && !y.isNaN && (x.bits == y.bits || (x.isZero && y.isZero))

end Double

end StackCode
