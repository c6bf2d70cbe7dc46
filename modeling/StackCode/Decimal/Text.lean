import StackCode.Decimal.Shortest

/-!
# Texts of real numbers

How a real literal is written: the shortest digits that read back, in positional form from `10 ^ -4`
up to `10 ^ 16` with at least one digit behind the point, and with an exponent outside that range.

* `RealFormat`: the choices of a number format;
* `RealFormat.literal`: the format of real literals;
* `Double.text`: a number in that format.
-/

namespace StackCode

/-- The choices by which formats of real numbers differ. -/
structure RealFormat where
  /-- The least and the largest place of the point in positional form. -/
  positional : Int × Int
  /-- Written behind a positional number without a fraction. -/
  wholeMark : String
  exponentMark : String
  nan : String
  infinite : String

/-- Real literals: `0.0001` and `1000000000000000.0` are the extremes of positional form, an
exponent has neither a sign when positive nor leading zeros. -/
def RealFormat.literal : RealFormat where
  positional := (-3, 16)
  wholeMark := ".0"
  exponentMark := "e"
  nan := "NaN"
  infinite := "inf"

namespace Decimal

/-- The positional form of a decimal. -/
def positionalText (f : RealFormat) (d : Decimal) : String :=
  if d.point ≤ 0 then
    "0." ++ String.ofList (List.replicate (-d.point).toNat '0' ++ d.digits)
  else
    let k := d.point.toNat
    if d.digits.length ≤ k then
      String.ofList (d.digits ++ List.replicate (k - d.digits.length) '0') ++ f.wholeMark
    else
      String.ofList (d.digits.take k) ++ "." ++ String.ofList (d.digits.drop k)

/-- The form with an exponent: one digit before the point, the others behind it. -/
def exponentText (f : RealFormat) (d : Decimal) : String :=
  let exponent := f.exponentMark ++ toString (d.point - 1)
  match d.digits with
  | [] => exponent
  | [c] => String.singleton c ++ exponent
  | c :: cs => String.singleton c ++ "." ++ String.ofList cs ++ exponent

/-- A decimal in the form that its size asks for. -/
def text (f : RealFormat) (d : Decimal) : String :=
  if f.positional.1 ≤ d.point ∧ d.point ≤ f.positional.2 then d.positionalText f
  else d.exponentText f

end Decimal

/-- A number in a given format. -/
def Double.textIn (f : RealFormat) (x : Double) : String :=
  if x.isNaN then f.nan
  else
    (if x.isNegative then "-" else "") ++
      (if x.isInfinite then f.infinite
       else if x.isZero then "0" ++ f.wholeMark
       else (Decimal.shortest x).text f)

/-- A number as a real literal. -/
def Double.text (x : Double) : String := x.textIn .literal

end StackCode
