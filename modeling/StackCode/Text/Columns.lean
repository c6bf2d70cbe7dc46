/-!
# Columns of text

Padding and number forms shared by instruction texts and reports.

* `padRight`, `padLeft`: fill a text with blanks up to a width; longer texts are kept whole;
* `zeroPadded`: a number with leading zeros;
* `hexWord`: the eight hexadecimal digits of a 32-bit word;
* `displacement`: an integer that always carries its sign.
-/

namespace StackCode.Text

/-- Blanks behind `s` up to `width` characters. -/
def padRight (width : Nat) (s : String) : String :=
  s ++ String.ofList (List.replicate (width - s.length) ' ')

/-- Blanks before `s` up to `width` characters. -/
def padLeft (width : Nat) (s : String) : String :=
  String.ofList (List.replicate (width - s.length) ' ') ++ s

/-- The digits `ds` after as many zeros as fill `width` characters. -/
def zeroFilled (width : Nat) (ds : List Char) : String :=
  String.ofList (List.replicate (width - ds.length) '0' ++ ds)

/-- The number `n` in decimal, with zeros up to `width` digits. -/
def zeroPadded (width n : Nat) : String := zeroFilled width (Nat.toDigits 10 n)

/-- A 32-bit word as eight lower-case hexadecimal digits after `0x`. -/
def hexWord (w : UInt32) : String := "0x" ++ zeroFilled 8 (Nat.toDigits 16 w.toNat)

/-- A byte as two lower-case hexadecimal digits. -/
def hexByte (b : UInt8) : String := zeroFilled 2 (Nat.toDigits 16 b.toNat)

/-- An integer with its sign, also when it is not negative. -/
def displacement (n : Int) : String :=
  if n < 0 then s!"-{n.natAbs}" else s!"+{n.natAbs}"

end StackCode.Text
