import StackCode.Text.Hidden

/-!
# Quoted texts

A string literal between double quotes: the quote, the backslash and the common controls have
escapes of their own, other characters that do not show are written by number, and everything else
stands for itself.

* `escape`: the form of one character;
* `quote`: a whole text.
-/

namespace StackCode.Text

/-- A character by number: lower-case hexadecimal digits between braces. -/
def escapeByNumber (c : Char) : List Char :=
  ['\\', 'u', '\x7b'] ++ Nat.toDigits 16 c.toNat ++ ['\x7d']

/-- The form of a character inside a quoted text. -/
def escape (c : Char) : List Char :=
  match c with
  | '\x00' => ['\\', '0']
  | '\t' => ['\\', 't']
  | '\r' => ['\\', 'r']
  | '\n' => ['\\', 'n']
  | '"' => ['\\', '"']
  | '\\' => ['\\', '\\']
  | c => if isHidden c then escapeByNumber c else [c]

/-- A text between double quotes. -/
def quote (s : String) : String :=
  String.ofList (['"'] ++ s.toList.flatMap escape ++ ['"'])

end StackCode.Text
