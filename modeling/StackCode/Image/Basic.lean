import StackCode.Bytes.Basic
import StackCode.CodeObject
import StackCode.Wire.Basic
import StackCode.Text.Columns

/-!
# Code files

The portable form of a tree of code objects. Numbers are little-endian words of four bytes, and
every code object, nested ones included, is laid out as follows.

    magic        4 bytes
    version      2 bytes
    code         count, words
    max stack    word
    constants    count; each a tag byte, a length and that many bytes
    flags        word
    arguments    word
    outers       word
    locals       word
    names        for each argument a length (0 for none) and a text
    lifetimes    only if flagged: count; each a text and two words
    children     count; each a whole code object

This module holds what the writer and the reader share:

* `Image.magic`, `Image.version`, `Image.maxNesting`;
* `Image.Fault`: why writing or reading fails, and its text.
-/

namespace StackCode.Image

/-- The four bytes by which a code file is known. -/
def magic : Bytes := [0x51, 0x42, 0x43, 0x01]

/-- The version of the layout. -/
def version : Nat := 1

/-- How deep children may be nested in a file that is read; the outermost code object is at depth
zero. -/
def maxNesting : Nat := 256

/-- What a text in a code file is. -/
inductive TextRole where
  | argumentName
  | debugSymbol
  deriving DecidableEq, Repr

def TextRole.name : TextRole → String
  | argumentName => "argument name"
  | debugSymbol => "debug symbol"

/-- Why writing or reading a code file fails. -/
inductive Fault where
  /-- The input ends inside a field of fixed size. -/
  | fieldCut
  /-- The input ends inside a run of bytes whose length was given. -/
  | runCut
  /-- The output has no room left. -/
  | outputFull
  | badMagic (found : Bytes)
  | badVersion (found : Nat)
  | badConstant (index : Nat) (cause : Wire.Fault)
  | tagMismatch (index tag : Nat) (kind : String)
  | badText (role : TextRole)
  | tooLarge (what : String) (length : Nat)
  | trailingBytes (count : Nat)
  | tooDeep
  deriving DecidableEq, Repr

/-- The text of a fault. -/
def Fault.message : Fault → String
  | fieldCut => "bytecode i/o error: failed to fill whole buffer"
  | runCut => "bytecode i/o error: unexpected end of file"
  | outputFull => "bytecode i/o error: failed to write whole buffer"
  | badMagic found =>
    "not a bytecode file: bad magic [" ++ String.intercalate ", " (found.map Text.hexByte) ++ "]"
  | badVersion found => s!"unsupported bytecode version {found} (expected {version})"
  | badConstant index cause => s!"constant {index}: " ++ cause.message
  | tagMismatch index tag kind => s!"constant {index}: tag {tag} does not match decoded {kind}"
  | badText role => role.name ++ " is not valid utf-8"
  | tooLarge what length => s!"{what} length {length} does not fit the format"
  | trailingBytes count => s!"{count} unexpected byte(s) after the code object"
  | tooDeep => s!"code objects nested deeper than {maxNesting}"

end StackCode.Image
