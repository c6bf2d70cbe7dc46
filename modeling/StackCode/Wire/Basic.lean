import StackCode.Bytes.Basic

/-!
# The compact wire format

A dense binary form of data. Numbers are written in groups of seven bits, low group first, and the
high bit of a byte says that another group follows. Signed numbers are folded so that numbers near
zero stay short. Sequences and texts begin with their length.

* `Wire.Fault`: why bytes are refused;
* `varint`, `Width.read`: numbers in groups of seven bits;
* `zigzag`, `unzigzag`: signed numbers as natural ones;
* writers and readers of truth values, texts, options and sequences.

A reader accepts a number that is padded with empty groups, as long as it has no more groups than
its width allows.
-/

namespace StackCode.Wire

/-- Why bytes are refused. -/
inductive Fault where
  | endOfInput
  | unendingNumber
  | badBool
  | badOption
  | badText
  | unknownVariant
  deriving DecidableEq, Repr

/-- The text of a fault. -/
def Fault.message : Fault → String
  | endOfInput => "Hit the end of buffer, expected more data"
  | unendingNumber =>
    "Found a varint that didn't terminate. Is the usize too big for this platform?"
  | badBool => "Found a bool that wasn't 0 or 1"
  | badOption => "Found an Option discriminant that wasn't 0 or 1"
  | badText => "Tried to parse invalid utf-8"
  | unknownVariant => "Serde Deserialization Error"

/-! ### Numbers -/

/-- A number in groups of seven bits, low group first. -/
def varint (n : Nat) : Bytes :=
  if n < 128 then [UInt8.ofNat n] else UInt8.ofNat (n % 128 + 128) :: varint (n / 128)
termination_by n

/-- The form of a number on the wire: how many groups it may have, and the largest last group when
it has that many. -/
structure Width where
  groups : Nat
  lastGroup : Nat

/-- Numbers of 32 bits. -/
def Width.word : Width := ⟨5, 15⟩

/-- Numbers of 64 bits; lengths are of this width. -/
def Width.long : Width := ⟨10, 1⟩

/-- Reads a number when `groups` groups are still allowed. -/
def readGroups (lastGroup : Nat) : Nat → Reader Fault Nat
  | 0 => throw .unendingNumber
  | groups + 1 => do
    let b ← Reader.byte .endOfInput
    if b.toNat < 128 then
      if groups = 0 ∧ lastGroup < b.toNat then throw .unendingNumber
      else pure b.toNat
    else
      let rest ← readGroups lastGroup groups
      pure (b.toNat - 128 + 128 * rest)

/-- Reads a number of a given width. -/
def Width.read (w : Width) : Reader Fault Nat := readGroups w.lastGroup w.groups

/-- A signed number as a natural one: `0, -1, 1, -2, …` become `0, 1, 2, 3, …`. -/
def zigzag (n : Int64) : Nat :=
  if 0 ≤ n.toInt then 2 * n.toInt.toNat else 2 * (-n.toInt).toNat - 1

/-- The signed number that `zigzag` sends to `n`. -/
def unzigzag (n : Nat) : Int64 :=
  if n % 2 = 0 then Int64.ofInt (n / 2 : Nat) else Int64.ofInt (-(n / 2 : Nat) - 1)

/-! ### Truth values, texts, options, sequences -/

/-- A truth value is one byte. -/
def bool (b : Bool) : Bytes := [if b then 1 else 0]

def readBool : Reader Fault Bool := do
  match ← Reader.byte .endOfInput with
  | 0 => pure false
  | 1 => pure true
  | _ => throw .badBool

/-- A text is its length in bytes and its UTF-8 form. -/
def text (s : String) : Bytes :=
  let bs := Bytes.utf8 s
  varint bs.length ++ bs

def readText : Reader Fault String := do
  let n ← Width.long.read
  let bs ← Reader.take n .endOfInput
  match Bytes.ofUtf8? bs with
  | some s => pure s
  | none => throw .badText

variable {α : Type}

/-- An option is a byte that tells whether something follows. -/
def option (item : α → Bytes) : Option α → Bytes
  | none => [0]
  | some a => 1 :: item a

def readOption (item : Reader Fault α) : Reader Fault (Option α) := do
  match ← Reader.byte .endOfInput with
  | 0 => pure none
  | 1 => some <$> item
  | _ => throw .badOption

/-- A sequence is its length and its items. -/
def list (item : α → Bytes) (as : List α) : Bytes :=
  varint as.length ++ as.flatMap item

def readList (item : Reader Fault α) : Reader Fault (List α) := do
  let n ← Width.long.read
  Reader.times item n

/-- Runs a reader on all of `bs`; bytes behind what it reads are ignored. -/
def decode (item : Reader Fault α) (bs : Bytes) : Except Fault α := do
  let (a, _) ← item bs
  pure a

end StackCode.Wire
