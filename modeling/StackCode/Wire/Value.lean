import StackCode.Wire.Basic
import StackCode.Value.Basic

/-!
# Values on the wire

A value is the number of its kind and its content.

* `Wire.value`: the bytes of a value;
* `Wire.readValue`: reads one value.

A value takes at least one byte, so the number of bytes left bounds how deep values can be nested.
The reader recurs on that bound and reports the end of the input when it is used up.
-/

namespace StackCode.Wire

mutual

/-- The bytes of a value. -/
def value : Value → Bytes
  | .nil => varint 0
  | .bool b => varint 1 ++ bool b
  | .integer n => varint 2 ++ varint (zigzag n)
  | .real x => varint 3 ++ Bytes.littleEndian 8 x.bits.toNat
  | .string s => varint 4 ++ text s
  | .array items => varint 5 ++ varint items.length ++ values items
  | .map entries => varint 6 ++ varint entries.length ++ valuePairs entries

/-- The bytes of several values. -/
def values : List Value → Bytes
  | [] => []
  | v :: vs => value v ++ values vs

/-- The bytes of several entries, each a key and a value. -/
def valuePairs : List (Value × Value) → Bytes
  | [] => []
  | (k, v) :: es => value k ++ value v ++ valuePairs es

end

/-- Reads a value nested at most `depth` deep. -/
def readValueWithin : Nat → Reader Fault Value
  | 0 => throw .endOfInput
  | depth + 1 => do
    match ← Width.word.read with
    | 0 => pure .nil
    | 1 => .bool <$> readBool
    | 2 => (fun n => .integer (unzigzag n)) <$> Width.long.read
    | 3 => (fun bs => .real ⟨UInt64.ofNat (Bytes.ofLittleEndian bs)⟩) <$> Reader.take 8 .endOfInput
    | 4 => .string <$> readText
    | 5 => .array <$> readList (readValueWithin depth)
    | 6 =>
      .map <$> readList do
        let k ← readValueWithin depth
        let v ← readValueWithin depth
        pure (k, v)
    | _ => throw .unknownVariant

/-- Reads one value. -/
def readValue : Reader Fault Value := fun bs => readValueWithin (bs.length + 1) bs

/-- The value that these bytes begin with. -/
def decodeValue (bs : Bytes) : Except Fault Value := decode readValue bs

end StackCode.Wire
