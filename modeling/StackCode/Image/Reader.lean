import StackCode.Image.Basic
import StackCode.Wire.Value

/-!
# Reading code files

* `Image.read`: one code object from the front of the input, which leaves the bytes behind it;
* `Image.load`: a code object that has to be the whole input;
* `Image.readStream`: code objects one after the other until the input ends or one is refused.

The depth of a tree is limited by `Image.maxNesting`, and the reader recurs on the levels that are
left.
-/

namespace StackCode.Image

/-- A word of four bytes. -/
def readWord : Reader Fault Nat := Reader.word .fieldCut

/-- A text of `n` bytes. -/
def readText (role : TextRole) (n : Nat) : Reader Fault String := do
  let bs ← Reader.take n .runCut
  match Bytes.ofUtf8? bs with
  | some s => pure s
  | none => throw (.badText role)

/-- The constant number `index`. Bytes behind the value in its run are ignored. -/
def readConstant (index : Nat) : Reader Fault Value := do
  let tag ← Reader.byte .fieldCut
  let n ← readWord
  let payload ← Reader.take n .runCut
  match Wire.decodeValue payload with
  | .error cause => throw (.badConstant index cause)
  | .ok v =>
    if v.tag = tag.toNat then pure v else throw (.tagMismatch index tag.toNat v.kindName)

/-- The name of an argument; an empty one is no name. -/
def readArgName : Reader Fault (Option String) := do
  let n ← readWord
  if n = 0 then pure none else some <$> readText .argumentName n

def readLifetime : Reader Fault Lifetime := do
  let n ← readWord
  let name ← readText .debugSymbol n
  let start ← readWord
  let stop ← readWord
  pure { name, start, stop }

/-- Items after their number. -/
def readCounted {α : Type} (item : Nat → Reader Fault α) : Reader Fault (List α) := do
  let n ← readWord
  Reader.indexed item 0 n

/-- The lifetimes, where the flags announce them. -/
def readDebugTable (flags : Flags) : Reader Fault (Option (List Lifetime)) :=
  if flags.contains .debugInfo then some <$> readCounted (fun _ => readLifetime) else pure none

/-- The magic bytes and the version. -/
def readPreamble : Reader Fault Unit := do
  let found ← Reader.take 4 .fieldCut
  unless found = magic do throw (.badMagic found)
  let v ← Bytes.ofLittleEndian <$> Reader.take 2 .fieldCut
  unless v = version do throw (.badVersion v)

/-- Reads a code object when `levels` levels of nesting are left, its own included. -/
def readWithin : Nat → Reader Fault CodeObject
  | 0 => throw .tooDeep
  | levels + 1 => do
    readPreamble
    let code ← readCounted fun _ => (fun n => (⟨UInt32.ofNat n⟩ : Instruction)) <$> readWord
    let maxStack ← readWord
    let constants ← readCounted readConstant
    let bits ← readWord
    let flags : Flags := ⟨UInt32.ofNat bits⟩
    let argCount ← readWord
    let outerCount ← readWord
    let localCount ← readWord
    let argNames ← Reader.times readArgName argCount
    let lifetimes ← readDebugTable flags
    let children ← readCounted fun _ => readWithin levels
    pure
      { code, constants, maxStack, flags, argCount, outerCount, localCount, argNames, lifetimes,
        children }

/-- Reads one code object with its children. -/
def read : Reader Fault CodeObject := readWithin (maxNesting + 1)

/-- The code object that is the whole of `bs`. -/
def load (bs : Bytes) : Except Fault CodeObject := do
  let (c, rest) ← read bs
  if rest.isEmpty then pure c else throw (.trailingBytes rest.length)

/-- Code objects from the front of `bs` with the number of bytes left after each, and the fault that
ends the sequence, if any. A code object takes at least one byte, so `bs.length` rounds suffice. -/
def readStreamWithin : Nat → Bytes → List (CodeObject × Nat) × Option Fault
  | 0, _ => ([], none)
  | rounds + 1, bs =>
    if bs.isEmpty then ([], none)
    else
      match read bs with
      | .error fault => ([], some fault)
      | .ok (c, rest) =>
        let (cs, fault) := readStreamWithin rounds rest
        ((c, rest.length) :: cs, fault)

/-- All code objects of a stream. -/
def readStream (bs : Bytes) : List (CodeObject × Nat) × Option Fault :=
  readStreamWithin bs.length bs

end StackCode.Image
