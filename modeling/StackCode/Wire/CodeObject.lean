import StackCode.Wire.Value
import StackCode.CodeObject
import StackCode.Config

/-!
# Code objects and configurations on the wire

The fields of a record follow each other without any mark.

* `Wire.codeObject`, `Wire.readCodeObject`;
* `Wire.config`, `Wire.readConfig`.

A code object takes at least ten bytes, so the number of bytes left bounds the depth of its tree.
-/

namespace StackCode.Wire

def instruction (i : Instruction) : Bytes := varint i.word.toNat

def readInstruction : Reader Fault Instruction :=
  (fun n => ⟨UInt32.ofNat n⟩) <$> Width.word.read

def lifetime (v : Lifetime) : Bytes := text v.name ++ varint v.start ++ varint v.stop

def readLifetime : Reader Fault Lifetime := do
  let name ← readText
  let start ← Width.word.read
  let stop ← Width.word.read
  pure { name, start, stop }

mutual

/-- The bytes of a code object and its children. -/
def codeObject : CodeObject → Bytes
  | ⟨code, constants, maxStack, flags, args, outers, locals, names, lifetimes, children⟩ =>
    list instruction code ++ list value constants ++ varint maxStack ++ varint flags.bits.toNat
      ++ varint args ++ varint outers ++ varint locals ++ list (option text) names
      ++ option (list lifetime) lifetimes ++ varint children.length ++ codeObjects children

/-- The bytes of several code objects. -/
def codeObjects : List CodeObject → Bytes
  | [] => []
  | c :: cs => codeObject c ++ codeObjects cs

end

/-- Reads a code object whose tree is at most `depth` deep. -/
def readCodeObjectWithin : Nat → Reader Fault CodeObject
  | 0 => throw .endOfInput
  | depth + 1 => do
    let code ← readList readInstruction
    let constants ← readList readValue
    let maxStack ← Width.word.read
    let bits ← Width.word.read
    let argCount ← Width.word.read
    let outerCount ← Width.word.read
    let localCount ← Width.word.read
    let argNames ← readList (readOption readText)
    let lifetimes ← readOption (readList readLifetime)
    let children ← readList (readCodeObjectWithin depth)
    pure
      { code, constants, maxStack, flags := ⟨UInt32.ofNat bits⟩, argCount, outerCount, localCount,
        argNames, lifetimes, children }

/-- Reads one code object. -/
def readCodeObject : Reader Fault CodeObject := fun bs => readCodeObjectWithin (bs.length + 1) bs

/-- The bytes of a configuration: one truth value for each switch. -/
def config (c : Config) : Bytes := bool c.debugInfo ++ bool c.lineMarkers ++ bool c.tailCalls

def readConfig : Reader Fault Config := do
  let debugInfo ← readBool
  let lineMarkers ← readBool
  let tailCalls ← readBool
  pure { debugInfo, lineMarkers, tailCalls }

end StackCode.Wire
