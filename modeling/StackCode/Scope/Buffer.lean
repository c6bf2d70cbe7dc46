import StackCode.Instruction

/-!
# Instruction buffers

The code of a scope while it grows. Instructions are appended; a jump is written first as a
placeholder and patched when its target is known.

* `Buffer`, with `Buffer.append`, `patch?`, `remove?`, `truncate` and `lastOpcode?`.
-/

namespace StackCode

/-- The instructions emitted so far. -/
abbrev Buffer := Array Instruction

namespace Buffer

/-- Appends an instruction, and tells its position. -/
def append (code : Buffer) (i : Instruction) : Nat × Buffer := (code.size, code.push i)

/-- Overwrites the instruction at a position inside the code. -/
def patch? (code : Buffer) (position : Nat) (i : Instruction) : Option Buffer :=
  if h : position < code.size then some (code.set position i h) else none

/-- Takes out the instruction at a position; later ones move down. -/
def remove? (code : Buffer) (position : Nat) : Option (Instruction × Buffer) :=
  if h : position < code.size then some (code[position], code.eraseIdx position h) else none

/-- Keeps the first `n` instructions. -/
def truncate (code : Buffer) (n : Nat) : Buffer := code.extract 0 n

/-- The operation of the last instruction. -/
def lastOpcode? (code : Buffer) : Option Opcode := code.back?.bind Instruction.opcode?

end Buffer

end StackCode
