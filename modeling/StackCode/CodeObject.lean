import StackCode.Instruction
import StackCode.Value.Basic

/-!
# Code objects

What a compilation produces: one code object for the program and, below it, one for each function,
class and namespace body.

* `Flags`: properties of a code object as bits of a word;
* `Lifetime`: the instructions during which a local variable lives; `Lifetime.slots` gives each
  variable its slot, and `nameForSlot?` finds the variable in a slot at an instruction;
* `CodeObject`, with `treeSize`, `agrees` and look-ups of operations.
-/

namespace StackCode

/-! ### Flags -/

/-- Properties of a code object, one bit each; bits without a meaning are kept. -/
structure Flags where
  bits : UInt32
  deriving DecidableEq, Repr, Inhabited

namespace Flags

def empty : Flags := ⟨0⟩

/-- The code object comes with the lifetimes of its variables. -/
def debugInfo : Flags := ⟨1⟩

/-- The code installs handlers. -/
def exceptionBlocks : Flags := ⟨2⟩

/-- The last parameter collects the extra arguments. -/
def varargs : Flags := ⟨4⟩

/-- Some parameter has a default. -/
def namedParams : Flags := ⟨8⟩

def generator : Flags := ⟨16⟩

/-- Sets the bits of `other`. -/
def insert (flags other : Flags) : Flags := ⟨flags.bits ||| other.bits⟩

/-- Clears the bits of `other`. -/
def remove (flags other : Flags) : Flags := ⟨flags.bits &&& ~~~other.bits⟩

/-- Whether all bits of `other` are set. -/
def contains (flags other : Flags) : Bool := flags.bits &&& other.bits == other.bits

/-- Sets the bits of `other` when `b` holds. -/
def insertIf (flags : Flags) (b : Bool) (other : Flags) : Flags :=
  if b then flags.insert other else flags

end Flags

/-! ### Lifetimes of variables -/

/-- A variable that lives in the instructions from `start` up to, not including, `stop`. -/
structure Lifetime where
  name : String
  start : Nat
  stop : Nat
  deriving DecidableEq, Repr, Inhabited

namespace Lifetime

/-- Whether the variable lives at instruction `ip`. -/
def covers (v : Lifetime) (ip : Nat) : Bool := v.start ≤ ip && ip < v.stop

/-- The slot of `v`. Slots are handed out densely and freed in stack order, so it is the number of
earlier variables that are alive where `v` starts. -/
def slotAfter (earlier : List Lifetime) (v : Lifetime) : Nat :=
  earlier.countP fun u => u.covers v.start

end Lifetime

/-- A variable with its slot. -/
structure SlottedLifetime extends Lifetime where
  slot : Nat
  deriving DecidableEq, Repr

namespace Lifetime

/-- Variables with their slots, after the variables `earlier`, the latest of which stands first. -/
def slotsAfter (earlier : List Lifetime) : List Lifetime → List SlottedLifetime
  | [] => []
  | v :: rest => ⟨v, slotAfter earlier v⟩ :: slotsAfter (v :: earlier) rest

/-- The variables of a table with their slots. -/
def slots (table : List Lifetime) : List SlottedLifetime := slotsAfter [] table

/-- The name of the first variable that is in `slot` at instruction `ip`; instructions are numbered
by 32-bit words. -/
def nameIn? (table : List SlottedLifetime) (slot ip : Nat) : Option String :=
  (table.find? fun v => v.covers (ip % UInt32.size) && v.slot == slot).map (·.name)

/-- The name of the variable in `slot` at instruction `ip`. -/
def nameForSlot? (table : List Lifetime) (slot ip : Nat) : Option String :=
  nameIn? (slots table) slot ip

end Lifetime

/-! ### Code objects -/

/-- A compiled unit: a program, a function, a class body or a namespace body. -/
structure CodeObject where
  code : List Instruction := []
  constants : List Value := []
  /-- How many stack slots a frame of this code needs. -/
  maxStack : Nat := 0
  flags : Flags := .empty
  argCount : Nat := 0
  /-- How many variables of enclosing units the code refers to. -/
  outerCount : Nat := 0
  localCount : Nat := 0
  /-- One entry for each argument; an argument may have no name. -/
  argNames : List (Option String) := []
  /-- The lifetimes of the variables in the order of their declarations. -/
  lifetimes : Option (List Lifetime) := none
  /-- The units defined inside this one. -/
  children : List CodeObject := []
  deriving Inhabited

namespace CodeObject

/-- Whether all bits of `flags` are set. -/
def has (c : CodeObject) (flags : Flags) : Bool := c.flags.contains flags

/-- The operations of the code; unknown ones are left out. -/
def opcodes (c : CodeObject) : List Opcode := c.code.filterMap Instruction.opcode?

/-- How often an operation occurs. -/
def countOp (c : CodeObject) (op : Opcode) : Nat := c.code.countP (·.is op)

/-- Where an operation occurs first. -/
def positionOf? (c : CodeObject) (op : Opcode) : Option Nat := c.code.findIdx? (·.is op)

mutual

/-- The number of code objects in the tree. -/
def treeSize : CodeObject → Nat
  | ⟨_, _, _, _, _, _, _, _, _, children⟩ => 1 + treeSizes children

/-- The number of code objects in several trees. -/
def treeSizes : List CodeObject → Nat
  | [] => 0
  | c :: cs => treeSize c + treeSizes cs

end

mutual

/-- Whether two trees are equal, with constants compared as numbers. -/
def agrees : CodeObject → CodeObject → Bool
  | ⟨code, constants, maxStack, flags, args, outers, locals, names, lifetimes, children⟩, c =>
    code == c.code && Value.itemsAgree constants c.constants && maxStack == c.maxStack
      && flags == c.flags && args == c.argCount && outers == c.outerCount
      && locals == c.localCount && names == c.argNames && lifetimes == c.lifetimes
      && allAgree children c.children

/-- Whether two lists of trees are equal, place by place. -/
def allAgree : List CodeObject → List CodeObject → Bool
  | [], [] => true
  | a :: as, b :: bs => agrees a b && allAgree as bs
  | _, _ => false

end

/-- The variables with their slots, as far as their lifetimes are known. -/
def slots (c : CodeObject) : List SlottedLifetime := Lifetime.slots (c.lifetimes.getD [])

/-- The name of the variable in a slot: that of the argument, else the one that lives there. -/
def localName? (c : CodeObject) (slots : List SlottedLifetime) (slot ip : Nat) : Option String :=
  match c.argNames[slot]? with
  | some (some name) => some name
  | _ => Lifetime.nameIn? slots slot ip

end CodeObject

end StackCode
