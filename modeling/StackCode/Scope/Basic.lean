import StackCode.Scope.Labels
import StackCode.Scope.Outers
import StackCode.Scope.Pool
import StackCode.Scope.Recorder
import StackCode.Scope.Slots

/-!
# Scopes

The state of one unit of code while it is written: its instructions, the tables they refer to, the
blocks that are open and the height of the stack.

* `ScopeKind`, `Signature`: what kind of unit a scope becomes;
* `Scope`;
* `Scope.emit`, `emitJump`, `discard`: instructions;
* `Scope.declare`, `enterBlock`, `leaveBlock`: variables;
* `Scope.reconcile`, `Scope.lower`: the end of a scope, which becomes a code object.

The height is followed in the order of emission: each instruction adds its net effect, the height
never falls below zero, and `peak` remembers the largest one.
-/

namespace StackCode

/-- The kinds of code units. -/
inductive ScopeKind where
  /-- The program itself. -/
  | global
  /-- The body of a class or a namespace. -/
  | object
  /-- The body of a function or a generator. -/
  | function
  deriving DecidableEq, Repr

/-- How a unit is called. -/
structure Signature where
  params : List String := []
  variadic : Bool := false
  generator : Bool := false
  /-- Whether some parameter has a default. -/
  defaults : Bool := false
  deriving DecidableEq, Repr, Inhabited

/-- The state of one unit of code while it is written. -/
structure Scope where
  /-- Scopes are numbered in the order in which they are entered. -/
  number : Nat
  kind : ScopeKind
  signature : Signature := {}
  code : Buffer := #[]
  constants : Pool := {}
  locals : Slots := {}
  outers : Outers := {}
  labels : Labels := {}
  /-- Present while lifetimes are recorded. -/
  recorder : Option Recorder := none
  children : Array CodeObject := #[]
  /-- The height of the stack after the last instruction. -/
  depth : Nat := 0
  /-- The largest height so far. -/
  peak : Nat := 0
  /-- The number of variables at the start of each open block, the innermost first. -/
  blocks : List Nat := []
  /-- Whether the code installs handlers. -/
  protects : Bool := false
  lastLine : Option Nat := none
  /-- Whether the scope was turned into a code object. -/
  ended : Bool := false

namespace Scope

/-- A scope with nothing in it. -/
def new (number : Nat) (kind : ScopeKind) (signature : Signature) (record : Bool) : Scope :=
  { number, kind, signature, recorder := if record then some {} else none }

/-! ### The height of the stack -/

/-- The state with a new height. -/
def withDepth (s : Scope) (depth : Nat) : Scope := { s with depth, peak := max s.peak depth }

/-- The state after the height changed by `delta`. -/
def raised (s : Scope) (delta : Int) : Scope := s.withDepth (s.depth + delta).toNat

/-- Takes account of a value that the machine pushes by itself. -/
def receive : Edit Scope Unit := modify (·.raised 1)

/-- Changes the height of the stack by any number of 64 bits. The sum is cut to 64 bits before a
negative height becomes zero. -/
def adjust (delta : Int64) : Edit Scope Unit :=
  modify fun s => s.withDepth (Int64.ofNat s.depth + delta).toInt.toNat

/-! ### Instructions -/

/-- The state after `i` was appended. -/
def appended (s : Scope) (i : Instruction) : Scope :=
  { s with code := s.code.push i }.raised i.net

/-- Appends an instruction, and tells its position. -/
def emit (i : Instruction) : Edit Scope Nat := do
  let s ← get
  if s.ended then throw (.fault .emitIntoEnded)
  let position := s.code.size
  set (s.appended i)
  pure position

def emitOp (op : Opcode) : Edit Scope Nat := emit (.plain op)

def emitUnsigned (op : Opcode) (n : Nat) : Edit Scope Nat := do
  emit (← Edit.ofExcept (Instruction.withUnsigned op n))

def emitPair (op : Opcode) (a b : Nat) : Edit Scope Nat := do
  emit (← Edit.ofExcept (Instruction.withPair op a b))

/-! ### Labels -/

/-- Changes the labels. -/
def onLabels {α : Type} (edit : Edit Labels α) : Edit Scope α :=
  Edit.within (fun s =>
    let labels := s.labels
    let s := { s with labels := {} }
    (labels, fun labels => { s with labels })) edit

def newLabel : Edit Scope Label := onLabels Labels.fresh

/-- Appends a placeholder that jumps to a label. -/
def emitJump (op : Opcode) (l : Label) : Edit Scope Nat := do
  let position ← emitOp op
  onLabels (Labels.use l position op)
  pure position

/-- Sets a label to the position of the next instruction. -/
def placeLabel (l : Label) : Edit Scope Unit := do
  let position := (← get).code.size
  onLabels (Labels.place l position)

/-! ### Lines and discarded values -/

/-- Marks a line that differs from the last one marked. -/
def markLine (line : Nat) : Edit Scope Unit := do
  let s ← get
  if s.lastLine = some line then pure ()
  else
    set { s with lastLine := some line }
    let _ ← emitUnsigned .line line

/-- Whether the code ends in a duplication and a store that leaves the duplicate on the stack, and
no jump lands there. -/
def endsInSpareDup (s : Scope) : Bool :=
  let n := s.code.size
  2 ≤ n && (s.code[n - 1]?.bind Instruction.opcode?).any Opcode.isStore
    && (s.code[n - 2]?.bind Instruction.opcode?) == some .dup
    && !s.labels.anyFrom (n - 2)

/-- The state without the duplication before the last store. -/
def withoutSpareDup (s : Scope) : Scope :=
  { s with code := s.code.eraseIdxIfInBounds (s.code.size - 2) }.raised (-1)

/-- Drops the value on top of the stack; where it is a spare duplicate, the duplication is taken
back. -/
def discard : Edit Scope Unit := do
  let s ← get
  if s.endsInSpareDup then set s.withoutSpareDup
  else
    let _ ← emitOp .pop

/-! ### Constants and variables -/

def constant (v : Value) : Edit Scope Nat := do
  let s ← get
  let (index, constants) ← Edit.ofExcept (s.constants.add v)
  set { s with constants }
  pure index

def nameConstant (name : String) : Edit Scope Nat := do
  let s ← get
  let (index, constants) ← Edit.ofExcept (s.constants.addName name)
  set { s with constants }
  pure index

def loadConst (v : Value) : Edit Scope Unit := do
  let index ← constant v
  let _ ← emitUnsigned .loadConst index

/-- An instruction whose operand is the constant that holds a name. -/
def emitNamed (op : Opcode) (name : String) : Edit Scope Unit := do
  let index ← nameConstant name
  let _ ← emitUnsigned op index

/-- Changes the record of lifetimes, where one is kept. -/
def record (change : Recorder → Recorder) : Edit Scope Unit :=
  Edit.within (fun s =>
    let recorder := s.recorder
    let s := { s with recorder := none }
    (recorder, fun recorder => { s with recorder })) (modify (Option.map change))

/-- The slot of a variable, which comes to life if it is new. -/
def declare (name : String) : Edit Scope Nat := do
  let s ← get
  let ((slot, fresh), locals) ← Edit.ofExcept (s.locals.declare name)
  let position := s.code.size
  set { s with locals }
  if fresh then record (·.start name position)
  pure slot

/-- An instruction whose operand is the slot of a variable that was declared. -/
def emitSlot (op : Opcode) (name : String) : Edit Scope Unit := do
  match (← get).locals.lookup? name with
  | some slot =>
    let _ ← emitUnsigned op slot
  | none => throw (.fault (.missingSlot name))

def enterBlock : Edit Scope Unit := modify fun s => { s with blocks := s.locals.mark :: s.blocks }

/-- Leaves the innermost block, whose variables die. -/
def leaveBlock : Edit Scope Unit := do
  let s ← get
  match s.blocks with
  | [] => throw (.fault .unmatchedBlockEnd)
  | marker :: blocks =>
    let (freed, locals) := s.locals.rollback marker
    let position := s.code.size
    set { s with blocks, locals }
    record (·.stop freed position)

/-- Notes that the code installs handlers. -/
def protect : Edit Scope Unit := modify fun s => { s with protects := true }

/-! ### The end of a scope -/

/-- Changes the code. -/
def onCode {α : Type} (edit : Edit Buffer α) : Edit Scope α :=
  Edit.within (fun s =>
    let code := s.code
    let s := { s with code := #[] }
    (code, fun code => { s with code })) edit

/-- Overwrites the placeholders; all blocks have to be left. -/
def reconcile : Edit Scope Unit := do
  let s ← get
  unless s.blocks.isEmpty do throw (.fault (.openBlocks s.blocks.length))
  onCode s.labels.reconcile

/-- The flags of the code object that a scope becomes. -/
def flags (s : Scope) : Flags :=
  Flags.empty
    |>.insertIf s.recorder.isSome .debugInfo
    |>.insertIf s.protects .exceptionBlocks
    |>.insertIf s.signature.variadic .varargs
    |>.insertIf s.signature.defaults .namedParams
    |>.insertIf s.signature.generator .generator

/-- The code object that a scope becomes. A frame needs room for the values on the stack and for all
that the tables hold. -/
def toCodeObject (s : Scope) : CodeObject where
  code := s.code.toList
  constants := s.constants.values.toList
  maxStack :=
    (s.peak + s.signature.params.length + s.locals.count + s.constants.values.size
      + s.outers.descriptors.length) % UInt32.size
  flags := s.flags
  argCount := s.signature.params.length
  outerCount := s.outers.descriptors.length
  localCount := s.locals.count
  argNames := s.signature.params.map some
  lifetimes := s.recorder.map (·.finish s.code.size)
  children := s.children.toList

/-- What is left of a scope when its code object is made. -/
def emptied (s : Scope) : Scope :=
  { s with
    code := #[], constants := {}, recorder := none, labels := {}, children := #[], ended := true }

/-- Turns a scope into a code object. -/
def lower : Edit Scope CodeObject := do
  let s ← get
  set s.emptied
  pure s.toCodeObject

end Scope

end StackCode
