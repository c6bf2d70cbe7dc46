import StackCode.Compile

/-!
# Control flow of compiled code

The ways in which a machine can go through the code of a unit, as far as the handlers that are
installed and the height of the stack are concerned.

* `CodeObject.Contains`: the units of a tree of code objects;
* `Opcode.falls`, `Opcode.branches`, `Opcode.installs`: where an operation can lead to;
* `Opcode.instantiates`, `Opcode.isOrdinary`: operations that make instances, and those that only
  work on the stack;
* `HandlerPath`: the positions that paths reach, each with the handlers installed there;
* `HeightPath`: the positions that paths reach, each with the height of the stack;
* `HandlersBalanced`, `HeightsBounded`: what is asked of all paths.

An exception can be raised by any instruction. A handler is entered without itself; a catch clause
is entered with the exception on top of the stack as it was when the handler was installed.
-/

namespace StackCode

/-- A tree of code objects and the units in it. -/
inductive CodeObject.Contains : CodeObject → CodeObject → Prop where
  | self (c : CodeObject) : Contains c c
  | child {c k u : CodeObject} (hk : k ∈ c.children) (hu : Contains k u) : Contains c u

/-- What a compilation gives when it gives something. -/
theorem eq_ok_of_toOption {ε α : Type} {x : Except ε α} {a : α} (h : x.toOption = some a) :
    x = .ok a := by
  cases x with
  | ok b => rw [Option.some.inj h]
  | error e => cases h

/-- What stands in a list stands in its continuations. -/
theorem getElem?_of_initial {α : Type} {xs ys : List α} {n : Nat} {x : α}
    (h : xs <+: ys) (hx : xs[n]? = some x) : ys[n]? = some x := by
  obtain ⟨zs, rfl⟩ := h
  rw [List.getElem?_append_left (List.getElem?_eq_some_iff.mp hx).1]
  exact hx

namespace Opcode

/-- Whether control can go on to the next instruction. -/
def falls : Opcode → Bool
  | jump | ret | tailCall | throw => false
  | _ => true

/-- Whether the target of the operation is somewhere else to go on. -/
def branches : Opcode → Bool
  | jump | jumpFalse | jumpTrue | jumpFalseOrPop | jumpTrueOrPop | forIter => true
  | _ => false

/-- Whether the target of the operation is a handler that is installed. -/
def installs : Opcode → Bool
  | tryCatch | tryFinally => true
  | _ => false

/-- Whether the operation makes an instance of a unit defined inside this one. -/
def instantiates : Opcode → Bool
  | makeClosure | makeClass | makeNamespace => true
  | _ => false

theorem instantiates_iff {op : Opcode} :
    op.instantiates = true ↔ op = .makeClosure ∨ op = .makeClass ∨ op = .makeNamespace := by
  cases op <;> simp [instantiates]

/-- Whether all that the operation does is to take values from the stack and to leave others. -/
def isOrdinary (op : Opcode) : Bool :=
  !op.isJump && op.falls && op != .endTry && !op.instantiates

theorem isOrdinary_iff {op : Opcode} :
    op.isOrdinary = true ↔
      op.isJump = false ∧ op.falls = true ∧ op ≠ .endTry ∧ op.instantiates = false := by
  simp [isOrdinary, and_assoc]

/-- The height at the target of an operation that stands at height `d`. -/
def landing : Opcode → Nat → Nat
  | jumpFalse, d | jumpTrue, d | forIter, d => d - 1
  | tryCatch, d => d + 1
  | _, d => d

end Opcode

/-! ### Handlers -/

/-- An installed handler: the operation that installed it and the position where it starts. -/
structure Handler where
  op : Opcode
  target : Nat
  deriving DecidableEq, Repr

/-- Some path from the first instruction reaches a position with the given handlers installed, the
innermost first. -/
inductive HandlerPath (code : List Instruction) : Nat → List Handler → Prop where
  | start : HandlerPath code 0 []
  | next {p : Nat} {hs : List Handler} {i : Instruction} {op : Opcode}
      (h : HandlerPath code p hs) (hi : code[p]? = some i) (hop : i.opcode? = some op)
      (hf : op.falls = true) (hn : op.installs = false) (he : op ≠ .endTry) :
      HandlerPath code (p + 1) hs
  | install {p t : Nat} {hs : List Handler} {i : Instruction} {op : Opcode}
      (h : HandlerPath code p hs) (hi : code[p]? = some i) (hop : i.opcode? = some op)
      (hn : op.installs = true) (ht : i.jumpTarget? p = some t) :
      HandlerPath code (p + 1) (⟨op, t⟩ :: hs)
  | remove {p : Nat} {x : Handler} {hs : List Handler} {i : Instruction}
      (h : HandlerPath code p (x :: hs)) (hi : code[p]? = some i)
      (hop : i.opcode? = some .endTry) : HandlerPath code (p + 1) hs
  | jump {p t : Nat} {hs : List Handler} {i : Instruction} {op : Opcode}
      (h : HandlerPath code p hs) (hi : code[p]? = some i) (hop : i.opcode? = some op)
      (hb : op.branches = true) (ht : i.jumpTarget? p = some t) : HandlerPath code t hs
  | raise {p : Nat} {x : Handler} {hs : List Handler} {i : Instruction}
      (h : HandlerPath code p (x :: hs)) (hi : code[p]? = some i) :
      HandlerPath code x.target hs

/-- The handlers at a position do not depend on the path, none is removed where there is none, and
none is left behind. -/
structure HandlersBalanced (code : List Instruction) : Prop where
  agree : ∀ p hs hs', HandlerPath code p hs → HandlerPath code p hs' → hs = hs'
  endTry : ∀ p hs i, HandlerPath code p hs → code[p]? = some i → i.opcode? = some .endTry →
    hs ≠ []
  exit : ∀ p hs i, HandlerPath code p hs → code[p]? = some i →
    i.opcode? = some .ret ∨ i.opcode? = some .tailCall → hs = []

/-! ### Heights -/

/-- Some path from the first instruction reaches a position with the given number of values on the
stack. The target of an instruction that installs a handler is where an exception leads to. -/
inductive HeightPath (code : List Instruction) : Nat → Nat → Prop where
  | start : HeightPath code 0 0
  | next {p d : Nat} {i : Instruction} {op : Opcode} (h : HeightPath code p d)
      (hi : code[p]? = some i) (hop : i.opcode? = some op) (hf : op.falls = true) :
      HeightPath code (p + 1)
        (d - (Instruction.effectOf op i).pops + (Instruction.effectOf op i).pushes)
  | land {p t d : Nat} {i : Instruction} {op : Opcode} (h : HeightPath code p d)
      (hi : code[p]? = some i) (hop : i.opcode? = some op) (ht : i.jumpTarget? p = some t) :
      HeightPath code t (op.landing d)

/-- The room in a frame for all that is not on the operand stack. -/
def CodeObject.tableSize (c : CodeObject) : Nat :=
  c.argCount + c.localCount + c.constants.length + c.outerCount

/-- On every path each instruction finds what it takes, and the frame has room for the stack. The
size of a frame is a 32-bit number. -/
structure HeightsBounded (c : CodeObject) : Prop where
  enough : ∀ p d i e, HeightPath c.code p d → c.code[p]? = some i → i.effect? = some e →
    e.pops ≤ d
  room : ∀ p d, HeightPath c.code p d → 2 * c.code.length + c.tableSize < UInt32.size →
    d + c.tableSize ≤ c.maxStack

end StackCode
