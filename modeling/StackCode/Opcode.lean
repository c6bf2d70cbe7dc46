/-!
# Operation codes

The instruction set of the stack machine. An operation is identified by one byte, its position in
the table `Opcode.all`; the mnemonic is what listings and diagnostics show.

* `Opcode` and `Opcode.mnemonic`;
* `Opcode.code`, `Opcode.ofCode?`: the byte of an operation and the operation of a byte;
* `OperandKind`, `Opcode.operandKind`: how the operand field of an instruction is read;
* `Opcode.isJump`, `Opcode.isStore`.

`ofCode?_eq_some_iff` says that the two directions agree.
-/

namespace StackCode

/-- The operations of the machine, in the order of their bytes. -/
inductive Opcode where
  | nop | line | pop | dup
  | pushNil | pushTrue | pushFalse | pushThis
  | loadConst | loadLocal | storeLocal | loadOuter | storeOuter | loadGlobal | storeGlobal
  | getMember | setMember | getIndex | setIndex | getMethod | defineMember
  | newArray | newMap
  | add | sub | mul | div | mod | pow | concat | neg
  | eq | ne | lt | le | gt | ge | not
  | bitAnd | bitOr | bitXor | shl | shr | bitNot
  | jump | jumpFalse | jumpTrue | jumpFalseOrPop | jumpTrueOrPop
  | iter | forIter
  | call | callMethod | callNamed | tailCall | spread | ret | yield
  | throw | tryFinally | tryCatch | endTry | endFinally
  | makeClosure | makeClass | makeNamespace | captureLocal | captureOuter
  | hasArg | paramEnd
  deriving DecidableEq, Repr, Inhabited

/-- How the 24-bit operand field of an instruction is read. -/
inductive OperandKind where
  /-- The field is not used. -/
  | empty
  /-- One number of 24 bits. -/
  | unsigned
  /-- A displacement in two's complement. -/
  | signed
  /-- Two numbers of 12 bits. -/
  | pair
  deriving DecidableEq, Repr

namespace Opcode

/-- All operations; the position of an operation is its byte. -/
def all : Array Opcode :=
  #[nop, line, pop, dup,
    pushNil, pushTrue, pushFalse, pushThis,
    loadConst, loadLocal, storeLocal, loadOuter, storeOuter, loadGlobal, storeGlobal,
    getMember, setMember, getIndex, setIndex, getMethod, defineMember,
    newArray, newMap,
    add, sub, mul, div, mod, pow, concat, neg,
    eq, ne, lt, le, gt, ge, not,
    bitAnd, bitOr, bitXor, shl, shr, bitNot,
    jump, jumpFalse, jumpTrue, jumpFalseOrPop, jumpTrueOrPop,
    iter, forIter,
    call, callMethod, callNamed, tailCall, spread, ret, yield,
    throw, tryFinally, tryCatch, endTry, endFinally,
    makeClosure, makeClass, makeNamespace, captureLocal, captureOuter,
    hasArg, paramEnd]

/-- The byte of an operation. -/
def code (op : Opcode) : Nat := op.ctorIdx

/-- The operation with a given byte, if there is one. -/
def ofCode? (n : Nat) : Option Opcode := all[n]?

/-- The name of an operation in listings and diagnostics. -/
def mnemonic : Opcode → String
  | nop => "NOP"
  | line => "LINE"
  | pop => "POP"
  | dup => "DUP"
  | pushNil => "PUSH_NIL"
  | pushTrue => "PUSH_TRUE"
  | pushFalse => "PUSH_FALSE"
  | pushThis => "PUSH_THIS"
  | loadConst => "LOAD_CONST"
  | loadLocal => "LOAD_LOCAL"
  | storeLocal => "STORE_LOCAL"
  | loadOuter => "LOAD_OUTER"
  | storeOuter => "STORE_OUTER"
  | loadGlobal => "LOAD_GLOBAL"
  | storeGlobal => "STORE_GLOBAL"
  | getMember => "GET_MEMBER"
  | setMember => "SET_MEMBER"
  | getIndex => "GET_INDEX"
  | setIndex => "SET_INDEX"
  | getMethod => "GET_METHOD"
  | defineMember => "DEFINE_MEMBER"
  | newArray => "NEW_ARRAY"
  | newMap => "NEW_MAP"
  | add => "ADD"
  | sub => "SUB"
  | mul => "MUL"
  | div => "DIV"
  | mod => "MOD"
  | pow => "POW"
  | concat => "CONCAT"
  | neg => "NEG"
  | eq => "EQ"
  | ne => "NE"
  | lt => "LT"
  | le => "LE"
  | gt => "GT"
  | ge => "GE"
  | not => "NOT"
  | bitAnd => "BIT_AND"
  | bitOr => "BIT_OR"
  | bitXor => "BIT_XOR"
  | shl => "SHL"
  | shr => "SHR"
  | bitNot => "BIT_NOT"
  | jump => "JUMP"
  | jumpFalse => "JUMP_FALSE"
  | jumpTrue => "JUMP_TRUE"
  | jumpFalseOrPop => "JUMP_FALSE_OR_POP"
  | jumpTrueOrPop => "JUMP_TRUE_OR_POP"
  | iter => "ITER"
  | forIter => "FOR_ITER"
  | call => "CALL"
  | callMethod => "CALL_METHOD"
  | callNamed => "CALL_NAMED"
  | tailCall => "TAIL_CALL"
  | spread => "SPREAD"
  | ret => "RETURN"
  | yield => "YIELD"
  | throw => "THROW"
  | tryFinally => "TRY_FINALLY"
  | tryCatch => "TRY_CATCH"
  | endTry => "END_TRY"
  | endFinally => "END_FINALLY"
  | makeClosure => "CLOSURE"
  | makeClass => "CLASS"
  | makeNamespace => "NAMESPACE"
  | captureLocal => "CAPTURE_LOCAL"
  | captureOuter => "CAPTURE_OUTER"
  | hasArg => "HAS_ARG"
  | paramEnd => "PARAM_END"

/-- The operation that a mnemonic names. -/
def ofMnemonic? (name : String) : Option Opcode := all.find? fun op => op.mnemonic == name

/-- Jumps and handler installations hold a displacement, a call with named arguments two counts,
operations on tables an index or a count, and the others nothing. -/
def operandKind : Opcode → OperandKind
  | jump | jumpFalse | jumpTrue | jumpFalseOrPop | jumpTrueOrPop
  | forIter | tryFinally | tryCatch => .signed
  | callNamed => .pair
  | line | loadConst | loadLocal | storeLocal | loadOuter | storeOuter | loadGlobal | storeGlobal
  | getMember | setMember | getMethod | defineMember | newArray | newMap
  | call | callMethod | tailCall
  | makeClosure | makeClass | makeNamespace | captureLocal | captureOuter
  | hasArg | paramEnd => .unsigned
  | _ => .empty

/-- An operation whose operand is a displacement. -/
def isJump (op : Opcode) : Bool := op.operandKind == .signed

/-- A store into a variable; it consumes the value on top of the stack. -/
def isStore : Opcode → Bool
  | storeLocal | storeOuter | storeGlobal => true
  | _ => false

/-! ### Bytes and operations agree -/

theorem code_lt (op : Opcode) : op.code < 70 := by
  cases op <;> decide

@[simp]
theorem ofCode?_code (op : Opcode) : ofCode? op.code = some op := by
  cases op <;> rfl

theorem mem_all (op : Opcode) : op ∈ all := Array.mem_of_getElem? (ofCode?_code op)

set_option maxRecDepth 2000 in
theorem code_of_ofCode? {n : Nat} {op : Opcode} (h : ofCode? n = some op) : op.code = n := by
  have hn : n < 70 := (Array.getElem?_eq_some_iff.mp h).1
  have key : ∀ m : Fin 70, (ofCode? m.val).map code = some m.val := by decide
  have hm := key ⟨n, hn⟩
  rw [h] at hm
  exact Option.some.inj hm

theorem ofCode?_eq_some_iff {n : Nat} {op : Opcode} : ofCode? n = some op ↔ op.code = n :=
  ⟨code_of_ofCode?, fun h => h ▸ ofCode?_code op⟩

theorem code_injective {a b : Opcode} (h : a.code = b.code) : a = b := by
  have ha := ofCode?_code a
  rw [h, ofCode?_code b] at ha
  exact (Option.some.inj ha).symm

end Opcode

end StackCode
