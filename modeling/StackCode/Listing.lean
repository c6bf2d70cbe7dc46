import StackCode.CodeObject
import StackCode.Value.Text

/-!
# Listings

A code object as a text for people: a heading, one line for each instruction with its operand
explained, and the same for each child, indented.

* `CodeObject.comment?`: what an operand refers to;
* `CodeObject.listInstruction`: one instruction;
* `CodeObject.listing`: a whole tree.
-/

namespace StackCode

namespace CodeObject

/-- The column of the operands. -/
def mnemonicWidth : Nat := 12

/-- The column of the comments, counted from the operands. -/
def operandWidth : Nat := 6

/-- What the operand `n` of an operation refers to at position `ip`. -/
def comment? (c : CodeObject) (slots : List SlottedLifetime) (op : Opcode) (n ip : Nat) :
    Option String :=
  match op with
  | .loadConst | .loadGlobal | .storeGlobal | .getMember | .setMember | .getMethod
  | .defineMember =>
    match c.constants[n]? with
    | some v => some (v.textIn .spaced)
    | none => some "<bad constant>"
  | .loadLocal | .storeLocal | .hasArg | .paramEnd => c.localName? slots n ip
  | .captureLocal => some "from local"
  | .captureOuter => some "from outer"
  | .makeClosure | .makeClass | .makeNamespace =>
    c.children[n]?.map fun child =>
      s!"{child.code.length} instructions, {child.outerCount} outers"
  | _ => none

/-- A displacement with the direction and the target of the jump. -/
def listJump (i : Instruction) (ip : Nat) : String :=
  let arrow := if i.signed < 0 then "↑" else "↓"
  let target :=
    match i.jumpTarget? ip with
    | some t => Text.zeroPadded 4 t
    | none => "????"
  Text.displacement i.signed ++ " " ++ arrow ++ " (→ " ++ target ++ ")"

/-- One instruction at position `ip`, with its operand explained; `slots` are those of the code. -/
def listWith (c : CodeObject) (slots : List SlottedLifetime) (i : Instruction) (ip : Nat) :
    String :=
  match i.opcode? with
  | none => Text.padRight mnemonicWidth "???" ++ Text.hexWord i.word
  | some op =>
    let name := Text.padRight mnemonicWidth op.mnemonic
    match op.operandKind with
    | .empty => op.mnemonic
    | .signed => name ++ listJump i ip
    | .pair =>
      let (a, b) := i.pair
      name ++ s!"{a} {b}    ; {a} positional, {b} named"
    | .unsigned =>
      let n := i.unsigned
      match c.comment? slots op n ip with
      | some comment => name ++ Text.padRight operandWidth s!"{n}" ++ "; " ++ comment
      | none => name ++ s!"{n}"

/-- One instruction at position `ip`, with its operand explained. -/
def listInstruction (c : CodeObject) (i : Instruction) (ip : Nat) : String :=
  c.listWith c.slots i ip

/-- The targets of all jumps, from position `ip` on. -/
def jumpTargets (ip : Nat) : List Instruction → List Nat
  | [] => []
  | i :: rest => (i.jumpTarget? ip).toList ++ jumpTargets (ip + 1) rest

/-- For each position of the code, whether a jump leads there. -/
def landings (code : List Instruction) : Array Bool :=
  (jumpTargets 0 code).foldl (·.setIfInBounds · true) (Array.replicate code.length false)

/-- One instruction on a line of its own; where a jump leads to it, it is set off. -/
def listLine (indent : String) (landing : Bool) (ip : Nat) (text : String) : String :=
  let number := Text.zeroPadded 4 ip
  if landing then
    indent ++ "      ┌──────────────────────────────────\n"
      ++ indent ++ number ++ " ► " ++ text ++ "\n"
  else indent ++ number ++ "   " ++ text ++ "\n"

/-- The lines of the instructions from position `ip` on. -/
def listCode (c : CodeObject) (indent : String) (slots : List SlottedLifetime)
    (landings : Array Bool) (ip : Nat) : List Instruction → List String
  | [] => []
  | i :: rest =>
    listLine indent (landings.getD ip false) ip (c.listWith slots i ip)
      :: listCode c indent slots landings (ip + 1) rest

/-- The heading of a code object. -/
def listHeading (c : CodeObject) (indent name : String) : String :=
  let rule := indent ++ "════════════════════════════════════════\n"
  rule ++ indent ++ " " ++ name ++ "\n" ++ indent
    ++ s!" {c.code.length} instructions, {c.constants.length} constants, args {c.argCount}, "
    ++ s!"locals {c.localCount}, outers {c.outerCount}, max stack {c.maxStack}\n"
    ++ rule

/-- A code object without its children. -/
def listOne (c : CodeObject) (indent name : String) : List String :=
  c.listHeading indent name :: c.listCode indent c.slots (landings c.code) 0 c.code ++ ["\n"]

mutual

/-- A code object under a name, and its children under names of their own, further in. -/
def listUnder (indent name : String) : CodeObject → List String
  | ⟨code, constants, maxStack, flags, args, outers, locals, names, lifetimes, children⟩ =>
    listOne ⟨code, constants, maxStack, flags, args, outers, locals, names, lifetimes, children⟩
      indent name
      ++ listChildren (indent ++ "  ") name 0 children

/-- The children from number `k` on. -/
def listChildren (indent name : String) (k : Nat) : List CodeObject → List String
  | [] => []
  | c :: cs => listUnder indent s!"{name}/{k}" c ++ listChildren indent name (k + 1) cs

end

/-- The listing of a tree of code objects. -/
def listing (c : CodeObject) : String := String.join (c.listUnder "" "main")

end CodeObject

end StackCode
