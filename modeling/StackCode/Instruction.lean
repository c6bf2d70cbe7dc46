import StackCode.Error
import StackCode.Text.Columns

/-!
# Instructions

An instruction is one 32-bit word: the operation in the low byte, the operand in the 24 bits above.
Every word is an instruction; one whose low byte names no operation has no `opcode?`.

* `Instruction.plain`, `withUnsigned`, `withSigned`, `withPair`: words from their parts, refusing
  operands that do not fit;
* `opcode?`, `unsigned`, `signed`, `pair`: the parts of a word;
* `jumpTarget?`: where a jump at a given position leads;
* `effect?`, `net`: how many values an instruction takes and leaves;
* `text`: the short form of an instruction.

The parts of a packed word are the parts it was packed from (`opcode?_pack`, `unsigned_pack`,
`signed_pack`).
-/

namespace StackCode

/-- One encoded instruction. -/
structure Instruction where
  word : UInt32
  deriving DecidableEq, Repr, Inhabited

namespace Instruction

/-! ### Limits of the operand field -/

/-- The largest number in an unsigned operand field. -/
def maxUnsigned : Nat := 0xffffff

/-- The largest displacement. -/
def maxSigned : Int := 0x7fffff

/-- The smallest displacement. -/
def minSigned : Int := -0x800000

/-- The largest number in one half of a pair. -/
def maxPair : Nat := 0xfff

/-! ### Words from parts -/

/-- The word of an operation with a raw operand field of 24 bits. -/
def pack (op : Opcode) (field : Nat) : Instruction :=
  ⟨UInt32.ofNat (op.code + 256 * field)⟩

/-- An operation with an empty operand field. -/
def plain (op : Opcode) : Instruction := pack op 0

/-- An operation with an unsigned operand. -/
def withUnsigned (op : Opcode) (n : Nat) : Except Error Instruction :=
  if n ≤ maxUnsigned then .ok (pack op n)
  else .error (.overflow (.operand op) n maxUnsigned)

/-- The operand field of a displacement, in two's complement. -/
def signedField (n : Int) : Nat := (n % 0x1000000).toNat

/-- An operation with a displacement. -/
def withSigned (op : Opcode) (n : Int) : Except Error Instruction :=
  if minSigned ≤ n ∧ n ≤ maxSigned then .ok (pack op (signedField n))
  else .error (.overflow (.operand op) n maxSigned)

/-- An operation with two numbers; the first one that is too large is reported. -/
def withPair (op : Opcode) (a b : Nat) : Except Error Instruction :=
  if maxPair < a then .error (.overflow (.operand op) a maxPair)
  else if maxPair < b then .error (.overflow (.operand op) b maxPair)
  else .ok (pack op (a + 0x1000 * b))

/-! ### Parts of a word -/

/-- The low byte. -/
def opcodeByte (i : Instruction) : Nat := i.word.toNat % 256

/-- The operation, unless the low byte names none. -/
def opcode? (i : Instruction) : Option Opcode := Opcode.ofCode? i.opcodeByte

/-- The operand field as a number. -/
def unsigned (i : Instruction) : Nat := i.word.toNat / 256

/-- The operand field in two's complement. -/
def signed (i : Instruction) : Int :=
  if i.unsigned < 0x800000 then i.unsigned else (i.unsigned : Int) - 0x1000000

/-- The low and the high half of the operand field. -/
def pair (i : Instruction) : Nat × Nat := (i.unsigned % 0x1000, i.unsigned / 0x1000)

/-- Whether the operation is `op`. -/
def is (i : Instruction) (op : Opcode) : Bool := i.opcodeByte == op.code

/-- The position to which a jump at position `ip` leads; none before the start of the code and
none for an instruction that is no jump. -/
def jumpTarget? (i : Instruction) (ip : Nat) : Option Nat :=
  match i.opcode? with
  | some op =>
    if op.isJump then
      let target : Int := ip + 1 + i.signed
      if target < 0 then none else some target.toNat
    else none
  | none => none

/-! ### The stack effect -/

/-- How many values an instruction takes from the stack and how many it leaves there. -/
structure Effect where
  pops : Nat
  pushes : Nat
  deriving DecidableEq, Repr

/-- The effect of an operation on the path that falls through; calls and constructors take as many
values as their operand says. -/
def effectOf (op : Opcode) (i : Instruction) : Effect :=
  let n := i.unsigned
  match op with
  | .nop | .line => ⟨0, 0⟩
  | .pop => ⟨1, 0⟩
  | .dup => ⟨1, 2⟩
  | .pushNil | .pushTrue | .pushFalse | .pushThis | .loadConst => ⟨0, 1⟩
  | .loadLocal | .loadOuter | .loadGlobal => ⟨0, 1⟩
  | .storeLocal | .storeOuter | .storeGlobal => ⟨1, 0⟩
  | .getMember => ⟨1, 1⟩
  | .setMember => ⟨2, 1⟩
  | .getIndex => ⟨2, 1⟩
  | .setIndex => ⟨3, 1⟩
  | .getMethod => ⟨1, 2⟩
  | .defineMember => ⟨1, 0⟩
  | .newArray => ⟨n, 1⟩
  | .newMap => ⟨2 * n, 1⟩
  | .add | .sub | .mul | .div | .mod | .pow | .concat => ⟨2, 1⟩
  | .eq | .ne | .lt | .le | .gt | .ge => ⟨2, 1⟩
  | .bitAnd | .bitOr | .bitXor | .shl | .shr => ⟨2, 1⟩
  | .neg | .not | .bitNot => ⟨1, 1⟩
  | .jump => ⟨0, 0⟩
  | .jumpFalse | .jumpTrue | .jumpFalseOrPop | .jumpTrueOrPop => ⟨1, 0⟩
  | .iter | .forIter => ⟨1, 1⟩
  | .call | .tailCall => ⟨n + 1, 1⟩
  | .callMethod => ⟨n + 2, 1⟩
  | .callNamed => ⟨1 + i.pair.1 + 2 * i.pair.2, 1⟩
  | .spread => ⟨1, 1⟩
  | .ret => ⟨1, 0⟩
  | .yield => ⟨1, 1⟩
  | .throw => ⟨1, 0⟩
  | .tryFinally | .tryCatch | .endTry | .endFinally => ⟨0, 0⟩
  | .makeClosure | .makeNamespace => ⟨0, 1⟩
  | .makeClass => ⟨1, 1⟩
  | .captureLocal | .captureOuter => ⟨0, 0⟩
  | .hasArg => ⟨0, 1⟩
  | .paramEnd => ⟨0, 0⟩

/-- The effect of an instruction, unless its byte names no operation. -/
def effect? (i : Instruction) : Option Effect := i.opcode?.map (effectOf · i)

/-- The change of the stack height; an unknown instruction changes nothing. -/
def net (i : Instruction) : Int :=
  match i.effect? with
  | some e => e.pushes - e.pops
  | none => 0

/-! ### Text -/

/-- The mnemonic and the operand, read as the operation reads it. -/
def text (i : Instruction) : String :=
  match i.opcode? with
  | none => "?" ++ Text.hexWord i.word
  | some op =>
    match op.operandKind with
    | .empty => op.mnemonic
    | .unsigned => s!"{op.mnemonic} {i.unsigned}"
    | .signed => op.mnemonic ++ " " ++ Text.displacement i.signed
    | .pair => s!"{op.mnemonic} {i.pair.1} {i.pair.2}"

/-! ### Packing loses nothing -/

theorem toNat_word_pack {op : Opcode} {n : Nat} (h : n < 0x1000000) :
    (pack op n).word.toNat = op.code + 256 * n := by
  have hc := op.code_lt
  simp only [pack, UInt32.toNat_ofNat']
  omega

theorem opcodeByte_pack {op : Opcode} {n : Nat} (h : n < 0x1000000) :
    (pack op n).opcodeByte = op.code := by
  have hc := op.code_lt
  rw [opcodeByte, toNat_word_pack h]
  omega

theorem opcode?_pack {op : Opcode} {n : Nat} (h : n < 0x1000000) :
    (pack op n).opcode? = some op := by
  rw [opcode?, opcodeByte_pack h, Opcode.ofCode?_code]

theorem unsigned_pack {op : Opcode} {n : Nat} (h : n < 0x1000000) : (pack op n).unsigned = n := by
  have hc := op.code_lt
  rw [unsigned, toNat_word_pack h]
  omega

theorem signedField_lt (n : Int) : signedField n < 0x1000000 := by
  unfold signedField
  omega

theorem signed_pack {op : Opcode} {n : Int} (hlo : minSigned ≤ n) (hhi : n ≤ maxSigned) :
    (pack op (signedField n)).signed = n := by
  unfold minSigned at hlo
  unfold maxSigned at hhi
  rw [signed, unsigned_pack (signedField_lt n)]
  unfold signedField
  split <;> omega

theorem withUnsigned_eq_ok_iff {op : Opcode} {n : Nat} {i : Instruction} :
    withUnsigned op n = .ok i ↔ n ≤ maxUnsigned ∧ i = pack op n := by
  unfold withUnsigned
  split
  · next h => simp [h, eq_comm]
  · next h => simp [h]

theorem withSigned_eq_ok_iff {op : Opcode} {n : Int} {i : Instruction} :
    withSigned op n = .ok i ↔
      (minSigned ≤ n ∧ n ≤ maxSigned) ∧ i = pack op (signedField n) := by
  unfold withSigned
  split
  · next h => simp [h, eq_comm]
  · next h => simp [h]

end Instruction

end StackCode
