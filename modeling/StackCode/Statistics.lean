import StackCode.CodeObject
import StackCode.Decimal.Fixed

/-!
# Statistics

How many code objects and instructions a tree holds, and which operations are the most frequent.

* `CodeObject.operations`: the names of all operations of a tree;
* `tally`: how often each name occurs, the most frequent first and equally frequent ones by name;
* `CodeObject.statistics`: the report.
-/

namespace StackCode

namespace CodeObject

/-- The name of an operation; unknown ones have one name together. -/
def operationName (i : Instruction) : String :=
  match i.opcode? with
  | some op => op.mnemonic
  | none => "???"

mutual

/-- The names of all operations of a tree, in the order of the listing. -/
def operations : CodeObject → List String
  | ⟨code, _, _, _, _, _, _, _, _, children⟩ =>
    code.map operationName ++ operationsOfAll children

def operationsOfAll : List CodeObject → List String
  | [] => []
  | c :: cs => operations c ++ operationsOfAll cs

end

end CodeObject

/-- Each name with the number of its occurrences. -/
def occurrences (names : List String) : List (String × Nat) :=
  names.eraseDups.map fun name => (name, names.count name)

/-- Whether an entry stands before another one: by count downwards, then by name. -/
def ranksBefore (a b : String × Nat) : Bool :=
  b.2 < a.2 || (a.2 == b.2 && a.1 ≤ b.1)

/-- How often each name occurs, the most frequent first. -/
def tally (names : List String) : List (String × Nat) :=
  (occurrences names).mergeSort ranksBefore

/-- The report on a tree: its ten most frequent operations with their shares. -/
def CodeObject.statistics (c : CodeObject) : String :=
  let names := c.operations
  let total := names.length
  let line (entry : String × Nat) : String :=
    "  " ++ Text.padRight 18 entry.1 ++ " " ++ Text.padLeft 4 (toString entry.2)
      ++ " (" ++ Text.padLeft 5 (Decimal.percentage entry.2 (max total 1)) ++ "%)\n"
  "=== BYTECODE STATISTICS ===\n\n"
    ++ s!"Code objects:     {c.treeSize}\n"
    ++ s!"Instructions:     {total}\n\n"
    ++ "Op frequency:\n"
    ++ String.join (((tally names).take 10).map line)

end StackCode
