import StackCode.Lowering

/-!
# Compiling a program

* `compile`: the code object of a program, or the reason why there is none.
-/

namespace StackCode

/-- Runs the script of a program and finishes the assembly. -/
def assemble (script : Script) : Edit Assembler CodeObject := do
  Step.runAll script
  Assembler.finish

/-- The code object of a program, or the first error met on the way to it. -/
def compile (config : Config) (program : List Stmt) : Except Error CodeObject :=
  match assemble (Program.script config program) (Assembler.start config) with
  | .ok c _ => .ok c
  | .error e _ => .error e

end StackCode
