import StackCode.Proofs.Congruences
import StackCode.Proofs.Veils

/-!
# Compiling with and without lifetimes

Whether lifetimes are recorded changes the tables of lifetimes and the bits that announce them, and
nothing else: the script of a program is the same, and every step does the same behind a veil over the
records.

* `CodeObject.withoutLifetimes`: a tree without its tables of lifetimes;
* `Program.script_debugInfo`: the scripts are the same;
* `compile_debugInfo`: the code objects differ in lifetimes only, and so do failures in nothing.
-/

namespace StackCode

mutual

/-- The tree without its tables of lifetimes and the bits that announce them. -/
def CodeObject.withoutLifetimes : CodeObject → CodeObject
  | ⟨code, constants, maxStack, flags, argCount, outerCount, localCount, argNames, _, children⟩ =>
    { code, constants, maxStack, flags := flags.remove .debugInfo, argCount, outerCount, localCount,
      argNames, lifetimes := none, children := CodeObject.allWithoutLifetimes children }

/-- The same of several trees. -/
def CodeObject.allWithoutLifetimes : List CodeObject → List CodeObject
  | [] => []
  | c :: cs => c.withoutLifetimes :: allWithoutLifetimes cs

end

namespace CodeObject

theorem allWithoutLifetimes_eq (cs : List CodeObject) :
    allWithoutLifetimes cs = cs.map withoutLifetimes := by
  induction cs with
  | nil => rfl
  | cons c cs ih => rw [allWithoutLifetimes, ih, List.map_cons]

end CodeObject

/-- Clearing the bit for lifetimes is as if none had been recorded. -/
theorem Scope.remove_flags (s : Scope) :
    s.flags.remove .debugInfo = { s with recorder := none }.flags := by
  have hbits : ∀ recorded protects variadic defaults generator : Bool,
      ((Flags.empty.insertIf recorded .debugInfo |>.insertIf protects .exceptionBlocks
        |>.insertIf variadic .varargs |>.insertIf defaults .namedParams
        |>.insertIf generator .generator).remove .debugInfo)
      = (Flags.empty |>.insertIf protects .exceptionBlocks |>.insertIf variadic .varargs
        |>.insertIf defaults .namedParams |>.insertIf generator .generator) := by decide
  exact hbits _ _ _ _ _

/-! ### Behind a veil -/

/-- Nothing is recorded. -/
def Veil.unrecorded : Veil where
  config config := { config with debugInfo := false }
  recorder _ := none
  lastLine line := line
  unit := CodeObject.withoutLifetimes
  recorder_map _ _ := rfl

theorem Veil.whole_unrecorded : Veil.unrecorded.Whole where
  lineMarkers _ := rfl
  lastLine _ := rfl
  entered _ := rfl
  emptied := rfl
  left s := by
    simp only [Scope.toCodeObject, unrecorded, CodeObject.withoutLifetimes,
      CodeObject.allWithoutLifetimes_eq, Scope.remove_flags, Array.toList_map, Veil.scope]
    rfl

/-! ### Programs -/

theorem Draft.congruence_eq : Draft.Congruence Eq where
  refl _ := rfl
  append := by
    rintro _ _ _ _ rfl rfl
    rfl
  withLabel h := congrArg withLabel (funext h)
  withLabels h := congrArg (withLabels _) (funext h)
  withHidden h := congrArg (withHidden _) (funext h)
  unit := by
    rintro _ _ _ _ _ rfl
    rfl

/-- The script of a program does not depend on whether lifetimes are recorded. -/
theorem Program.script_debugInfo (config : Config) (b : Bool) (program : List Stmt) :
    Program.script { config with debugInfo := b } program = Program.script config program := by
  have halike : Context.Alike Eq { config } { config := { config with debugInfo := b } } :=
    ⟨fun _ => rfl, rfl, rfl, rfl, rfl, rfl, .nil⟩
  rw [Program.script, Program.script, Program.draft, Program.draft,
    Stmt.alike_lowerAll Draft.congruence_eq program _ _ halike]

/-- Without lifetimes the same program compiles to the same code objects, or fails with the same
error. -/
theorem compile_debugInfo (config : Config) (program : List Stmt) :
    compile { config with debugInfo := false } program
      = (compile config program).map CodeObject.withoutLifetimes := by
  have hstart : Assembler.start { config with debugInfo := false }
      = Veil.unrecorded.assembler (.start config) := by
    unfold Assembler.start Veil.assembler
    rw [Veil.whole_unrecorded.scope_new]
    rfl
  have hrun := Veil.whole_unrecorded.respects_assemble (Program.script config program) (.start config)
  rw [Edit.Respects] at hrun
  unfold compile
  rw [Program.script_debugInfo, hstart, hrun]
  simp only [Functor.map, EStateM.map]
  cases assemble (Program.script config program) (.start config) <;> rfl

end StackCode
