import StackCode.Opcode

/-!
# Diagnostics of the compiler

A compilation fails for one of three reasons, kept apart as the constructors of `Error`:

* `misuse`: the program holds a construct that is malformed or stands where it may not;
* `overflow`: a number does not fit the field that has to hold it;
* `fault`: the assembler was driven in a way that a program never drives it.

Causes are data; `Error.message` is the one place where they become text.
-/

namespace StackCode

/-- What is wrong with a construct of the program. -/
inductive Misuse where
  /-- A `try` with neither a catch nor a finally clause. -/
  | tryWithoutHandler
  /-- A jump statement with no loop to leave or to continue. -/
  | outsideLoop (construct : String)
  | returnOutsideFunction
  | yieldOutsideGenerator
  /-- The left side of an assignment, described by `construct`, is no place to store into. -/
  | assignmentTarget (construct : String)
  | duplicateParameter (name : String)
  /-- Spread and named arguments in one argument list of the form `call`. -/
  | spreadWithNamed (call : String)
  | positionalAfterNamed (call : String)
  | duplicateArgument (call : String) (name : String)
  | namedOnMethod
  /-- Any other complaint about a construct. -/
  | other (construct reason : String) (hint : Option String)
  deriving DecidableEq, Repr

/-- What ran out of room. -/
inductive Capacity where
  /-- The operand field of an instruction with this operation. -/
  | operand (op : Opcode)
  | localSlots
  | outerSlots
  | constants
  | named (what : String)
  deriving DecidableEq, Repr

/-- Ways to drive the assembler that no program leads to. -/
inductive Fault where
  | unknownLabel (label : Nat)
  | labelSetTwice (label : Nat)
  | labelNeverSet (label uses : Nat)
  | placeholderPastEnd (position : Nat)
  | unmatchedBlockEnd
  | openBlocks (count : Nat)
  | leavingRoot
  | relayIntoEnded (child parent : Nat)
  | scopeStillOpen (scope : Nat)
  | rootHasOuters
  | emitIntoEnded
  | captureThroughEnded (name : String) (scope : Nat)
  | missingSlot (name : String)
  | other (reason : String)
  deriving DecidableEq, Repr

/-- The reasons for which a compilation fails. -/
inductive Error where
  | misuse (line : Nat) (cause : Misuse)
  | overflow (what : Capacity) (value limit : Int)
  | fault (cause : Fault)
  deriving DecidableEq, Repr

namespace Misuse

/-- The construct that a complaint is about. -/
def construct : Misuse → String
  | tryWithoutHandler => "try"
  | outsideLoop construct => construct
  | returnOutsideFunction => "return"
  | yieldOutsideGenerator => "yield"
  | assignmentTarget _ => "assignment"
  | duplicateParameter _ => "function"
  | spreadWithNamed call => call
  | positionalAfterNamed call => call
  | duplicateArgument call _ => call
  | namedOnMethod => "method call"
  | other construct _ _ => construct

/-- Why the construct is refused. -/
def reason : Misuse → String
  | tryWithoutHandler => "a try block needs a catch clause, a finally clause, or both"
  | outsideLoop _ => "must appear inside a loop"
  | returnOutsideFunction => "return is only allowed inside a function body"
  | yieldOutsideGenerator => "yield is only allowed inside a generator"
  | assignmentTarget construct => "cannot assign to " ++ construct
  | duplicateParameter name => "parameter '" ++ name ++ "' is declared more than once"
  | spreadWithNamed _ => "spread arguments cannot be combined with named arguments"
  | positionalAfterNamed _ => "positional argument after a named argument"
  | duplicateArgument _ name => "named argument '" ++ name ++ "' given more than once"
  | namedOnMethod => "named arguments are not supported on method calls"
  | other _ reason _ => reason

/-- How to mend the program, where there is advice to give. -/
def hint : Misuse → Option String
  | tryWithoutHandler => some "add `catch (e) \x7b ... \x7d` or `finally \x7b ... \x7d`"
  | outsideLoop _ => none
  | returnOutsideFunction => some "top-level code and class or namespace bodies cannot return"
  | yieldOutsideGenerator => some "declare the function as a generator"
  | assignmentTarget _ => some "the left side must be a variable, a member or an index"
  | duplicateParameter _ => some "give each parameter a distinct name"
  | spreadWithNamed _ => some "build the argument list first, then spread it"
  | positionalAfterNamed _ => none
  | duplicateArgument _ _ => none
  | namedOnMethod => some "pass a map, or call the method through a plain function"
  | other _ _ hint => hint

/-- Construct and reason, with the hint on a line of its own. -/
def message (cause : Misuse) : String :=
  cause.construct ++ ": " ++ cause.reason ++
    match cause.hint with
    | none => ""
    | some advice => "\n  hint: " ++ advice

end Misuse

/-- The name of a field or table in an overflow message. -/
def Capacity.name : Capacity → String
  | operand op => op.mnemonic
  | localSlots => "local slot"
  | outerSlots => "outer slot"
  | constants => "constant pool"
  | named what => what

/-- The text of a fault. -/
def Fault.message : Fault → String
  | unknownLabel label => s!"unknown label L{label}"
  | labelSetTwice label => s!"label L{label} set twice"
  | labelNeverSet label uses => s!"label L{label} is referenced by {uses} jump(s) but never set"
  | placeholderPastEnd position => s!"jump placeholder {position} is past the end of the code"
  | unmatchedBlockEnd => "leave_block without matching enter_block"
  | openBlocks count => s!"{count} lexical block(s) still open at scope end"
  | leavingRoot => "leave_scope on the root scope"
  | relayIntoEnded child parent => s!"scope {child} relays into ended scope {parent}"
  | scopeStillOpen scope => s!"scope {scope} still open at end of program"
  | rootHasOuters => "root scope has outer references"
  | emitIntoEnded => "emit into an ended scope"
  | captureThroughEnded name scope => s!"capture of '{name}' through ended scope {scope}"
  | missingSlot name => s!"local declaration of '{name}' without a slot"
  | other reason => reason

/-- The text of an error as the user sees it. -/
def Error.message : Error → String
  | misuse line cause => s!"compile error: line {line}: " ++ cause.message
  | overflow what value limit =>
    "compile error: " ++ what.name ++ s!" operand {value} exceeds the encodable limit {limit}"
  | fault cause => "compile error: internal error: " ++ cause.message

/-- Whether an error tells of a fault of the compiler and not of the program. -/
def Error.isFault : Error → Bool
  | fault _ => true
  | _ => false

theorem Error.isFault_iff {e : Error} : e.isFault = true ↔ ∃ cause, e = .fault cause := by
  cases e <;> simp [isFault]

end StackCode
