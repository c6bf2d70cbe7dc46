import StackCode.Config
import StackCode.Scope.Basic

/-!
# The assembler

Scopes are entered and left strictly in a nested way. The assembler holds the scope that is being
written, the scopes around it, innermost first, and those that were left.

* `Assembler`, `Assembler.start`;
* `Assembler.enterScope`, `leaveScope`, `finish`: scopes;
* `Assembler.resolve`: where a name lives, as seen from the current scope;
* `Assembler.loadName`, `storeName`, `markLine`, `emitChild`.

A scope that is left hands its code object to its parent, together with the captures by which the
parent fills its outer variables.
-/

namespace StackCode

/-- A scope that was left, and the number of its parent. -/
structure LeftScope where
  parent : Nat
  scope : Scope

/-- The state of an assembly. -/
structure Assembler where
  config : Config
  current : Scope
  /-- The scopes around the current one, innermost first. -/
  enclosing : List Scope := []
  /-- The scopes that were left, latest first. -/
  left : List LeftScope := []
  /-- How many scopes were entered, the outermost included. -/
  entered : Nat := 1

/-- Where a name lives. -/
inductive Place where
  | slot (n : Nat)
  | outer (index : Nat)
  /-- A global variable, by the index of its name in the constants. -/
  | global (index : Nat)
  deriving DecidableEq, Repr

/-- A unit that was left: its index among the children of its parent, and how the parent fills its
outer variables. -/
structure Child where
  index : Nat
  captures : List Capture
  deriving DecidableEq, Repr

namespace Assembler

/-- An assembly that begins, in the scope of the program. -/
def start (config : Config) : Assembler :=
  { config, current := Scope.new 0 .global {} config.debugInfo }

/-- Changes the current scope. The assembly is taken apart, so that nothing else holds on to the
scope while it is changed. -/
@[noinline]
def onCurrent {α : Type} (edit : Edit Scope α) : Edit Assembler α
  | { config, current, enclosing, left, entered } =>
    match edit current with
    | .ok a current => .ok a { config, current, enclosing, left, entered }
    | .error e current => .error e { config, current, enclosing, left, entered }

/-! ### Scopes -/

/-- Enters a new scope, and tells its number. -/
def enterScope (kind : ScopeKind) (signature : Signature) : Edit Assembler Nat := do
  let a ← get
  set { a with
    current := Scope.new a.entered kind signature a.config.debugInfo
    enclosing := a.current :: a.enclosing
    entered := a.entered + 1 }
  pure a.entered

/-- The state after the current scope, with its outer variables settled, was made a child of the
scope around it. -/
def attached (relay : Outers.Relay) : Assembler → Assembler
  | { config, current, enclosing := parent :: enclosing, left, entered } =>
    let child := { current with outers := ⟨relay.settled⟩ }
    let number := parent.number
    { config
      current :=
        { parent with outers := relay.parent, children := parent.children.push child.toCodeObject }
      enclosing
      left := ⟨number, child.emptied⟩ :: left
      entered }
  | a => a

/-- Leaves the current scope for its parent, which must not have ended. -/
def leaveScope : Edit Assembler Child := do
  let a ← get
  match a.enclosing with
  | [] => throw (.fault .leavingRoot)
  | parent :: _ =>
    if parent.ended then throw (.fault (.relayIntoEnded a.current.number parent.number))
    onCurrent Scope.reconcile
    let relay ← Edit.ofExcept (parent.outers.relay (← get).current.outers.descriptors)
    let index := parent.children.size
    modify (·.attached relay)
    pure { index, captures := relay.captures }

/-- The code object of the whole program. -/
def finish : Edit Assembler CodeObject := do
  let a ← get
  unless a.enclosing.isEmpty do throw (.fault (.scopeStillOpen a.current.number))
  onCurrent Scope.reconcile
  let root := (← get).current
  unless root.outers.descriptors.isEmpty do throw (.fault .rootHasOuters)
  onCurrent Scope.lower

/-- The scope with a given number among scopes nested in one another, innermost first, and the
number of its parent, if it has one. -/
def findNested (number : Nat) : List Scope → Option (Scope × Option Nat)
  | [] => none
  | s :: rest =>
    if s.number = number then some (s, rest.head?.map Scope.number) else findNested number rest

/-- The scope with a given number and the number of its parent, if it has one. -/
def scope? (a : Assembler) (number : Nat) : Option (Scope × Option Nat) :=
  match findNested number (a.current :: a.enclosing) with
  | some found => some found
  | none =>
    (a.left.find? fun l => l.scope.number == number).map fun l => (l.scope, some l.parent)

/-! ### Names -/

/-- Looks a name up in enclosing scopes, the nearest of which is `up` scopes out. -/
def findOuter (name : String) : Nat → List Scope → Except Error (Option Outer)
  | _, [] => .ok none
  | up, s :: rest =>
    if s.ended then .error (.fault (.captureThroughEnded name s.number))
    else
      match s.locals.lookup? name with
      | some slot => .ok (some ⟨slot, up⟩)
      | none => findOuter name (up + 1) rest

/-- Finds where a name lives: in the current scope, in the nearest enclosing scope that has it,
which gives the current scope an outer variable, or among the globals. -/
def resolve (name : String) : Edit Assembler Place := do
  let a ← get
  match a.current.locals.lookup? name with
  | some slot => pure (.slot slot)
  | none =>
    match ← Edit.ofExcept (findOuter name 1 a.enclosing) with
    | some o =>
      let (index, outers) ← Edit.ofExcept (a.current.outers.add o)
      set { a with current := { a.current with outers } }
      pure (.outer index)
    | none => .global <$> onCurrent (Scope.nameConstant name)

/-- Pushes the value of a variable. -/
def loadName (name : String) : Edit Assembler Unit := do
  let _ ← match ← resolve name with
    | .slot n => onCurrent (Scope.emitUnsigned .loadLocal n)
    | .outer n => onCurrent (Scope.emitUnsigned .loadOuter n)
    | .global n => onCurrent (Scope.emitUnsigned .loadGlobal n)

/-- Stores the value on top of the stack into a variable. -/
def storeName (name : String) : Edit Assembler Unit := do
  let _ ← match ← resolve name with
    | .slot n => onCurrent (Scope.emitUnsigned .storeLocal n)
    | .outer n => onCurrent (Scope.emitUnsigned .storeOuter n)
    | .global n => onCurrent (Scope.emitUnsigned .storeGlobal n)

/-! ### Lines and children -/

/-- Marks a line, if lines are to be marked. -/
def markLine (line : Nat) : Edit Assembler Unit := do
  if (← get).config.lineMarkers then onCurrent (Scope.markLine line)

/-- Appends one instruction for each capture. -/
def emitCaptures : List Capture → Edit Scope Unit
  | [] => pure ()
  | c :: cs => do
    let _ ← Scope.emit (← Edit.ofExcept c.instruction)
    emitCaptures cs

/-- Instantiates a child in the current scope. -/
def emitChild (op : Opcode) (child : Child) : Edit Assembler Unit := onCurrent do
  let _ ← Scope.emitUnsigned op child.index
  emitCaptures child.captures

end Assembler

end StackCode
