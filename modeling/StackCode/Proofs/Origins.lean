import StackCode.Proofs.ControlFlow

/-!
# Where outer variables come from

A unit refers to a variable of a unit around it by an index. The instruction that makes an instance
of the unit is followed by captures, one for each index, which take the variable from a slot of the
parent or from an outer variable of the parent. Following them from unit to unit leads to a slot of
some unit further out. On the other side there is the moment when a name is met: the unit that is
being written does not have it, and the nearest unit around it that does has it in some slot.

* `CodeObject.unitAt?`, `captureOf?`, `origin?`: what a finished tree says;
* `Step.Performs`: the steps that are performed while a script is run;
* `Mentions`: a name is met that belongs to a unit further out;
* `CapturesTraced`: both sides agree.
-/

namespace StackCode

/-! ### What a tree says -/

namespace Instruction

/-- Whether the instruction makes an instance of child `k`. -/
def instantiates (k : Nat) (i : Instruction) : Bool :=
  i.opcode?.any Opcode.instantiates && i.unsigned == k

/-- The capture that an instruction stands for. -/
def capture? (i : Instruction) : Option Capture :=
  match i.opcode? with
  | some .captureLocal => some (.slot i.unsigned)
  | some .captureOuter => some (.outer i.unsigned)
  | _ => none

end Instruction

namespace CodeObject

/-- The unit at the end of a path, which gives the index among the children at each level, the
innermost first. -/
def unitAt? (c : CodeObject) : List Nat → Option CodeObject
  | [] => some c
  | k :: path => (unitAt? c path).bind fun u => u.children[k]?

/-- Whether an instance of child `k` is made at position `p`. -/
def instantiatesAt (u : CodeObject) (k p : Nat) : Bool := u.code[p]?.any (·.instantiates k)

/-- The capture for outer variable `i` of child `k`: the `i`th one behind the instruction that makes
the instance. -/
def captureOf? (u : CodeObject) (k i : Nat) : Option Capture :=
  match u.code.findIdx? (·.instantiates k), u.children[k]? with
  | some p, some v =>
    if i < v.outerCount then u.code[p + 1 + i]?.bind Instruction.capture? else none
  | _, _ => none

/-- The variable that outer variable `i` of the unit at a path stands for: its slot, and how many
captures lead there. -/
def origin? (c : CodeObject) : List Nat → Nat → Option Outer
  | [], _ => none
  | k :: path, i =>
    match (c.unitAt? path).bind fun u => u.captureOf? k i with
    | some (.slot n) => some ⟨n, 1⟩
    | some (.outer r) => (origin? c path r).map fun o => ⟨o.slot, o.up + 1⟩
    | none => none

end CodeObject

/-! ### What is met on the way -/

/-- Running a script performs a step, in this unit or in one inside it, which changes one state of
the assembly into another. -/
inductive Step.Performs : Script → Assembler → Step → Assembler → Assembler → Prop where
  | here {x : Step} {xs : Script} {a b : Assembler} (h : Step.run x a = .ok () b) :
      Performs (x :: xs) a x a b
  | later {x y : Step} {xs : Script} {a b c d : Assembler} (h : Step.run x a = .ok () b)
      (hp : Performs xs b y c d) : Performs (x :: xs) a y c d
  | inside {op : Opcode} {kind : ScopeKind} {signature : Signature} {body xs : Script} {y : Step}
      {a b c d : Assembler} {s : Scope} {n : Nat}
      (he : Assembler.enterScope kind signature a = .ok n b)
      (hd : declareAll signature.params b.current = .ok () s)
      (hp : Performs body { b with current := s } y c d) :
      Performs (.unit op kind signature body :: xs) a y c d

theorem Step.Performs.run {xs : Script} {x : Step} {start a b : Assembler}
    (h : Step.Performs xs start x a b) : Step.run x a = .ok () b := by
  induction h with
  | here h => exact h
  | later _ _ ih => exact ih
  | inside _ _ _ ih => exact ih

namespace Assembler

/-- Where the unit that is being written will be in the tree: each unit around it has as many
children as were finished before. -/
def path (a : Assembler) : List Nat := a.enclosing.map fun s => s.children.size

/-- The unit that is being written does not have the name, and the nearest unit around it that has
it, which is `o.up` units out, has it in slot `o.slot`. -/
def FindsOutside (a : Assembler) (name : String) (o : Outer) : Prop :=
  a.current.locals.lookup? name = none
    ∧ ∃ nearer s farther, a.enclosing = nearer ++ s :: farther
      ∧ (∀ t ∈ nearer, t.locals.lookup? name = none) ∧ s.locals.lookup? name = some o.slot
      ∧ o.up = nearer.length + 1

end Assembler

/-- The step is about a name; if the name belongs to a unit further out, `op` is the operation. -/
inductive Step.Accesses : Step → String → Opcode → Prop where
  | load (name : String) : Accesses (.loadName name) name .loadOuter
  | store (name : String) : Accesses (.storeName name) name .storeOuter

/-- While a script is run, a name that belongs to a unit further out is met in the unit at `path`,
and the instruction `w` is written for it, whose operation should be `op`. -/
inductive Mentions (script : Script) (start : Assembler) :
    List Nat → Outer → Opcode → Instruction → Prop where
  | intro {x : Step} {name : String} {op : Opcode} {o : Outer} {w : Instruction} {a b : Assembler}
      (hx : x.Accesses name op) (hp : Step.Performs script start x a b)
      (ho : a.FindsOutside name o) (hw : b.current.code = a.current.code.push w) :
      Mentions script start a.path o op w

/-- The instructions for variables of units further out lead to these variables in the tree `c` that
a script is assembled to; `final` is the state of the assembly at the end. -/
structure CapturesTraced (script : Script) (start : Assembler) (c : CodeObject)
    (final : Assembler) : Prop where
  /-- One instruction is written for each name that belongs to a unit further out. -/
  written : ∀ x name op o a b, Step.Accesses x name op → Step.Performs script start x a b →
    a.FindsOutside name o → ∃ w, b.current.code = a.current.code.push w
  /-- Every mention leads to the variable that was found. -/
  leads : ∀ path o op w, Mentions script start path o op w →
    w.opcode? = some op ∧ c.origin? path w.unsigned = some o
      ∧ ∃ u, c.unitAt? path = some u ∧ w ∈ u.code
  /-- Two mentions in a unit have the same index just when they mean the same variable. -/
  same : ∀ path o o' op op' w w', Mentions script start path o op w →
    Mentions script start path o' op' w' → (w.unsigned = w'.unsigned ↔ o = o')
  /-- An instance of each child is made at one place. -/
  once : ∀ u, c.Contains u → ∀ k < u.children.length, ∃ p, ∀ q,
    u.instantiatesAt k q = true ↔ q = p
  /-- All outer variables of scopes that have ended are filled by their parents. -/
  settled : ∀ s ∈ final.current :: final.left.map LeftScope.scope,
    s.ended = true ∧ ∀ o ∈ s.outers.descriptors, o.up = 1
  /-- The program itself has no outer variables. -/
  root : c.outerCount = 0

end StackCode
