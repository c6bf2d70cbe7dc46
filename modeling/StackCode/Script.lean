import StackCode.Assembler

/-!
# Scripts

A script is what the assembler is asked to do, step by step. Lowering a program to a script is a
matter of its tree alone; slots, captures, constants and displacements are settled when the script
is run.

* `Step`, with units nested in one another;
* `Step.run`, `Step.runAll`: a script run by the assembler;
* `Step.cut`, `Script.cut`: the labels of a script as words of 32 bits;
* `Draft`: a script that draws labels and names for hidden variables from a `Supply`, and that ends
  at the first step that cannot succeed;
* `Draft.scriptFrom`, `Draft.script`: the script that is run for a draft.

`runAll_append` says that a script is run part by part; `Draft.steps_append_of_some` and
`Draft.steps_append_of_none` say the same of how it is drawn. A draft numbers the labels of a unit
without end, in the order in which they are drawn, which is the order in which the assembler makes
them; the assembler numbers them in 32 bits, so the steps of a draft are cut before they are run.
Hidden variables are numbered throughout the program.
-/

namespace StackCode

/-- One request to the assembler. -/
inductive Step where
  /-- The program is refused here. -/
  | fail (e : Error)
  | markLine (line : Nat)
  /-- An instruction without an operand. -/
  | op (op : Opcode)
  /-- An instruction with a number. -/
  | count (op : Opcode) (n : Nat)
  | pair (op : Opcode) (a b : Nat)
  | newLabel
  | jump (op : Opcode) (label : Label)
  | place (label : Label)
  /-- The machine has pushed a value that no instruction accounts for. -/
  | receive
  /-- The value on top of the stack is not needed. -/
  | discard
  | loadConst (v : Value)
  /-- An instruction that refers to a name among the constants. -/
  | named (op : Opcode) (name : String)
  | declare (name : String)
  /-- An instruction that refers to a variable of the unit itself. -/
  | slot (op : Opcode) (name : String)
  | loadName (name : String)
  | storeName (name : String)
  | enterBlock
  | leaveBlock
  /-- Handlers are going to be installed. -/
  | protect
  /-- A unit of its own, instantiated by `op` in the unit around it. -/
  | unit (op : Opcode) (kind : ScopeKind) (signature : Signature) (body : List Step)

abbrev Script := List Step

/-! ### Running a script -/

/-- Declares the parameters of a unit. -/
def declareAll : List String → Edit Scope Unit
  | [] => pure ()
  | name :: names => do
    let _ ← Scope.declare name
    declareAll names

namespace Step

open Assembler in
mutual

/-- Does what a step asks for. -/
def run : Step → Edit Assembler Unit
  | fail e => throw e
  | markLine line => Assembler.markLine line
  | op o => Edit.ignore (onCurrent (Scope.emitOp o))
  | count o n => Edit.ignore (onCurrent (Scope.emitUnsigned o n))
  | pair o a b => Edit.ignore (onCurrent (Scope.emitPair o a b))
  | newLabel => Edit.ignore (onCurrent Scope.newLabel)
  | jump o l => Edit.ignore (onCurrent (Scope.emitJump o l))
  | place l => onCurrent (Scope.placeLabel l)
  | receive => onCurrent Scope.receive
  | discard => onCurrent Scope.discard
  | loadConst v => onCurrent (Scope.loadConst v)
  | named o name => onCurrent (Scope.emitNamed o name)
  | declare name => Edit.ignore (onCurrent (Scope.declare name))
  | slot o name => onCurrent (Scope.emitSlot o name)
  | loadName name => Assembler.loadName name
  | storeName name => Assembler.storeName name
  | enterBlock => onCurrent Scope.enterBlock
  | leaveBlock => onCurrent Scope.leaveBlock
  | protect => onCurrent Scope.protect
  | unit o kind signature body => do
    let _ ← enterScope kind signature
    onCurrent (declareAll signature.params)
    runAll body
    let child ← leaveScope
    emitChild o child

/-- Does what the steps of a script ask for, up to the first failure. -/
def runAll : List Step → Edit Assembler Unit
  | [] => pure ()
  | s :: rest => do
    run s
    runAll rest

end

/-- A script is run part by part. -/
theorem runAll_append (xs ys : Script) :
    runAll (xs ++ ys) = runAll xs >>= fun _ => runAll ys := by
  induction xs with
  | nil => simp [runAll]
  | cons x xs ih => simp [runAll, ih]

end Step

/-! ### Labels in 32 bits -/

namespace Step

mutual

/-- The step with its labels as the assembler has made them: it keeps their numbers in 32 bits. -/
def cut : Step → Step
  | jump o l => jump o (Label.ofCount l)
  | place l => place (Label.ofCount l)
  | unit o kind signature body => unit o kind signature (cutOnto body []).reverse
  | x => x

/-- Puts the steps of a script, the last one first, before those that are done already. -/
def cutOnto : List Step → List Step → List Step
  | [], done => done
  | x :: xs, done => cutOnto xs (x.cut :: done)

end

theorem cutOnto_eq (xs done : List Step) : cutOnto xs done = (xs.map cut).reverse ++ done := by
  induction xs generalizing done with
  | nil => simp [cutOnto]
  | cons x xs ih => simp [cutOnto, ih]

end Step

/-- The script with its labels as the assembler makes them. -/
def Script.cut (xs : Script) : Script := (Step.cutOnto xs []).reverse

theorem Script.cut_eq_map (xs : Script) : Script.cut xs = xs.map Step.cut := by
  rw [Script.cut, Step.cutOnto_eq]
  simp

theorem Script.cut_cons (x : Step) (xs : Script) :
    Script.cut (x :: xs) = x.cut :: Script.cut xs := by
  rw [Script.cut_eq_map, Script.cut_eq_map, List.map_cons]

theorem Script.exists_of_cut_eq_cons {xs ys : Script} {y : Step} (h : Script.cut xs = y :: ys) :
    ∃ x zs, xs = x :: zs ∧ y = x.cut ∧ ys = Script.cut zs := by
  rw [Script.cut_eq_map] at h
  obtain ⟨x, zs, rfl, rfl, rfl⟩ := List.map_eq_cons_iff.mp h
  exact ⟨x, zs, rfl, rfl, (Script.cut_eq_map zs).symm⟩

theorem Script.cut_append (xs ys : Script) :
    Script.cut (xs ++ ys) = Script.cut xs ++ Script.cut ys := by
  rw [Script.cut_eq_map, Script.cut_eq_map, Script.cut_eq_map, List.map_append]

theorem Step.cut_unit (o : Opcode) (kind : ScopeKind) (signature : Signature) (body : Script) :
    Step.cut (.unit o kind signature body) = .unit o kind signature (Script.cut body) := by
  rw [Step.cut]
  rfl

/-! ### Drafts -/

/-- The next numbers for labels and hidden variables. Hidden variables are numbered without end: their
numbers are not cut to 32 bits. -/
structure Supply where
  labels : Nat := 0
  hidden : Nat := 0
  deriving DecidableEq, Repr

/-- A script in the making. It draws from a supply and leaves a supply for what follows. It leaves
none when its last step cannot succeed: then the script ends there, and nothing behind it is worked
out. -/
structure Draft where
  /-- Puts the steps of the draft, the last one first, before the steps that are there already. -/
  draw : Supply → Script → Script × Option Supply
  /-- The steps do not depend on those that are there already. -/
  draw_eq : ∀ s done, draw s done = ((draw s []).1 ++ done, (draw s []).2)

namespace Draft

/-- The steps of a draft, in order. -/
def steps (d : Draft) (s : Supply) : Script := (d.draw s []).1.reverse

/-- The supply that a draft leaves. -/
def rest? (d : Draft) (s : Supply) : Option Supply := (d.draw s []).2

theorem draw_eq_steps (d : Draft) (s : Supply) (done : Script) :
    d.draw s done = ((d.steps s).reverse ++ done, d.rest? s) := by
  rw [d.draw_eq, steps, List.reverse_reverse, rest?]

def nil : Draft where
  draw s done := (done, some s)
  draw_eq _ _ := rfl

def step (x : Step) : Draft where
  draw s done := (x :: done, some s)
  draw_eq _ _ := rfl

/-- A step that cannot succeed. -/
def final (x : Step) : Draft where
  draw _ done := (x :: done, none)
  draw_eq _ _ := rfl

/-- One draft after the other, unless the first one ends the script. -/
def append (a b : Draft) : Draft where
  draw s done :=
    match a.draw s done with
    | (done, none) => (done, none)
    | (done, some s₁) => b.draw s₁ done
  draw_eq s done := by
    rw [a.draw_eq s done]
    cases a.draw s [] with
    | mk xs r =>
      cases r with
      | none => rfl
      | some s₁ =>
        show b.draw s₁ (xs ++ done) = ((b.draw s₁ xs).1 ++ done, (b.draw s₁ xs).2)
        rw [b.draw_eq s₁ (xs ++ done), b.draw_eq s₁ xs, List.append_assoc]

instance : Append Draft := ⟨append⟩

/-- A draft that is worked out only where the script comes to it. -/
def delay (d : Unit → Draft) : Draft where
  draw s done := (d ()).draw s done
  draw_eq s done := (d ()).draw_eq s done

/-- Draws a label. -/
def withLabel (f : Label → Draft) : Draft where
  draw s done := (f s.labels).draw { s with labels := s.labels + 1 } (.newLabel :: done)
  draw_eq s done := by
    rw [(f s.labels).draw_eq _ (.newLabel :: done), (f s.labels).draw_eq _ [.newLabel]]
    simp

/-- Draws `n` labels, numbered from the one that `f` is given. -/
def withLabels (n : Nat) (f : Label → Draft) : Draft where
  draw s done :=
    (f s.labels).draw { s with labels := s.labels + n } (List.replicate n Step.newLabel ++ done)
  draw_eq s done := by
    rw [(f s.labels).draw_eq _ (List.replicate n Step.newLabel ++ done),
      (f s.labels).draw_eq _ (List.replicate n Step.newLabel ++ [])]
    simp

/-- A name that no identifier can have. -/
def hiddenName (what : String) (n : Nat) : String := s!"({what} {n})"

/-- Draws the name of a hidden variable. -/
def withHidden (what : String) (f : String → Draft) : Draft where
  draw s done := (f (hiddenName what (s.hidden + 1))).draw { s with hidden := s.hidden + 1 } done
  draw_eq s done :=
    (f (hiddenName what (s.hidden + 1))).draw_eq { s with hidden := s.hidden + 1 } done

/-- A draft within a block of its own. -/
def block (body : Draft) : Draft := step .enterBlock ++ body ++ step .leaveBlock

/-- A unit of its own, whose labels are numbered from zero. -/
def unit (op : Opcode) (kind : ScopeKind) (signature : Signature) (body : Draft) : Draft where
  draw s done :=
    let (xs, rest) := body.draw { s with labels := 0 } []
    (.unit op kind signature xs.reverse :: done, rest.map fun s₁ => { s₁ with labels := s.labels })
  draw_eq _ _ := rfl

/-- The script of a draft that draws from a supply. -/
def scriptFrom (d : Draft) (s : Supply) : Script := Script.cut (d.steps s)

/-- The script of a draft that starts from nothing. -/
def script (d : Draft) : Script := d.scriptFrom {}

/-! ### The steps of a draft -/

theorem steps_nil (s : Supply) : nil.steps s = [] := rfl

theorem steps_step (x : Step) (s : Supply) : (step x).steps s = [x] := rfl

theorem steps_final (x : Step) (s : Supply) : (final x).steps s = [x] := rfl

theorem delay_eq (d : Unit → Draft) : delay d = d () := rfl

theorem draw_append_of_some {a : Draft} {s s₁ : Supply} (b : Draft) (h : a.rest? s = some s₁)
    (done : Script) : (a ++ b).draw s done = b.draw s₁ ((a.steps s).reverse ++ done) := by
  show (append a b).draw s done = _
  simp only [append, draw_eq_steps a, h]

theorem draw_append_of_none {a : Draft} {s : Supply} (b : Draft) (h : a.rest? s = none)
    (done : Script) : (a ++ b).draw s done = ((a.steps s).reverse ++ done, none) := by
  show (append a b).draw s done = _
  simp only [append, draw_eq_steps a, h]

theorem steps_append_of_some {a : Draft} {s s₁ : Supply} (b : Draft) (h : a.rest? s = some s₁) :
    (a ++ b).steps s = a.steps s ++ b.steps s₁ := by
  rw [steps, draw_append_of_some b h, draw_eq_steps b]
  simp

theorem rest?_append_of_some {a : Draft} {s s₁ : Supply} (b : Draft) (h : a.rest? s = some s₁) :
    (a ++ b).rest? s = b.rest? s₁ := by
  rw [rest?, draw_append_of_some b h, draw_eq_steps b]

theorem steps_append_of_none {a : Draft} {s : Supply} (b : Draft) (h : a.rest? s = none) :
    (a ++ b).steps s = a.steps s := by
  rw [steps, draw_append_of_none b h]
  simp

theorem rest?_append_of_none {a : Draft} {s : Supply} (b : Draft) (h : a.rest? s = none) :
    (a ++ b).rest? s = none := by
  rw [rest?, draw_append_of_none b h]

theorem steps_withLabel (f : Label → Draft) (s : Supply) :
    (withLabel f).steps s = .newLabel :: (f s.labels).steps { s with labels := s.labels + 1 } := by
  show ((f s.labels).draw _ [.newLabel]).1.reverse = _
  rw [draw_eq_steps]
  simp

theorem rest?_withLabel (f : Label → Draft) (s : Supply) :
    (withLabel f).rest? s = (f s.labels).rest? { s with labels := s.labels + 1 } := by
  show ((f s.labels).draw _ [.newLabel]).2 = _
  rw [draw_eq_steps]

theorem steps_unit (op : Opcode) (kind : ScopeKind) (signature : Signature) (body : Draft)
    (s : Supply) :
    (unit op kind signature body).steps s
      = [.unit op kind signature (body.steps { s with labels := 0 })] := rfl

end Draft

end StackCode
