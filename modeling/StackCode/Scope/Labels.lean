import StackCode.Edit
import StackCode.Scope.Buffer

/-!
# Labels

A label stands for a position in the code that may not be known yet. Each use of a label is a
placeholder in the code; when the scope ends, all placeholders are overwritten with their
displacements.

* `Labels.fresh`, `Labels.use`, `Labels.place`, `Labels.position?`;
* `Labels.anyFrom`: whether a jump may land at or behind a position;
* `Labels.reconcile`: writes the displacements.
-/

namespace StackCode

/-- A label is known by its number within the scope that made it. -/
abbrev Label := Nat

/-- The number of the label that is made behind `n` others, as a word of 32 bits. -/
def Label.ofCount (n : Nat) : Label := n % UInt32.size

/-- A placeholder: its position and its operation. -/
structure Use where
  position : Nat
  op : Opcode
  deriving DecidableEq, Repr

/-- What is known of one label. -/
structure Mark where
  position : Option Nat := none
  uses : Array Use := #[]
  deriving Inhabited

/-- The same mark with one use more. -/
def Mark.used (m : Mark) (u : Use) : Mark := { m with uses := m.uses.push u }

/-- The same mark, set to a position. -/
def Mark.placed (m : Mark) (position : Nat) : Mark := { m with position := some position }

/-- The labels of a scope, in the order of their making. -/
structure Labels where
  marks : Array Mark := #[]
  deriving Inhabited

namespace Labels

/-- A new label. -/
def fresh : Edit Labels Label := fun labels =>
  let l := Label.ofCount labels.marks.size
  .ok l { marks := labels.marks.push {} }

/-- Records that the placeholder at a position jumps to a label. -/
def use (l : Label) (position : Nat) (op : Opcode) : Edit Labels Unit := fun labels =>
  if l < labels.marks.size then
    .ok () { marks := labels.marks.modify l (·.used ⟨position, op⟩) }
  else .error (.fault (.unknownLabel l)) labels

/-- The position of a label, if it is set. -/
def position? (labels : Labels) (l : Label) : Option Nat :=
  labels.marks[l]?.bind Mark.position

/-- Sets a label, once, to a position. -/
def place (l : Label) (position : Nat) : Edit Labels Unit := fun labels =>
  if l < labels.marks.size then
    if (labels.position? l).isSome then .error (.fault (.labelSetTwice l)) labels
    else .ok () { marks := labels.marks.modify l (·.placed position) }
  else .error (.fault (.unknownLabel l)) labels

/-- Whether some label is set to `position` or behind it. -/
def anyFrom (labels : Labels) (position : Nat) : Bool :=
  labels.marks.any fun m => m.position.any (position ≤ ·)

/-- A label that was set is where it was set. -/
theorem position?_of_place {labels after : Labels} {l : Label} {position : Nat}
    (h : place l position labels = .ok () after) : after.position? l = some position := by
  unfold place at h
  split at h
  · next hl =>
    split at h
    · simp at h
    · simp only [EStateM.Result.ok.injEq, true_and] at h
      rw [← h]
      simp [position?, Array.getElem_modify, Mark.placed, hl]
  · simp at h

/-! ### Displacements -/

/-- How far a jump at `position` has to go to `target`, counted from behind the jump. -/
def distance (target position : Nat) : Int := (target : Int) - position - 1

/-- The displacement of a jump at `position` to `target` in code of `size` instructions. Positions are
words of 64 bits that are read as signed numbers here. No code is long enough for that to matter inside
it or at its end; a label or a placeholder behind the end may have any position, and there the
difference wraps around. -/
def displacement (size target position : Nat) : Int :=
  if target ≤ size ∧ position < size then distance target position
  else (distance target position).bmod UInt64.size

/-- The instruction that jumps from a placeholder to `target`. A displacement beyond 32 bits is
reported against that width, one beyond 24 bits against the width of the operand field. -/
def resolved (size target : Nat) (u : Use) : Except Error Instruction :=
  let d := displacement size target u.position
  if d < -0x80000000 ∨ 0x7fffffff < d then .error (.overflow (.operand u.op) d 0x7fffffff)
  else Instruction.withSigned u.op d

/-- Overwrites the placeholders of one label. -/
def patchUses (target : Nat) : List Use → Edit Buffer Unit
  | [] => pure ()
  | u :: us => do
    let size := (← get).size
    let i ← Edit.ofExcept (resolved size target u)
    if u.position < size then modify (·.setIfInBounds u.position i)
    else throw (.fault (.placeholderPastEnd u.position))
    patchUses target us

/-- Overwrites the placeholders of the labels from number `l` on. A label that is never used need
not be set. -/
def reconcileFrom (l : Label) : List Mark → Edit Buffer Unit
  | [] => pure ()
  | m :: ms => do
    unless m.uses.isEmpty do
      match m.position with
      | none => throw (.fault (.labelNeverSet l m.uses.size))
      | some target => patchUses target m.uses.toList
    reconcileFrom (l + 1) ms

/-- Overwrites every placeholder with its displacement. -/
def reconcile (labels : Labels) : Edit Buffer Unit := reconcileFrom 0 labels.marks.toList

end Labels

end StackCode
