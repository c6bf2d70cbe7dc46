import StackCode.Instruction

/-!
# Slots of local variables

The variables that are alive, densely packed: the slot of a variable is its place in the list.
Leaving a block frees the slots that were handed out since it was entered.

* `Slots.lookup?`, `Slots.declare`;
* `Slots.rollback`;
* `Slots.count`: the largest number of variables that were alive at once.

`getElem?_of_lookup?` says that a variable stands in its slot.
-/

namespace StackCode

/-- The living variables of a scope. -/
structure Slots where
  active : List String := []
  highWater : Nat := 0
  deriving Inhabited

namespace Slots

/-- The slot of a variable in any open block. -/
def lookup? (slots : Slots) (name : String) : Option Nat := slots.active.idxOf? name

/-- The slot of a variable, with a new one where it had none; the flag tells whether it is new. -/
def declare (slots : Slots) (name : String) : Except Error ((Nat × Bool) × Slots) :=
  match slots.lookup? name with
  | some slot => .ok ((slot, false), slots)
  | none =>
    if Instruction.maxUnsigned < slots.active.length then
      .error (.overflow .localSlots slots.active.length Instruction.maxUnsigned)
    else
      .ok ((slots.active.length, true),
        { active := slots.active ++ [name]
          highWater := max slots.highWater (slots.active.length + 1) })

/-- The number of living variables; rolling back to it frees what was declared since. -/
def mark (slots : Slots) : Nat := slots.active.length

/-- Frees every slot from `marker` on, and tells how many that were. -/
def rollback (slots : Slots) (marker : Nat) : Nat × Slots :=
  (slots.active.length - marker, { slots with active := slots.active.take marker })

/-- The largest number of variables that were alive at once. -/
def count (slots : Slots) : Nat := slots.highWater

/-- A variable stands in its slot. -/
theorem getElem?_of_lookup? {slots : Slots} {name : String} {slot : Nat}
    (h : slots.lookup? name = some slot) : slots.active[slot]? = some name := by
  obtain ⟨hs, he, _⟩ := List.findIdx?_eq_some_iff_getElem.mp h
  rw [List.getElem?_eq_getElem hs, eq_of_beq he]

theorem getElem?_of_declare {slots after : Slots} {name : String} {slot : Nat} {fresh : Bool}
    (h : slots.declare name = .ok ((slot, fresh), after)) : after.active[slot]? = some name := by
  unfold declare at h
  split at h
  · next s hs =>
    simp only [Except.ok.injEq, Prod.mk.injEq] at h
    rw [← h.1.1, ← h.2]
    exact getElem?_of_lookup? hs
  · split at h
    · simp at h
    · simp only [Except.ok.injEq, Prod.mk.injEq] at h
      rw [← h.1.1, ← h.2]
      simp

end Slots

end StackCode
