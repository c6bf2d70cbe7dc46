import StackCode.CodeObject

/-!
# Recording lifetimes

Notes when local variables come to life and when they die, for the table of lifetimes in a code
object. Positions are 32-bit words; a variable that still lives has the largest of them as its end.

* `Recorder.start`, `Recorder.stop`, `Recorder.finish`.
-/

namespace StackCode

/-- The variables met so far and the indices of those that live, the latest first. -/
structure Recorder where
  lifetimes : Array Lifetime := #[]
  alive : List Nat := []
  deriving Inhabited

namespace Recorder

/-- The end of a variable that still lives. -/
def unending : Nat := UInt32.size - 1

/-- A position as it is recorded. -/
def cut (position : Nat) : Nat := position % UInt32.size

/-- A variable comes to life. -/
def start (r : Recorder) (name : String) (position : Nat) : Recorder :=
  let index := r.lifetimes.size
  { lifetimes := r.lifetimes.push ⟨name, cut position, unending⟩
    alive := index :: r.alive }

/-- Gives an end to the variable with index `i`. -/
def endAt (lifetimes : Array Lifetime) (position i : Nat) : Array Lifetime :=
  lifetimes.modify i fun v => { v with stop := cut position }

/-- The `count` latest living variables die. -/
def stop (r : Recorder) (count position : Nat) : Recorder :=
  { lifetimes := (r.alive.take count).foldl (endAt · position) r.lifetimes
    alive := r.alive.drop count }

/-- The table of lifetimes when all variables die. -/
def finish (r : Recorder) (position : Nat) : List Lifetime :=
  (r.stop r.alive.length position).lifetimes.toList

end Recorder

end StackCode
