import StackCode.Error

/-!
# Edits

A change of a state that may fail half-way. What was changed before a failure stays changed, and the
state can be used further.

* `Edit`: changes of a state `σ` with an answer in `α`;
* `Edit.ofExcept`: an answer that needs no state;
* `Edit.ignore`: a change without its answer;
* `Edit.within`: a change of a part of the state.
-/

namespace StackCode

/-- A change of a state that may fail; what was changed before a failure stays changed. -/
abbrev Edit (σ α : Type) := EStateM Error σ α

namespace Edit

variable {σ τ α : Type}

/-- An answer or a failure that leaves the state as it is. -/
def ofExcept : Except Error α → Edit σ α
  | .ok a => pure a
  | .error e => throw e

/-- A change whose answer is not needed. -/
def ignore (edit : Edit σ α) : Edit σ Unit := do
  let _ ← edit

/-- Changes a part of a state. The state is taken apart by `focus` into the part and a way to put a
part back, so that nothing else holds on to the part while it is changed. -/
@[noinline]
def within (focus : σ → τ × (τ → σ)) (edit : Edit τ α) : Edit σ α := fun s =>
  let (t, back) := focus s
  match edit t with
  | .ok a t => .ok a (back t)
  | .error e t => .error e (back t)

end Edit

end StackCode
