import StackCode.Instruction

/-!
# Variables of enclosing scopes

A scope that uses a variable of an enclosing one keeps a descriptor of it; instructions refer to the
descriptor by its index. When the scope ends, its parent fills each descriptor by a `Capture`.

* `Outer`: a variable so many scopes out;
* `Outers.add`: the index of a descriptor;
* `Capture`, `Capture.instruction`: where the parent takes a variable from;
* `Outers.relay`: what a scope that ends asks of its parent.

`getElem?_of_add` says that the index of a descriptor leads back to it.
-/

namespace StackCode

/-- The variable in local slot `slot` of the scope that is `up` scopes out. -/
structure Outer where
  slot : Nat
  up : Nat
  deriving DecidableEq, Repr, Inhabited

/-- The descriptors of a scope, each held once. -/
structure Outers where
  descriptors : List Outer := []
  deriving Inhabited

/-- Where a parent takes the value of a child's outer variable from. -/
inductive Capture where
  /-- From a local slot of the parent. -/
  | slot (n : Nat)
  /-- From an outer variable of the parent. -/
  | outer (n : Nat)
  deriving DecidableEq, Repr

/-- The instruction that follows the instantiation of a child, one for each of its outer variables.
-/
def Capture.instruction : Capture → Except Error Instruction
  | slot n => Instruction.withUnsigned .captureLocal n
  | outer n => Instruction.withUnsigned .captureOuter n

namespace Outers

/-- The index of a descriptor, which is appended if it is new. -/
def add (outers : Outers) (o : Outer) : Except Error (Nat × Outers) :=
  match outers.descriptors.idxOf? o with
  | some index => .ok (index, outers)
  | none =>
    if Instruction.maxUnsigned < outers.descriptors.length then
      .error (.overflow .outerSlots outers.descriptors.length Instruction.maxUnsigned)
    else .ok (outers.descriptors.length, { descriptors := outers.descriptors ++ [o] })

theorem getElem?_of_add {outers after : Outers} {o : Outer} {i : Nat}
    (h : outers.add o = .ok (i, after)) : after.descriptors[i]? = some o := by
  unfold add at h
  split at h
  · next index hf =>
    simp only [Except.ok.injEq, Prod.mk.injEq] at h
    obtain ⟨hi, he, _⟩ := List.findIdx?_eq_some_iff_getElem.mp hf
    rw [← h.1, ← h.2, List.getElem?_eq_getElem hi, eq_of_beq he]
  · split at h
    · simp at h
    · simp only [Except.ok.injEq, Prod.mk.injEq] at h
      rw [← h.1, ← h.2]
      simp

/-- What the ending of a scope settles: the descriptors as its parent sees them, the captures that
fill them, and the descriptors of the parent. -/
structure Relay where
  settled : List Outer
  captures : List Capture
  parent : Outers

/-- Settles the descriptors of a child against its parent: a variable of the parent is captured from
its slot, and one from further out becomes an outer variable of the parent itself. -/
def relay (parent : Outers) : List Outer → Except Error Relay
  | [] => .ok ⟨[], [], parent⟩
  | o :: os =>
    if o.up ≤ 1 then do
      let r ← relay parent os
      pure { r with settled := o :: r.settled, captures := .slot o.slot :: r.captures }
    else do
      let (index, parent) ← parent.add ⟨o.slot, o.up - 1⟩
      let r ← relay parent os
      pure { r with settled := ⟨index, 1⟩ :: r.settled, captures := .outer index :: r.captures }

end Outers

end StackCode
