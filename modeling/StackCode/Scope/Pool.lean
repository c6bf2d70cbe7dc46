import StackCode.Value.Basic
import StackCode.Instruction

/-!
# Constant pools

The literals of one scope. Identical literals share one entry, and an entry keeps its index forever.

* `Pool`, `Pool.find?`, `Pool.add`;
* `Pool.findName?`, `Pool.addName`: the same for names, which are kept as string constants.

`get?_of_add` says that the index of a constant leads back to it, and `values_of_add` that no entry
is ever moved.
-/

namespace StackCode

/-- The constants of a scope in the order of their first use. -/
structure Pool where
  values : Array Value := #[]
  deriving Inhabited

namespace Pool

/-- The entry identical to `v`. -/
def find? (pool : Pool) (v : Value) : Option Nat := pool.values.findIdx? (·.same v)

/-- The index of `v`, with a new entry where there was none. -/
def add (pool : Pool) (v : Value) : Except Error (Nat × Pool) :=
  match pool.find? v with
  | some index => .ok (index, pool)
  | none =>
    if Instruction.maxUnsigned < pool.values.size then
      .error (.overflow .constants pool.values.size Instruction.maxUnsigned)
    else .ok (pool.values.size, { values := pool.values.push v })

/-- Whether a value is the string `name`. -/
def isName (name : String) : Value → Bool
  | .string s => s == name
  | _ => false

/-- The entry that holds `name`. -/
def findName? (pool : Pool) (name : String) : Option Nat := pool.values.findIdx? (isName name)

/-- The index of the name of a member or a global variable. -/
def addName (pool : Pool) (name : String) : Except Error (Nat × Pool) :=
  match pool.findName? name with
  | some index => .ok (index, pool)
  | none => pool.add (.string name)

/-- The entry with an index. -/
def get? (pool : Pool) (index : Nat) : Option Value := pool.values[index]?

/-! ### An index leads back to its constant -/

theorem get?_of_find? {pool : Pool} {v : Value} {i : Nat} (h : pool.find? v = some i) :
    pool.get? i = some v := by
  obtain ⟨hi, hs, _⟩ := Array.findIdx?_eq_some_iff_getElem.mp h
  rw [get?, Array.getElem?_eq_getElem hi, Value.same_iff.mp hs]

theorem values_of_add {pool p : Pool} {v : Value} {i : Nat} (h : pool.add v = .ok (i, p)) :
    p.values = pool.values ∨ p.values = pool.values.push v := by
  unfold add at h
  split at h
  · simp only [Except.ok.injEq, Prod.mk.injEq] at h
    exact .inl (h.2 ▸ rfl)
  · split at h
    · simp at h
    · simp only [Except.ok.injEq, Prod.mk.injEq] at h
      exact .inr (h.2 ▸ rfl)

theorem get?_of_add {pool p : Pool} {v : Value} {i : Nat} (h : pool.add v = .ok (i, p)) :
    p.get? i = some v := by
  unfold add at h
  split at h
  · next index hf =>
    simp only [Except.ok.injEq, Prod.mk.injEq] at h
    rw [← h.1, ← h.2]
    exact get?_of_find? hf
  · split at h
    · simp at h
    · simp only [Except.ok.injEq, Prod.mk.injEq] at h
      rw [← h.1, ← h.2, get?]
      simp

end Pool

end StackCode
