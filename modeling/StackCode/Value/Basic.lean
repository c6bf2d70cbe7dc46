import StackCode.Double

/-!
# Literal values

The values a program can write down. The compiler never computes with them: it keeps them in a
constant pool and refers to them by index.

* `Value`, with `Value.tag` and `Value.kindName`;
* `Value.same`: identity, by which constants are shared; reals are compared bit by bit;
* `Value.agrees`: numeric equality, which differs from identity on NaN and on the zeros.

`same_iff` says that identity is equality of values; from it comes their decidable equality.
-/

namespace StackCode

/-- A literal of the language. -/
inductive Value where
  | nil
  | bool (b : Bool)
  | integer (n : Int64)
  | real (x : Double)
  | string (s : String)
  | array (items : List Value)
  | map (entries : List (Value × Value))
  deriving Repr, Inhabited

namespace Value

/-- The byte that marks the kind of a value in a code file. -/
def tag : Value → Nat
  | nil => 0
  | bool _ => 1
  | integer _ => 2
  | real _ => 3
  | string _ => 4
  | array _ => 5
  | map _ => 6

/-- The name of the kind of a value. -/
def kindName : Value → String
  | nil => "nil"
  | bool _ => "bool"
  | integer _ => "integer"
  | real _ => "real"
  | string _ => "string"
  | array _ => "array"
  | map _ => "map"

/-! ### Identity -/

mutual

/-- Whether two values are identical, reals bit for bit. -/
def same : Value → Value → Bool
  | nil, nil => true
  | bool a, bool b => a == b
  | integer a, integer b => a == b
  | real a, real b => a.bits == b.bits
  | string a, string b => a == b
  | array as, array bs => sameItems as bs
  | map as, map bs => sameEntries as bs
  | _, _ => false

/-- Identity of items, place by place. -/
def sameItems : List Value → List Value → Bool
  | [], [] => true
  | a :: as, b :: bs => same a b && sameItems as bs
  | _, _ => false

/-- Identity of keys and values, place by place. -/
def sameEntries : List (Value × Value) → List (Value × Value) → Bool
  | [], [] => true
  | (k, a) :: as, (l, b) :: bs => same k l && same a b && sameEntries as bs
  | _, _ => false

end

mutual

theorem eq_of_same : ∀ {a b : Value}, same a b = true → a = b
  | nil, b, h => by cases b <;> simp_all [same]
  | bool x, b, h => by cases b <;> simp_all [same]
  | integer x, b, h => by cases b <;> simp_all [same]
  | real ⟨x⟩, b, h => by
    cases b with
    | real y => cases y; simp_all [same]
    | _ => simp [same] at h
  | string x, b, h => by cases b <;> simp_all [same]
  | array as, b, h => by
    cases b with
    | array bs =>
      rw [same] at h
      rw [eq_of_sameItems h]
    | _ => simp [same] at h
  | map as, b, h => by
    cases b with
    | map bs =>
      rw [same] at h
      rw [eq_of_sameEntries h]
    | _ => simp [same] at h

theorem eq_of_sameItems : ∀ {as bs : List Value}, sameItems as bs = true → as = bs
  | [], bs, h => by cases bs <;> simp_all [sameItems]
  | a :: as, bs, h => by
    cases bs with
    | nil => simp [sameItems] at h
    | cons b bs =>
      simp only [sameItems, Bool.and_eq_true] at h
      rw [eq_of_same h.1, eq_of_sameItems h.2]

theorem eq_of_sameEntries : ∀ {as bs : List (Value × Value)}, sameEntries as bs = true → as = bs
  | [], bs, h => by cases bs <;> simp_all [sameEntries]
  | (k, a) :: as, bs, h => by
    cases bs with
    | nil => simp [sameEntries] at h
    | cons e bs =>
      obtain ⟨l, b⟩ := e
      simp only [sameEntries, Bool.and_eq_true] at h
      rw [eq_of_same h.1.1, eq_of_same h.1.2, eq_of_sameEntries h.2]

end

mutual

theorem same_refl : ∀ a : Value, same a a = true
  | nil => rfl
  | bool _ => by simp [same]
  | integer _ => by simp [same]
  | real _ => by simp [same]
  | string _ => by simp [same]
  | array as => by rw [same]; exact sameItems_refl as
  | map as => by rw [same]; exact sameEntries_refl as

theorem sameItems_refl : ∀ as : List Value, sameItems as as = true
  | [] => rfl
  | a :: as => by simp [sameItems, same_refl a, sameItems_refl as]

theorem sameEntries_refl : ∀ as : List (Value × Value), sameEntries as as = true
  | [] => rfl
  | (k, a) :: as => by simp [sameEntries, same_refl k, same_refl a, sameEntries_refl as]

end

/-- Identical values are equal, and conversely. -/
theorem same_iff {a b : Value} : same a b = true ↔ a = b :=
  ⟨eq_of_same, fun h => h ▸ same_refl a⟩

instance : DecidableEq Value := fun a b =>
  if h : same a b = true then isTrue (eq_of_same h)
  else isFalse fun e => h (e ▸ same_refl a)

/-! ### Numeric equality -/

mutual

/-- Whether two values are equal as numbers, texts and collections; a NaN agrees with nothing and
the two zeros agree with each other. -/
def agrees : Value → Value → Bool
  | nil, nil => true
  | bool a, bool b => a == b
  | integer a, integer b => a == b
  | real a, real b => a.equals b
  | string a, string b => a == b
  | array as, array bs => itemsAgree as bs
  | map as, map bs => entriesAgree as bs
  | _, _ => false

/-- Numeric equality of items, place by place. -/
def itemsAgree : List Value → List Value → Bool
  | [], [] => true
  | a :: as, b :: bs => agrees a b && itemsAgree as bs
  | _, _ => false

/-- Numeric equality of keys and values, place by place. -/
def entriesAgree : List (Value × Value) → List (Value × Value) → Bool
  | [], [] => true
  | (k, a) :: as, (l, b) :: bs => agrees k l && agrees a b && entriesAgree as bs
  | _, _ => false

end

end Value

end StackCode
