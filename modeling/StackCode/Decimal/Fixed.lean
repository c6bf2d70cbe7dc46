/-!
# Percentages with one place

A share as a percentage, computed in binary floating point with fifty-three bits and written with
one digit behind the point.

* `roundDiv`: a quotient rounded to the nearest number, a half to the even one;
* `Binary`: numbers `m · 2 ^ q`, and `Binary.ofRatio`, the one nearest to a quotient;
* `percentage`: a share as a text.

`two_mul_roundDiv_sub_le` says that rounding is off by half a unit at most.
-/

namespace StackCode.Decimal

/-- The number nearest to `n / d`; a half goes to the even neighbour. -/
def roundDiv (n d : Nat) : Nat :=
  let q := n / d
  let r := n % d
  if 2 * r < d then q else if d < 2 * r then q + 1 else q + q % 2

/-- Rounding is off by half a unit at most. -/
theorem two_mul_roundDiv_sub_le {n d : Nat} (hd : 0 < d) :
    2 * (roundDiv n d * d) ≤ 2 * n + d ∧ 2 * n ≤ 2 * (roundDiv n d * d) + d := by
  have h := Nat.div_add_mod n d
  have hr := Nat.mod_lt n hd
  have hc : d * (n / d) = n / d * d := Nat.mul_comm _ _
  unfold roundDiv
  simp only
  split
  · omega
  · split
    · rw [Nat.add_mul]; omega
    · have hp : n / d % 2 = 0 ∨ n / d % 2 = 1 := by omega
      rcases hp with hp | hp <;> rw [hp] <;> simp only [Nat.add_zero, Nat.add_mul] <;> omega

/-- The number `m · 2 ^ q`. -/
structure Binary where
  m : Nat
  q : Int
  deriving DecidableEq, Repr

/-- The number with a significand of fifty-three bits that is nearest to `n / d`; a half goes to the
even significand. -/
def Binary.ofRatio (n d : Nat) : Binary :=
  let guess : Int := (Nat.log2 n : Int) - Nat.log2 d - 53
  let rounded (q : Int) : Binary := ⟨roundDiv (n * Nat.pow 2 (-q).toNat) (d * Nat.pow 2 q.toNat), q⟩
  let low := rounded guess
  if low.m < 0x20000000000000 then low else rounded (guess + 1)

/-- The number times `k`, rounded again. -/
def Binary.times (b : Binary) (k : Nat) : Binary :=
  Binary.ofRatio (b.m * k * Nat.pow 2 b.q.toNat) (Nat.pow 2 (-b.q).toNat)

/-- How many tenths the number has, rounded. -/
def Binary.tenths (b : Binary) : Nat :=
  roundDiv (b.m * 10 * Nat.pow 2 b.q.toNat) (Nat.pow 2 (-b.q).toNat)

/-- The share `part / whole` in percent, with one digit behind the point. -/
def percentage (part whole : Nat) : String :=
  let t := ((Binary.ofRatio part whole).times 100).tenths
  s!"{t / 10}.{t % 10}"

end StackCode.Decimal
