import StackCode.Proofs.HandlerBalance

/-!
# The height of the stack is bounded

On every path through compiled code each instruction finds the values that it takes, and the frame
has room for the stack. The height is followed in the order of emission only, which is enough
because jumps find the height of their labels. The exception is a `break` or `continue` in a cleanup
that runs while a value is about to be returned: the value is left on the stack.

* `lawful_sameHeight`: exits with as many values to be returned as their loop find its height;
* `heightsBounded_of_compile`: the heights in every unit of a compiled program are bounded;
* `not_heightsBounded_pilingReturn`: a `continue` in a cleanup that leaves a value behind each time.
-/

namespace StackCode

/-- Exits with as many values to be returned as their loop find its height. -/
theorem lawful_sameHeight : Lawful Frame.SameHeight fun x => x.here = x.there :=
  ⟨fun _ => rfl, fun hx _ => hx⟩

/-- In every unit of a compiled program each instruction finds what it takes, whatever path leads
there, and the frame has room for the stack. -/
theorem heightsBounded_of_compile {config : Config} {program : List Stmt} {c u : CodeObject}
    (hx : ∀ x ∈ Program.exits program, x.here = x.there) (hc : compile config program = .ok c)
    (hu : c.Contains u) : HeightsBounded u := by
  obtain ⟨o, hflow⟩ := Program.flows_of_compile lawful_sameHeight hc hx
  exact heightsBounded_of_charted (charted_of_compile hflow hc hu)

theorem heightsBounded_guardedLoop :
    ∃ c, compile .plain guardedLoop = .ok c ∧ ∀ u, c.Contains u → HeightsBounded u := by
  have hok : (compile .plain guardedLoop).toOption.isSome = true := by decide +kernel
  obtain ⟨c, hc⟩ := Option.isSome_iff_exists.mp hok
  have hc := eq_ok_of_toOption hc
  exact ⟨c, hc, fun u hu => heightsBounded_of_compile (by decide) hc hu⟩

/-- A cleanup that continues the loop around it, again and again with one value more to be returned:

      fn f() { while (a) { try { return; } finally { continue; } } } -/
def pilingReturn : List Stmt :=
  [onFirstLine (.function "f" (.mk [] false false [onFirstLine (.whileDo (.name "a")
    (onFirstLine (.tryCatch [onFirstLine (.ret none)] none (some [onFirstLine .continueLoop]))))]))]

/-- The code of the function: the jump at 5 leads back to the start with the value pushed at 3.

      0 LOAD_GLOBAL a; 1 JUMP_FALSE 11; 2 TRY_FINALLY 8; 3 PUSH_NIL; 4 END_TRY; 5 JUMP 0; 6 RETURN;
      7 END_TRY; 8 JUMP 0; 9 END_FINALLY; 10 JUMP 0; 11 PUSH_NIL; 12 RETURN -/
def pilingReturnCode : List Instruction :=
  [13, 2349, 1339, 4, 61, 4294965804, 56, 61, 4294965036, 62, 4294964524, 4, 56].map (⟨·⟩)

/-- The start is reached at every height. -/
theorem heightPath_pilingReturnCode (d : Nat) : HeightPath pilingReturnCode 0 d := by
  induction d with
  | zero => exact .start
  | succ d ih =>
    have h₁ : HeightPath pilingReturnCode 1 (d + 1) := .next ih rfl rfl rfl
    have h₂ : HeightPath pilingReturnCode 2 d := .next h₁ rfl rfl rfl
    have h₃ : HeightPath pilingReturnCode 3 d := .next h₂ rfl rfl rfl
    have h₄ : HeightPath pilingReturnCode 4 (d + 1) := .next h₃ rfl rfl rfl
    have h₅ : HeightPath pilingReturnCode 5 (d + 1) := .next h₄ rfl rfl rfl
    exact .land h₅ rfl rfl rfl

theorem not_heightsBounded_pilingReturn :
    ∃ c u, compile .plain pilingReturn = .ok c ∧ c.Contains u ∧ ¬ HeightsBounded u := by
  have hcode : ((compile .plain pilingReturn).toOption.bind fun c => c.children[0]?).map
      (fun u => (u.code, u.tableSize)) = some (pilingReturnCode, 1) := by
    decide +kernel
  obtain ⟨u, hu, hcode⟩ := Option.map_eq_some_iff.mp hcode
  obtain ⟨c, hc, hu⟩ := Option.bind_eq_some_iff.mp hu
  obtain ⟨hcode, hsize⟩ := Prod.mk.inj hcode
  refine ⟨c, u, eq_ok_of_toOption hc, .child (List.mem_of_getElem? hu) (.self u), fun hb => ?_⟩
  have hpath : HeightPath u.code 0 (u.maxStack + 1) := by
    rw [hcode]
    exact heightPath_pilingReturnCode _
  have hroom := hb.room 0 (u.maxStack + 1) hpath (by rw [hcode, hsize]; decide)
  omega

end StackCode
