import StackCode.Proofs.LoweredFrames
import StackCode.Proofs.LoweredOrder
import StackCode.Proofs.Paths

/-!
# Handlers are balanced

Wherever a path through compiled code comes to, the installed handlers depend on the position alone,
and none is left behind by a return. This holds as long as no `break` or `continue` in a cleanup
means a loop of the region that is being left; where one does, the jump leads into a region whose
handlers are gone.

* `Program.flows_of_compile`: the script of a program that compiles flows, if its exits are good;
* `lawful_sameGuards`: exits that are not stale find the handlers of their loop;
* `handlersBalanced_of_compile`: every unit of a compiled program is balanced;
* `not_handlersBalanced_strayBreak`: a `break` in a cleanup that jumps into its own region.
-/

namespace StackCode

/-- The script of a program that compiles flows, if its exits are good. -/
theorem Program.flows_of_compile {M : Frame → Frame → Prop} {good : Exit → Prop}
    (law : Lawful M good) {config : Config} {program : List Stmt} {c : CodeObject}
    (hc : compile config program = .ok c) (hx : ∀ x ∈ Program.exits program, good x) :
    ∃ o, Flows M (Program.script config program) .start o := by
  rw [Program.script_of_compile hc]
  exact Program.flows law config hx

/-- Exits that are not stale find the handlers of their loop. -/
theorem lawful_sameGuards : Lawful Frame.SameGuards fun x => x.stale = false :=
  ⟨fun _ => rfl, fun hx hs => hs hx⟩

/-- In every unit of a compiled program all paths to an instruction have installed the same handlers,
no handler is removed where there is none, and none is left behind. -/
theorem handlersBalanced_of_compile {config : Config} {program : List Stmt} {c u : CodeObject}
    (hx : ∀ x ∈ Program.exits program, x.stale = false) (hc : compile config program = .ok c)
    (hu : c.Contains u) : HandlersBalanced u.code := by
  obtain ⟨o, hflow⟩ := Program.flows_of_compile lawful_sameGuards hc hx
  exact handlersBalanced_of_charted (charted_of_compile hflow hc hu)

/-- A statement on the first line. -/
def onFirstLine (form : StmtForm) : Stmt := .mk 1 form

/-- A compilation without line markers and tail calls. -/
def Config.plain : Config := { lineMarkers := false, tailCalls := false }

/-- A loop that is left, continued and returned from in the middle of a region with both clauses:

      fn f() { while (a) { try { if (b) break; return 1; } catch (e) { continue; } finally { a; } } } -/
def guardedLoop : List Stmt :=
  [onFirstLine (.function "f" (.mk [] false false [onFirstLine (.whileDo (.name "a")
    (onFirstLine (.tryCatch
      [onFirstLine (.ifElse (.name "b") (onFirstLine .breakLoop) none),
        onFirstLine (.ret (some (.literal (.bool true))))]
      (some (.mk "e" [onFirstLine .continueLoop]))
      (some [onFirstLine (.expr (.name "a"))]))))]))]

theorem handlersBalanced_guardedLoop :
    ∃ c, compile .plain guardedLoop = .ok c ∧ ∀ u, c.Contains u → HandlersBalanced u.code := by
  have hok : (compile .plain guardedLoop).toOption.isSome = true := by decide +kernel
  obtain ⟨c, hc⟩ := Option.isSome_iff_exists.mp hok
  have hc := eq_ok_of_toOption hc
  exact ⟨c, hc, fun u hu => handlersBalanced_of_compile (by decide) hc hu⟩

/-- A cleanup whose `break` means the inner loop wherever the inner loop is left by the return:

      fn f() { while (a) { try { while (b) { return; } } finally { break; } } } -/
def strayBreak : List Stmt :=
  [onFirstLine (.function "f" (.mk [] false false [onFirstLine (.whileDo (.name "a")
    (onFirstLine (.tryCatch
      [onFirstLine (.whileDo (.name "b") (onFirstLine (.ret none)))]
      none
      (some [onFirstLine .breakLoop]))))]))]

/-- The code of the function: the jump at 7 leads into the region that 6 has left.

      0 LOAD_GLOBAL a; 1 JUMP_FALSE 14; 2 TRY_FINALLY 11; 3 LOAD_GLOBAL b; 4 JUMP_FALSE 10;
      5 PUSH_NIL; 6 END_TRY; 7 JUMP 10; 8 RETURN; 9 JUMP 3; 10 END_TRY;
      11 JUMP 14; 12 END_FINALLY; 13 JUMP 0; 14 PUSH_NIL; 15 RETURN -/
def strayBreakCode : List Instruction :=
  [13, 3117, 2107, 269, 1325, 4, 61, 556, 56, 4294965548, 61, 556, 62, 4294963756, 4, 56].map (⟨·⟩)

theorem not_handlersBalanced_strayBreak :
    ∃ c u, compile .plain strayBreak = .ok c ∧ c.Contains u ∧ ¬ HandlersBalanced u.code := by
  have hcode : ((compile .plain strayBreak).toOption.bind fun c => c.children[0]?).map (·.code)
      = some strayBreakCode := by
    decide +kernel
  obtain ⟨u, hu, hcode⟩ := Option.map_eq_some_iff.mp hcode
  obtain ⟨c, hc, hu⟩ := Option.bind_eq_some_iff.mp hu
  refine ⟨c, u, eq_ok_of_toOption hc, .child (List.mem_of_getElem? hu) (.self u), fun hb => ?_⟩
  rw [hcode] at hb
  -- through the region, out of it again, and back into it without its handler
  have h₁ : HandlerPath strayBreakCode 1 [] := .next .start rfl rfl rfl rfl (by decide)
  have h₂ : HandlerPath strayBreakCode 2 [] := .next h₁ rfl rfl rfl rfl (by decide)
  have h₃ : HandlerPath strayBreakCode 3 [⟨.tryFinally, 11⟩] := .install h₂ rfl rfl rfl rfl
  have h₄ : HandlerPath strayBreakCode 4 [⟨.tryFinally, 11⟩] :=
    .next h₃ rfl rfl rfl rfl (by decide)
  have h₅ : HandlerPath strayBreakCode 5 [⟨.tryFinally, 11⟩] :=
    .next h₄ rfl rfl rfl rfl (by decide)
  have h₆ : HandlerPath strayBreakCode 6 [⟨.tryFinally, 11⟩] :=
    .next h₅ rfl rfl rfl rfl (by decide)
  have h₇ : HandlerPath strayBreakCode 7 [] := .remove h₆ rfl rfl
  have h₁₀ : HandlerPath strayBreakCode 10 [] := .jump h₇ rfl rfl rfl rfl
  exact hb.endTry 10 [] _ h₁₀ rfl rfl rfl

end StackCode
