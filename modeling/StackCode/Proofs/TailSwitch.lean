import StackCode.Proofs.LoweredPairs

/-!
# With and without tail calls

Whether calls of a function to itself become tail calls does not change what a program means: the units
that come of it differ only in their tail calls.

* `untailed_of_compile`: the two code objects of a program that is compiled with tail calls and
  without.

Each tail call is a call on the other side. Where it was the whole returned expression, a return is
inserted behind it; where it was a branch, there are only jumps between it and a return. The tail calls
in the code of a unit are the returned calls of its tree, as often as they are lowered.
-/

namespace StackCode

/-- The scripts of a program with and without tail calls. -/
theorem Program.untails_script (config : Config) {program : List Stmt} {c c' : CodeObject}
    (hc : compile { config with tailCalls := true } program = .ok c)
    (hc' : compile { config with tailCalls := false } program = .ok c') :
    Script.Untails (Program.script { config with tailCalls := false } program) []
      (Program.script { config with tailCalls := true } program)
      (Program.script { config with tailCalls := false } program) (Program.tails program) := by
  have hctx : ContextPair { config := { config with tailCalls := true } }
      { config := { config with tailCalls := false } } {} :=
    ⟨rfl, rfl, rfl, rfl, rfl, rfl, rfl, rfl, rfl, rfl, .nil⟩
  obtain ⟨s, hs⟩ := Option.ne_none_iff_exists'.mp (Program.rest?_of_compile hc)
  have hdraft : Draft.Untails (fun _ => True) false
      (Program.draft { config with tailCalls := true } program)
      (Program.draft { config with tailCalls := false } program) (Program.tails program) :=
    (Stmt.untails_lowerAll program _ _ _ _ hctx).before .returnNil
  have hscript := (hdraft {} s hs).2 _ [] [] [] [] .none rfl trivial
    (fun h => absurd h Bool.false_ne_true) .done
  simp only [List.append_nil, Tails.append_none] at hscript
  rw [Program.script_of_compile hc, Program.script_of_compile hc']
  exact hscript

/-- The units of a program that is compiled with tail calls and without differ only in their tail
calls. -/
theorem untailed_of_compile (config : Config) (program : List Stmt) {c c' : CodeObject}
    (hc : compile { config with tailCalls := true } program = .ok c)
    (hc' : compile { config with tailCalls := false } program = .ok c') :
    Untailed (Program.tails program) c c' := by
  have hscript := Program.untails_script config hc hc'
  obtain ⟨final, ha⟩ := compile_eq_ok.mp hc
  obtain ⟨final', ha'⟩ := compile_eq_ok.mp hc'
  obtain ⟨b, s, hb, -, hrec, -, rfl, -⟩ := assemble_eq_ok.mp ha
  obtain ⟨b', s', hb', -, hrec', -, rfl, -⟩ := assemble_eq_ok.mp ha'
  have hstart : (Assembler.start { config with tailCalls := true }).Beside
      (Script.Owes (Program.script { config with tailCalls := false } program)
        (Assembler.start { config with tailCalls := false })) .none 0
      (Assembler.start { config with tailCalls := false }) :=
    ⟨.new, .nil, rfl, rfl⟩
  obtain ⟨bound, hbeside⟩ :=
    hscript.run hstart (.nil _ _) (List.nil_append _).symm rfl hb hb'
  rw [Tails.none_append] at hbeside
  have hunits := hscript.finish hbeside .new .new hb hb' hrec hrec' s.outers
  have hsame : { s' with outers := s.outers } = s' := by
    obtain ⟨-, code, -, rfl⟩ := Scope.reconcile_eq_ok.mp hrec
    obtain ⟨-, code', -, rfl⟩ := Scope.reconcile_eq_ok.mp hrec'
    simp only [← hbeside.current.tables.outers]
  rw [hsame] at hunits
  exact hunits

/-- A function that calls itself as the whole returned expression and in a branch of it:

      fn f(n) { var m = n; if (m) { return f(m); } return n ? f(n) : m; } -/
def selfCalls : List Stmt :=
  [onFirstLine (.function "f" (.mk [.mk "n" none] false false
    [onFirstLine (.var "m" (some (.name "n"))),
      onFirstLine (.ifElse (.name "m")
        (onFirstLine (.ret (some (.call 1 (.name "f") [.positional (.name "m")])))) none),
      onFirstLine (.ret (some (.conditional (.name "n")
        (.call 1 (.name "f") [.positional (.name "n")]) (.name "m"))))]))]

theorem untailed_selfCalls :
    Program.tails selfCalls = .mk [] [.mk [true, false] []]
      ∧ ∃ c c', compile { Config.debug with tailCalls := true } selfCalls = .ok c
        ∧ compile { Config.debug with tailCalls := false } selfCalls = .ok c'
        ∧ Untailed (Program.tails selfCalls) c c' := by
  have hok : (compile { Config.debug with tailCalls := true } selfCalls).toOption.isSome = true := by
    decide +kernel
  have hok' :
      (compile { Config.debug with tailCalls := false } selfCalls).toOption.isSome = true := by
    decide +kernel
  obtain ⟨c, hc⟩ := Option.isSome_iff_exists.mp hok
  obtain ⟨c', hc'⟩ := Option.isSome_iff_exists.mp hok'
  have hc := eq_ok_of_toOption hc
  have hc' := eq_ok_of_toOption hc'
  exact ⟨by rfl, c, c', hc, hc', untailed_of_compile .debug selfCalls hc hc'⟩

end StackCode
