import StackCode.Proofs.Emission

/-!
# The units of a script

Every unit of the tree that a script is assembled to is that of a script of its own, which is run while
the whole script is run.

* `Step.RunsInside`, `Step.RunsUnit`: the script of a unit is run while a script is run;
* `Assembler.Becomes`: the unit that is being written ends;
* `Step.exists_runsInside`: where the children of a unit come from;
* `exists_runsUnit_of_compile`: where the units of a compiled program come from.
-/

namespace StackCode

/-- While a script is run from `a`, the script of a unit inside it is run from one state to another. -/
inductive Step.RunsInside (script : Script) (a : Assembler) :
    Script → Assembler → Assembler → Prop where
  | intro {op : Opcode} {kind : ScopeKind} {signature : Signature} {body : Script}
      {b c d e : Assembler} {s : Scope} {n : Nat}
      (hp : Step.Performs script a (.unit op kind signature body) c d)
      (he : Assembler.enterScope kind signature c = .ok n e)
      (hd : declareAll signature.params e.current = .ok () s)
      (hb : Step.runAll body { e with current := s } = .ok () b) :
      RunsInside script a body { e with current := s } b

/-- While a script is run from `a`, the script of a unit, the outermost one included, is run from one
state to another. -/
inductive Step.RunsUnit (script : Script) (a : Assembler) :
    Script → Assembler → Assembler → Prop where
  | whole {b : Assembler} (h : Step.runAll script a = .ok () b) : RunsUnit script a script a b
  | inside {body : Script} {start b : Assembler} (h : Step.RunsInside script a body start b) :
      RunsUnit script a body start b

/-- The unit that is being written ends and becomes the code object `u`. -/
def Assembler.Becomes (b : Assembler) (u : CodeObject) : Prop :=
  ∃ s outers, Scope.reconcile b.current = .ok () s ∧ u = { s with outers }.toCodeObject

/-! ### Where units come from -/

/-- What is run inside the rest of a script is run inside the script. -/
theorem Step.RunsInside.later {x : Step} {xs body : Script} {a b start c : Assembler}
    (hx : Step.run x a = .ok () b) (h : Step.RunsInside xs b body start c) :
    Step.RunsInside (x :: xs) a body start c := by
  cases h with
  | intro hp he hd hb => exact .intro (.later hx hp) he hd hb

/-- What is run inside the body of a unit is run inside the script. -/
theorem Step.RunsInside.inside {op : Opcode} {kind : ScopeKind} {signature : Signature}
    {body xs inner : Script} {a b start c : Assembler} {s : Scope} {n : Nat}
    (he : Assembler.enterScope kind signature a = .ok n b)
    (hd : declareAll signature.params b.current = .ok () s)
    (h : Step.RunsInside body { b with current := s } inner start c) :
    Step.RunsInside (.unit op kind signature body :: xs) a inner start c := by
  cases h with
  | intro hp he' hd' hb' => exact .intro (.inside he hd hp) he' hd' hb'

/-- Steps other than units make no children. -/
theorem Step.children_of_run {x : Step} {a b : Assembler}
    (hx : ∀ op kind signature body, x ≠ .unit op kind signature body)
    (h : Step.run x a = .ok () b) : b.current.children = a.current.children := by
  cases x with
  | unit op kind signature body => exact absurd rfl (hx op kind signature body)
  | fail e => exact absurd h Edit.throw_ne_ok
  | newLabel =>
    obtain ⟨l, h⟩ := Edit.ignore_eq_ok.mp h
    obtain ⟨s, hs, rfl⟩ := Assembler.onCurrent_eq_ok.mp h
    obtain ⟨-, rfl⟩ := Scope.newLabel_eq_ok.mp hs
    rfl
  | jump op l =>
    obtain ⟨p, h⟩ := Edit.ignore_eq_ok.mp h
    obtain ⟨s, hs, rfl⟩ := Assembler.onCurrent_eq_ok.mp h
    obtain ⟨-, -, -, rfl⟩ := Scope.emitJump_eq_ok.mp hs
    rfl
  | place l =>
    obtain ⟨s, hs, rfl⟩ := Assembler.onCurrent_eq_ok.mp h
    obtain ⟨-, -, rfl⟩ := Scope.placeLabel_eq_ok.mp hs
    rfl
  | receive =>
    simp only [run] at h
    obtain ⟨s, hs, rfl⟩ := Assembler.onCurrent_eq_ok.mp h
    obtain rfl := Scope.receive_eq_ok.mp hs
    rfl
  | discard =>
    obtain ⟨s, hs, rfl⟩ := Assembler.onCurrent_eq_ok.mp h
    obtain ⟨-, rfl⟩ | ⟨-, -, rfl⟩ := Scope.discard_eq_ok.mp hs
    · rfl
    · rfl
  | markLine _ | declare _ | enterBlock | leaveBlock | protect =>
    obtain ⟨-, t, ht, hb | ⟨line, -, hb⟩⟩ := run_quiet rfl h
    · rw [hb]
      exact ht.children
    · rw [hb]
      exact ht.children
  | op _ | count _ _ | pair _ _ _ | loadConst _ | named _ _ | slot _ _ | loadName _ | storeName _ =>
    obtain ⟨-, t, i, ht, -, hb⟩ := run_write rfl h
    rw [hb]
    exact ht.children

/-- A unit is made. It and the units inside it are those of scripts, given what comes of its body. -/
theorem Step.exists_runsInside_of_unit {op : Opcode} {kind : ScopeKind} {signature : Signature}
    {body xs : Script} {a c : Assembler} (hx : Step.run (.unit op kind signature body) a = .ok () c)
    (hinner : ∀ e d, Step.runAll body e = .ok () d → ∀ k ∈ d.current.children,
      k ∈ e.current.children ∨ ∀ u, k.Contains u →
        ∃ inner start b, Step.RunsInside body e inner start b ∧ b.Becomes u)
    (k : CodeObject) (hk : k ∈ c.current.children) :
    k ∈ a.current.children ∨ ∀ u, k.Contains u → ∃ inner start b,
      Step.RunsInside (.unit op kind signature body :: xs) a inner start b ∧ b.Becomes u := by
  obtain ⟨n, e, s, d, child, f, he, hd, hb, hl, hf⟩ := Step.run_unit_eq_ok.mp hx
  have hfresh : s.children = #[] := by
    rw [(Scope.alike_of_declareAll hd).children]
    obtain ⟨-, rfl⟩ := Assembler.enterScope_eq_ok.mp he
    rfl
  obtain ⟨parent, rest, t, relay, hparent, -, hrec, -, rfl, rfl⟩ :=
    Assembler.leaveScope_eq_ok.mp hl
  obtain ⟨-, -, rfl⟩ := Assembler.eq_of_emitChild hf
  have hparent' : parent = a.current := by
    have henc := (Step.frame_of_runAll body hb).1
    obtain ⟨-, rfl⟩ := Assembler.enterScope_eq_ok.mp he
    exact (List.cons.inj (hparent.symm.trans henc)).1
  subst hparent'
  rw [Scope.children_appendedAll] at hk
  obtain hk | rfl := Array.mem_push.mp hk
  · exact .inl hk
  refine .inr fun u hu => ?_
  cases hu with
  | self => exact ⟨body, _, d, .intro (.here hx) he hd hb, t, _, hrec, rfl⟩
  | @child _ k' _ hk' hu =>
    obtain ⟨-, code, -, rfl⟩ := Scope.reconcile_eq_ok.mp hrec
    obtain hk' | hk' := hinner _ d hb k' (Array.mem_toList_iff.mp hk')
    · rw [hfresh] at hk'
      exact absurd hk' (Array.not_mem_empty k')
    · obtain ⟨inner, start, b, hruns, hbecomes⟩ := hk' u hu
      exact ⟨inner, start, b, hruns.inside he hd, hbecomes⟩

/-- The units that a script makes are those of scripts that are run inside it. -/
theorem Step.exists_runsInside (xs : Script) {a b : Assembler} (hr : Step.runAll xs a = .ok () b)
    (k : CodeObject) (hk : k ∈ b.current.children) :
    k ∈ a.current.children ∨ ∀ u, k.Contains u →
      ∃ body start d, Step.RunsInside xs a body start d ∧ d.Becomes u := by
  cases xs with
  | nil =>
    obtain ⟨-, rfl⟩ := Edit.pure_eq_ok.mp hr
    exact .inl hk
  | cons x xs =>
    obtain ⟨c, hx, hr⟩ := Step.runAll_cons_eq_ok.mp hr
    obtain hk | hk := Step.exists_runsInside xs hr k hk
    · by_cases hunit : ∃ op kind signature body, x = .unit op kind signature body
      · obtain ⟨op, kind, signature, body, rfl⟩ := hunit
        exact Step.exists_runsInside_of_unit hx
          (fun e d hb => Step.exists_runsInside body hb) k hk
      · rw [Step.children_of_run (fun op kind signature body hx => hunit ⟨_, _, _, _, hx⟩) hx] at hk
        exact .inl hk
    · refine .inr fun u hu => ?_
      obtain ⟨body, start, d, hruns, hbecomes⟩ := hk u hu
      exact ⟨body, start, d, hruns.later hx, hbecomes⟩
termination_by sizeOf xs

/-- The units of a compiled program are those of scripts that are run while it is compiled. -/
theorem exists_runsUnit_of_compile {config : Config} {program : List Stmt} {c u : CodeObject}
    (hc : compile config program = .ok c) (hu : c.Contains u) :
    ∃ script start b,
      Step.RunsUnit (Program.script config program) (Assembler.start config) script start b
        ∧ b.Becomes u := by
  obtain ⟨final, ha⟩ := compile_eq_ok.mp hc
  obtain ⟨b, s, hb, -, hrec, -, rfl, -⟩ := assemble_eq_ok.mp ha
  cases hu with
  | self => exact ⟨_, _, b, .whole hb, s, s.outers, hrec, rfl⟩
  | @child _ k _ hk hu =>
    obtain ⟨-, code, -, rfl⟩ := Scope.reconcile_eq_ok.mp hrec
    obtain hk | hk := Step.exists_runsInside _ hb k (Array.mem_toList_iff.mp hk)
    · exact absurd hk (Array.not_mem_empty k)
    · obtain ⟨body, start, d, hruns, hbecomes⟩ := hk u hu
      exact ⟨body, start, d, .inside hruns, hbecomes⟩

end StackCode
