import StackCode.Proofs.DebugInfo
import StackCode.Proofs.LoweredRegular
import StackCode.Proofs.UnlinedScopes

/-!
# Compiling with and without line marks

Line marks are instructions, but nothing else depends on whether they are there: the code with them,
without them, is the code that is compiled without them.

* `Draft.Follows`, `Program.script_lineMarkers`: the scripts are the same;
* `Script.Sealed`: how the code ends before a value is dropped;
* `Assembler.Unlined`: two assemblies, one of which marks lines;
* `Assembler.Unlined.step`, `markLine`, `discard`, `unit`: one step on both sides;
* `Script.Regular.unlined`: a whole script;
* `compile_debugInfo_lineMarkers`: neither lifetimes nor line marks influence the code of a program.

The one decision that looks at positions is whether a duplication can be taken back. No line is marked
inside an expression, so the value that is dropped, and the value that was duplicated before, was pushed by
an instruction that is no line mark.
-/

namespace StackCode

/-! ### Scripts -/

namespace Draft

/-- Where the first draft is complete, the second one is the same. -/
def Follows (d d' : Draft) : Prop :=
  ∀ s s₁, d.rest? s = some s₁ → d'.rest? s = some s₁ ∧ d'.steps s = d.steps s

theorem congruence_follows : Congruence Follows where
  refl _ _ _ h := ⟨h, rfl⟩
  append := by
    intro d d' e e' hd he s s₂ h
    obtain ⟨s₁, h₁, h₂⟩ := exists_of_append h
    obtain ⟨h₁', hsteps₁⟩ := hd s s₁ h₁
    obtain ⟨h₂', hsteps₂⟩ := he s₁ s₂ h₂
    rw [rest?_append_of_some e' h₁', steps_append_of_some e' h₁', steps_append_of_some e h₁, hsteps₁,
      hsteps₂]
    exact ⟨h₂', rfl⟩
  withLabel := by
    intro f f' h s s₁ hs
    rw [rest?_withLabel] at hs
    obtain ⟨hs', hsteps⟩ := h _ _ _ hs
    rw [rest?_withLabel, steps_withLabel, steps_withLabel, hsteps]
    exact ⟨hs', rfl⟩
  withLabels := by
    intro n f f' h s s₁ hs
    rw [rest?_withLabels] at hs
    obtain ⟨hs', hsteps⟩ := h _ _ _ hs
    rw [rest?_withLabels, steps_withLabels, steps_withLabels, hsteps]
    exact ⟨hs', rfl⟩
  withHidden := by
    intro what f f' h s s₁ hs
    rw [rest?_withHidden] at hs
    obtain ⟨hs', hsteps⟩ := h _ _ _ hs
    rw [rest?_withHidden, steps_withHidden, steps_withHidden, hsteps]
    exact ⟨hs', rfl⟩
  unit := by
    intro op kind signature d d' h s s₁ hs
    rw [rest?_unit] at hs
    obtain ⟨s₂, hs₂, rfl⟩ := Option.map_eq_some_iff.mp hs
    obtain ⟨hs', hsteps⟩ := h _ _ hs₂
    rw [rest?_unit, steps_unit, steps_unit, hsteps, hs']
    exact ⟨rfl, rfl⟩

end Draft

/-- Where a line can be marked, it makes no difference to the script whether it is. -/
theorem follows_markLine (config : Config) (line : Nat) :
    Draft.Follows (markLine { config := { config with lineMarkers := true } } line)
      (markLine { config := { config with lineMarkers := false } } line) := by
  intro s s₁ h
  unfold markLine at h ⊢
  rw [if_neg (by simp)]
  split at h
  · cases h
  · next hline => exact ⟨h, by rw [if_neg hline]⟩

/-- The script of a program that compiles with line marks does not depend on whether lines are
marked. -/
theorem Program.script_lineMarkers {config : Config} {program : List Stmt} {c : CodeObject}
    (hc : compile { config with lineMarkers := true } program = .ok c) :
    Program.script { config with lineMarkers := false } program
      = Program.script { config with lineMarkers := true } program := by
  have halike : Context.Alike Draft.Follows { config := { config with lineMarkers := true } }
      { config := { config with lineMarkers := false } } :=
    ⟨follows_markLine config, rfl, rfl, rfl, rfl, rfl, .nil⟩
  have hdraft := Draft.congruence_follows.append
    (Stmt.alike_lowerAll Draft.congruence_follows program _ _ halike)
    (Draft.congruence_follows.refl returnNil)
  obtain ⟨s, hs⟩ := Option.ne_none_iff_exists'.mp (Program.rest?_of_compile hc)
  exact congrArg Script.cut (hdraft {} s hs).2

/-! ### How the code ends -/

theorem Step.Writes.isLine {x : Step} {i : Instruction} (hx : x.opcode? ≠ some .line)
    (h : x.Writes i) : i.isLine = false := by
  have hne : ∀ {o : Opcode}, some o ≠ some Opcode.line → o ≠ .line :=
    fun hne heq => hne (congrArg some heq)
  cases x with
  | op o =>
    obtain rfl := h
    exact Instruction.isLine_eq_false (Instruction.opcode?_plain o) (hne hx)
  | count o n =>
    obtain ⟨hn, rfl⟩ := h
    exact Instruction.isLine_eq_false (Instruction.opcode?_pack (Nat.lt_succ_of_le hn)) (hne hx)
  | pair o m n =>
    obtain ⟨⟨hm, hn⟩, rfl⟩ := h
    unfold Instruction.maxPair at hm hn
    exact Instruction.isLine_eq_false (Instruction.opcode?_pack (by omega)) (hne hx)
  | loadConst v =>
    obtain ⟨n, hn, rfl⟩ := h
    exact Instruction.isLine_eq_false (Instruction.opcode?_pack (Nat.lt_succ_of_le hn)) nofun
  | named o name | slot o name =>
    obtain ⟨n, hn, rfl⟩ := h
    exact Instruction.isLine_eq_false (Instruction.opcode?_pack (Nat.lt_succ_of_le hn)) (hne hx)
  | loadName name | storeName name =>
    obtain ⟨place, hn, rfl⟩ := h
    exact Instruction.isLine_eq_false (Instruction.opcode?_pack (Nat.lt_succ_of_le hn))
      (by cases place <;> nofun)
  | _ => exact h.elim

/-- A regular step that is not asked to mark a line marks none. -/
theorem Step.opcode?_of_isRegular {generator : Bool} {args : Nat} {x : Step}
    (hx : x.isRegular generator args = true) : x.opcode? ≠ some .line := by
  intro hop
  cases x with
  | op o | count o _ | pair o _ _ | jump o _ | named o _ | slot o _ =>
    obtain rfl := Option.some.inj hop
    cases hx
  | unit _ _ _ _ => cases hx
  | _ => cases hop

/-- The code is sealed behind a firm step. -/
theorem Step.sealed_of_isFirm {x : Step} {a b : Assembler} (hx : x.isFirm = true)
    (hline : x.opcode? ≠ some .line) (h : run x a = .ok () b) : b.current.Sealed := by
  cases x with
  | op _ | count _ _ | pair _ _ _ | named _ _ | loadConst _ | loadName _ =>
    obtain ⟨-, t, i, -, hi, hb⟩ := run_write rfl h
    obtain ⟨op, hop, hst⟩ := hi.isStore hx
    have hmark := hi.isLine hline
    have hlast : b.current.code.toList = t.code.toList ++ [i] := by
      rw [hb]
      exact Array.toList_push
    refine .firm hlast hop hst ?_
    rintro rfl
    rw [Instruction.isLine, hop] at hmark
    cases hmark
  | unit op kind signature body =>
    obtain ⟨before, i, o, hcode, hi, rfl | ho⟩ := last_of_unit h
    · exact .firm hcode hi (Bool.not_eq_true' _ |>.mp hx) fun heq => hline (congrArg some heq)
    · exact .firm hcode hi (by cases o <;> first | rfl | cases ho) (by rintro rfl; cases ho)
  | place l =>
    obtain ⟨s, hs, rfl⟩ := Assembler.onCurrent_eq_ok.mp h
    obtain ⟨hl, -, rfl⟩ := Scope.placeLabel_eq_ok.mp hs
    refine .label l ?_
    rw [Labels.position?_placed hl, if_pos rfl]
  | _ => cases hx

/-- Only a step that marks a line appends a line mark. -/
theorem Step.isLine_of_push {generator : Bool} {args : Nat} {x : Step} {a b : Assembler}
    {i : Instruction} (hx : x.isRegular generator args = true) (hindifferent : x.isIndifferent = true)
    (h : run x a = .ok () b) (hpush : b.current.code = a.current.code.push i) : i.isLine = false := by
  have hne : b.current.code ≠ a.current.code := by
    intro heq
    have hsize := congrArg Array.size (heq.symm.trans hpush)
    rw [Array.size_push] at hsize
    omega
  cases x with
  | fail _ | discard => cases hx
  | markLine _ | unit _ _ _ _ => cases hindifferent
  | op _ | count _ _ | pair _ _ _ | named _ _ | slot _ _ | loadConst _ | loadName _ | storeName _ =>
    obtain ⟨-, t, j, ht, hj, hb⟩ := run_write rfl h
    have hcode : b.current.code = a.current.code.push j := by
      rw [hb, ← ht.code]
      rfl
    rw [Array.push_inj_right.mp (hpush.symm.trans hcode)]
    exact hj.isLine (opcode?_of_isRegular hx)
  | jump o l =>
    obtain ⟨p, h⟩ := Edit.ignore_eq_ok.mp h
    obtain ⟨s, hs, rfl⟩ := Assembler.onCurrent_eq_ok.mp h
    obtain ⟨-, -, -, rfl⟩ := Scope.emitJump_eq_ok.mp hs
    have hcode : a.current.code.push (.plain o) = a.current.code.push i := hpush
    rw [← Array.push_inj_right.mp hcode]
    exact Instruction.isLine_eq_false (Instruction.opcode?_plain o)
      (by rintro rfl; cases hx)
  | newLabel =>
    obtain ⟨l, h⟩ := Edit.ignore_eq_ok.mp h
    obtain ⟨s, hs, rfl⟩ := Assembler.onCurrent_eq_ok.mp h
    obtain ⟨-, rfl⟩ := Scope.newLabel_eq_ok.mp hs
    exact absurd rfl hne
  | place l =>
    obtain ⟨s, hs, rfl⟩ := Assembler.onCurrent_eq_ok.mp h
    obtain ⟨-, -, rfl⟩ := Scope.placeLabel_eq_ok.mp hs
    exact absurd rfl hne
  | receive =>
    simp only [run] at h
    obtain ⟨s, hs, rfl⟩ := Assembler.onCurrent_eq_ok.mp h
    obtain rfl := Scope.receive_eq_ok.mp hs
    exact absurd rfl hne
  | declare name =>
    obtain ⟨n, h⟩ := Edit.ignore_eq_ok.mp h
    obtain ⟨s, hs, rfl⟩ := Assembler.onCurrent_eq_ok.mp h
    exact absurd (Scope.alike_of_declare hs).code hne
  | enterBlock =>
    simp only [run] at h
    obtain ⟨s, hs, rfl⟩ := Assembler.onCurrent_eq_ok.mp h
    obtain rfl := Scope.enterBlock_eq_ok.mp hs
    exact absurd rfl hne
  | leaveBlock =>
    obtain ⟨s, hs, rfl⟩ := Assembler.onCurrent_eq_ok.mp h
    obtain ⟨marker, blocks, -, rfl⟩ := Scope.leaveBlock_eq_ok.mp hs
    exact absurd rfl hne
  | protect =>
    simp only [run] at h
    obtain ⟨s, hs, rfl⟩ := Assembler.onCurrent_eq_ok.mp h
    obtain rfl := Scope.protect_eq_ok.mp hs
    exact absurd rfl hne

/-- What the last steps of a script mean for the end of the code. -/
structure Script.Sealed (done : Script) (s : Scope) : Prop where
  calm : Script.Calm done → s.Sealed
  dup : ∀ before, done = before ++ [.op .dup] → Script.Calm before →
    ∃ front i, s.code.toList = front ++ [i] ∧ i.isLine = false ∧ s.Held front.length
  place : ∀ before l, done = before ++ [.place l] → s.labels.position? l = some s.code.size

namespace Script.Sealed

variable {done : Script} {s : Scope} {x : Step} {a b : Assembler}

theorem nil (s : Scope) : Sealed [] s := by
  refine ⟨?_, fun before h => by simp at h, fun before l h => by simp at h⟩
  rw [calm_iff]
  rintro (⟨before, x, h, -⟩ | ⟨before, x, h, -⟩ | ⟨before, l, h⟩) <;> simp at h

/-- A value was dropped: nothing is known of what the code ends in. -/
theorem discard : Sealed (done ++ [.discard]) s := by
  refine ⟨fun h => absurd h not_calm_discard, fun before h => ?_, fun before l h => ?_⟩
  · exact absurd (List.singleton_inj.mp (List.append_inj' h rfl).2) nofun
  · exact absurd (List.singleton_inj.mp (List.append_inj' h rfl).2) nofun

/-- One more step. -/
theorem step (h : Sealed done a.current) (hline : x.opcode? ≠ some .line)
    (hr : Step.run x a = .ok () b) : Sealed (done ++ [x]) b.current := by
  have hwrite : x.isWrite = true → ∃ i, b.current.code.toList = a.current.code.toList ++ [i]
      ∧ b.current.labels = a.current.labels ∧ i.isLine = false := by
    intro hx
    obtain ⟨-, t, i, ht, hi, hb⟩ := Step.run_write hx hr
    refine ⟨i, ?_, ?_, hi.isLine hline⟩
    · rw [hb, ← ht.code]
      exact Array.toList_push
    · rw [hb]
      exact ht.labels
  refine ⟨?_, ?_, ?_⟩
  · rw [calm_iff]
    rintro (⟨before, y, heq, hy⟩ | ⟨before, y, heq, hcalm⟩ | ⟨before, l, heq⟩)
    · obtain rfl := List.singleton_inj.mp (List.append_inj' heq rfl).2
      exact Step.sealed_of_isFirm hy hline hr
    · obtain ⟨hdone, hx⟩ := List.append_inj' heq rfl
      obtain rfl := List.singleton_inj.mp hx
      obtain ⟨front, i, hcode, hi, hheld⟩ := h.dup before hdone hcalm
      obtain ⟨j, hcode', hlabels, hj⟩ := hwrite rfl
      rw [hcode] at hcode'
      exact .stored hcode' hi hj (hheld.concat (by rw [hcode', hcode]) hlabels)
    · obtain ⟨hdone, hx⟩ := List.append_inj' heq rfl
      obtain rfl := List.singleton_inj.mp hx
      have hplace := h.place before l hdone
      obtain ⟨s, hs, rfl⟩ := Assembler.onCurrent_eq_ok.mp hr
      obtain ⟨marker, blocks, -, rfl⟩ := Scope.leaveBlock_eq_ok.mp hs
      exact .label l hplace
  · intro before heq hcalm
    obtain ⟨rfl, hx⟩ := List.append_inj' heq rfl
    obtain rfl := List.singleton_inj.mp hx
    obtain ⟨i, hcode, hlabels, hi⟩ := hwrite rfl
    refine ⟨_, i, hcode, hi, ?_⟩
    rw [Array.length_toList]
    exact (h.calm hcalm).held.concat hcode hlabels
  · intro before l heq
    obtain rfl := List.singleton_inj.mp (List.append_inj' heq rfl).2
    obtain ⟨s, hs, rfl⟩ := Assembler.onCurrent_eq_ok.mp hr
    obtain ⟨hl, -, rfl⟩ := Scope.placeLabel_eq_ok.mp hs
    rw [Labels.position?_placed hl, if_pos rfl]

end Script.Sealed

/-! ### Both assemblies -/

/-- Nothing is hidden but whether lines are marked, and which one was marked last. -/
def Veil.lines (config : Config) (line : Option Nat) : Veil where
  config _ := config
  recorder r := r
  lastLine _ := line
  unit c := c
  recorder_map _ _ := rfl

/-- An action behind the veil is the same action. -/
theorem Veil.acts_of_lines {config : Config} {line : Option Nat} {action : Action} {s t : Scope}
    (h : ((lines config line).scope s).Acts action ((lines config line).scope t)) :
    s.Acts action t := by
  have hchildren : t.children = s.children := by
    simpa [scope, lines] using h.children
  cases action <;> exact ⟨h.code, h.labels, h.recorder, h.depth, h.peak, hchildren⟩

/-- Two assemblies correspond, the second of which marks no lines. -/
structure Assembler.Unlined (bound : Nat) (a a' : Assembler) : Prop where
  tables : a.current.SameTables { a'.current with lastLine := a.current.lastLine }
  enclosing : List.Forall₂ (fun s s' : Scope => s'.locals = s.locals ∧ s'.ended = s.ended)
    a.enclosing a'.enclosing
  debugInfo : a'.config.debugInfo = a.config.debugInfo
  unmarked : a'.config.lineMarkers = false
  current : a.current.Unlined bound a'.current
  children : List.Forall₂ StackCode.Unlined a.current.children.toList a'.current.children.toList

namespace Assembler.Unlined

variable {bound bound' n n' : Nat} {a a' b b' c c' d d' e e' : Assembler} {x : Step}
  {s s' : Scope} {kind : ScopeKind} {signature : Signature} {child child' : Child}

/-- Behind the veil both assemblies agree on all tables. -/
theorem abreast (h : a.Unlined bound a') :
    a.Abreast ((Veil.lines a.config a.current.lastLine).assembler a') := by
  refine ⟨{ h.tables with }, ?_, rfl, rfl⟩
  exact List.forall₂_map_right_iff.mpr h.enclosing

/-- Both sides take the same action, and no line is marked. -/
theorem parallel {action : Action} (h : a.Unlined bound a')
    (hp : x.Parallel action a b ((Veil.lines a.config a.current.lastLine).assembler a')
      ((Veil.lines a.config a.current.lastLine).assembler b'))
    (hconfig : b.config = a.config) (hconfig' : b'.config = a'.config)
    (hline : ∀ i, action = .write i → i.isLine = false) :
    b.Unlined (x.boundAfter a.current bound) b' := by
  have hright : a'.current.Acts action b'.current := Veil.acts_of_lines hp.right
  have hcurrent := h.current.after hp.fits hline
  rw [hp.bound] at hcurrent
  refine ⟨{ hp.abreast.tables with lastLine := rfl }, ?_, ?_, ?_, ?_, ?_⟩
  · exact List.forall₂_map_right_iff.mp hp.abreast.enclosing
  · rw [hconfig, hconfig']
    exact h.debugInfo
  · rw [hconfig']
    exact h.unmarked
  · exact hcurrent.congr hp.left.code hp.left.labels hp.left.recorder hp.left.depth hp.left.peak
      hright.code hright.labels hright.recorder hright.depth hright.peak
  · rw [hp.left.children, hright.children]
    exact h.children

/-- Both sides take a regular step that marks no line. -/
theorem indifferent {generator : Bool} {args : Nat} (h : a.Unlined bound a')
    (hx : x.isRegular generator args = true) (hindifferent : x.isIndifferent = true)
    (hb : Step.run x a = .ok () b) (hb' : Step.run x a' = .ok () b') :
    b.Unlined (x.boundAfter a.current bound) b' := by
  have hveiled := (Veil.respects_step (v := Veil.lines a.config a.current.lastLine) hindifferent a').ok
    hb'
  obtain ⟨action, hp⟩ := h.abreast.step hx hb hveiled
  refine h.parallel hp (Step.frame_of_run x hb).2 (Step.frame_of_run x hb').2 ?_
  rintro i rfl
  exact Step.isLine_of_push hx hindifferent hb hp.left.code

/-- One side may mark a line, and the other one does nothing. -/
theorem markLine {line : Nat} (h : a.Unlined bound a') (hb : Step.run (.markLine line) a = .ok () b)
    (hb' : Step.run (.markLine line) a' = .ok () b') : b.Unlined bound b' := by
  obtain ⟨-, rfl⟩ | ⟨hm', -⟩ := Assembler.markLine_eq_ok.mp hb'
  · obtain ⟨-, rfl⟩ | ⟨-, s, hs, rfl⟩ := Assembler.markLine_eq_ok.mp hb
    · exact h
    · obtain ⟨-, rfl⟩ | ⟨-, hn, -, rfl⟩ := Scope.markLine_eq_ok.mp hs
      · exact h
      · have hmarked := (h.current.congr (t := { a.current with lastLine := some line }) rfl rfl rfl rfl
          rfl rfl rfl rfl rfl rfl).line hn
        exact ⟨{ h.tables with lastLine := rfl }, h.enclosing, h.debugInfo, h.unmarked, hmarked,
          h.children⟩
  · rw [h.unmarked] at hm'
    cases hm'

/-- Both sides take a regular step. -/
theorem step {generator : Bool} {args : Nat} (h : a.Unlined bound a')
    (hx : x.isRegular generator args = true) (hb : Step.run x a = .ok () b)
    (hb' : Step.run x a' = .ok () b') : b.Unlined (x.boundAfter a.current bound) b' := by
  cases x with
  | markLine line => exact h.markLine hb hb'
  | unit _ _ _ _ => cases hx
  | _ => exact h.indifferent hx rfl hb hb'

/-- Both sides drop a value, and both take a duplication back or none does. -/
theorem discard (h : a.Unlined bound a') (hb : Step.run .discard a = .ok () b)
    (hb' : Step.run .discard a' = .ok () b') (hs : a.current.Sealed)
    (hspare : a.current.endsInSpareDup = true → bound + 2 ≤ a.current.code.size) :
    ∃ bound', b.Unlined bound' b' := by
  have hsame := h.current.endsInSpareDup_eq hs
  obtain ⟨s, hd, rfl⟩ := Assembler.onCurrent_eq_ok.mp hb
  obtain ⟨s', hd', rfl⟩ := Assembler.onCurrent_eq_ok.mp hb'
  obtain ⟨hdup, rfl⟩ | ⟨hdup, -, rfl⟩ := Scope.discard_eq_ok.mp hd
  · obtain ⟨-, rfl⟩ | ⟨hdup', -⟩ := Scope.discard_eq_ok.mp hd'
    · exact ⟨_, { h.tables with }, h.enclosing, h.debugInfo, h.unmarked,
        h.current.elide hdup (hspare hdup), h.children⟩
    · rw [hsame, hdup] at hdup'
      cases hdup'
  · obtain ⟨hdup', -⟩ | ⟨-, -, rfl⟩ := Scope.discard_eq_ok.mp hd'
    · rw [hsame, hdup] at hdup'
      cases hdup'
    · exact ⟨bound, { h.tables with }, h.enclosing, h.debugInfo, h.unmarked,
        h.current.write (Instruction.opcode?_plain .pop)
          (Instruction.isLine_eq_false (Instruction.opcode?_plain .pop) nofun), h.children⟩

/-! ### Units -/

theorem declareAll {names : List String} (h : a.Unlined bound a')
    (hd : StackCode.declareAll names a.current = .ok () s)
    (hd' : StackCode.declareAll names a'.current = .ok () s') :
    ∃ bound', Assembler.Unlined bound' { a with current := s } { a' with current := s' } := by
  induction names generalizing a a' bound with
  | nil =>
    obtain ⟨-, rfl⟩ := Edit.pure_eq_ok.mp hd
    obtain ⟨-, rfl⟩ := Edit.pure_eq_ok.mp hd'
    exact ⟨bound, h⟩
  | cons name names ih =>
    obtain ⟨n, r, hr, hd⟩ := Edit.bind_eq_ok.mp hd
    obtain ⟨n', r', hr', hd'⟩ := Edit.bind_eq_ok.mp hd'
    have hveiled := (Veil.respects_declare (v := Veil.lines a.config a.current.lastLine) name
      a'.current).ok hr'
    obtain ⟨fresh, hp⟩ := h.abreast.declare hr hveiled
    have hnext : Assembler.Unlined _ { a with current := r } { a' with current := r' } :=
      h.parallel hp rfl rfl nofun
    -- the goal alone would be read as one about `a` and `a'`
    have hrest := ih hnext hd hd'
    exact hrest

/-- Both sides enter a unit. -/
theorem entered (h : a.Unlined bound a') (he : Assembler.enterScope kind signature a = .ok n e)
    (he' : Assembler.enterScope kind signature a' = .ok n' e')
    (hd : StackCode.declareAll signature.params e.current = .ok () s)
    (hd' : StackCode.declareAll signature.params e'.current = .ok () s') :
    ∃ bound', Assembler.Unlined bound' { e with current := s } { e' with current := s' } := by
  obtain ⟨-, rfl⟩ := Assembler.enterScope_eq_ok.mp he
  obtain ⟨-, rfl⟩ := Assembler.enterScope_eq_ok.mp he'
  refine Assembler.Unlined.declareAll (?_ : Assembler.Unlined 0 _ _) hd hd'
  refine ⟨⟨rfl, rfl, rfl, rfl, rfl, rfl, rfl, rfl⟩, ?_, h.debugInfo, h.unmarked, ?_, .nil⟩
  · exact .cons ⟨h.tables.locals, h.tables.ended⟩ h.enclosing
  · simp only [h.debugInfo]
    exact .new

/-- Both sides leave a unit, which becomes a child of the unit around it. -/
theorem left (h : a.Unlined bound a') (hc : c.Unlined bound' c')
    (henc : c.enclosing = a.current :: a.enclosing)
    (henc' : c'.enclosing = a'.current :: a'.enclosing)
    (hl : Assembler.leaveScope c = .ok child d) (hl' : Assembler.leaveScope c' = .ok child' d')
    (hunit : ∀ t t' outers, Scope.reconcile c.current = .ok () t →
      Scope.reconcile c'.current = .ok () t' →
      StackCode.Unlined { t with outers }.toCodeObject { t' with outers }.toCodeObject) :
    child' = child ∧ d.Unlined bound d' := by
  obtain ⟨parent, rest, t, relay, hp, -, ht, hr, rfl, rfl⟩ := Assembler.leaveScope_eq_ok.mp hl
  obtain ⟨parent', rest', t', relay', hp', -, ht', hr', rfl, rfl⟩ :=
    Assembler.leaveScope_eq_ok.mp hl'
  obtain ⟨rfl, rfl⟩ := List.cons.inj (hp.symm.trans henc)
  obtain ⟨rfl, rfl⟩ := List.cons.inj (hp'.symm.trans henc')
  have houters : t'.outers = t.outers := by
    obtain ⟨-, code, -, rfl⟩ := Scope.reconcile_eq_ok.mp ht
    obtain ⟨-, code', -, rfl⟩ := Scope.reconcile_eq_ok.mp ht'
    exact hc.tables.outers
  have hparent : a'.current.outers = a.current.outers := h.tables.outers
  rw [houters, hparent, hr] at hr'
  obtain rfl := Except.ok.inj hr'
  have hsize : a'.current.children.size = a.current.children.size := by
    rw [← Array.length_toList, ← Array.length_toList]
    exact h.children.length_eq.symm
  rw [hsize]
  refine ⟨rfl, { h.tables with outers := rfl }, h.enclosing, hc.debugInfo, hc.unmarked,
    h.current.congr rfl rfl rfl rfl rfl rfl rfl rfl rfl rfl, ?_⟩
  show List.Forall₂ _ (a.current.children.push _).toList (a'.current.children.push _).toList
  rw [Array.toList_push, Array.toList_push]
  exact List.rel_append h.children (.cons (hunit t t' ⟨relay.settled⟩ ht ht') .nil)

/-- Both sides write a unit, given what comes of its body. -/
theorem unit {op : Opcode} {body : Script} (h : a.Unlined bound a') (hop : op.instantiates = true)
    (hproper : ∀ y ∈ body, y.isProper = true)
    (hb : Step.run (.unit op kind signature body) a = .ok () b)
    (hb' : Step.run (.unit op kind signature body) a' = .ok () b')
    (hbody : ∀ {bound c c' d d'}, Assembler.Unlined bound c c' → Step.runAll body c = .ok () d →
      Step.runAll body c' = .ok () d' → ∃ bound', d.Unlined bound' d') :
    b.Unlined bound b' := by
  obtain ⟨n, e, s, f, child, g, he, hd, hf, hl, hg⟩ := Step.run_unit_eq_ok.mp hb
  obtain ⟨n', e', s', f', child', g', he', hd', hf', hl', hg'⟩ := Step.run_unit_eq_ok.mp hb'
  obtain ⟨bound₀, hentered⟩ := h.entered he he' hd hd'
  obtain ⟨bound', hinside⟩ := hbody hentered hf hf'
  have henc : f.enclosing = a.current :: a.enclosing := by
    rw [(Step.frame_of_runAll _ hf).1]
    obtain ⟨-, rfl⟩ := Assembler.enterScope_eq_ok.mp he
    rfl
  have henc' : f'.enclosing = a'.current :: a'.enclosing := by
    rw [(Step.frame_of_runAll _ hf').1]
    obtain ⟨-, rfl⟩ := Assembler.enterScope_eq_ok.mp he'
    rfl
  have hlog := @Logged.run [] { e with current := s } _ _ _ (.entered he hd) rfl hproper hf
  have hlog' := @Logged.run [] { e' with current := s' } _ _ _ (.entered he' hd') rfl hproper hf'
  obtain ⟨rfl, hleft⟩ := h.left hinside henc henc' hl hl' fun t t' outers ht ht' =>
    hinside.current.unlined hinside.tables hinside.children hlog hlog' ht ht' outers
  obtain ⟨hn, hcaptures, rfl⟩ := Assembler.eq_of_emitChild hg
  obtain ⟨-, -, rfl⟩ := Assembler.eq_of_emitChild hg'
  -- the instance and its captures are the same on both sides
  have hwords : ∀ i ∈ .pack op child'.index :: child'.captures.map Capture.word,
      ∃ o, i.opcode? = some o ∧ o ≠ .line := by
    refine List.forall_mem_cons.mpr ⟨⟨op, Instruction.opcode?_pack (Nat.lt_succ_of_le hn), ?_⟩, ?_⟩
    · rintro rfl
      cases hop
    · intro i hi
      obtain ⟨k, hk, rfl⟩ := List.mem_map.mp hi
      exact ⟨k.op, Capture.opcode?_word (hcaptures k hk), by cases k <;> nofun⟩
  have hwritten := hleft.current.writeAll hwords
  obtain ⟨code, depth, peak, heq⟩ := Scope.exists_appendedAll g.current
    (.pack op child'.index :: child'.captures.map Capture.word)
  obtain ⟨code', depth', peak', heq'⟩ := Scope.exists_appendedAll g'.current
    (.pack op child'.index :: child'.captures.map Capture.word)
  rw [heq, heq'] at hwritten ⊢
  exact ⟨{ hleft.tables with }, hleft.enclosing, hleft.debugInfo, hleft.unmarked, hwritten,
    hleft.children⟩

end Assembler.Unlined

/-! ### Whole scripts -/

/-- The code that a regular script leaves without line marks comes from the code with them. The
induction is on the script, the units inside it included. -/
theorem Script.Regular.unlined {generator : Bool} {args bound : Nat} {done xs : Script}
    {a a' b b' : Assembler} (h : Script.Regular generator args done xs) (ha : a.Unlined bound a')
    (hp : Script.Poised done a.current bound) (hs : Script.Sealed done a.current)
    (hr : Step.runAll xs a = .ok () b) (hr' : Step.runAll xs a' = .ok () b') :
    ∃ bound', b.Unlined bound' b' := by
  induction h generalizing a a' b b' bound with
  | done =>
    obtain ⟨-, rfl⟩ := Edit.pure_eq_ok.mp hr
    obtain ⟨-, rfl⟩ := Edit.pure_eq_ok.mp hr'
    exact ⟨bound, ha⟩
  | step hx _ ih =>
    obtain ⟨c, hc, hr⟩ := Step.runAll_cons_eq_ok.mp hr
    obtain ⟨c', hc', hr'⟩ := Step.runAll_cons_eq_ok.mp hr'
    exact ih (ha.step hx hc hc') (hp.step ha.current.bounded hc)
      (hs.step (Step.opcode?_of_isRegular hx) hc) hr hr'
  | discard hdone _ ih =>
    obtain ⟨c, hc, hr⟩ := Step.runAll_cons_eq_ok.mp hr
    obtain ⟨c', hc', hr'⟩ := Step.runAll_cons_eq_ok.mp hr'
    obtain ⟨bound', hstep⟩ := ha.discard hc hc' (hs.calm hdone) (hp.calm hdone)
    exact ih hstep .discard .discard hr hr'
  | @unit _ _ _ _ _ op _ _ hop _ hbody _ _ _ ihbody ih =>
    obtain ⟨c, hc, hr⟩ := Step.runAll_cons_eq_ok.mp hr
    obtain ⟨c', hc', hr'⟩ := Step.runAll_cons_eq_ok.mp hr'
    have hstep := ha.unit hop hbody.isProper hc hc' fun hin hf hf' =>
      ihbody hin (.nil _ _) (.nil _) hf hf'
    have hline : some op ≠ some Opcode.line := by
      rintro ⟨⟩
      cases hop
    exact ih hstep (hp.step ha.current.bounded hc) (hs.step hline hc) hr hr'

/-- The units of a program that is compiled without line marks come from those that are compiled with
them. -/
theorem unlined_of_compile (config : Config) {program : List Stmt} {c c' : CodeObject}
    (hc : compile { config with lineMarkers := true } program = .ok c)
    (hc' : compile { config with lineMarkers := false } program = .ok c') : Unlined c c' := by
  obtain ⟨hregular, -⟩ := Program.regular hc
  obtain ⟨final, ha⟩ := compile_eq_ok.mp hc
  obtain ⟨final', ha'⟩ := compile_eq_ok.mp hc'
  rw [Program.script_lineMarkers hc] at ha'
  obtain ⟨b, s, hb, -, hrec, -, rfl, -⟩ := assemble_eq_ok.mp ha
  obtain ⟨b', s', hb', -, hrec', -, rfl, -⟩ := assemble_eq_ok.mp ha'
  have hstart : (Assembler.start { config with lineMarkers := true }).Unlined 0
      (Assembler.start { config with lineMarkers := false }) :=
    ⟨⟨rfl, rfl, rfl, rfl, rfl, rfl, rfl, rfl⟩, .nil, rfl, rfl, .new, .nil⟩
  obtain ⟨bound, hunlined⟩ := hregular.unlined hstart (.nil _ _) (.nil _) hb hb'
  have hlog := @Logged.run [] (.start _) (.start _) b _ .new rfl hregular.isProper hb
  have hlog' := @Logged.run [] (.start _) (.start _) b' _ .new rfl hregular.isProper hb'
  have hunits := hunlined.current.unlined hunlined.tables hunlined.children hlog hlog' hrec hrec'
    s.outers
  have hsame : { s' with outers := s.outers } = s' := by
    obtain ⟨-, code, -, rfl⟩ := Scope.reconcile_eq_ok.mp hrec
    obtain ⟨-, code', -, rfl⟩ := Scope.reconcile_eq_ok.mp hrec'
    have houters : b'.current.outers = b.current.outers := hunlined.tables.outers
    simp only [← houters]
  rw [hsame] at hunits
  exact hunits

/-- Neither lifetimes nor line marks influence the code of a program. Without lifetimes, it compiles to
the same tree, less the tables of lifetimes and the bits that announce them, or fails with the same error.
Without line marks, each unit of the tree is that with line marks, less these, and jumps and lifetimes are
adjusted. -/
theorem compile_debugInfo_lineMarkers (tailCalls : Bool) (program : List Stmt) :
    (∀ lineMarkers, compile { debugInfo := false, lineMarkers, tailCalls } program
      = (compile { debugInfo := true, lineMarkers, tailCalls } program).map
          CodeObject.withoutLifetimes)
    ∧ ∀ debugInfo c c', compile { debugInfo, lineMarkers := true, tailCalls } program = .ok c →
        compile { debugInfo, lineMarkers := false, tailCalls } program = .ok c' → Unlined c c' := by
  refine ⟨fun lineMarkers => ?_, fun debugInfo c c' hc hc' => ?_⟩
  · exact compile_debugInfo { debugInfo := true, lineMarkers, tailCalls } program
  · exact unlined_of_compile { debugInfo, tailCalls } hc hc'

/-- A loop on several lines, which is left to a line mark:

      fn f(a) {
        while (a) {
          var b = g;
          a = b; }
        return a; } -/
def markedLoop : List Stmt :=
  [.mk 1 (.function "f" (.mk [.mk "a" none] false false
    [.mk 2 (.whileDo (.name "a") (.mk 2 (.block
        [.mk 3 (.var "b" (some (.name "g"))), .mk 4 (.expr (.assign 4 (.name "a") (.name "b")))]))),
      .mk 5 (.ret (some (.name "a")))]))]

theorem compile_debugInfo_lineMarkers_markedLoop :
    ∃ c c', compile { debugInfo := true } markedLoop = .ok c
      ∧ compile { debugInfo := true, lineMarkers := false } markedLoop = .ok c'
      ∧ c.children.map CodeObject.lifetimes = [some [⟨"a", 0, 13⟩, ⟨"b", 5, 9⟩]]
      ∧ c'.children.map CodeObject.lifetimes = [some [⟨"a", 0, 9⟩, ⟨"b", 3, 6⟩]]
      ∧ compile { debugInfo := false } markedLoop = .ok c.withoutLifetimes ∧ Unlined c c' := by
  have hok : (compile { debugInfo := true } markedLoop).toOption.map
      (fun c => c.children.map CodeObject.lifetimes) = some [some [⟨"a", 0, 13⟩, ⟨"b", 5, 9⟩]] := by
    decide +kernel
  have hok' : (compile { debugInfo := true, lineMarkers := false } markedLoop).toOption.map
      (fun c => c.children.map CodeObject.lifetimes) = some [some [⟨"a", 0, 9⟩, ⟨"b", 3, 6⟩]] := by
    decide +kernel
  obtain ⟨c, hc, htable⟩ := Option.map_eq_some_iff.mp hok
  obtain ⟨c', hc', htable'⟩ := Option.map_eq_some_iff.mp hok'
  have hc := eq_ok_of_toOption hc
  have hc' := eq_ok_of_toOption hc'
  obtain ⟨hlifetimes, hlines⟩ := compile_debugInfo_lineMarkers true markedLoop
  refine ⟨c, c', hc, hc', htable, htable', ?_, hlines true c c' hc hc'⟩
  rw [hlifetimes true, hc]
  rfl

end StackCode
