import StackCode.Proofs.HandlerBalance
import StackCode.Proofs.LoweredRegular
import StackCode.Proofs.SpelledScopes
import StackCode.Proofs.Wiring

/-!
# Taking duplications back

Whether a duplication is taken back when the value that it leaves is dropped does not change the code
otherwise: it comes from the code with all duplications and pops by taking some of them away.

* `Assembler.Elided`: two assemblies, one of which takes duplications back;
* `Assembler.Elided.step`, `discard`, `unit`: one step on both sides;
* `Script.Regular.elided`: a whole script;
* `elided_of_compile`: a program that is compiled in both ways.

That the last two instructions belong to the value that is dropped is what makes a script regular: the
value was pushed by the step before, or by an assignment, whose duplication and store were emitted
together.
-/

namespace StackCode

/-! ### Scripts -/

theorem Step.withPops_of_isRegular {generator : Bool} {args : Nat} {x : Step}
    (hx : x.isRegular generator args = true) : x.withPops = x := by
  cases x with
  | discard | unit _ _ _ _ => cases hx
  | _ => rfl

theorem Script.isProper_withPops {xs : Script} (h : ∀ x ∈ xs, x.isProper = true) :
    ∀ y ∈ Script.withPops xs, y.isProper = true := by
  induction xs with
  | nil => exact fun y hy => absurd hy List.not_mem_nil
  | cons x xs ih =>
    obtain ⟨hx, hxs⟩ := List.forall_mem_cons.mp h
    refine List.forall_mem_cons.mpr ⟨?_, ih hxs⟩
    cases x with
    | discard => rfl
    | _ => exact hx

/-! ### Both assemblies -/

/-- Two assemblies correspond, the first of which takes duplications back. -/
structure Assembler.Elided (bound : Nat) (a a' : Assembler) : Prop where
  abreast : a.Abreast a'
  spelled : ∃ marks, a.current.Spelled marks bound a'.current
  children : ElidedAll a.current.children.toList a'.current.children.toList

namespace Assembler.Elided

variable {bound bound' n n' : Nat} {a a' b b' c c' d d' e e' : Assembler} {x : Step}
  {s s' : Scope} {kind : ScopeKind} {signature : Signature} {child child' : Child}

theorem size_bound (h : a.Elided bound a') : bound ≤ a.current.code.size := by
  obtain ⟨marks, hs⟩ := h.spelled
  exact hs.bounded

theorem parallel {action : Action} (h : a.Elided bound a') (hp : x.Parallel action a b a' b') :
    b.Elided (x.boundAfter a.current bound) b' := by
  obtain ⟨marks, hs⟩ := h.spelled
  obtain ⟨marks', hafter⟩ := hs.after hp.fits
  rw [hp.bound] at hafter
  refine ⟨hp.abreast, ⟨marks', ?_⟩, ?_⟩
  · exact hafter.congr hp.left.code hp.left.labels hp.left.recorder hp.left.depth hp.left.peak
      hp.right.code hp.right.labels hp.right.recorder hp.right.depth hp.right.peak
  · rw [hp.left.children, hp.right.children]
    exact h.children

/-- Both sides take a regular step. -/
theorem step {generator : Bool} {args : Nat} (h : a.Elided bound a')
    (hx : x.isRegular generator args = true) (hb : Step.run x a = .ok () b)
    (hb' : Step.run x a' = .ok () b') : b.Elided (x.boundAfter a.current bound) b' := by
  obtain ⟨action, hp⟩ := h.abreast.step hx hb hb'
  exact h.parallel hp

/-- One side drops a value, and the other one pops it. -/
theorem discard (h : a.Elided bound a') (hb : Step.run .discard a = .ok () b)
    (hb' : Step.run (.op .pop) a' = .ok () b')
    (hspare : a.current.endsInSpareDup = true → bound + 2 ≤ a.current.code.size) :
    ∃ bound', b.Elided bound' b' := by
  obtain rfl := Step.eq_of_run_op hb'
  obtain ⟨marks, hs⟩ := h.spelled
  cases hdup : a.current.endsInSpareDup with
  | true =>
    obtain ⟨s, hd, rfl⟩ := Assembler.onCurrent_eq_ok.mp hb
    obtain ⟨-, rfl⟩ | ⟨hkept, -⟩ := Scope.discard_eq_ok.mp hd
    · obtain ⟨marks', helide⟩ := hs.elide hdup (hspare hdup)
      exact ⟨_, h.abreast.withCurrent { h.abreast.tables with }, ⟨marks', helide⟩, h.children⟩
    · rw [hdup] at hkept
      cases hkept
  | false =>
    rw [Step.run_discard_eq_pop hdup] at hb
    obtain rfl := Step.eq_of_run_op hb
    exact ⟨bound, h.abreast.withCurrent { h.abreast.tables with },
      ⟨_, hs.write (Instruction.opcode?_plain .pop) nofun⟩, h.children⟩

/-! ### Units -/

theorem declareAll {names : List String} (h : a.Elided bound a')
    (hd : StackCode.declareAll names a.current = .ok () s)
    (hd' : StackCode.declareAll names a'.current = .ok () s') :
    ∃ bound', Assembler.Elided bound' { a with current := s } { a' with current := s' } := by
  induction names generalizing a a' bound with
  | nil =>
    obtain ⟨-, rfl⟩ := Edit.pure_eq_ok.mp hd
    obtain ⟨-, rfl⟩ := Edit.pure_eq_ok.mp hd'
    exact ⟨bound, h⟩
  | cons name names ih =>
    obtain ⟨n, r, hr, hd⟩ := Edit.bind_eq_ok.mp hd
    obtain ⟨n', r', hr', hd'⟩ := Edit.bind_eq_ok.mp hd'
    obtain ⟨fresh, hp⟩ := h.abreast.declare hr hr'
    have hnext : Assembler.Elided _ { a with current := r } { a' with current := r' } := h.parallel hp
    -- the goal alone would be read as one about `a` and `a'`
    have hrest := ih hnext hd hd'
    exact hrest

/-- Both sides enter a unit. -/
theorem entered (h : a.Elided bound a') (he : Assembler.enterScope kind signature a = .ok n e)
    (he' : Assembler.enterScope kind signature a' = .ok n' e')
    (hd : StackCode.declareAll signature.params e.current = .ok () s)
    (hd' : StackCode.declareAll signature.params e'.current = .ok () s') :
    ∃ bound', Assembler.Elided bound' { e with current := s } { e' with current := s' } := by
  obtain ⟨-, rfl⟩ := Assembler.enterScope_eq_ok.mp he
  obtain ⟨-, rfl⟩ := Assembler.enterScope_eq_ok.mp he'
  have hnames := h.abreast.tables.locals
  have hended := h.abreast.tables.ended
  refine Assembler.Elided.declareAll (?_ : Assembler.Elided 0 _ _) hd hd'
  refine ⟨⟨?_, ?_, ?_, ?_⟩, ⟨[], ?_⟩, .nil⟩
  · exact ⟨rfl, rfl, rfl, rfl, rfl, rfl, rfl, rfl⟩
  · exact .cons ⟨hnames, hended⟩ h.abreast.enclosing
  · exact h.abreast.lineMarkers
  · exact h.abreast.debugInfo
  · simp only [h.abreast.debugInfo]
    exact .new

/-- Both sides leave a unit, which becomes a child of the unit around it. -/
theorem left (h : a.Elided bound a') (hc : c.Elided bound' c')
    (henc : c.enclosing = a.current :: a.enclosing)
    (henc' : c'.enclosing = a'.current :: a'.enclosing)
    (hl : Assembler.leaveScope c = .ok child d) (hl' : Assembler.leaveScope c' = .ok child' d')
    (hunit : ∀ t t' outers, Scope.reconcile c.current = .ok () t →
      Scope.reconcile c'.current = .ok () t' →
      StackCode.Elided { t with outers }.toCodeObject { t' with outers }.toCodeObject) :
    child' = child ∧ d.Elided bound d' := by
  obtain ⟨parent, rest, t, relay, hp, -, ht, hr, rfl, rfl⟩ := Assembler.leaveScope_eq_ok.mp hl
  obtain ⟨parent', rest', t', relay', hp', -, ht', hr', rfl, rfl⟩ :=
    Assembler.leaveScope_eq_ok.mp hl'
  obtain ⟨rfl, rfl⟩ := List.cons.inj (hp.symm.trans henc)
  obtain ⟨rfl, rfl⟩ := List.cons.inj (hp'.symm.trans henc')
  have houters : t'.outers = t.outers := by
    obtain ⟨-, code, -, rfl⟩ := Scope.reconcile_eq_ok.mp ht
    obtain ⟨-, code', -, rfl⟩ := Scope.reconcile_eq_ok.mp ht'
    exact hc.abreast.tables.outers
  rw [houters, h.abreast.tables.outers, hr] at hr'
  obtain rfl := Except.ok.inj hr'
  have hsize : a'.current.children.size = a.current.children.size := by
    rw [← Array.length_toList, ← Array.length_toList]
    exact h.children.length_eq
  have hchildren := h.children.concat (hunit t t' ⟨relay.settled⟩ ht ht')
  obtain ⟨marks, hs⟩ := h.spelled
  rw [hsize]
  refine ⟨rfl, ⟨{ h.abreast.tables with outers := rfl }, h.abreast.enclosing, hc.abreast.lineMarkers,
    hc.abreast.debugInfo⟩, ⟨marks, hs.congr rfl rfl rfl rfl rfl rfl rfl rfl rfl rfl⟩, ?_⟩
  show ElidedAll (a.current.children.push _).toList (a'.current.children.push _).toList
  rw [Array.toList_push, Array.toList_push]
  exact hchildren

/-- Both sides write a unit, given what comes of its body. -/
theorem unit {op : Opcode} {body : Script} (h : a.Elided bound a') (hop : op.instantiates = true)
    (hproper : ∀ y ∈ body, y.isProper = true)
    (hb : Step.run (.unit op kind signature body) a = .ok () b)
    (hb' : Step.run (.unit op kind signature (Script.withPops body)) a' = .ok () b')
    (hbody : ∀ {bound c c' d d'}, Assembler.Elided bound c c' → Step.runAll body c = .ok () d →
      Step.runAll (Script.withPops body) c' = .ok () d' → ∃ bound', d.Elided bound' d') :
    b.Elided bound b' := by
  obtain ⟨n, e, s, f, child, g, he, hd, hf, hl, hg⟩ := Step.run_unit_eq_ok.mp hb
  obtain ⟨n', e', s', f', child', g', he', hd', hf', hl', hg'⟩ := Step.run_unit_eq_ok.mp hb'
  obtain ⟨bound₀, hentered⟩ := h.entered he he' hd hd'
  obtain ⟨bound', hinside⟩ := hbody hentered hf hf'
  have henc : f.enclosing = a.current :: a.enclosing := by
    rw [(Step.frame_of_runAll _ hf).1]
    obtain ⟨-, rfl⟩ := Assembler.enterScope_eq_ok.mp he
    rfl
  have henc' : f'.enclosing = a'.current :: a'.enclosing := by
    rw [(Step.frame_of_runAll _ hf').1]
    obtain ⟨-, rfl⟩ := Assembler.enterScope_eq_ok.mp he'
    rfl
  have hlog := @Logged.run [] { e with current := s } _ _ _ (.entered he hd) rfl hproper hf
  have hlog' := @Logged.run [] { e' with current := s' } _ _ _ (.entered he' hd') rfl
    (Script.isProper_withPops hproper) hf'
  obtain ⟨marks, hs⟩ := hinside.spelled
  obtain ⟨rfl, hleft⟩ := h.left hinside henc henc' hl hl' fun t t' outers ht ht' =>
    hs.elided hinside.abreast.tables hinside.children hlog hlog' ht ht' outers
  obtain ⟨hn, hcaptures, rfl⟩ := Assembler.eq_of_emitChild hg
  obtain ⟨-, -, rfl⟩ := Assembler.eq_of_emitChild hg'
  -- the instance and its captures are the same on both sides
  have hwords : ∀ i ∈ .pack op child'.index :: child'.captures.map Capture.word,
      ∃ o, i.opcode? = some o ∧ o ≠ .dup := by
    refine List.forall_mem_cons.mpr ⟨⟨op, Instruction.opcode?_pack (Nat.lt_succ_of_le hn), ?_⟩, ?_⟩
    · rintro rfl
      cases hop
    · intro i hi
      obtain ⟨k, hk, rfl⟩ := List.mem_map.mp hi
      exact ⟨k.op, Capture.opcode?_word (hcaptures k hk), by cases k <;> nofun⟩
  obtain ⟨marks, hs⟩ := hleft.spelled
  obtain ⟨marks', hwritten⟩ := hs.writeAll hwords
  obtain ⟨code, depth, peak, heq⟩ := Scope.exists_appendedAll g.current
    (.pack op child'.index :: child'.captures.map Capture.word)
  obtain ⟨code', depth', peak', heq'⟩ := Scope.exists_appendedAll g'.current
    (.pack op child'.index :: child'.captures.map Capture.word)
  rw [heq, heq'] at hwritten ⊢
  exact ⟨hleft.abreast.withCurrent { hleft.abreast.tables with }, ⟨marks', hwritten⟩, hleft.children⟩

end Assembler.Elided

/-! ### Whole scripts -/

/-- The code that a regular script leaves comes from the code with all pops. The induction is on the
script, the units inside it included. -/
theorem Script.Regular.elided {generator : Bool} {args bound : Nat} {done xs : Script}
    {a a' b b' : Assembler} (h : Script.Regular generator args done xs) (ha : a.Elided bound a')
    (hp : Script.Poised done a.current bound) (hr : Step.runAll xs a = .ok () b)
    (hr' : Step.runAll (Script.withPops xs) a' = .ok () b') : ∃ bound', b.Elided bound' b' := by
  induction h generalizing a a' b b' bound with
  | done =>
    obtain ⟨-, rfl⟩ := Edit.pure_eq_ok.mp hr
    obtain ⟨-, rfl⟩ := Edit.pure_eq_ok.mp hr'
    exact ⟨bound, ha⟩
  | step hx _ ih =>
    obtain ⟨c, hc, hr⟩ := Step.runAll_cons_eq_ok.mp hr
    obtain ⟨c', hc', hr'⟩ := Step.runAll_cons_eq_ok.mp hr'
    rw [Step.withPops_of_isRegular hx] at hc'
    exact ih (ha.step hx hc hc') (hp.step ha.size_bound hc) hr hr'
  | discard hdone _ ih =>
    obtain ⟨c, hc, hr⟩ := Step.runAll_cons_eq_ok.mp hr
    obtain ⟨c', hc', hr'⟩ := Step.runAll_cons_eq_ok.mp hr'
    obtain ⟨bound', hstep⟩ := ha.discard hc hc' (hp.calm hdone)
    exact ih hstep .discard hr hr'
  | unit hop _ hbody _ _ _ ihbody ih =>
    obtain ⟨c, hc, hr⟩ := Step.runAll_cons_eq_ok.mp hr
    obtain ⟨c', hc', hr'⟩ := Step.runAll_cons_eq_ok.mp hr'
    have hstep := ha.unit hop hbody.isProper hc hc' fun hin hf hf' => ihbody hin (.nil _ _) hf hf'
    exact ih hstep (hp.step ha.size_bound hc) hr hr'

theorem compileWithPops_eq_ok {config : Config} {program : List Stmt} {c : CodeObject} :
    compileWithPops config program = .ok c ↔
      ∃ final, assemble (Script.withPops (Program.script config program)) (Assembler.start config)
        = .ok c final := by
  unfold compileWithPops
  cases assemble (Script.withPops (Program.script config program)) (Assembler.start config) with
  | ok c' final =>
    simp only [Except.ok.injEq, EStateM.Result.ok.injEq]
    constructor
    · rintro rfl
      exact ⟨final, rfl, rfl⟩
    · rintro ⟨_, rfl, -⟩
      rfl
  | error e final => simp

/-- The units of a compiled program come from those that are compiled without taking duplications back:
some stores have lost the duplication before them and the pop behind them, no jump led to one of these
stores or pops, displacements and lifetimes are adjusted, and everything else is the same. -/
theorem elided_of_compile {config : Config} {program : List Stmt} {c c' : CodeObject}
    (hc : compile config program = .ok c) (hc' : compileWithPops config program = .ok c') :
    Elided c c' := by
  obtain ⟨hregular, -⟩ := Program.regular hc
  obtain ⟨final, ha⟩ := compile_eq_ok.mp hc
  obtain ⟨final', ha'⟩ := compileWithPops_eq_ok.mp hc'
  obtain ⟨b, s, hb, -, hrec, -, rfl, -⟩ := assemble_eq_ok.mp ha
  obtain ⟨b', s', hb', -, hrec', -, rfl, -⟩ := assemble_eq_ok.mp ha'
  have hstart : (Assembler.start config).Elided 0 (Assembler.start config) :=
    ⟨⟨⟨rfl, rfl, rfl, rfl, rfl, rfl, rfl, rfl⟩, .nil, rfl, rfl⟩, ⟨[], .new⟩, .nil⟩
  obtain ⟨bound, helided⟩ := hregular.elided hstart (.nil _ _) hb hb'
  have hlog := @Logged.run [] (.start config) (.start config) b _ .new rfl hregular.isProper hb
  have hlog' := @Logged.run [] (.start config) (.start config) b' _ .new rfl
    (Script.isProper_withPops hregular.isProper) hb'
  obtain ⟨marks, hs⟩ := helided.spelled
  have hunits := hs.elided helided.abreast.tables helided.children hlog hlog' hrec hrec' s.outers
  have hsame : { s' with outers := s.outers } = s' := by
    obtain ⟨-, code, -, rfl⟩ := Scope.reconcile_eq_ok.mp hrec
    obtain ⟨-, code', -, rfl⟩ := Scope.reconcile_eq_ok.mp hrec'
    simp only [← helided.abreast.tables.outers]
  rw [hsame] at hunits
  exact hunits

/-- An assignment whose value is dropped, in a loop, and one whose value is returned:

      fn f(a) { while (a) { var b = g; a = b; } g = a; } -/
def droppedStore : List Stmt :=
  [onFirstLine (.function "f" (.mk [.mk "a" none] false false
    [onFirstLine (.whileDo (.name "a") (onFirstLine (.block
        [onFirstLine (.var "b" (some (.name "g"))),
          onFirstLine (.expr (.assign 1 (.name "a") (.name "b")))]))),
      onFirstLine (.expr (.assign 1 (.name "g") (.name "a")))]))]

theorem elided_droppedStore :
    ∃ c c', compile .debug droppedStore = .ok c ∧ compileWithPops .debug droppedStore = .ok c'
      ∧ c.children.map CodeObject.lifetimes = [some [⟨"a", 0, 12⟩, ⟨"b", 4, 7⟩]]
      ∧ c'.children.map CodeObject.lifetimes = [some [⟨"a", 0, 14⟩, ⟨"b", 4, 9⟩]]
      ∧ Elided c c' := by
  have hok : (compile .debug droppedStore).toOption.map
      (fun c => c.children.map CodeObject.lifetimes) = some [some [⟨"a", 0, 12⟩, ⟨"b", 4, 7⟩]] := by
    decide +kernel
  have hok' : (compileWithPops .debug droppedStore).toOption.map
      (fun c => c.children.map CodeObject.lifetimes) = some [some [⟨"a", 0, 14⟩, ⟨"b", 4, 9⟩]] := by
    decide +kernel
  obtain ⟨c, hc, htable⟩ := Option.map_eq_some_iff.mp hok
  obtain ⟨c', hc', htable'⟩ := Option.map_eq_some_iff.mp hok'
  have hc := eq_ok_of_toOption hc
  have hc' := eq_ok_of_toOption hc'
  exact ⟨c, c', hc, hc', htable, htable', elided_of_compile hc hc'⟩

end StackCode
