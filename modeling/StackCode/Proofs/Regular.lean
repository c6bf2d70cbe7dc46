import StackCode.Proofs.DraftPairs

/-!
# Regular scripts

The assembler writes whatever operation a step names. In the script of a program each operation comes
with an operand of its own kind, values are dropped only right behind the expression that pushed them,
and what a unit announces about itself is what it does.

* `Step.isRegular`: the operation of a step goes with its operand;
* `Script.Guarded`: handlers are announced just where they are installed;
* `Script.Regular`, with the units inside;
* `Draft.Regular`: the same of drafts, with one rule for each way of making a draft.
-/

namespace StackCode

open Draft

namespace Opcode

/-- Whether the operand is only a number of values on the stack. -/
def isCount : Opcode → Bool
  | newArray | newMap | call | callMethod | tailCall => true
  | _ => false

/-- Whether the operand is the number of an argument. -/
def isArgument : Opcode → Bool
  | hasArg | paramEnd => true
  | _ => false

/-- Whether the operation has no operand and can stand in any unit. -/
def isSimple (op : Opcode) : Bool := op.operandKind == .empty && op != .yield

/-- Whether the operand is the index of a name among the constants. -/
def isNamed : Opcode → Bool
  | loadGlobal | storeGlobal | getMember | setMember | getMethod | defineMember => true
  | _ => false

end Opcode

namespace Step

/-- The operation that a step names. -/
def opcode? : Step → Option Opcode
  | op o | count o _ | pair o _ _ | jump o _ | named o _ | slot o _ | unit o _ _ _ => some o
  | _ => none

/-- Whether the operation of a step goes with its operand, in a unit with `args` arguments that is a
generator or not. -/
def isRegular (generator : Bool) (args : Nat) : Step → Bool
  | op o => o.operandKind == .empty && (o != .yield || generator)
  | count o n => o.isCount || (o.isArgument && n < args)
  | pair o _ _ => o == .callNamed
  | jump o _ => o.isJump
  | named o _ => o.isNamed
  | slot o _ => o == .loadLocal || o == .storeLocal
  | fail _ | discard | unit _ _ _ _ => false
  | _ => true

/-- Whether a step asks whether an argument was given. -/
def asksForArg (x : Step) : Bool := x.opcode? == some .hasArg

/-- Whether a step installs a handler. -/
def installs (x : Step) : Bool := x.opcode?.any Opcode.installs

end Step

/-- Handlers are announced just where some are installed. -/
def Script.Guarded (xs : Script) : Prop := .protect ∈ xs ↔ ∃ x ∈ xs, x.installs = true

/-- The script `xs` of a unit with `args` arguments is regular behind what is `done` already. -/
inductive Script.Regular : (generator : Bool) → (args : Nat) → (done xs : Script) → Prop where
  | done {generator : Bool} {args : Nat} {done : Script} : Regular generator args done []
  | step {generator : Bool} {args : Nat} {done xs : Script} {x : Step}
      (hx : x.isRegular generator args = true) (h : Regular generator args (done ++ [x]) xs) :
      Regular generator args done (x :: xs)
  | discard {generator : Bool} {args : Nat} {done xs : Script} (hdone : Script.Calm done)
      (h : Regular generator args (done ++ [.discard]) xs) :
      Regular generator args done (.discard :: xs)
  | unit {generator : Bool} {args : Nat} {done xs body : Script} {op : Opcode} {kind : ScopeKind}
      {signature : Signature} (hop : op.instantiates = true) (hparams : signature.params.Nodup)
      (hbody : Regular signature.generator signature.params.length [] body)
      (hguarded : Script.Guarded body)
      (hdefaults : signature.defaults = true ↔ ∃ x ∈ body, x.asksForArg = true)
      (h : Regular generator args (done ++ [.unit op kind signature body]) xs) :
      Regular generator args done (.unit op kind signature body :: xs)

namespace Script

variable {generator : Bool} {args n : Nat} {done xs ys : Script}

theorem Guarded.nil : Guarded [] := by simp [Guarded]

theorem Guarded.append (hx : Guarded xs) (hy : Guarded ys) : Guarded (xs ++ ys) := by
  unfold Guarded at *
  simp only [List.mem_append, or_and_right, exists_or]
  rw [hx, hy]

/-- A step that neither announces nor installs a handler. -/
theorem Guarded.cons {x : Step} (hne : x ≠ .protect) (hx : x.installs = false) (h : Guarded xs) :
    Guarded (x :: xs) := by
  unfold Guarded at *
  simp only [List.mem_cons, exists_eq_or_imp]
  rw [h]
  constructor
  · rintro (hp | hin)
    · exact absurd hp.symm hne
    · exact .inr hin
  · rintro (hin | hin)
    · exact absurd (hx.symm.trans hin) Bool.false_ne_true
    · exact .inr hin

namespace Regular

theorem append (hx : Regular generator args done xs) (hy : Regular generator args (done ++ xs) ys) :
    Regular generator args done (xs ++ ys) := by
  induction hx with
  | done =>
    rw [List.append_nil] at hy
    exact hy
  | step hx _ ih =>
    rw [List.append_cons] at hy
    exact .step hx (ih hy)
  | discard hdone _ ih =>
    rw [List.append_cons] at hy
    exact .discard hdone (ih hy)
  | unit hop hparams hbody hguarded hdefaults _ _ ih =>
    rw [List.append_cons] at hy
    exact .unit hop hparams hbody hguarded hdefaults (ih hy)

/-- A unit may have more arguments. -/
theorem mono (h : Regular generator args done xs) (hn : args ≤ n) :
    Regular generator n done xs := by
  induction h with
  | done => exact .done
  | @step generator args done xs x hx _ ih =>
    refine .step ?_ (ih hn)
    cases x with
    | count o m =>
      simp only [Step.isRegular, Bool.or_eq_true, Bool.and_eq_true, decide_eq_true_eq] at hx ⊢
      rcases hx with hcount | ⟨harg, hm⟩
      · exact .inl hcount
      · exact .inr ⟨harg, Nat.lt_of_lt_of_le hm hn⟩
    | _ => exact hx
  | discard hdone _ ih => exact .discard hdone (ih hn)
  | unit hop hparams hbody hguarded hdefaults _ _ ih =>
    exact .unit hop hparams hbody hguarded hdefaults (ih hn)

/-- A unit without arguments asks for none. -/
theorem asksForArg_eq_false (h : Regular generator args done xs) (hn : args = 0) :
    ∀ x ∈ xs, x.asksForArg = false := by
  induction h with
  | done => exact fun x hx => absurd hx List.not_mem_nil
  | @step generator args done xs x hx _ ih =>
    refine List.forall_mem_cons.mpr ⟨Bool.eq_false_iff.mpr fun hask => ?_, ih hn⟩
    have hop : x.opcode? = some .hasArg := beq_iff_eq.mp hask
    subst hn
    cases x <;> simp only [Step.opcode?, Option.some.injEq, reduceCtorEq] at hop <;>
      subst hop <;> simp [Step.isRegular, Opcode.isCount, Opcode.operandKind, Opcode.isJump,
        Opcode.isNamed] at hx
  | discard _ _ ih => exact List.forall_mem_cons.mpr ⟨rfl, ih hn⟩
  | @unit _ _ _ _ _ op _ _ hop _ _ _ _ _ _ ih =>
    refine List.forall_mem_cons.mpr ⟨?_, ih hn⟩
    cases op <;> first | rfl | cases hop

/-- The steps of a regular script write what they say. -/
theorem isProper (h : Regular generator args done xs) : ∀ x ∈ xs, x.isProper = true := by
  induction h with
  | done => exact fun x hx => absurd hx List.not_mem_nil
  | @step generator args done xs x hx _ ih =>
    refine List.forall_mem_cons.mpr ⟨?_, ih⟩
    cases x with
    | op o =>
      simp only [Step.isRegular, Bool.and_eq_true] at hx
      cases o <;> first | rfl | cases hx.1
    | count o n =>
      simp only [Step.isRegular, Bool.or_eq_true, Bool.and_eq_true] at hx
      cases o <;> first | rfl | simp [Opcode.isCount, Opcode.isArgument] at hx
    | pair o _ _ =>
      obtain rfl := beq_iff_eq.mp hx
      rfl
    | jump o _ => exact hx
    | named o _ => cases o <;> first | rfl | cases hx
    | slot o _ => cases o <;> first | rfl | cases hx
    | fail _ | discard | unit _ _ _ _ => cases hx
    | _ => rfl
  | discard _ _ ih => exact List.forall_mem_cons.mpr ⟨rfl, ih⟩
  | @unit _ _ _ _ _ op _ _ hop _ _ _ _ _ _ ih =>
    refine List.forall_mem_cons.mpr ⟨?_, ih⟩
    cases op <;> first | rfl | cases hop

/-- Every step of a regular script is regular, drops a value, or makes an instance. -/
theorem mem (h : Regular generator args done xs) :
    ∀ x ∈ xs, x.isRegular generator args = true ∨ x = .discard
      ∨ ∃ op kind signature body, x = .unit op kind signature body ∧ op.instantiates = true := by
  induction h with
  | done => exact fun x hx => absurd hx List.not_mem_nil
  | step hx _ ih => exact List.forall_mem_cons.mpr ⟨.inl hx, ih⟩
  | discard _ _ ih => exact List.forall_mem_cons.mpr ⟨.inr (.inl rfl), ih⟩
  | unit hop _ _ _ _ _ _ ih =>
    exact List.forall_mem_cons.mpr ⟨.inr (.inr ⟨_, _, _, _, rfl, hop⟩), ih⟩

/-- The first step of a regular script, and what remains. -/
theorem uncons {x : Step} (h : Regular generator args done (x :: xs)) :
    x.isProper = true ∧ (x = .discard → Calm done) ∧ Regular generator args (done ++ [x]) xs := by
  refine ⟨h.isProper x List.mem_cons_self, ?_⟩
  cases h with
  | step hx h =>
    refine ⟨?_, h⟩
    rintro rfl
    cases hx
  | discard hdone h => exact ⟨fun _ => hdone, h⟩
  | unit _ _ _ _ _ h => exact ⟨nofun, h⟩

/-- A step that is performed, in this unit or in one inside it, begins a regular script. -/
theorem of_performs {y : Step} {a c d : Assembler} (hp : Step.Performs xs a y c d)
    (h : Regular generator args done xs) :
    ∃ generator' args' done' ys, Regular generator' args' done' (y :: ys) := by
  induction hp generalizing generator args done with
  | here => exact ⟨_, _, _, _, h⟩
  | later _ _ ih => exact ih h.uncons.2.2
  | inside _ _ _ ih =>
    cases h with
    | step hx _ => cases hx
    | unit _ _ hbody _ _ _ => exact ih hbody

end Regular

end Script

/-! ### Drafts -/

namespace Draft

/-- Where the draft is complete, its script is regular. -/
def Fits (generator : Bool) (args : Nat) (d : Draft) : Prop :=
  ∀ s s₁, d.rest? s = some s₁ → ∀ done, Script.Regular generator args done (d.steps s)

/-- Some step of the draft is of the kind `p`. -/
def Has (p : Step → Bool) (d : Draft) : Prop := ∀ s, ∃ x ∈ d.steps s, p x = true

/-- Where the draft is complete, its script is regular and its handlers are announced. -/
structure Regular (generator : Bool) (args : Nat) (d : Draft) : Prop where
  fits : d.Fits generator args
  guarded : ∀ s s₁, d.rest? s = some s₁ → Script.Guarded (d.steps s)

variable {generator : Bool} {args n : Nat} {d e : Draft}

namespace Fits

theorem step {x : Step} (hx : x.isRegular generator args = true) :
    (Draft.step x).Fits generator args :=
  fun _ _ _ _ => .step hx .done

theorem append (hd : d.Fits generator args) (he : e.Fits generator args) :
    (d ++ e).Fits generator args := by
  intro s s₂ h done
  obtain ⟨s₁, h₁, h₂⟩ := exists_of_append h
  rw [steps_append_of_some e h₁]
  exact (hd s s₁ h₁ done).append (he s₁ s₂ h₂ _)

theorem withLabel {F : Label → Draft} (h : ∀ l, (F l).Fits generator args) :
    (Draft.withLabel F).Fits generator args := by
  intro s s₁ hs done
  rw [rest?_withLabel] at hs
  rw [steps_withLabel]
  exact .step rfl (h _ _ _ hs _)

end Fits

namespace Has

variable {p : Step → Bool}

theorem step {x : Step} (hx : p x = true) : (Draft.step x).Has p :=
  fun _ => ⟨x, List.mem_cons_self, hx⟩

theorem left (h : d.Has p) : (d ++ e).Has p := by
  intro s
  obtain ⟨x, hx, hp⟩ := h s
  refine ⟨x, ?_, hp⟩
  cases hr : d.rest? s with
  | none =>
    rw [steps_append_of_none e hr]
    exact hx
  | some s₁ =>
    rw [steps_append_of_some e hr]
    exact List.mem_append_left _ hx

theorem withLabel {F : Label → Draft} (h : ∀ l, (F l).Has p) : (Draft.withLabel F).Has p := by
  intro s
  obtain ⟨x, hx, hp⟩ := h s.labels { s with labels := s.labels + 1 }
  rw [steps_withLabel]
  exact ⟨x, List.mem_cons_of_mem _ hx, hp⟩

end Has

namespace Regular

theorem of_none (h : ∀ s, d.rest? s = none) : d.Regular generator args := by
  have hnever : ∀ s s₁, d.rest? s ≠ some s₁ := fun s s₁ hs => by
    rw [h] at hs
    cases hs
  exact ⟨fun s s₁ hs => absurd hs (hnever s s₁), fun s s₁ hs => absurd hs (hnever s s₁)⟩

theorem refuse {line : Nat} {cause : Misuse} : (refuse line cause).Regular generator args :=
  of_none fun _ => rfl

theorem nil : Draft.nil.Regular generator args :=
  ⟨fun _ _ _ _ => .done, fun _ _ _ => .nil⟩

theorem mono (h : d.Regular generator args) (hn : args ≤ n) : d.Regular generator n :=
  ⟨fun s s₁ hs done => (h.fits s s₁ hs done).mono hn, h.guarded⟩

theorem append (hd : d.Regular generator args) (he : e.Regular generator args) :
    (d ++ e).Regular generator args := by
  refine ⟨hd.fits.append he.fits, fun s s₂ h => ?_⟩
  obtain ⟨s₁, h₁, h₂⟩ := exists_of_append h
  rw [steps_append_of_some e h₁]
  exact (hd.guarded s s₁ h₁).append (he.guarded s₁ s₂ h₂)

/-- A step that is not about handlers. -/
theorem step {x : Step} (hx : x.isRegular generator args = true) (hin : x.installs = false)
    (hne : x ≠ .protect) : (Draft.step x).Regular generator args :=
  ⟨.step hx, fun _ _ _ => .cons hne hin .nil⟩

theorem op {o : Opcode} (ho : o.isSimple = true) : (plain o).Regular generator args := by
  refine step ?_ ?_ nofun
  · obtain ⟨hempty, hyield⟩ := Bool.and_eq_true_iff.mp ho
    simp [Step.isRegular, hempty, hyield]
  · cases o <;> first | rfl | cases ho

theorem jump {o : Opcode} {l : Label} (ho : o.isJump = true) (hin : o.installs = false) :
    (jump o l).Regular generator args :=
  step ho hin nofun

theorem place {l : Label} : (place l).Regular generator args := step rfl rfl nofun

theorem withLabel {F : Label → Draft} (h : ∀ l, (F l).Regular generator args) :
    (Draft.withLabel F).Regular generator args := by
  refine ⟨.withLabel fun l => (h l).fits, fun s s₁ hs => ?_⟩
  rw [rest?_withLabel] at hs
  rw [steps_withLabel]
  exact ((h _).guarded _ _ hs).cons nofun rfl

theorem withLabels {k : Nat} {F : Label → Draft} (h : ∀ l, (F l).Regular generator args) :
    (Draft.withLabels k F).Regular generator args := by
  have hnew : ∀ k done, Script.Regular generator args done (List.replicate k .newLabel)
      ∧ Script.Guarded (List.replicate k .newLabel) := by
    intro k
    induction k with
    | zero => exact fun done => ⟨.done, .nil⟩
    | succ k ih => exact fun done => ⟨.step rfl (ih _).1, (ih done).2.cons nofun rfl⟩
  refine ⟨fun s s₁ hs done => ?_, fun s s₁ hs => ?_⟩
  · rw [rest?_withLabels] at hs
    rw [steps_withLabels]
    exact (hnew k done).1.append ((h _).fits _ _ hs _)
  · rw [rest?_withLabels] at hs
    rw [steps_withLabels]
    exact (hnew k []).2.append ((h _).guarded _ _ hs)

theorem withHidden {what : String} {F : String → Draft} (h : ∀ x, (F x).Regular generator args) :
    (Draft.withHidden what F).Regular generator args := by
  refine ⟨fun s s₁ hs done => ?_, fun s s₁ hs => ?_⟩
  · rw [rest?_withHidden] at hs
    rw [steps_withHidden]
    exact (h _).fits _ _ hs done
  · rw [rest?_withHidden] at hs
    rw [steps_withHidden]
    exact (h _).guarded _ _ hs

theorem block (h : d.Regular generator args) : (Draft.block d).Regular generator args := by
  have henter : (Draft.step .enterBlock).Regular generator args := step rfl rfl nofun
  have hleave : (Draft.step .leaveBlock).Regular generator args := step rfl rfl nofun
  exact (henter.append h).append hleave

/-- A value is dropped behind the expression that pushed it. -/
theorem discard (h : d.Regular generator args) (hd : d.Calm) :
    (d ++ Draft.step .discard).Regular generator args := by
  refine ⟨fun s s₂ hs done => ?_, fun s s₂ hs => ?_⟩
  · obtain ⟨s₁, h₁, -⟩ := exists_of_append hs
    rw [steps_append_of_some _ h₁, steps_step]
    exact (h.fits s s₁ h₁ done).append (.discard (hd s s₁ h₁ done) .done)
  · obtain ⟨s₁, h₁, -⟩ := exists_of_append hs
    rw [steps_append_of_some _ h₁, steps_step]
    exact (h.guarded s s₁ h₁).append (.cons nofun rfl .nil)

/-- A unit of its own. -/
theorem unit {op : Opcode} {kind : ScopeKind} {signature : Signature}
    (hop : op.instantiates = true) (hparams : signature.params.Nodup)
    (h : d.Regular signature.generator signature.params.length)
    (hdefaults : ∀ s s₁, d.rest? s = some s₁ →
      (signature.defaults = true ↔ ∃ x ∈ d.steps s, x.asksForArg = true)) :
    (Draft.unit op kind signature d).Regular generator args := by
  refine ⟨fun s s₂ hs done => ?_, fun s s₂ hs => ?_⟩
  · rw [rest?_unit] at hs
    obtain ⟨s₁, h₁, -⟩ := Option.map_eq_some_iff.mp hs
    rw [steps_unit]
    exact .unit hop hparams (h.fits _ _ h₁ []) (h.guarded _ _ h₁) (hdefaults _ _ h₁) .done
  · rw [steps_unit]
    refine .cons nofun ?_ .nil
    cases op <;> first | rfl | cases hop

/-- Handlers are announced and installed. -/
theorem protect (h : d.Fits generator args) (hin : d.Has Step.installs) :
    (Draft.step .protect ++ d).Regular generator args := by
  refine ⟨.append (.step rfl) h, fun s s₂ hs => ?_⟩
  obtain ⟨s₁, h₁, -⟩ := exists_of_append hs
  obtain ⟨x, hx, hinstalls⟩ := hin s₁
  rw [steps_append_of_some _ h₁, steps_step]
  exact ⟨fun _ => ⟨x, List.mem_append_right _ hx, hinstalls⟩, fun _ => List.mem_cons_self⟩

end Regular

end Draft

end StackCode
