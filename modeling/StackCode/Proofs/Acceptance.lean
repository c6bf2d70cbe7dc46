import StackCode.Proofs.LoweredOrder
import StackCode.Proofs.Validity

/-!
# What the compiler accepts

A program is refused by the step of its script that says so. Such a step ends the script, so a program
whose script is complete is valid; and where the program is valid, there is no such step, in none of
the copies of its cleanups either.

* `Script.Clean`: a script refuses nothing; running it raises no misuse;
* `Context.site`: what the context of the lowering says about the place in the tree;
* `Judges`: a draft is complete only where a condition on the site holds, and clean where it does;
* `Judges.append`, `Judges.unit`, `Judges.inLoop`, …: one rule for each way of making a draft;
* `Stmt.judges_lowerAll`: the condition is validity;
* `compile_accepts_iff_valid`: the outcome of a compilation and validity.

A cleanup is lowered again at each exit from its region, with the loops around the exit. These are at
least the loops around the place where it is written, so nothing is refused in a copy that is accepted
there.
-/

namespace StackCode

open Draft

/-! ### Scripts that refuse nothing -/

/-- Whether a step neither refuses the program nor holds other steps. -/
def Step.isSimple : Step → Bool
  | fail _ | unit _ _ _ _ => false
  | _ => true

/-- No step of the script refuses the program, also in the units inside it. -/
inductive Script.Clean : Script → Prop where
  | nil : Clean []
  | cons {x : Step} {xs : Script} (hx : x.isSimple = true) (h : Clean xs) : Clean (x :: xs)
  | unit {op : Opcode} {kind : ScopeKind} {signature : Signature} {body xs : Script}
      (hb : Clean body) (h : Clean xs) : Clean (.unit op kind signature body :: xs)

namespace Script.Clean

theorem append {xs ys : Script} (h : Clean xs) (h' : Clean ys) : Clean (xs ++ ys) := by
  induction h with
  | nil => exact h'
  | cons hx _ ih => exact .cons hx ih
  | unit hb _ _ ih => exact .unit hb ih

theorem newLabels {xs : Script} (h : Clean xs) (n : Nat) :
    Clean (List.replicate n .newLabel ++ xs) := by
  induction n with
  | zero => exact h
  | succ n ih => exact .cons rfl ih

/-- The numbers of labels have nothing to do with it. -/
theorem cut {xs : Script} (h : Clean xs) : Clean (Script.cut xs) := by
  induction h with
  | nil => exact .nil
  | @cons x xs hx _ ih =>
    rw [Script.cut_cons]
    refine .cons ?_ ih
    cases x <;> exact hx
  | unit _ _ ihb ih =>
    rw [Script.cut_cons, Step.cut_unit]
    exact .unit ihb ih

end Script.Clean

/-- The error does not blame the program. -/
def Error.Blameless (e : Error) : Prop := ∀ line cause, e ≠ .misuse line cause

theorem overflows_blameless : Overflows Error.Blameless := fun _ _ _ _ _ => nofun

theorem Fault.blameless (cause : Fault) : Error.Blameless (.fault cause) := fun _ _ => nofun

open Edit Assembler in
/-- A simple step does not blame the program. -/
theorem Step.raises_run {x : Step} (hx : x.isSimple = true) (a : Assembler) :
    Raises Error.Blameless (run x) a := by
  have hP := overflows_blameless
  cases x with
  | markLine line => exact raises_markLine hP fun _ => Fault.blameless _
  | op o => exact raises_ignore (raises_onCurrent (Scope.raises_emit fun _ => Fault.blameless _))
  | count o n =>
    exact raises_ignore (raises_onCurrent (Scope.raises_emitUnsigned hP fun _ => Fault.blameless _))
  | pair o m n =>
    exact raises_ignore (raises_onCurrent (Scope.raises_emitPair hP fun _ => Fault.blameless _))
  | newLabel => exact raises_ignore (raises_onCurrent Scope.raises_newLabel)
  | jump o l =>
    exact raises_ignore (raises_onCurrent
      (Scope.raises_emitJump (fun _ => Fault.blameless _) fun _ => Fault.blameless _))
  | place l =>
    exact raises_onCurrent
      (Scope.raises_placeLabel (fun _ => Fault.blameless _) fun _ => Fault.blameless _)
  | receive => exact raises_onCurrent (show Raises _ Scope.receive _ from raises_modify)
  | discard => exact raises_onCurrent (Scope.raises_discard fun _ => Fault.blameless _)
  | loadConst v => exact raises_onCurrent (Scope.raises_loadConst hP fun _ => Fault.blameless _)
  | named o name => exact raises_onCurrent (Scope.raises_emitNamed hP fun _ => Fault.blameless _)
  | declare name => exact raises_ignore (raises_onCurrent (Scope.raises_declare hP))
  | slot o name =>
    exact raises_onCurrent
      (Scope.raises_emitSlot hP (fun _ => Fault.blameless _) fun _ => Fault.blameless _)
  | loadName name =>
    exact raises_loadName hP (fun _ => Fault.blameless _) fun _ _ _ => Fault.blameless _
  | storeName name =>
    exact raises_storeName hP (fun _ => Fault.blameless _) fun _ _ _ => Fault.blameless _
  | enterBlock => exact raises_onCurrent (show Raises _ Scope.enterBlock _ from raises_modify)
  | leaveBlock => exact raises_onCurrent (Scope.raises_leaveBlock fun _ => Fault.blameless _)
  | protect => exact raises_onCurrent (show Raises _ Scope.protect _ from raises_modify)
  | fail e => exact absurd hx Bool.false_ne_true
  | unit o kind signature body => exact absurd hx Bool.false_ne_true

open Edit Assembler in
/-- Running a clean script does not blame the program. -/
theorem Script.Clean.raises_runAll {xs : Script} (h : Clean xs) (a : Assembler) :
    Raises Error.Blameless (Step.runAll xs) a := by
  have hP := overflows_blameless
  induction h generalizing a with
  | nil => exact raises_pure
  | cons hx _ ih => exact raises_bind (Step.raises_run hx a) fun _ b _ => ih b
  | unit hb h ihb ih =>
    refine raises_bind ?_ fun _ b _ => ih b
    refine raises_bind raises_enterScope fun _ b _ =>
      raises_bind (raises_onCurrent (Scope.raises_declareAll hP)) fun _ c _ =>
        raises_bind (ihb c) fun _ d _ => raises_bind ?_ fun _ e _ =>
          raises_emitChild hP fun _ => Fault.blameless _
    exact raises_leaveScope hP (fun _ => Fault.blameless _) (fun _ _ _ => Fault.blameless _)
      (Scope.raises_reconcile hP (fun _ => Fault.blameless _) (fun _ _ _ _ _ _ => Fault.blameless _)
        fun _ _ _ _ => Fault.blameless _)

/-- A clean script is assembled without blaming the program. -/
theorem Script.Clean.raises_assemble {xs : Script} (h : Clean xs) (a : Assembler) :
    Edit.Raises Error.Blameless (assemble xs) a :=
  Edit.raises_bind (h.raises_runAll a) fun _ _ _ =>
    Assembler.raises_finish (fun _ => Fault.blameless _)
      (Scope.raises_reconcile overflows_blameless (fun _ => Fault.blameless _)
        (fun _ _ _ _ _ _ => Fault.blameless _) fun _ _ _ _ => Fault.blameless _)
      fun _ => Fault.blameless _

/-! ### Drafts that refuse nothing -/

/-- The script of the draft refuses nothing. -/
def Draft.Clean (d : Draft) : Prop := ∀ s, Script.Clean (d.steps s)

namespace Draft.Clean

variable {d e : Draft}

theorem nil : Draft.nil.Clean := fun _ => .nil

theorem step {x : Step} (hx : x.isSimple = true) : (Draft.step x).Clean := fun _ => .cons hx .nil

theorem final {x : Step} (hx : x.isSimple = true) : (Draft.final x).Clean := fun _ => .cons hx .nil

theorem append (hd : d.Clean) (he : e.Clean) : (d ++ e).Clean := by
  intro s
  cases hr : d.rest? s with
  | none =>
    rw [steps_append_of_none e hr]
    exact hd s
  | some s₁ =>
    rw [steps_append_of_some e hr]
    exact (hd s).append (he s₁)

theorem withLabel {F : Label → Draft} (hF : ∀ l, (F l).Clean) : (Draft.withLabel F).Clean := by
  intro s
  rw [steps_withLabel]
  exact .cons rfl (hF s.labels _)

theorem withLabels {n : Nat} {F : Label → Draft} (hF : ∀ l, (F l).Clean) :
    (Draft.withLabels n F).Clean := by
  intro s
  rw [steps_withLabels]
  exact (hF s.labels _).newLabels n

theorem withHidden {what : String} {F : String → Draft} (hF : ∀ x, (F x).Clean) :
    (Draft.withHidden what F).Clean := by
  intro s
  rw [steps_withHidden]
  exact hF _ _

theorem block (hd : d.Clean) : (Draft.block d).Clean := ((step rfl).append hd).append (step rfl)

theorem unit {op : Opcode} {kind : ScopeKind} {signature : Signature} (hd : d.Clean) :
    (Draft.unit op kind signature d).Clean := by
  intro s
  rw [steps_unit]
  exact .unit (hd _) .nil

theorem guarded {handler : Option Draft} (hh : ∀ c, handler = some c → c.Clean) (hd : d.Clean) :
    (guarded handler d).Clean := by
  cases handler with
  | none => exact hd
  | some clause =>
    unfold StackCode.guarded
    refine withLabel fun h => (((step rfl).append hd).append (step rfl)).append
      (withLabel fun done => ?_)
    exact ((((step rfl).append (step rfl)).append (step rfl)).append (hh clause rfl)).append
      (step rfl)

theorem cleaned {cleanup : Option Draft} (hc : ∀ c, cleanup = some c → c.Clean) (hd : d.Clean) :
    (cleaned cleanup d).Clean := by
  cases cleanup with
  | none => exact hd
  | some clause =>
    unfold StackCode.cleaned
    exact withLabel fun l => (((((step rfl).append hd).append (step rfl)).append (step rfl)).append
      (hc clause rfl)).append (step rfl)

theorem markLine {ctx : Context} {line : Nat} : (markLine ctx line).Clean := by
  unfold StackCode.markLine
  split
  · exact final rfl
  · exact step rfl

theorem value (v : Value) : v.lower.Clean := by
  unfold Value.lower
  split <;> exact step rfl

theorem callOp {args : List Arg} {tail : Bool} : (callOp args tail).Clean := by
  unfold StackCode.callOp
  simp only
  split
  · exact step rfl
  · split
    · unfold callNamedOp
      simp only
      split
      · exact final rfl
      · exact step rfl
    · exact step rfl

theorem returnNil : StackCode.returnNil.Clean := (step rfl).append (step rfl)

theorem declareAndStore {x : String} : (declareAndStore x).Clean := (step rfl).append (step rfl)

theorem predeclare {ctx : Context} {x : String} : (predeclare ctx x).Clean := by
  unfold StackCode.predeclare
  cases ctx.kind with
  | function => exact step rfl
  | global => exact nil
  | object => exact nil

theorem bindDeclared {ctx : Context} {x : String} : (bindDeclared ctx x).Clean := by
  unfold StackCode.bindDeclared
  cases ctx.kind <;> exact step rfl

end Draft.Clean

/-! ### Drafts that are complete -/

/-- The script of the draft does not end early, from some supply at least. -/
def Draft.Completes (d : Draft) : Prop := ∃ s, d.rest? s ≠ none

namespace Draft.Completes

variable {d e : Draft}

theorem of_append (h : (d ++ e).Completes) : d.Completes ∧ e.Completes := by
  obtain ⟨s, hs⟩ := h
  cases hr : d.rest? s with
  | none => exact absurd (rest?_append_of_none e hr) hs
  | some s₁ =>
    rw [rest?_append_of_some e hr] at hs
    refine ⟨⟨s, ?_⟩, s₁, hs⟩
    rw [hr]
    exact Option.some_ne_none s₁

theorem not_final {x : Step} : ¬ (Draft.final x).Completes := by
  rintro ⟨s, hs⟩
  exact hs rfl

theorem of_withLabel {F : Label → Draft} (h : (Draft.withLabel F).Completes) :
    ∃ l, (F l).Completes := by
  obtain ⟨s, hs⟩ := h
  rw [rest?_withLabel] at hs
  exact ⟨_, _, hs⟩

theorem of_withLabels {n : Nat} {F : Label → Draft} (h : (Draft.withLabels n F).Completes) :
    ∃ l, (F l).Completes := by
  obtain ⟨s, hs⟩ := h
  rw [rest?_withLabels] at hs
  exact ⟨_, _, hs⟩

theorem of_withHidden {what : String} {F : String → Draft}
    (h : (Draft.withHidden what F).Completes) : ∃ x, (F x).Completes := by
  obtain ⟨s, hs⟩ := h
  rw [rest?_withHidden] at hs
  exact ⟨_, _, hs⟩

theorem of_block (h : (Draft.block d).Completes) : d.Completes := h.of_append.1.of_append.2

theorem of_unit {op : Opcode} {kind : ScopeKind} {signature : Signature}
    (h : (Draft.unit op kind signature d).Completes) : d.Completes := by
  obtain ⟨s, hs⟩ := h
  refine ⟨{ s with labels := 0 }, fun hn => hs ?_⟩
  rw [rest?_unit, hn]
  rfl

theorem of_guarded {handler : Option Draft} (h : (guarded handler d).Completes) :
    d.Completes ∧ ∀ c, handler = some c → c.Completes := by
  cases handler with
  | none => exact ⟨h, nofun⟩
  | some clause =>
    unfold guarded at h
    obtain ⟨l, h⟩ := of_withLabel h
    obtain ⟨hbody, hclause⟩ := h.of_append
    obtain ⟨done, hclause⟩ := of_withLabel hclause
    refine ⟨hbody.of_append.1.of_append.2, ?_⟩
    rintro c ⟨⟩
    exact hclause.of_append.1.of_append.2

theorem of_cleaned {cleanup : Option Draft} (h : (cleaned cleanup d).Completes) :
    d.Completes ∧ ∀ c, cleanup = some c → c.Completes := by
  cases cleanup with
  | none => exact ⟨h, nofun⟩
  | some clause =>
    unfold cleaned at h
    obtain ⟨l, h⟩ := of_withLabel h
    obtain ⟨hbody, hclause⟩ := h.of_append.1.of_append
    refine ⟨hbody.of_append.1.of_append.1.of_append.2, ?_⟩
    rintro c ⟨⟩
    exact hclause

end Draft.Completes

/-! ### Sites and contexts -/

/-- At the second site there may stand all that may stand at the first. -/
instance : LE Site where
  le a b :=
    (a.breakable = true → b.breakable = true) ∧ (a.continuable = true → b.continuable = true)
      ∧ (a.returns = true → b.returns = true) ∧ (a.yields = true → b.yields = true)

namespace Site

variable {a b c : Site}

theorem le_refl (a : Site) : a ≤ a := ⟨id, id, id, id⟩

theorem le_trans (h : a ≤ b) (h' : b ≤ c) : a ≤ c :=
  ⟨fun ha => h'.1 (h.1 ha), fun ha => h'.2.1 (h.2.1 ha), fun ha => h'.2.2.1 (h.2.2.1 ha),
    fun ha => h'.2.2.2 (h.2.2.2 ha)⟩

theorem inLoop_mono (h : a ≤ b) : a.inLoop ≤ b.inLoop := ⟨id, id, h.2.2.1, h.2.2.2⟩

theorem inSwitch_mono (h : a ≤ b) : a.inSwitch ≤ b.inSwitch := ⟨id, h.2.1, h.2.2.1, h.2.2.2⟩

theorem le_inLoop (a : Site) : a ≤ a.inLoop := ⟨fun _ => rfl, fun _ => rfl, id, id⟩

theorem le_inSwitch (a : Site) : a ≤ a.inSwitch := ⟨fun _ => rfl, id, id, id⟩

end Site

namespace Context

/-- What may stand in a context. -/
def site (ctx : Context) : Site where
  breakable := !ctx.loops.isEmpty
  continuable := (continuable? ctx.loops).isSome
  returns := decide (ctx.kind = .function)
  yields := ctx.generator

/-- No cleanup of a region refuses anything, whatever loops are around the exit, as long as all that
can be left or continued here can be left or continued there. -/
def Harmless (ctx : Context) : Prop :=
  ∀ r ∈ ctx.regions, ∀ cleanup, r.cleanup = some cleanup → ∀ loops,
    ctx.site ≤ Context.site { ctx with loops } → (cleanup loops).Clean

variable {ctx : Context}

theorem Harmless.withLoops {loops : List Loop} (h : ctx.Harmless)
    (hl : ctx.site ≤ Context.site { ctx with loops }) : Context.Harmless { ctx with loops } :=
  fun r hr cleanup hc loops' hl' => h r hr cleanup hc loops' (Site.le_trans hl hl')

theorem harmless_of_regions (h : ctx.regions = []) : ctx.Harmless := by
  intro r hr
  rw [h] at hr
  cases hr

/-- The way out of regions is clean. -/
theorem Harmless.clean_unwindTo (h : ctx.Harmless) (depth : Nat) : (ctx.unwindTo depth).Clean := by
  have hunwind : ∀ regions : List Region,
      (∀ r ∈ regions, ∀ cleanup, r.cleanup = some cleanup → (cleanup ctx.loops).Clean) →
      ∀ n, (unwind ctx.loops n regions).Clean := by
    intro regions
    induction regions with
    | nil =>
      intro _ n
      cases n <;> exact .nil
    | cons r rest ih =>
      intro hr n
      obtain ⟨hr, hrest⟩ := List.forall_mem_cons.mp hr
      cases n with
      | zero => exact .nil
      | succ n =>
        unfold unwind
        refine .append (.append ?_ ?_) (ih hrest n)
        · split
          · exact .step rfl
          · exact .nil
        · cases hc : r.cleanup with
          | none => exact .nil
          | some cleanup => exact .append (.step rfl) (hr cleanup hc)
  exact hunwind ctx.regions (fun r hr cleanup hc => h r hr cleanup hc ctx.loops (Site.le_refl _)) _

end Context

/-! ### Judging -/

/-- A draft is complete only if the condition holds of the site, and clean if it holds of a site where
no more may stand. -/
structure Judges (d : Draft) (ctx : Context) (valid : Site → Bool) : Prop where
  sound : d.Completes → valid ctx.site = true
  clean : ctx.Harmless → ∀ site, site ≤ ctx.site → valid site = true → d.Clean

namespace Judges

variable {d e : Draft} {ctx : Context} {v w : Site → Bool}

theorem congr (h : Judges d ctx v) (hv : ∀ site, v site = w site) : Judges d ctx w := by
  have heq : v = w := funext hv
  exact heq ▸ h

/-- There is nothing to judge. -/
theorem of_clean (h : d.Clean) : Judges d ctx fun _ => true := ⟨fun _ => rfl, fun _ _ _ _ => h⟩

theorem append (hd : Judges d ctx v) (he : Judges e ctx w) :
    Judges (d ++ e) ctx fun site => v site && w site := by
  refine ⟨fun hc => ?_, fun hctx site hle hvw => ?_⟩
  · obtain ⟨hc, hc'⟩ := hc.of_append
    exact Bool.and_eq_true_iff.mpr ⟨hd.sound hc, he.sound hc'⟩
  · obtain ⟨hv, hw⟩ := Bool.and_eq_true_iff.mp hvw
    exact (hd.clean hctx site hle hv).append (he.clean hctx site hle hw)

/-- A clean draft follows. -/
theorem before (hd : Judges d ctx v) (he : e.Clean) : Judges (d ++ e) ctx v :=
  (hd.append (.of_clean he)).congr fun site => Bool.and_true (v site)

/-- A clean draft comes first. -/
theorem after (he : e.Clean) (hd : Judges d ctx v) : Judges (e ++ d) ctx v :=
  ((of_clean he).append hd).congr fun site => Bool.true_and (v site)

/-- The program is refused where the condition never holds. -/
theorem refuse {line : Nat} {cause : Misuse} (hv : ∀ site, site ≤ ctx.site → v site = false) :
    Judges (refuse line cause) ctx v := by
  refine ⟨fun hc => absurd hc Completes.not_final, fun _ site hle h => ?_⟩
  rw [hv site hle] at h
  cases h

/-- A condition that holds here. -/
theorem allowed {c : Site → Bool} (hc : c ctx.site = true) (hd : Judges d ctx v) :
    Judges d ctx fun site => c site && v site :=
  ⟨fun h => Bool.and_eq_true_iff.mpr ⟨hc, hd.sound h⟩, fun hctx site hle h =>
    hd.clean hctx site hle (Bool.and_eq_true_iff.mp h).2⟩

theorem withLabel {F : Label → Draft} (hF : ∀ l, Judges (F l) ctx v) :
    Judges (Draft.withLabel F) ctx v := by
  refine ⟨fun hc => ?_, fun hctx site hle hv => .withLabel fun l => (hF l).clean hctx site hle hv⟩
  obtain ⟨l, hc⟩ := hc.of_withLabel
  exact (hF l).sound hc

theorem withLabels {n : Nat} {F : Label → Draft} (hF : ∀ l, Judges (F l) ctx v) :
    Judges (Draft.withLabels n F) ctx v := by
  refine ⟨fun hc => ?_, fun hctx site hle hv => .withLabels fun l => (hF l).clean hctx site hle hv⟩
  obtain ⟨l, hc⟩ := hc.of_withLabels
  exact (hF l).sound hc

theorem withHidden {what : String} {F : String → Draft} (hF : ∀ x, Judges (F x) ctx v) :
    Judges (Draft.withHidden what F) ctx v := by
  refine ⟨fun hc => ?_, fun hctx site hle hv => .withHidden fun x => (hF x).clean hctx site hle hv⟩
  obtain ⟨x, hc⟩ := hc.of_withHidden
  exact (hF x).sound hc

theorem block (hd : Judges d ctx v) : Judges (Draft.block d) ctx v :=
  (after (.step rfl) hd).before (.step rfl)

/-- A unit is judged on its own. -/
theorem unit {op : Opcode} {kind : ScopeKind} {signature : Signature} {inner : Context}
    (hr : inner.regions = []) (hd : Judges d inner v) :
    Judges (Draft.unit op kind signature d) ctx fun _ => v inner.site :=
  ⟨fun hc => hd.sound hc.of_unit, fun _ _ _ hv =>
    .unit (hd.clean (Context.harmless_of_regions hr) _ (Site.le_refl _) hv)⟩

/-- The body of a loop. -/
theorem inLoop {breakTo next : Label} (hd : Judges d (ctx.inLoop breakTo (some next)) v) :
    Judges d ctx fun site => v site.inLoop :=
  ⟨hd.sound, fun hctx _ hle hv =>
    hd.clean (hctx.withLoops (Site.le_inLoop ctx.site)) _ (Site.inLoop_mono hle) hv⟩

/-- The body of a switch. -/
theorem inSwitch {breakTo : Label} (hd : Judges d (ctx.inLoop breakTo none) v) :
    Judges d ctx fun site => v site.inSwitch :=
  ⟨hd.sound, fun hctx _ hle hv =>
    hd.clean (hctx.withLoops (Site.le_inSwitch ctx.site)) _ (Site.inSwitch_mono hle) hv⟩

/-! ### Exits and regions -/

theorem lowerBreak {line : Nat} : Judges (lowerBreak ctx line) ctx Site.breakable := by
  unfold StackCode.lowerBreak
  cases hl : ctx.loops with
  | nil =>
    refine refuse fun site hle => Bool.eq_false_iff.mpr fun h => ?_
    have hb : (!ctx.loops.isEmpty) = true := hle.1 h
    rw [hl] at hb
    cases hb
  | cons l rest =>
    refine ⟨fun _ => ?_, fun hctx _ _ _ => (hctx.clean_unwindTo _).append (.step rfl)⟩
    show (!ctx.loops.isEmpty) = true
    rw [hl]
    rfl

theorem lowerContinue {line : Nat} : Judges (lowerContinue ctx line) ctx Site.continuable := by
  unfold StackCode.lowerContinue
  cases hl : continuable? ctx.loops with
  | none =>
    refine refuse fun site hle => Bool.eq_false_iff.mpr fun h => ?_
    have hb : (continuable? ctx.loops).isSome = true := hle.2.1 h
    rw [hl] at hb
    cases hb
  | some l =>
    refine ⟨fun _ => ?_, fun hctx _ _ _ => (hctx.clean_unwindTo _).append (.step rfl)⟩
    show (continuable? ctx.loops).isSome = true
    rw [hl]
    rfl

/-- A return leaves all regions. -/
theorem returnTop (hd : Judges d ctx v) : Judges (d ++ ctx.returnTop) ctx v :=
  ⟨fun hc => hd.sound hc.of_append.1, fun hctx site hle hv =>
    (hd.clean hctx site hle hv).append ((hctx.clean_unwindTo 0).append (.step rfl))⟩

/-- The clause of a region is judged where it is written; where it is valid, the context inside the
region is harmless. -/
theorem tryCatch {handler : Option Draft} {clause : Option (List Loop → Draft)} {caught : Bool}
    {vc vh : Site → Bool} (hc : ∀ cleanup, clause = some cleanup → ∀ loops,
      Judges (cleanup loops) { ctx with loops } vc)
    (hnc : clause = none → ∀ site, vc site = true)
    (hh : ∀ c, handler = some c → Judges c (ctx.inRegion false clause) vh)
    (hnh : handler = none → ∀ site, vh site = true)
    (hd : Judges d (ctx.inRegion caught clause) v) :
    Judges (Draft.step .protect ++ cleaned (clause.map (· ctx.loops))
      (guarded handler (Draft.block d))) ctx fun site => v site && vh site && vc site := by
  refine ⟨fun hcomplete => ?_, fun hctx site hle hv => ?_⟩
  · obtain ⟨hbody, hcleanup⟩ := hcomplete.of_append.2.of_cleaned
    obtain ⟨hbody, hhandler⟩ := hbody.of_guarded
    simp only [Bool.and_eq_true]
    refine ⟨⟨hd.sound hbody.of_block, ?_⟩, ?_⟩
    · cases handler with
      | none => exact hnh rfl _
      | some c => exact (hh c rfl).sound (hhandler c rfl)
    · cases clause with
      | none => exact hnc rfl _
      | some cleanup => exact (hc cleanup rfl ctx.loops).sound (hcleanup _ rfl)
  · simp only [Bool.and_eq_true] at hv
    obtain ⟨⟨hv, hvh⟩, hvc⟩ := hv
    have hclause : ∀ cleanup, clause = some cleanup → ∀ loops,
        ctx.site ≤ Context.site { ctx with loops } → (cleanup loops).Clean := fun cleanup hcl loops hl =>
      (hc cleanup hcl loops).clean (hctx.withLoops hl) site (Site.le_trans hle hl) hvc
    have hregion : ∀ caught, (ctx.inRegion caught clause).Harmless := fun _ =>
      List.forall_mem_cons.mpr ⟨hclause, hctx⟩
    refine .append (.step rfl) (.cleaned ?_ (.guarded ?_ (hd.clean (hregion _) site hle hv).block))
    · intro c hmap
      obtain ⟨cleanup, hcl, rfl⟩ := Option.map_eq_some_iff.mp hmap
      exact hclause cleanup hcl ctx.loops (Site.le_refl _)
    · intro c hcl
      exact (hh c hcl).clean (hregion _) site hle hvh

end Judges

/-! ### Argument lists -/

namespace Arg

/-- The rest of an argument list goes on well behind arguments with the given names. -/
def follows (names : List String) (args : List Arg) : Bool :=
  (if names.isEmpty then namedLast args else args.all isNamed)
    && decide ((args.filterMap name?).Nodup ∧ ∀ x ∈ args.filterMap name?, x ∉ names)

theorem listable_eq (args : List Arg) :
    listable args = (!(args.any isSpread && args.any isNamed) && follows [] args) := by
  simp [listable, follows, Bool.and_assoc]

variable {names : List String} {rest : List Arg} {e : Expr} {x : String}

theorem follows_nil : follows names [] = true := by
  cases names <;> simp [follows, namedLast]

/-- Arguments without a name come before the named ones. -/
theorem follows_unnamed {a : Arg} (ha : a.isNamed = false) (hname : a.name? = none) :
    follows names (a :: rest) = (names.isEmpty && follows names rest) := by
  cases names with
  | nil => simp [follows, namedLast, ha, hname]
  | cons y ys => simp [follows, ha]

theorem follows_named :
    follows names (.named x e :: rest) = (!names.contains x && follows (x :: names) rest) := by
  have hname : (Arg.named x e).name? = some x := rfl
  have hall : (if names.isEmpty then namedLast (.named x e :: rest)
      else (Arg.named x e :: rest).all isNamed) = rest.all isNamed := by
    cases names <;> simp [namedLast, isNamed]
  unfold follows
  rw [hall, List.filterMap_cons_some hname]
  rw [Bool.eq_iff_iff]
  simp only [List.isEmpty_cons, Bool.false_eq_true, if_false, List.nodup_cons, List.mem_cons,
    Bool.and_eq_true, decide_eq_true_eq, Bool.not_eq_true', List.contains_eq_mem,
    decide_eq_false_iff_not]
  constructor
  · rintro ⟨hrest, ⟨hx, hnodup⟩, hnames⟩
    refine ⟨hnames x (.inl rfl), hrest, hnodup, fun y hy hyx => ?_⟩
    rcases hyx with rfl | hyn
    · exact hx hy
    · exact hnames y (.inr hy) hyn
  · rintro ⟨hx, hrest, hnodup, hnames⟩
    refine ⟨hrest, ⟨fun hm => hnames x hm (.inl rfl), hnodup⟩, fun y hy => ?_⟩
    rcases hy with rfl | hy
    · exact hx
    · exact fun hyn => hnames y hy (.inr hyn)

end Arg

/-- The first name that occurs for a second time, if there is any. -/
theorem firstRepeated?_eq_none {seen names : List String} :
    firstRepeated? seen names = none ↔ names.Nodup ∧ ∀ x ∈ names, x ∉ seen := by
  induction names generalizing seen with
  | nil => simp [firstRepeated?]
  | cons x xs ih =>
    unfold firstRepeated?
    split
    · next hx =>
      simp only [reduceCtorEq, false_iff, not_and]
      intro _ hnone
      exact hnone x List.mem_cons_self (List.contains_iff_mem.mp hx)
    · next hx =>
      have hx : x ∉ seen := fun hm => hx (List.contains_iff_mem.mpr hm)
      rw [ih, List.nodup_cons]
      constructor
      · rintro ⟨hnodup, hseen⟩
        refine ⟨⟨fun hm => hseen x hm List.mem_cons_self, hnodup⟩, fun y hy => ?_⟩
        rcases List.mem_cons.mp hy with rfl | hy
        · exact hx
        · exact fun hm => hseen y hy (List.mem_cons_of_mem _ hm)
      · rintro ⟨⟨hnot, hnodup⟩, hseen⟩
        refine ⟨hnodup, fun y hy hm => ?_⟩
        rcases List.mem_cons.mp hm with rfl | hm
        · exact hnot hy
        · exact hseen y (List.mem_cons_of_mem _ hy) hm

/-! ### Arms and cases -/

/-- The values of the arms, which are all tested before any result is evaluated. -/
def Arm.validValues : List Arm → Site → Bool
  | [], _ => true
  | .mk values _ :: rest, site => Expr.validAll values site && Arm.validValues rest site

def Arm.validResults : List Arm → Site → Bool
  | [], _ => true
  | .mk _ result :: rest, site => result.valid site && Arm.validResults rest site

theorem Arm.valid_eq (arms : List Arm) (site : Site) :
    Arm.valid arms site = (Arm.validValues arms site && Arm.validResults arms site) := by
  induction arms with
  | nil => rfl
  | cons arm rest ih =>
    obtain ⟨values, result⟩ := arm
    rw [Arm.valid, Arm.validValues, Arm.validResults, ih]
    ac_rfl

/-- The values of the cases, which are all tested before any body is run. -/
def Case.validValues : List Case → Site → Bool
  | [], _ => true
  | .mk values _ :: rest, site => Expr.validAll values site && Case.validValues rest site

def Case.validBodies : List Case → Site → Bool
  | [], _ => true
  | .mk _ body :: rest, site => Stmt.validAll body site && Case.validBodies rest site

theorem Case.valid_eq (cases : List Case) (site : Site) :
    Case.valid cases site
      = (Case.validValues cases site && Case.validBodies cases site.inSwitch) := by
  induction cases with
  | nil => rfl
  | cons c rest ih =>
    obtain ⟨values, body⟩ := c
    rw [Case.valid, Case.validValues, Case.validBodies, ih]
    ac_rfl

namespace Judges

variable {d e e' : Draft} {ctx : Context} {v w u t : Site → Bool}

/-! ### Constructs -/

theorem unmixed {args : List Arg} {call : String} {line : Nat} (hd : Judges d ctx v) :
    Judges (unmixed args call line d) ctx fun site =>
      !(args.any Arg.isSpread && args.any Arg.isNamed) && v site := by
  unfold StackCode.unmixed
  split
  · next h => exact refuse fun site _ => by rw [h]; rfl
  · next h => exact hd.congr fun site => by rw [Bool.eq_false_iff.mpr h]; rfl

theorem methodOp {args : List Arg} {line : Nat} :
    Judges (methodOp args line) ctx fun _ => !args.any Arg.isNamed := by
  unfold StackCode.methodOp
  split
  · next h => exact refuse fun _ _ => by rw [h]; rfl
  · next h => exact (of_clean (.step rfl)).congr fun _ => by rw [Bool.eq_false_iff.mpr h]; rfl

theorem conditional {o o' : Opcode} (hd : Judges d ctx v) (he : Judges e ctx w)
    (he' : Judges e' ctx u) :
    Judges (Draft.withLabel fun other => Draft.withLabel fun done =>
      d ++ jump o other ++ e ++ jump o' done ++ place other ++ e' ++ place done) ctx
      fun site => v site && w site && u site :=
  withLabel fun _ => withLabel fun _ =>
    ((((((hd.before (.step rfl)).append he).before (.step rfl)).before (.step rfl)).append
      he').before (.step rfl))

theorem hidden {what : String} {F : String → Draft} (hF : ∀ x, Judges (F x) ctx v) :
    Judges (Draft.withHidden what fun x => declareAndStore x ++ F x) ctx v :=
  withHidden fun x => after .declareAndStore (hF x)

/-- A switch: the subject, the tests, and the bodies, which may break it. -/
theorem switch {k : Nat} {tests : String → Label → Draft} {bodies : Label → Label → Draft}
    {default : Label → Draft} (hd : Judges d ctx v) (ht : ∀ x first, Judges (tests x first) ctx w)
    (hb : ∀ done first, Judges (bodies first done) (ctx.inLoop done none) u)
    (he : ∀ done, Judges (default done) (ctx.inLoop done none) t) :
    Judges (Draft.block (d ++ Draft.withHidden "switch" fun x =>
      declareAndStore x ++ Draft.withLabel fun done => Draft.withLabels k fun first =>
        tests x first ++ Draft.withLabel fun fallback =>
          jump .jump fallback ++ bodies first done ++ place fallback ++ default done
            ++ place done)) ctx
      fun site => v site && (w site && (u site.inSwitch && t site.inSwitch)) :=
  (hd.append (hidden fun x => withLabel fun done => withLabels fun first =>
    (ht x first).append (withLabel fun _ =>
      (((after (.step rfl) (hb done first).inSwitch).before (.step rfl)).append
        (he done).inSwitch).before (.step rfl)))).block

/-- A declaration. -/
theorem declared {x : String} (hd : Judges d ctx v) :
    Judges (predeclare ctx x ++ d ++ bindDeclared ctx x) ctx v :=
  (after .predeclare hd).before .bindDeclared

/-- The body of a class or a namespace starts anew. -/
theorem object {o : Opcode} {inner : Context} (hinner : inner = ctx.inObject)
    (hd : Judges d inner v) :
    Judges (Draft.unit o .object {} (d ++ returnNil)) ctx fun _ => v {} := by
  subst hinner
  have hr : ctx.inObject.regions = [] := rfl
  exact unit hr (hd.before .returnNil)

/-- A function with distinct parameters starts anew. -/
theorem function {inner : Context} {signature : Signature} {generator : Bool}
    {params : List String} (hr : inner.regions = []) (hs : inner.site = .inFunction generator)
    (hn : params.Nodup) (hd : Judges d inner v) (he : Judges e inner w) :
    Judges (Draft.unit .makeClosure .function signature (d ++ e)) ctx fun _ =>
      decide params.Nodup && v (.inFunction generator) && w (.inFunction generator) := by
  rw [← hs]
  refine (unit hr (hd.append he)).congr fun _ => ?_
  rw [decide_eq_true hn]
  rfl

end Judges

/-! ### The recursion -/

/-- All statements are accepted exactly where they are valid; the other parts of the lowering are
followed on the way. -/
theorem Stmt.judges_lowerAll (program : List Stmt) (ctx : Context) :
    Judges (Stmt.lowerAll program ctx) ctx (Stmt.validAll program) := by
  refine (Expr.lower.mutual_induct
    (fun e ctx terminal => Judges (e.lower ctx terminal) ctx e.valid)
    (fun arms ctx terminal first done =>
      Judges (Arm.lowerResults arms ctx terminal first done) ctx (Arm.validResults arms))
    (fun e ctx terminal => Judges (Expr.lowerOr e ctx terminal) ctx (Expr.validOptional e))
    (fun arms ctx x first => Judges (Arm.lowerTests arms ctx x first) ctx (Arm.validValues arms))
    (fun values ctx x l => Judges (Expr.lowerTests values ctx x l) ctx (Expr.validAll values))
    (fun entries ctx => Judges (Entry.lower entries ctx) ctx (Entry.valid entries))
    (fun items ctx => Judges (Expr.lowerAll items ctx) ctx (Expr.validAll items))
    (fun args ctx call line names => Judges (Arg.lower args ctx call line names) ctx fun site =>
      Arg.follows names args && Arg.valid args site)
    (fun f ctx binding line => Judges (f.lower ctx binding line) ctx fun _ => f.valid)
    (fun body ctx => Judges (Stmt.lowerBody body ctx) ctx (Stmt.validAll body))
    (fun s ctx => Judges (s.lower ctx) ctx s.valid)
    (fun form ctx line => Judges (form.lower ctx line) ctx form.valid)
    (fun cases ctx first done => Judges (Case.lowerBodies cases ctx first done) ctx
      (Case.validBodies cases))
    (fun body ctx => Judges (Stmt.lowerAll body ctx) ctx (Stmt.validAll body))
    (fun cases ctx x first => Judges (Case.lowerTests cases ctx x first) ctx
      (Case.validValues cases))
    (fun handler ctx => ∀ d, Catch.lower handler ctx = some d → Judges d ctx (Catch.valid handler))
    (fun body ctx => ∀ c, Stmt.lowerBlock? body ctx = some c → ∀ loops,
      Judges (c loops) { ctx with loops } (Stmt.validBlock body))
    (fun e ctx => Judges (Expr.lowerEffect e ctx) ctx (Expr.validOptional e))
    (fun e ctx done => Judges (Expr.lowerCondition e ctx done) ctx (Expr.validOptional e))
    (fun s ctx => Judges (Stmt.lowerOptional s ctx) ctx (Stmt.validOptional s))
    (fun params ctx i => Judges (Param.lower params ctx i) ctx (Param.valid params))
    ?_ ?_ ?_ ?_ ?_ ?_ ?_ ?_ ?_ ?_ ?_ ?_ ?_ ?_ ?_ ?_ ?_ ?_ ?_ ?_ ?_ ?_ ?_ ?_ ?_ ?_ ?_ ?_ ?_ ?_
    ?_ ?_ ?_ ?_ ?_ ?_ ?_ ?_ ?_ ?_ ?_ ?_ ?_ ?_ ?_ ?_ ?_ ?_ ?_ ?_ ?_ ?_ ?_ ?_ ?_ ?_ ?_ ?_ ?_ ?_
    ?_ ?_ ?_ ?_ ?_ ?_ ?_ ?_ ?_ ?_ ?_ ?_ ?_ ?_ ?_ ?_ ?_ ?_ ?_ ?_ ?_ ?_ ?_ ?_ ?_ ?_ ?_ ?_ ?_ ?_
    ?_ ?_).2.2.2.2.2.2.2.2.2.2.2.2.2.1 program ctx
  -- expressions
  · intro v ctx terminal
    exact .of_clean (.value v)
  · intro x ctx terminal
    exact .of_clean (.step rfl)
  · intro ctx terminal
    exact .of_clean (.step rfl)
  · intro line x line' f ctx terminal hf
    exact (hf.before (.step rfl)).before (.step rfl)
  · intro line x value ctx terminal hne hv
    rw [Expr.lower]
    · exact (hv.before (.step rfl)).before (.step rfl)
    · exact hne
  · intro line object x value ctx terminal ho hv
    exact (ho.append hv).before (.step rfl)
  · intro line object index value ctx terminal ho hi hv
    exact ((ho.append hi).append hv).before (.step rfl)
  · intro line target value ctx terminal h₁ h₂ h₃ h₄
    rw [Expr.lower]
    · refine .refuse fun site _ => ?_
      have hplace : target.isPlace = false := by
        cases target with
        | name x => exact absurd rfl (h₂ x)
        | member object x => exact absurd rfl (h₃ object x)
        | index object index => exact absurd rfl (h₄ object index)
        | _ => rfl
      rw [Expr.valid, hplace]
      rfl
    · exact h₁
    · exact h₂
    · exact h₃
    · exact h₄
  · intro op lhs rhs ctx terminal hl hr
    exact (hl.append hr).before (.step rfl)
  · intro op lhs rhs ctx terminal hl hr
    exact .withLabel fun done => ((hl.before (.step rfl)).append hr).before (.step rfl)
  · intro op operand ctx terminal ho
    exact ho.before (.step rfl)
  · intro line callee args ctx terminal hc ha
    refine ((hc.append ha.unmixed).before .callOp).congr fun site => ?_
    rw [Expr.valid, Arg.listable_eq]
    ac_rfl
  · intro line object x args ctx terminal ho ha
    refine (((ho.before (.step rfl)).append ha.unmixed).append .methodOp).congr fun site => ?_
    rw [Expr.valid, Arg.listable_eq]
    ac_rfl
  · intro object x ctx terminal ho
    exact ho.before (.step rfl)
  · intro object index ctx terminal ho hi
    exact (ho.append hi).before (.step rfl)
  · intro items ctx terminal hi
    exact hi.before (.step rfl)
  · intro entries ctx terminal he
    exact he.before (.step rfl)
  · intro line f ctx terminal hf
    exact hf
  · intro cond thenE elseE ctx terminal hc ht he
    exact .conditional hc ht he
  · intro subject arms default ctx terminal hs ht hd hr
    refine (hs.append (.hidden fun x => .withLabel fun done => .withLabels fun first =>
      ((((ht x first).append hd).before (.step rfl)).append (hr done first)).before
        (.step rfl))).block.congr fun site => ?_
    rw [Expr.valid, Arm.valid_eq]
    ac_rfl
  · intro line value ctx terminal hg hv
    rw [Expr.lower, if_pos hg]
    exact .allowed hg (hv.before (.step rfl))
  · intro line value ctx terminal hg
    rw [Expr.lower, if_neg hg]
    refine .refuse fun site hle => ?_
    rw [Expr.valid, Bool.eq_false_iff.mpr fun hy => hg (hle.2.2.2 hy)]
    rfl
  -- functions
  · intro params variadic generator body ctx binding line x hx
    rw [Function.lower]
    simp only [hx]
    refine .refuse fun _ _ => ?_
    have hn : ¬ (params.map Param.name).Nodup := fun hn => by
      rw [firstRepeated?_eq_none.mpr ⟨hn, fun _ _ => List.not_mem_nil⟩] at hx
      cases hx
    rw [Function.valid, decide_eq_false hn]
    rfl
  · intro params variadic generator body ctx binding line f hn inner hp hb
    rw [Function.lower]
    simp only [hn]
    have hr : inner.regions = [] := rfl
    exact .function hr rfl (firstRepeated?_eq_none.mp hn).1 hp hb
  -- statements
  · intro line form ctx hf
    exact .after .markLine hf
  · intro e ctx line he
    exact he.before (.step rfl)
  · intro x ctx line
    exact .of_clean ((Clean.step rfl).append .declareAndStore)
  · intro x line f ctx line' hf
    exact (Judges.after (.step rfl) hf).before (.step rfl)
  · intro x e ctx line hne he
    rw [StmtForm.lower]
    · exact he.before .declareAndStore
    · exact hne
  · intro body ctx line hb
    exact hb.block
  · intro cond thenS ctx line hc ht
    refine Judges.congr (.withLabel fun other =>
      ((hc.before (.step rfl)).append ht.block).before (.step rfl)) fun site => ?_
    exact (Bool.and_true _).symm
  · intro cond thenS elseS ctx line hc ht he
    rw [StmtForm.lower]
    refine .withLabel fun other => ((hc.before (.step rfl)).append ht.block).append ?_
    exact .withLabel fun done =>
      (Judges.after ((Clean.step rfl).append (.step rfl)) he.block).before (.step rfl)
  · intro cond body ctx line hc hb
    rw [StmtForm.lower]
    exact .withLabel fun top => .withLabel fun done =>
      ((((Judges.after (.step rfl) hc).before (.step rfl)).append (hb top done).inLoop.block).before
        (.step rfl)).before (.step rfl)
  · intro init cond afterwards body ctx line hi hc hb ha
    refine (hi.append (.withLabel fun top => .withLabel fun next => .withLabel fun done =>
      (((((Judges.after (.step rfl) (hc done)).append (hb next done).inLoop.block).before
        (.step rfl)).append ha).before (.step rfl)).before (.step rfl))).block.congr fun site => ?_
    rw [StmtForm.valid]
    ac_rfl
  · intro x iterable body ctx line hi hb
    exact ((hi.before (.step rfl)).append (.hidden fun it => .withLabel fun next =>
      .withLabel fun done => ((Judges.after (((((Clean.step rfl).append (.step rfl)).append
        (.step rfl)).append .declareAndStore)) (hb next done).inLoop.block).before
        (.step rfl)).before (.step rfl))).block
  · intro ctx line
    exact .lowerBreak
  · intro ctx line
    exact .lowerContinue
  · intro ctx line hk
    rw [StmtForm.lower, if_pos hk]
    exact .allowed (decide_eq_true hk) (.returnTop (.of_clean (.step rfl)))
  · intro ctx line hk
    rw [StmtForm.lower, if_neg hk]
    refine .refuse fun site hle => ?_
    rw [StmtForm.valid, Bool.eq_false_iff.mpr fun hr => hk (of_decide_eq_true (hle.2.2.1 hr))]
    rfl
  · intro e ctx line hk he
    rw [StmtForm.lower, if_pos hk]
    refine .allowed (decide_eq_true hk) ?_
    split
    · exact he.before .nil
    · exact he.returnTop
  · intro e ctx line hk
    rw [StmtForm.lower, if_neg hk]
    refine .refuse fun site hle => ?_
    rw [StmtForm.valid, Bool.eq_false_iff.mpr fun hr => hk (of_decide_eq_true (hle.2.2.1 hr))]
    rfl
  · intro e ctx line he
    exact he.before (.step rfl)
  · intro body handler cleanup ctx line hn
    rw [StmtForm.lower, if_pos hn]
    refine .refuse fun site _ => ?_
    cases handler with
    | some c => cases hn
    | none =>
      cases cleanup with
      | some b => cases hn
      | none => rfl
  · intro body handler cleanup ctx line hn clause hc hh hb
    rw [StmtForm.lower, if_neg hn]
    have hsome : (handler.isSome || cleanup.isSome) = true := by
      cases handler with
      | some c => rfl
      | none =>
        cases cleanup with
        | some b => rfl
        | none => exact absurd rfl hn
    refine (Judges.allowed (c := fun _ => handler.isSome || cleanup.isSome) hsome
      (.tryCatch hc ?_ hh ?_ hb)).congr fun site => ?_
    · intro hnone site
      cases cleanup with
      | none => rfl
      | some b => cases hnone
    · intro hnone site
      cases handler with
      | none => rfl
      | some c =>
        obtain ⟨x, b⟩ := c
        cases hnone
    · rw [StmtForm.valid]
      ac_rfl
  · intro subject cases default ctx line hs ht hb hd
    rw [StmtForm.lower]
    refine (Judges.switch (t := Stmt.validBlock default) hs ht hb fun done => ?_).congr
      fun site => ?_
    · cases default with
      | none => exact .of_clean .nil
      | some body => exact hd done _ rfl _
    · rw [StmtForm.valid, Case.valid_eq]
      ac_rfl
  · intro x f ctx line hf
    exact .declared hf
  · intro x parent body ctx line hp hb
    exact ((Judges.after .predeclare hp).append (.object rfl hb)).before .bindDeclared
  · intro x body ctx line hb
    exact .declared (.object rfl hb)
  -- arguments
  · intro ctx call line names
    exact (Judges.of_clean .nil).congr fun site => by rw [Arg.follows_nil]; rfl
  · intro e rest ctx call line names hn he hr
    rw [Arg.lower, if_pos hn]
    refine (he.append hr).congr fun site => ?_
    rw [Arg.follows_unnamed rfl rfl, hn, Arg.valid]
    ac_rfl
  · intro e rest ctx call line names hn
    rw [Arg.lower, if_neg hn]
    refine .refuse fun site _ => ?_
    rw [Arg.follows_unnamed rfl rfl, Bool.eq_false_iff.mpr hn]
    rfl
  · intro e rest ctx call line names hn he hr
    rw [Arg.lower, if_pos hn]
    refine ((he.before (.step rfl)).append hr).congr fun site => ?_
    rw [Arg.follows_unnamed rfl rfl, hn, Arg.valid]
    ac_rfl
  · intro e rest ctx call line names hn
    rw [Arg.lower, if_neg hn]
    refine .refuse fun site _ => ?_
    rw [Arg.follows_unnamed rfl rfl, Bool.eq_false_iff.mpr hn]
    rfl
  · intro x e rest ctx call line names hn
    rw [Arg.lower, if_pos hn]
    refine .refuse fun site _ => ?_
    rw [Arg.follows_named, hn]
    rfl
  · intro x e rest ctx call line names hn he hr
    rw [Arg.lower, if_neg hn]
    refine ((Judges.after (.step rfl) he).append hr).congr fun site => ?_
    rw [Arg.follows_named, Bool.eq_false_iff.mpr hn, Arg.valid]
    ac_rfl
  -- several expressions
  · intro ctx x l
    exact .of_clean .nil
  · intro e rest ctx x l he hr
    exact (((Judges.after (.step rfl) he).before (.step rfl)).before (.step rfl)).append hr
  · intro ctx
    exact .of_clean .nil
  · intro e rest ctx he hr
    exact he.append hr
  · intro ctx
    exact .of_clean .nil
  · intro x v rest ctx hv hr
    exact (Judges.after (.step rfl) hv).append hr
  · intro k v rest ctx hk hv hr
    exact (hk.append hv).append hr
  · intro ctx terminal first done
    exact .of_clean .nil
  · intro values result rest ctx terminal l done hv hr
    exact ((Judges.after (.step rfl) hv).before (.step rfl)).append hr
  · intro ctx x l
    exact .of_clean .nil
  · intro values result rest ctx x l hv hr
    exact hv.append hr
  · intro ctx terminal
    exact .of_clean (.step rfl)
  · intro e ctx terminal he
    exact he
  · intro ctx
    exact .of_clean .nil
  · intro e ctx he
    exact he.before (.step rfl)
  · intro ctx done
    exact .of_clean .nil
  · intro e ctx done he
    exact he.before (.step rfl)
  · intro ctx i
    exact .of_clean .nil
  · intro name rest ctx i hr
    exact hr.congr fun site => (Bool.true_and _).symm
  · intro x e rest ctx i he hr
    exact Judges.append (.withLabel fun skip => (((Judges.after
      ((Clean.step rfl).append (.step rfl)) he).before (.step rfl)).before (.step rfl)).before
      (.step rfl)) hr
  -- bodies and clauses
  · intro ctx
    exact .of_clean .returnNil
  · intro line e ctx he
    rw [Stmt.lowerBody]
    refine Judges.congr (v := e.valid) ?_ fun site => (Bool.and_true _).symm
    split
    · exact (Judges.after .markLine he).before .nil
    · exact (Judges.after .markLine he).before (.step rfl)
  · intro line value ctx hv
    exact (Judges.after .markLine hv).congr fun site => (Bool.and_true _).symm
  · intro line form ctx h₁ h₂ hf
    rw [Stmt.lowerBody]
    · exact ((Judges.after .markLine hf).before .returnNil).congr fun site =>
        (Bool.and_true _).symm
    · exact h₁
    · exact h₂
  · intro s rest ctx h₁ h₂ h₃ hs hr
    rw [Stmt.lowerBody]
    · exact hs.append hr
    · exact h₁
    · exact h₂
    · exact h₃
  · intro ctx
    exact .of_clean .nil
  · intro s rest ctx hs hr
    exact hs.append hr
  · intro ctx
    exact .of_clean .nil
  · intro s ctx hs
    exact hs
  · intro ctx d hd
    cases hd
  · rintro x body ctx hb d ⟨⟩
    exact (Judges.after .declareAndStore hb).block
  · intro ctx c hc
    cases hc
  · rintro body ctx hb c ⟨⟩
    exact fun loops => (hb loops).block
  · intro ctx first done
    exact .of_clean .nil
  · intro values body rest ctx l done hb hr
    exact ((Judges.after (.step rfl) hb.block).before (.step rfl)).append hr
  · intro ctx x l
    exact .of_clean .nil
  · intro values body rest ctx x l hv hr
    exact hv.append hr

/-! ### Whole programs -/

/-- The script of a program is complete only if the program is valid, and clean if it is. -/
theorem Program.judges (config : Config) (program : List Stmt) :
    Judges (Program.draft config program) { config } (Stmt.validAll program) :=
  (Stmt.judges_lowerAll program { config }).before .returnNil

/-- A program that is compiled is valid, one that is refused is not, and there is no third outcome but
a number too large for its field and a label that is found to be set already, as can happen in a unit
with more labels than there are numbers of 32 bits. -/
theorem compile_accepts_iff_valid (config : Config) (program : List Stmt) :
    match compile config program with
    | .ok _ => Program.valid program = true
    | .error (.misuse _ _) => Program.valid program = false
    | .error (.overflow _ _ _) => True
    | .error (.fault cause) =>
      (∃ l, cause = .labelSetTwice l) ∧ ¬ Script.Narrow (Program.script config program) := by
  have hjudges := Program.judges config program
  cases hc : compile config program with
  | ok c => exact hjudges.sound ⟨{}, Program.rest?_of_compile hc⟩
  | error e =>
    cases e with
    | overflow _ _ _ => trivial
    | fault cause => exact Program.fault_of_compile hc
    | misuse line cause =>
      refine Bool.eq_false_iff.mpr fun hv => ?_
      have hclean : Script.Clean (Program.script config program) :=
        (hjudges.clean (Context.harmless_of_regions rfl) {} (Site.le_refl _) hv {}).cut
      obtain ⟨t, ha⟩ := exists_of_compile_eq_error hc
      exact hclean.raises_assemble _ _ _ ha line cause rfl

end StackCode
