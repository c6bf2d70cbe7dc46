import StackCode.Proofs.PairedContexts

/-!
# Lowering with and without tail calls

The drafts of a tree with tail calls and without correspond, and the returned calls are those of the
walk over the tree.

* `Expr.calm_lower`: how the draft of an expression ends;
* `Expr.Pairs`: an expression that is lowered on both sides;
* `Stmt.untails_lowerAll`: the recursion over the tree.
-/

namespace StackCode

open Draft

/-! ### How expressions end -/

theorem Draft.Calm.callOp {args : List Arg} {tail : Bool} : (callOp args tail).Calm := by
  unfold StackCode.callOp
  simp only
  split
  · exact step rfl
  · split
    · unfold callNamedOp
      simp only
      split
      · exact of_none fun _ => rfl
      · exact step rfl
    · exact step rfl

theorem Draft.Calm.function (f : Function) (ctx : Context) (binding : Option String) (line : Nat) :
    (f.lower ctx binding line).Calm := by
  obtain ⟨params, variadic, generator, body⟩ := f
  rw [Function.lower]
  simp only
  split
  · exact .refuse
  · exact fun _ _ _ _ => .firm rfl

/-- After an expression, nothing was recorded since its value was pushed. The recursion is for values
that are assigned. -/
theorem Expr.calm_lower (e : Expr) (ctx : Context) (terminal : Bool) :
    (e.lower ctx terminal).Calm := by
  cases e with
  | literal v =>
    show v.lower.Calm
    unfold Value.lower
    split <;> exact .step rfl
  | name _ | this => exact .step rfl
  | assign line target value =>
    have hvalue := value.calm_lower ctx false
    cases target with
    | name x =>
      cases value with
      | function line f => exact .assign (.function f ctx (some x) line)
      | _ => exact .assign hvalue
    | member _ _ | index _ _ => exact .append (.step rfl)
    | _ => exact .refuse
  | binary op _ _ => exact .append (.step (by cases op <;> rfl))
  | unary op _ => exact .append (.step (by cases op <;> rfl))
  | logical _ _ _ => exact .place (.withLabel fun _ => .place)
  | call _ _ _ => exact .append .callOp
  | methodCall line object x args =>
    refine .append ?_
    unfold methodOp
    split
    · exact .refuse
    · exact .step rfl
  | member _ _ | index _ _ | array _ | map _ => exact .append (.step rfl)
  | function line f => exact .function f ctx none line
  | conditional _ _ _ => exact .place (.withLabel fun _ => .withLabel fun _ => .place)
  | case _ _ _ =>
    exact .block (.append (.withHidden fun _ => .append (.withLabel fun _ => .withLabels fun _ =>
      .place)))
  | yield line value =>
    show (if ctx.generator then _ else _ : Draft).Calm
    split
    · exact .append (.step rfl)
    · exact .refuse
termination_by structural e

/-! ### Expressions on both sides -/

/-- An expression is lowered on both sides. Where it is a tail call, it is a branch of the returned
expression, or the whole of it; then the other side returns. -/
structure Expr.Pairs (e : Expr) (ctx : Context) (terminal : Bool) : Prop where
  part : ∀ P ctx' E role, ContextPair ctx ctx' E → Role.isReturned role = terminal →
    (ctx.isTail terminal e = true → role = .branch) →
    Draft.Untails P terminal (e.lower ctx terminal) (e.lower ctx' terminal) (e.tails E.self role)
  whole : ∀ P ctx' E, ContextPair ctx ctx' E → ctx.isTail terminal e = true →
    Draft.Untails P false (e.lower ctx terminal) (e.lower ctx' terminal ++ StackCode.plain .ret)
      (e.tails E.self .whole)

namespace Expr.Pairs

variable {e : Expr} {ctx ctx' : Context} {E : Surroundings} {terminal : Bool} {role : Role}
  {P : Script → Prop}

/-- An expression that is no call. -/
theorem of_untails (hcall : ∀ name, e.isCallOf name = false)
    (h : ∀ P ctx' E role, ContextPair ctx ctx' E → Role.isReturned role = terminal →
      Draft.Untails P terminal (e.lower ctx terminal) (e.lower ctx' terminal)
        (e.tails E.self role)) : e.Pairs ctx terminal := by
  have hno : ctx.isTail terminal e ≠ true := by
    rw [Context.isTail]
    cases ctx.self <;> simp [hcall]
  exact ⟨fun P ctx' E role hctx hrole _ => h P ctx' E role hctx hrole,
    fun _ _ _ _ htail => absurd htail hno⟩

/-- An expression inside another one. -/
theorem inner (h : e.Pairs ctx false) (hctx : ContextPair ctx ctx' E) :
    Draft.Untails P false (e.lower ctx false) (e.lower ctx' false) (e.tails E.self .inner) :=
  h.part P ctx' E .inner hctx rfl fun htail => absurd htail Bool.false_ne_true

/-- A branch of an expression. -/
theorem branch (h : e.Pairs ctx terminal) (hctx : ContextPair ctx ctx' E)
    (hrole : role.isReturned = terminal) :
    Draft.Untails P terminal (e.lower ctx terminal) (e.lower ctx' terminal)
      (e.tails E.self role.ofBranch) := by
  refine h.part P ctx' E role.ofBranch hctx (role.isReturned_ofBranch.trans hrole) fun htail => ?_
  cases role with
  | inner =>
    subst hrole
    exact absurd htail Bool.false_ne_true
  | branch | whole => rfl

/-- A value that is returned through the regions around it. -/
theorem returned (h : e.Pairs ctx ctx.isTerminal) (hctx : ContextPair ctx ctx' E) :
    Draft.Untails P false
      (e.lower ctx ctx.isTerminal
        ++ (if ctx.isTail ctx.isTerminal e then Draft.nil else ctx.returnTop))
      (e.lower ctx' ctx'.isTerminal
        ++ (if ctx'.isTail ctx'.isTerminal e then Draft.nil else ctx'.returnTop))
      (e.tails E.self (.ofReturn E.regions.isEmpty) ++ E.unwindTo 0) := by
  obtain ⟨hterminal, hempty⟩ := hctx.isTerminal_eq
  rw [hterminal, hempty, hctx.isTail', if_neg Bool.false_ne_true]
  cases htail : ctx.isTail ctx.isTerminal e with
  | true =>
    have ht : ctx.isTerminal = true := (Bool.and_eq_true_iff.mp htail).1
    obtain ⟨-, hret', hnone⟩ := hctx.returnTop_eq ht
    rw [if_pos rfl, Draft.append_nil, hret', hnone, Tails.append_none]
    have hwhole := h.whole P ctx' E hctx htail
    rw [ht] at hwhole ⊢
    exact hwhole
  | false =>
    rw [if_neg Bool.false_ne_true]
    refine .returnTop hctx (h.part P ctx' E _ hctx (Role.isReturned_ofReturn _) fun ht => ?_)
    exact absurd (ht.symm.trans htail).symm Bool.false_ne_true

/-- The expression that ends the body of a function. -/
theorem ending (h : e.Pairs ctx true) (hctx : ContextPair ctx ctx' E) :
    Draft.Untails P false
      (e.lower ctx true ++ (if ctx.isTail true e then Draft.nil else StackCode.plain .ret))
      (e.lower ctx' true ++ (if ctx'.isTail true e then Draft.nil else StackCode.plain .ret))
      (e.tails E.self .whole) := by
  rw [hctx.isTail', if_neg Bool.false_ne_true]
  cases htail : ctx.isTail true e with
  | true =>
    rw [if_pos rfl, Draft.append_nil]
    exact h.whole P ctx' E hctx htail
  | false =>
    rw [if_neg Bool.false_ne_true]
    refine .ret (h.part P ctx' E .whole hctx rfl fun ht => ?_)
    exact absurd (ht.symm.trans htail).symm Bool.false_ne_true

end Expr.Pairs

/-- A tail call passes positional arguments only. -/
theorem callOp_of_isCallOf {line : Nat} {callee : Expr} {args : List Arg} {name : String}
    (h : (Expr.call line callee args).isCallOf name = true) :
    callOp args true = step (.count .tailCall args.length)
      ∧ callOp args false = step (.count .call args.length) := by
  have hall : args.countP Arg.isNamed = 0 := by
    rw [List.countP_eq_zero]
    intro a ha hn
    have hpos := List.all_eq_true.mp (Bool.and_eq_true_iff.mp h).2 a ha
    cases a with
    | named x e => exact Bool.false_ne_true hpos
    | _ => exact Bool.false_ne_true hn
  unfold callOp
  simp only [hall]
  exact ⟨rfl, rfl⟩

/-- A call, which may be a tail call. -/
theorem Expr.Pairs.call {line : Nat} {callee : Expr} {args : List Arg} {ctx : Context}
    {terminal : Bool} (hc : callee.Pairs ctx false)
    (ha : ∀ P ctx' E, ContextPair ctx ctx' E →
      Draft.Untails P false (Arg.lower args ctx "call" line []) (Arg.lower args ctx' "call" line [])
        (Arg.tails args E.self)) :
    (Expr.call line callee args).Pairs ctx terminal := by
  have hops : ctx.isTail terminal (.call line callee args) = true →
      callOp args true = step (.count .tailCall args.length)
        ∧ callOp args false = step (.count .call args.length) := by
    intro htail
    obtain ⟨name, -, hname⟩ := (Option.any_eq_true _ _).mp (Bool.and_eq_true_iff.mp htail).2
    exact callOp_of_isCallOf hname
  refine ⟨?_, ?_⟩
  · intro P ctx' E role hctx hrole hbranch
    have hfront := (hc.inner (P := P) hctx).append
      ((ha P ctx' E hctx).unmixed args "call" line)
    rw [Expr.tails, hrole, ← hctx.isTail_eq, Expr.lower, Expr.lower, hctx.isTail']
    cases htail : ctx.isTail terminal (.call line callee args) with
    | false => exact hfront.append .callOp
    | true =>
      obtain rfl := hbranch htail
      obtain rfl : terminal = true := hrole.symm
      obtain ⟨htrue, hfalse⟩ := hops htail
      rw [htrue, hfalse]
      exact hfront.append .branch
  · intro P ctx' E hctx htail
    have hfront := (hc.inner (P := P) hctx).append
      ((ha P ctx' E hctx).unmixed args "call" line)
    obtain ⟨htrue, hfalse⟩ := hops htail
    have ht : terminal = true := (Bool.and_eq_true_iff.mp htail).1
    have hself := hctx.isTail_eq terminal (.call line callee args)
    rw [htail, ht] at hself
    rw [Expr.tails, show Role.isReturned .whole = true from rfl, ← hself, Expr.lower, Expr.lower,
      htail, hctx.isTail', htrue, hfalse, Draft.append_assoc _ (step _)]
    exact hfront.append .whole

/-- A switch: the subject, the tests, the bodies and what is done otherwise. -/
theorem Draft.Untails.switch {P : Script → Prop} {k : Nat} {d d' : Draft}
    {tests tests' : String → Label → Draft} {bodies bodies' : Label → Label → Draft}
    {default default' : Label → Draft} {t₁ t₂ t₃ t₄ : Tails} (hd : Untails P false d d' t₁)
    (ht : ∀ x first, Untails P false (tests x first) (tests' x first) t₂)
    (hb : ∀ done first, Untails P false (bodies first done) (bodies' first done) t₃)
    (he : ∀ done, Untails P false (default done) (default' done) t₄) :
    Untails P false
      (Draft.block (d ++ Draft.withHidden "switch" fun x =>
        StackCode.declareAndStore x ++ Draft.withLabel fun done => Draft.withLabels k fun first =>
          tests x first ++ Draft.withLabel fun fallback =>
            jump .jump fallback ++ bodies first done ++ place fallback ++ default done
              ++ place done))
      (Draft.block (d' ++ Draft.withHidden "switch" fun x =>
        StackCode.declareAndStore x ++ Draft.withLabel fun done => Draft.withLabels k fun first =>
          tests' x first ++ Draft.withLabel fun fallback =>
            jump .jump fallback ++ bodies' first done ++ place fallback ++ default' done
              ++ place done))
      (t₁ ++ (t₂ ++ (t₃ ++ t₄))) :=
  (hd.append (withHidden fun x => after declareAndStore (withLabel fun done =>
    withLabels fun first => (ht x first).append (withLabel fun _ =>
      (((after (step rfl) (hb done first)).before (step rfl)).append (he done)).before
        (step rfl))))).block

/-! ### The recursion -/

/-- All statements are lowered on both sides; the other parts of the lowering are followed on the
way. -/
theorem Stmt.untails_lowerAll (program : List Stmt) (ctx : Context) :
    ∀ P ctx' E, ContextPair ctx ctx' E →
      Untails P false (Stmt.lowerAll program ctx) (Stmt.lowerAll program ctx')
        (Stmt.tailsAll program E) := by
  refine (Expr.lower.mutual_induct
    (fun e ctx terminal => e.Pairs ctx terminal)
    (fun arms ctx terminal first done => ∀ P ctx' E role r, ContextPair ctx ctx' E →
      Role.isReturned role = terminal → (∀ body, P body → Script.Joins terminal done body) →
      Untails P r (Arm.lowerResults arms ctx terminal first done)
        (Arm.lowerResults arms ctx' terminal first done) (Arm.resultTails arms E.self role.ofBranch))
    (fun e ctx terminal => ∀ P ctx' E role, ContextPair ctx ctx' E →
      Role.isReturned role = terminal →
      Untails P terminal (Expr.lowerOr e ctx terminal) (Expr.lowerOr e ctx' terminal)
        (Expr.tailsOptional e E.self role.ofBranch))
    (fun arms ctx x first => ∀ P ctx' E, ContextPair ctx ctx' E →
      Untails P false (Arm.lowerTests arms ctx x first) (Arm.lowerTests arms ctx' x first)
        (Arm.testTails arms E.self))
    (fun values ctx x l => ∀ P ctx' E, ContextPair ctx ctx' E →
      Untails P false (Expr.lowerTests values ctx x l) (Expr.lowerTests values ctx' x l)
        (Expr.tailsAll values E.self))
    (fun entries ctx => ∀ P ctx' E, ContextPair ctx ctx' E →
      Untails P false (Entry.lower entries ctx) (Entry.lower entries ctx')
        (Entry.tails entries E.self))
    (fun items ctx => ∀ P ctx' E, ContextPair ctx ctx' E →
      Untails P false (Expr.lowerAll items ctx) (Expr.lowerAll items ctx')
        (Expr.tailsAll items E.self))
    (fun args ctx call line names => ∀ P ctx' E, ContextPair ctx ctx' E →
      Untails P false (Arg.lower args ctx call line names) (Arg.lower args ctx' call line names)
        (Arg.tails args E.self))
    (fun f ctx binding line => ∀ P ctx' E r, ContextPair ctx ctx' E →
      Untails P r (f.lower ctx binding line) (f.lower ctx' binding line) (f.tails binding))
    (fun body ctx => ∀ P ctx' E, ContextPair ctx ctx' E →
      Untails P false (Stmt.lowerBody body ctx) (Stmt.lowerBody body ctx') (Stmt.bodyTails body E))
    (fun s ctx => ∀ P ctx' E, ContextPair ctx ctx' E →
      Untails P false (s.lower ctx) (s.lower ctx') (s.tails E))
    (fun form ctx line => ∀ P ctx' E, ContextPair ctx ctx' E →
      Untails P false (form.lower ctx line) (form.lower ctx' line) (form.tails E))
    (fun cases ctx first done => ∀ P ctx' E, ContextPair ctx ctx' E →
      Untails P false (Case.lowerBodies cases ctx first done)
        (Case.lowerBodies cases ctx' first done) (Case.bodyTails cases E))
    (fun body ctx => ∀ P ctx' E, ContextPair ctx ctx' E →
      Untails P false (Stmt.lowerAll body ctx) (Stmt.lowerAll body ctx') (Stmt.tailsAll body E))
    (fun cases ctx x first => ∀ P ctx' E, ContextPair ctx ctx' E →
      Untails P false (Case.lowerTests cases ctx x first) (Case.lowerTests cases ctx' x first)
        (Case.testTails cases E.self))
    (fun handler ctx => ∀ ctx' E, ContextPair ctx ctx' E →
      OptionPair (Catch.lower handler ctx) (Catch.lower handler ctx') (Catch.tails handler E))
    (fun body ctx => ∀ ctx' E, ContextPair ctx ctx' E →
      CleanupPair (Stmt.lowerBlock? body ctx) (Stmt.lowerBlock? body ctx')
        (Stmt.cleanupTails body E))
    (fun e ctx => ∀ P ctx' E, ContextPair ctx ctx' E →
      Untails P false (Expr.lowerEffect e ctx) (Expr.lowerEffect e ctx')
        (Expr.tailsOptional e E.self .inner))
    (fun e ctx done => ∀ P ctx' E, ContextPair ctx ctx' E →
      Untails P false (Expr.lowerCondition e ctx done) (Expr.lowerCondition e ctx' done)
        (Expr.tailsOptional e E.self .inner))
    (fun s ctx => ∀ P ctx' E, ContextPair ctx ctx' E →
      Untails P false (Stmt.lowerOptional s ctx) (Stmt.lowerOptional s ctx')
        (Stmt.tailsOptional s E))
    (fun params ctx i => ∀ P ctx' E, ContextPair ctx ctx' E →
      Untails P false (Param.lower params ctx i) (Param.lower params ctx' i)
        (Param.tails params E.self))
    ?_ ?_ ?_ ?_ ?_ ?_ ?_ ?_ ?_ ?_ ?_ ?_ ?_ ?_ ?_ ?_ ?_ ?_ ?_ ?_ ?_ ?_ ?_ ?_ ?_ ?_ ?_ ?_ ?_ ?_
    ?_ ?_ ?_ ?_ ?_ ?_ ?_ ?_ ?_ ?_ ?_ ?_ ?_ ?_ ?_ ?_ ?_ ?_ ?_ ?_ ?_ ?_ ?_ ?_ ?_ ?_ ?_ ?_ ?_ ?_
    ?_ ?_ ?_ ?_ ?_ ?_ ?_ ?_ ?_ ?_ ?_ ?_ ?_ ?_ ?_ ?_ ?_ ?_ ?_ ?_ ?_ ?_ ?_ ?_ ?_ ?_ ?_ ?_ ?_ ?_
    ?_ ?_).2.2.2.2.2.2.2.2.2.2.2.2.2.1 program ctx
  -- expressions
  · intro v ctx terminal
    exact .of_untails (fun _ => rfl) fun P ctx' E role h _ => .value v
  · intro x ctx terminal
    exact .of_untails (fun _ => rfl) fun P ctx' E role h _ => .step rfl
  · intro ctx terminal
    exact .of_untails (fun _ => rfl) fun P ctx' E role h _ => .step rfl
  · intro line x line' f ctx terminal hf
    exact .of_untails (fun _ => rfl) fun P ctx' E role h _ =>
      ((hf P ctx' E false h).before (.step rfl)).before (.step rfl)
  · intro line x value ctx terminal hne hv
    refine .of_untails (fun _ => rfl) fun P ctx' E role h _ => ?_
    rw [Expr.lower, Expr.lower, Expr.tails]
    · exact ((hv.inner h).before (.step rfl)).before (.step rfl)
    all_goals exact hne
  · intro line object x value ctx terminal ho hv
    exact .of_untails (fun _ => rfl) fun P ctx' E role h _ =>
      ((ho.inner h).append (hv.inner h)).before (.step rfl)
  · intro line object index value ctx terminal ho hi hv
    exact .of_untails (fun _ => rfl) fun P ctx' E role h _ =>
      (((ho.inner h).append (hi.inner h)).append (hv.inner h)).before (.step rfl)
  · intro line target value ctx terminal h₁ h₂ h₃ h₄
    refine .of_untails (fun _ => rfl) fun P ctx' E role h _ => ?_
    rw [Expr.lower]
    · exact .refuse
    · exact h₁
    · exact h₂
    · exact h₃
    · exact h₄
  · intro op lhs rhs ctx terminal hl hr
    exact .of_untails (fun _ => rfl) fun P ctx' E role h _ =>
      ((hl.inner h).append (hr.inner h)).before (.step (by cases op <;> rfl))
  · intro op lhs rhs ctx terminal hl hr
    exact .of_untails (fun _ => rfl) fun P ctx' E role h _ => .withLabel fun done =>
      (((hl.inner h).before (.step (by cases op <;> rfl))).append (hr.inner h)).before (.step rfl)
  · intro op operand ctx terminal ho
    exact .of_untails (fun _ => rfl) fun P ctx' E role h _ =>
      (ho.inner h).before (.step (by cases op <;> rfl))
  · intro line callee args ctx terminal hc ha
    exact .call hc ha
  · intro line object x args ctx terminal ho ha
    exact .of_untails (fun _ => rfl) fun P ctx' E role h _ =>
      (((ho.inner h).before (.step rfl)).append ((ha P ctx' E h).unmixed _ _ _)).before .methodOp
  · intro object x ctx terminal ho
    exact .of_untails (fun _ => rfl) fun P ctx' E role h _ => (ho.inner h).before (.step rfl)
  · intro object index ctx terminal ho hi
    exact .of_untails (fun _ => rfl) fun P ctx' E role h _ =>
      ((ho.inner h).append (hi.inner h)).before (.step rfl)
  · intro items ctx terminal hi
    exact .of_untails (fun _ => rfl) fun P ctx' E role h _ => (hi P ctx' E h).before (.step rfl)
  · intro entries ctx terminal he
    exact .of_untails (fun _ => rfl) fun P ctx' E role h _ => (he P ctx' E h).before (.step rfl)
  · intro line f ctx terminal hf
    exact .of_untails (fun _ => rfl) fun P ctx' E role h _ => hf P ctx' E terminal h
  · intro cond thenE elseE ctx terminal hc ht he
    exact .of_untails (fun _ => rfl) fun P ctx' E role h hrole =>
      .withLabel fun other => .withLabel fun done =>
        (((((hc.inner h).before (.step rfl)).append (ht.branch h hrole)).jumpTo fun _ hb => hb).before
          (.step rfl)).append (he.branch h hrole) |>.join
  · intro subject arms default ctx terminal hs ht hd hr
    refine .of_untails (fun _ => rfl) fun P ctx' E role h hrole => ?_
    refine ((hs.inner h).append (.withHidden fun x => .after .declareAndStore
      (.withLabel fun done => .withLabels fun first =>
        (((ht x first _ ctx' E h).append (hd _ ctx' E role h hrole)).jumpTo
          fun _ hb => hb).append (hr done first _ ctx' E role terminal h hrole fun _ hb => hb)
          |>.join))).block.congr ?_
    rw [Expr.tails, Tails.append_assoc, Tails.append_assoc, Tails.append_assoc]
  · intro line value ctx terminal hg hv
    refine .of_untails (fun _ => rfl) fun P ctx' E role h _ => ?_
    rw [Expr.lower, if_pos hg, Expr.lower, if_pos (by rw [h.generator']; exact hg)]
    exact (hv P ctx' E .inner h rfl).before (.step rfl)
  · intro line value ctx terminal hg
    refine .of_untails (fun _ => rfl) fun P ctx' E role h _ => ?_
    rw [Expr.lower, if_neg hg]
    exact .refuse
  -- functions
  · intro params variadic generator body ctx binding line x hx P ctx' E r h
    rw [Function.lower]
    simp only [hx]
    exact .refuse
  · intro params variadic generator body ctx binding line f hn inner hp hb P ctx' E r h
    rw [Function.lower, Function.lower, Function.tails]
    simp only [hn]
    have hinner := h.inFunction binding f
    exact .unit rfl (by decide) ((hp _ _ _ hinner).append (hb _ _ _ hinner))
  -- statements
  · intro line form ctx hf P ctx' E h
    exact .after (.markLine h) (hf P ctx' E h)
  · intro e ctx line he P ctx' E h
    exact (he.inner h).discard (e.calm_lower ctx false)
  · intro x ctx line P ctx' E h
    exact .after (.step rfl) .declareAndStore
  · intro x line f ctx line' hf P ctx' E h
    exact (Untails.after (.step rfl) (hf P ctx' E false h)).before (.step rfl)
  · intro x e ctx line hne he P ctx' E h
    rw [StmtForm.lower, StmtForm.lower, StmtForm.tails]
    · exact (he.inner h).before .declareAndStore
    · exact fun line f heq => hne line f (Option.some.inj heq)
    · exact hne
    · exact hne
  · intro body ctx line hb P ctx' E h
    exact (hb P ctx' E h).block
  · intro cond thenS ctx line hc ht P ctx' E h
    refine Untails.congr (.withLabel fun other =>
      (((hc.inner h).before (.step rfl)).append (ht P ctx' E h).block).before (.step rfl)) ?_
    exact Tails.append_none _
  · intro cond thenS elseS ctx line hc ht he P ctx' E h
    rw [StmtForm.lower, StmtForm.lower]
    refine .withLabel fun other =>
      (((hc.inner h).before (.step rfl)).append (ht P ctx' E h).block).append ?_
    exact .withLabel fun done => (Untails.after (.before (.step rfl) (.step rfl))
      (he P ctx' E h).block).before (.step rfl)
  · intro cond body ctx line hc hb P ctx' E h
    rw [StmtForm.lower, StmtForm.lower]
    exact .withLabel fun top => .withLabel fun done =>
      ((((Untails.after (.step rfl) (hc.inner h)).before (.step rfl)).append
        (hb top done P _ (E.inLoop true) (h.inLoop done (some top))).block).before (.step rfl)).before (.step rfl)
  · intro init cond afterwards body ctx line hi hc hb ha P ctx' E h
    refine ((hi P ctx' E h).append (.withLabel fun top => .withLabel fun next =>
      .withLabel fun done => (((((Untails.after (.step rfl) (hc done P ctx' E h)).append
        (hb next done P _ (E.inLoop true) (h.inLoop done (some next))).block).before (.step rfl)).append
        (ha P ctx' E h)).before (.step rfl)).before (.step rfl))).block.congr ?_
    rw [StmtForm.tails, Tails.append_assoc, Tails.append_assoc, Tails.append_assoc]
  · intro x iterable body ctx line hi hb P ctx' E h
    exact (((hi.inner h).before (.step rfl)).append (.withHidden fun it =>
      .after .declareAndStore (.withLabel fun next => .withLabel fun done =>
        ((Untails.after (.before (.before (.before (.step rfl) (.step rfl)) (.step rfl))
          .declareAndStore) (hb next done P _ (E.inLoop true) (h.inLoop done (some next))).block).before
          (.step rfl)).before (.step rfl)))).block
  · intro ctx line P ctx' E h
    exact .lowerBreak h
  · intro ctx line P ctx' E h
    exact .lowerContinue h
  · intro ctx line hk P ctx' E h
    rw [StmtForm.lower, if_pos hk, StmtForm.lower, if_pos (h.kind'.trans hk)]
    exact .returnTop h (.step rfl)
  · intro ctx line hk P ctx' E h
    rw [StmtForm.lower, if_neg hk]
    exact .refuse
  · intro e ctx line hk he P ctx' E h
    rw [StmtForm.lower, if_pos hk, StmtForm.lower, if_pos (h.kind'.trans hk)]
    exact he.returned h
  · intro e ctx line hk P ctx' E h
    rw [StmtForm.lower, if_neg hk]
    exact .refuse
  · intro e ctx line he P ctx' E h
    exact (he.inner h).before (.step rfl)
  · intro body handler cleanup ctx line hn P ctx' E h
    rw [StmtForm.lower, if_pos hn]
    exact .refuse
  · intro body handler cleanup ctx line hn clause hc hh hb P ctx' E h
    rw [StmtForm.lower, if_neg hn, StmtForm.lower, if_neg hn]
    have hclause := hc ctx' E h
    have hlowered := hclause.lowered ctx.loops
    rw [← h.loops] at hlowered
    rw [h.loops']
    exact .after (.step rfl) (.cleaned hlowered (.guarded (hh _ _ (h.inRegion false hclause))
      (hb P _ _ (h.inRegion handler.isSome hclause)).block))
  · intro subject cases default ctx line hs ht hb hd P ctx' E h
    rw [StmtForm.lower, StmtForm.lower, StmtForm.tails, Tails.append_assoc, Tails.append_assoc]
    refine .switch (hs.inner h) (fun x first => ht x first P ctx' E h)
      (fun done first => hb done first P _ (E.inLoop false) (h.inLoop done none)) fun done => ?_
    have hinner : ContextPair _ _ (E.inLoop false) := h.inLoop done none
    have hpair := hd done _ _ hinner
    rw [hinner.loops', hinner.loops]
    generalize Stmt.lowerBlock? default (ctx.inLoop done none) = c at hpair ⊢
    generalize Stmt.lowerBlock? default (ctx'.inLoop done none) = c' at hpair ⊢
    generalize Stmt.cleanupTails default (E.inLoop false) = tails at hpair ⊢
    cases hpair with
    | none => exact .nil
    | some hc => exact hc P _
  · intro x f ctx line hf P ctx' E h
    rw [StmtForm.lower, StmtForm.lower, StmtForm.tails, h.kind, h.kind']
    exact (Untails.after (.predeclare h) (hf P ctx' E false h)).before (.bindDeclared h)
  · intro x parent body ctx line hp hb P ctx' E h
    exact ((Untails.after (.predeclare h) (hp P ctx' E .inner h rfl)).append
      (.unit rfl (by decide) ((hb _ _ _ h.inObject).before .returnNil))).before (.bindDeclared h)
  · intro x body ctx line hb P ctx' E h
    exact (Untails.after (.predeclare h)
      (.unit rfl (by decide) ((hb _ _ _ h.inObject).before .returnNil))).before (.bindDeclared h)
  -- arguments
  · intro ctx call line names P ctx' E h
    exact .nil
  · intro e rest ctx call line names hn he hr P ctx' E h
    rw [Arg.lower, if_pos hn, Arg.lower, if_pos hn]
    exact (he.inner h).append (hr P ctx' E h)
  · intro e rest ctx call line names hn P ctx' E h
    rw [Arg.lower, if_neg hn]
    exact .refuse
  · intro e rest ctx call line names hn he hr P ctx' E h
    rw [Arg.lower, if_pos hn, Arg.lower, if_pos hn]
    exact ((he.inner h).before (.step rfl)).append (hr P ctx' E h)
  · intro e rest ctx call line names hn P ctx' E h
    rw [Arg.lower, if_neg hn]
    exact .refuse
  · intro x e rest ctx call line names hn P ctx' E h
    rw [Arg.lower, if_pos hn]
    exact .refuse
  · intro x e rest ctx call line names hn he hr P ctx' E h
    rw [Arg.lower, if_neg hn, Arg.lower, if_neg hn]
    exact (Untails.after (.step rfl) (he.inner h)).append (hr P ctx' E h)
  -- several expressions
  · intro ctx x l P ctx' E h
    exact .nil
  · intro e rest ctx x l he hr P ctx' E h
    exact (((Untails.after (.step rfl) (he.inner h)).before (.step rfl)).before (.step rfl)).append
      (hr P ctx' E h)
  · intro ctx P ctx' E h
    exact .nil
  · intro e rest ctx he hr P ctx' E h
    exact (he.inner h).append (hr P ctx' E h)
  · intro ctx P ctx' E h
    exact .nil
  · intro x v rest ctx hv hr P ctx' E h
    exact (Untails.after (.step rfl) (hv.inner h)).append (hr P ctx' E h)
  · intro k v rest ctx hk hv hr P ctx' E h
    exact ((hk.inner h).append (hv.inner h)).append (hr P ctx' E h)
  · intro ctx terminal first done P ctx' E role r h _ _
    exact .nil
  · intro values result rest ctx terminal l done hv hr P ctx' E role r h hrole hjoins
    exact ((Untails.after (.step rfl) (hv.branch h hrole)).jumpTo hjoins).append
      (hr P ctx' E role r h hrole hjoins)
  · intro ctx x l P ctx' E h
    exact .nil
  · intro values result rest ctx x l hv hr P ctx' E h
    exact (hv P ctx' E h).append (hr P ctx' E h)
  · intro ctx terminal P ctx' E role h _
    exact .step rfl
  · intro e ctx terminal he P ctx' E role h hrole
    exact he.branch h hrole
  · intro ctx P ctx' E h
    exact .nil
  · intro e ctx he P ctx' E h
    exact (he.inner h).discard (e.calm_lower ctx false)
  · intro ctx done P ctx' E h
    exact .nil
  · intro e ctx done he P ctx' E h
    exact (he.inner h).before (.step rfl)
  · intro ctx i P ctx' E h
    exact .nil
  · intro name rest ctx i hr P ctx' E h
    exact hr P ctx' E h
  · intro x e rest ctx i he hr P ctx' E h
    exact Untails.append (.withLabel fun skip => (((Untails.after
      (.before (.step rfl) (.step rfl)) (he.inner h)).before (.step rfl)).before (.step rfl)).before
      (.step rfl)) (hr P ctx' E h)
  -- bodies and clauses
  · intro ctx P ctx' E h
    exact .returnNil
  · intro line e ctx he P ctx' E h
    rw [Stmt.lowerBody, Stmt.lowerBody, Draft.append_assoc, Draft.append_assoc]
    exact .after (.markLine h) (he.ending h)
  · intro line value ctx hv P ctx' E h
    exact (Untails.after (.markLine h) (hv P ctx' E h)).congr (Tails.append_none _)
  · intro line form ctx h₁ h₂ hf P ctx' E h
    rw [Stmt.lowerBody, Stmt.lowerBody, Stmt.bodyTails]
    · exact ((Untails.after (.markLine h) (hf P ctx' E h)).before .returnNil).congr
        (Tails.append_none _)
    · exact fun line' e heq _ => h₁ e (Stmt.mk.inj heq).2
    · exact h₁
    · exact h₂
    · exact h₁
    · exact h₂
  · intro s rest ctx h₁ h₂ h₃ hs hr P ctx' E h
    rw [Stmt.lowerBody, Stmt.lowerBody, Stmt.bodyTails]
    · exact (hs P ctx' E h).append (hr P ctx' E h)
    all_goals first | exact h₁ | exact h₂ | exact h₃
  · intro ctx P ctx' E h
    exact .nil
  · intro s rest ctx hs hr P ctx' E h
    exact (hs P ctx' E h).append (hr P ctx' E h)
  · intro ctx P ctx' E h
    exact .nil
  · intro s ctx hs P ctx' E h
    exact hs P ctx' E h
  · intro ctx ctx' E h
    exact .none
  · intro x body ctx hb ctx' E h
    exact .some fun P => (Untails.after .declareAndStore (hb P ctx' E h)).block
  · intro ctx ctx' E h
    exact .none
  · intro body ctx hb ctx' E h
    exact .some fun P loops => (hb loops P _ _ (h.withLoops loops)).block
  · intro ctx first done P ctx' E h
    exact .nil
  · intro values body rest ctx l done hb hr P ctx' E h
    exact ((Untails.after (.step rfl) (hb P ctx' E h).block).before (.step rfl)).append
      (hr P ctx' E h)
  · intro ctx x l P ctx' E h
    exact .nil
  · intro values body rest ctx x l hv hr P ctx' E h
    exact (hv P ctx' E h).append (hr P ctx' E h)

end StackCode
