import StackCode.Proofs.DraftPairs

/-!
# Lowering in contexts that are alike

The draft of a tree depends on the context only through what the context says about it. Where two
contexts agree on everything but the settings and the cleanups of their regions, the drafts of a tree are
related whenever the drafts that mark lines and the cleanups are.

* `Draft.Congruence`: a relation between drafts that is kept when drafts are put together;
* `Context.Alike`: contexts that agree up to such a relation;
* `Stmt.alike_lowerAll`: the drafts of a tree in contexts that are alike.
-/

namespace StackCode

open Draft

/-! ### Related drafts -/

/-- A relation that is kept when drafts are put together. -/
structure Draft.Congruence (R : Draft → Draft → Prop) : Prop where
  refl : ∀ d, R d d
  append : ∀ {a a' b b'}, R a a' → R b b' → R (a ++ b) (a' ++ b')
  withLabel : ∀ {F F' : Label → Draft}, (∀ l, R (F l) (F' l)) → R (withLabel F) (withLabel F')
  withLabels : ∀ {n} {F F' : Label → Draft}, (∀ l, R (F l) (F' l)) →
    R (withLabels n F) (withLabels n F')
  withHidden : ∀ {what} {F F' : String → Draft}, (∀ x, R (F x) (F' x)) →
    R (withHidden what F) (withHidden what F')
  unit : ∀ {op kind signature d d'}, R d d' → R (unit op kind signature d) (unit op kind signature d')

/-- Cleanups that are related wherever they are lowered. -/
def CleanupsAlike (R : Draft → Draft → Prop) : Option (List Loop → Draft) →
    Option (List Loop → Draft) → Prop :=
  Option.Rel fun c c' => ∀ loops, R (c loops) (c' loops)

/-- Regions that are left in the same way. -/
structure Region.Alike (R : Draft → Draft → Prop) (r r' : Region) : Prop where
  catchInstalled : r'.catchInstalled = r.catchInstalled
  cleanup : CleanupsAlike R r.cleanup r'.cleanup

/-- Contexts that agree up to a relation between drafts. -/
structure Context.Alike (R : Draft → Draft → Prop) (ctx ctx' : Context) : Prop where
  lines : ∀ line, R (markLine ctx line) (markLine ctx' line)
  tailCalls : ctx'.config.tailCalls = ctx.config.tailCalls
  kind : ctx'.kind = ctx.kind
  generator : ctx'.generator = ctx.generator
  self : ctx'.self = ctx.self
  loops : ctx'.loops = ctx.loops
  regions : List.Forall₂ (Region.Alike R) ctx.regions ctx'.regions

namespace Context.Alike

variable {R : Draft → Draft → Prop} {ctx ctx' : Context}

theorem isTail (h : ctx.Alike R ctx') (terminal : Bool) (e : Expr) :
    ctx'.isTail terminal e = ctx.isTail terminal e := by
  rw [Context.isTail, Context.isTail, h.self]

theorem isTerminal (h : ctx.Alike R ctx') : ctx'.isTerminal = ctx.isTerminal := by
  rw [Context.isTerminal, Context.isTerminal, Bool.eq_iff_iff, List.isEmpty_iff_length_eq_zero,
    List.isEmpty_iff_length_eq_zero, h.regions.length_eq]

theorem withLoops (h : ctx.Alike R ctx') (loops : List Loop) :
    Context.Alike R { ctx with loops } { ctx' with loops } :=
  { h with loops := rfl }

theorem inLoop (h : ctx.Alike R ctx') (breakTo : Label) (continueTo : Option Label) :
    (ctx.inLoop breakTo continueTo).Alike R (ctx'.inLoop breakTo continueTo) := by
  refine { h with loops := ?_ }
  simp only [Context.inLoop, h.loops, h.regions.length_eq]

theorem inRegion (h : ctx.Alike R ctx') (caught : Bool) {c c' : Option (List Loop → Draft)}
    (hc : CleanupsAlike R c c') : (ctx.inRegion caught c).Alike R (ctx'.inRegion caught c') :=
  { h with regions := .cons ⟨rfl, hc⟩ h.regions }

theorem inObject (h : ctx.Alike R ctx') : ctx.inObject.Alike R ctx'.inObject :=
  ⟨h.lines, h.tailCalls, rfl, rfl, rfl, rfl, .nil⟩

theorem inFunction (h : ctx.Alike R ctx') (binding : Option String) (f : Function) :
    (ctx.inFunction binding f).Alike R (ctx'.inFunction binding f) := by
  refine ⟨h.lines, h.tailCalls, rfl, rfl, ?_, rfl, .nil⟩
  simp only [Context.inFunction, h.tailCalls]

theorem predeclare_eq (h : ctx.Alike R ctx') (x : String) : predeclare ctx' x = predeclare ctx x := by
  rw [predeclare, predeclare, h.kind]

theorem bindDeclared_eq (h : ctx.Alike R ctx') (x : String) :
    bindDeclared ctx' x = bindDeclared ctx x := by
  rw [bindDeclared, bindDeclared, h.kind]

end Context.Alike

/-! ### Pieces -/

namespace Draft.Congruence

variable {R : Draft → Draft → Prop} {ctx ctx' : Context} {d d' e e' : Draft}

/-- The same piece behind related drafts. -/
theorem before (hR : Congruence R) (h : R d d') (e : Draft) : R (d ++ e) (d' ++ e) :=
  hR.append h (hR.refl e)

/-- The same piece before related drafts. -/
theorem after (hR : Congruence R) (d : Draft) (h : R e e') : R (d ++ e) (d ++ e') :=
  hR.append (hR.refl d) h

theorem block (hR : Congruence R) (h : R d d') : R (block d) (block d') :=
  hR.before (hR.after _ h) _

theorem unmixed (hR : Congruence R) {args : List Arg} {call : String} {line : Nat} (h : R d d') :
    R (unmixed args call line d) (unmixed args call line d') := by
  unfold StackCode.unmixed
  split
  · exact hR.refl _
  · exact h

/-- The cleanup that an exit runs. -/
theorem cleanup (hR : Congruence R) {c c' : Option (List Loop → Draft)} (loops : List Loop) :
    CleanupsAlike R c c' →
    R (match c with
      | some cleanup => plain .endTry ++ delay fun _ => cleanup loops
      | none => Draft.nil)
      (match c' with
      | some cleanup => plain .endTry ++ delay fun _ => cleanup loops
      | none => Draft.nil) := by
  intro h
  cases h with
  | none => exact hR.refl _
  | some hc => exact hR.after _ (hc loops)

theorem unwind (hR : Congruence R) {regions regions' : List Region}
    (h : List.Forall₂ (Region.Alike R) regions regions') (loops : List Loop) (n : Nat) :
    R (unwind loops n regions) (unwind loops n regions') := by
  induction h generalizing n with
  | nil => cases n <;> exact hR.refl _
  | @cons r r' rest rest' hr _ ih =>
    cases n with
    | zero => exact hR.refl _
    | succ n =>
      unfold StackCode.unwind
      rw [hr.catchInstalled]
      exact hR.append (hR.after _ (hR.cleanup loops hr.cleanup)) (ih n)

theorem unwindTo (hR : Congruence R) (h : ctx.Alike R ctx') (depth : Nat) :
    R (ctx.unwindTo depth) (ctx'.unwindTo depth) := by
  unfold Context.unwindTo
  rw [h.loops, ← h.regions.length_eq]
  exact hR.unwind h.regions _ _

theorem returnTop (hR : Congruence R) (h : ctx.Alike R ctx') : R ctx.returnTop ctx'.returnTop :=
  hR.before (hR.unwindTo h 0) _

theorem lowerBreak (hR : Congruence R) (h : ctx.Alike R ctx') (line : Nat) :
    R (lowerBreak ctx line) (lowerBreak ctx' line) := by
  unfold StackCode.lowerBreak
  rw [h.loops]
  cases ctx.loops with
  | nil => exact hR.refl _
  | cons l rest => exact hR.before (hR.unwindTo h _) _

theorem lowerContinue (hR : Congruence R) (h : ctx.Alike R ctx') (line : Nat) :
    R (lowerContinue ctx line) (lowerContinue ctx' line) := by
  unfold StackCode.lowerContinue
  rw [h.loops]
  cases continuable? ctx.loops with
  | none => exact hR.refl _
  | some x => exact hR.before (hR.unwindTo h _) _

theorem guarded (hR : Congruence R) {handler handler' : Option Draft}
    (hh : Option.Rel R handler handler') (h : R d d') :
    R (guarded handler d) (guarded handler' d') := by
  cases hh with
  | none => exact h
  | some hc =>
    unfold StackCode.guarded
    exact hR.withLabel fun l => hR.append (hR.before (hR.after _ h) _)
      (hR.withLabel fun done => hR.before (hR.after _ hc) _)

theorem cleaned (hR : Congruence R) {cleanup cleanup' : Option Draft}
    (hc : Option.Rel R cleanup cleanup') (h : R d d') :
    R (cleaned cleanup d) (cleaned cleanup' d') := by
  cases hc with
  | none => exact h
  | some hc =>
    exact hR.withLabel fun l => hR.before (hR.append (hR.before (hR.before (hR.after _ h) _) _) hc) _

/-- Statements that may be missing, lowered with the loops around them. -/
theorem optional (hR : Congruence R) {c c' : Option (List Loop → Draft)} {loops loops' : List Loop} :
    CleanupsAlike R c c' → loops' = loops →
    R (match c with
      | some body => body loops
      | none => Draft.nil)
      (match c' with
      | some body => body loops'
      | none => Draft.nil) := by
  rintro h rfl
  cases h with
  | none => exact hR.refl _
  | some hc => exact hc _

/-- A value that is returned at once needs no return behind a tail call. -/
theorem returned (hR : Congruence R) (h : ctx.Alike R ctx') {e : Expr} {terminal : Bool}
    {ret ret' : Draft} (he : R (e.lower ctx terminal) (e.lower ctx' terminal)) (hret : R ret ret') :
    R (e.lower ctx terminal ++ if ctx.isTail terminal e then nil else ret)
      (e.lower ctx' terminal ++ if ctx'.isTail terminal e then nil else ret') := by
  rw [h.isTail]
  split
  · exact hR.before he _
  · exact hR.append he hret

end Draft.Congruence

/-! ### The recursion -/

/-- All that is lowered in contexts that are alike is related: `lower` is a part of the lowering. -/
def Lowered (R : Draft → Draft → Prop) (ctx : Context) (lower : Context → Draft) : Prop :=
  ∀ ctx', ctx.Alike R ctx' → R (lower ctx) (lower ctx')

/-- The drafts of statements are related in contexts that are alike; the other parts of the lowering are
followed on the way. -/
theorem Stmt.alike_lowerAll {R : Draft → Draft → Prop} (hR : Draft.Congruence R)
    (program : List Stmt) (ctx : Context) : Lowered R ctx (Stmt.lowerAll program) := by
  refine (Expr.lower.mutual_induct
    (fun e ctx terminal => Lowered R ctx fun ctx => e.lower ctx terminal)
    (fun arms ctx terminal first done => Lowered R ctx fun ctx =>
      Arm.lowerResults arms ctx terminal first done)
    (fun e ctx terminal => Lowered R ctx fun ctx => Expr.lowerOr e ctx terminal)
    (fun arms ctx x first => Lowered R ctx fun ctx => Arm.lowerTests arms ctx x first)
    (fun values ctx x l => Lowered R ctx fun ctx => Expr.lowerTests values ctx x l)
    (fun entries ctx => Lowered R ctx (Entry.lower entries))
    (fun items ctx => Lowered R ctx (Expr.lowerAll items))
    (fun args ctx call line names => Lowered R ctx fun ctx => Arg.lower args ctx call line names)
    (fun f ctx binding line => Lowered R ctx fun ctx => f.lower ctx binding line)
    (fun body ctx => Lowered R ctx (Stmt.lowerBody body))
    (fun s ctx => Lowered R ctx s.lower)
    (fun form ctx line => Lowered R ctx fun ctx => form.lower ctx line)
    (fun cases ctx first done => Lowered R ctx fun ctx => Case.lowerBodies cases ctx first done)
    (fun body ctx => Lowered R ctx (Stmt.lowerAll body))
    (fun cases ctx x first => Lowered R ctx fun ctx => Case.lowerTests cases ctx x first)
    (fun handler ctx => ∀ ctx', ctx.Alike R ctx' →
      Option.Rel R (Catch.lower handler ctx) (Catch.lower handler ctx'))
    (fun body ctx => ∀ ctx', ctx.Alike R ctx' →
      CleanupsAlike R (Stmt.lowerBlock? body ctx) (Stmt.lowerBlock? body ctx'))
    (fun e ctx => Lowered R ctx (Expr.lowerEffect e))
    (fun e ctx done => Lowered R ctx fun ctx => Expr.lowerCondition e ctx done)
    (fun s ctx => Lowered R ctx (Stmt.lowerOptional s))
    (fun params ctx i => Lowered R ctx fun ctx => Param.lower params ctx i)
    ?_ ?_ ?_ ?_ ?_ ?_ ?_ ?_ ?_ ?_ ?_ ?_ ?_ ?_ ?_ ?_ ?_ ?_ ?_ ?_ ?_ ?_ ?_ ?_ ?_ ?_ ?_ ?_ ?_ ?_
    ?_ ?_ ?_ ?_ ?_ ?_ ?_ ?_ ?_ ?_ ?_ ?_ ?_ ?_ ?_ ?_ ?_ ?_ ?_ ?_ ?_ ?_ ?_ ?_ ?_ ?_ ?_ ?_ ?_ ?_
    ?_ ?_ ?_ ?_ ?_ ?_ ?_ ?_ ?_ ?_ ?_ ?_ ?_ ?_ ?_ ?_ ?_ ?_ ?_ ?_ ?_ ?_ ?_ ?_ ?_ ?_ ?_ ?_ ?_ ?_
    ?_ ?_).2.2.2.2.2.2.2.2.2.2.2.2.2.1 program ctx
  -- expressions
  · intro v ctx terminal ctx' h
    exact hR.refl _
  · intro x ctx terminal ctx' h
    exact hR.refl _
  · intro ctx terminal ctx' h
    exact hR.refl _
  · intro line x line' f ctx terminal hf ctx' h
    exact hR.before (hR.before (hf ctx' h) _) _
  · intro line x value ctx terminal hne hv ctx' h
    show R (Expr.lower (.assign line (.name x) value) ctx terminal)
      (Expr.lower (.assign line (.name x) value) ctx' terminal)
    rw [Expr.lower, Expr.lower]
    · exact hR.before (hR.before (hv ctx' h) _) _
    · exact hne
    · exact hne
  · intro line object x value ctx terminal ho hv ctx' h
    exact hR.before (hR.append (ho ctx' h) (hv ctx' h)) _
  · intro line object index value ctx terminal ho hi hv ctx' h
    exact hR.before (hR.append (hR.append (ho ctx' h) (hi ctx' h)) (hv ctx' h)) _
  · intro line target value ctx terminal h₁ h₂ h₃ h₄ ctx' h
    show R (Expr.lower (.assign line target value) ctx terminal)
      (Expr.lower (.assign line target value) ctx' terminal)
    rw [Expr.lower, Expr.lower]
    · exact hR.refl _
    all_goals assumption
  · intro op lhs rhs ctx terminal hl hr ctx' h
    exact hR.before (hR.append (hl ctx' h) (hr ctx' h)) _
  · intro op lhs rhs ctx terminal hl hr ctx' h
    exact hR.withLabel fun done =>
      hR.before (hR.append (hR.before (hl ctx' h) _) (hr ctx' h)) _
  · intro op operand ctx terminal ho ctx' h
    exact hR.before (ho ctx' h) _
  · intro line callee args ctx terminal hc ha ctx' h
    show R (Expr.lower (.call line callee args) ctx terminal)
      (Expr.lower (.call line callee args) ctx' terminal)
    rw [Expr.lower, Expr.lower, h.isTail]
    exact hR.before (hR.append (hc ctx' h) (hR.unmixed (ha ctx' h))) _
  · intro line object x args ctx terminal ho ha ctx' h
    exact hR.before (hR.append (hR.before (ho ctx' h) _) (hR.unmixed (ha ctx' h))) _
  · intro object x ctx terminal ho ctx' h
    exact hR.before (ho ctx' h) _
  · intro object index ctx terminal ho hi ctx' h
    exact hR.before (hR.append (ho ctx' h) (hi ctx' h)) _
  · intro items ctx terminal hi ctx' h
    exact hR.before (hi ctx' h) _
  · intro entries ctx terminal he ctx' h
    exact hR.before (he ctx' h) _
  · intro line f ctx terminal hf ctx' h
    exact hf ctx' h
  · intro cond thenE elseE ctx terminal hc ht he ctx' h
    exact hR.withLabel fun other => hR.withLabel fun done =>
      hR.before (hR.append (hR.before (hR.before (hR.append (hR.before (hc ctx' h) _)
        (ht ctx' h)) _) _) (he ctx' h)) _
  · intro subject arms default ctx terminal hs ht hd hr ctx' h
    exact hR.block (hR.append (hs ctx' h) (hR.withHidden fun x => hR.after _
      (hR.withLabel fun done => hR.withLabels fun first =>
        hR.before (hR.append (hR.before (hR.append (ht x first ctx' h) (hd ctx' h)) _)
          (hr done first ctx' h)) _)))
  · intro line value ctx terminal hg hv ctx' h
    show R (Expr.lower (.yield line value) ctx terminal) (Expr.lower (.yield line value) ctx' terminal)
    rw [Expr.lower, Expr.lower, h.generator, if_pos hg, if_pos hg]
    exact hR.before (hv ctx' h) _
  · intro line value ctx terminal hg ctx' h
    show R (Expr.lower (.yield line value) ctx terminal) (Expr.lower (.yield line value) ctx' terminal)
    rw [Expr.lower, Expr.lower, h.generator, if_neg hg, if_neg hg]
    exact hR.refl _
  -- functions
  · intro params variadic generator body ctx binding line x hx ctx' h
    show R (Function.lower _ ctx binding line) (Function.lower _ ctx' binding line)
    rw [Function.lower, Function.lower]
    simp only [hx]
    exact hR.refl _
  · intro params variadic generator body ctx binding line f hn inner hp hb ctx' h
    show R (Function.lower _ ctx binding line) (Function.lower _ ctx' binding line)
    rw [Function.lower, Function.lower]
    simp only [hn]
    have hinner := h.inFunction binding f
    exact hR.unit (hR.append (hp _ hinner) (hb _ hinner))
  -- statements
  · intro line form ctx hf ctx' h
    exact hR.append (h.lines line) (hf ctx' h)
  · intro e ctx line he ctx' h
    exact hR.before (he ctx' h) _
  · intro x ctx line ctx' h
    exact hR.refl _
  · intro x line f ctx line' hf ctx' h
    exact hR.before (hR.after _ (hf ctx' h)) _
  · intro x e ctx line hne he ctx' h
    show R (StmtForm.lower (.var x (some e)) ctx line) (StmtForm.lower (.var x (some e)) ctx' line)
    rw [StmtForm.lower, StmtForm.lower]
    · exact hR.before (he ctx' h) _
    · exact hne
    · exact hne
  · intro body ctx line hb ctx' h
    exact hR.block (hb ctx' h)
  · intro cond thenS ctx line hc ht ctx' h
    show R (StmtForm.lower (.ifElse cond thenS none) ctx line)
      (StmtForm.lower (.ifElse cond thenS none) ctx' line)
    rw [StmtForm.lower, StmtForm.lower]
    exact hR.withLabel fun other =>
      hR.before (hR.append (hR.before (hc ctx' h) _) (hR.block (ht ctx' h))) _
  · intro cond thenS elseS ctx line hc ht he ctx' h
    show R (StmtForm.lower (.ifElse cond thenS (some elseS)) ctx line)
      (StmtForm.lower (.ifElse cond thenS (some elseS)) ctx' line)
    rw [StmtForm.lower, StmtForm.lower]
    exact hR.withLabel fun other =>
      hR.append (hR.append (hR.before (hc ctx' h) _) (hR.block (ht ctx' h)))
        (hR.withLabel fun done => hR.before (hR.after _ (hR.block (he ctx' h))) _)
  · intro cond body ctx line hc hb ctx' h
    show R (StmtForm.lower (.whileDo cond body) ctx line) (StmtForm.lower (.whileDo cond body) ctx' line)
    rw [StmtForm.lower, StmtForm.lower]
    exact hR.withLabel fun top => hR.withLabel fun done =>
      hR.before (hR.before (hR.append (hR.before (hR.after _ (hc ctx' h)) _)
        (hR.block (hb top done _ (h.inLoop done (some top))))) _) _
  · intro init cond afterwards body ctx line hi hc hb ha ctx' h
    exact hR.block (hR.append (hi ctx' h) (hR.withLabel fun top => hR.withLabel fun next =>
      hR.withLabel fun done => hR.before (hR.before (hR.append (hR.before (hR.append
        (hR.after _ (hc done ctx' h)) (hR.block (hb next done _ (h.inLoop done (some next))))) _)
        (ha ctx' h)) _) _))
  · intro x iterable body ctx line hi hb ctx' h
    exact hR.block (hR.append (hR.before (hi ctx' h) _) (hR.withHidden fun it => hR.after _
      (hR.withLabel fun next => hR.withLabel fun done => hR.before (hR.before (hR.after _
        (hR.block (hb next done _ (h.inLoop done (some next))))) _) _)))
  · intro ctx line ctx' h
    exact hR.lowerBreak h line
  · intro ctx line ctx' h
    exact hR.lowerContinue h line
  · intro ctx line hk ctx' h
    show R (StmtForm.lower (.ret none) ctx line) (StmtForm.lower (.ret none) ctx' line)
    rw [StmtForm.lower, StmtForm.lower, h.kind, if_pos hk, if_pos hk]
    exact hR.after _ (hR.returnTop h)
  · intro ctx line hk ctx' h
    show R (StmtForm.lower (.ret none) ctx line) (StmtForm.lower (.ret none) ctx' line)
    rw [StmtForm.lower, StmtForm.lower, h.kind, if_neg hk, if_neg hk]
    exact hR.refl _
  · intro e ctx line hk he ctx' h
    show R (StmtForm.lower (.ret (some e)) ctx line) (StmtForm.lower (.ret (some e)) ctx' line)
    rw [StmtForm.lower, StmtForm.lower, h.kind, if_pos hk, if_pos hk, h.isTerminal]
    exact hR.returned h (he ctx' h) (hR.returnTop h)
  · intro e ctx line hk ctx' h
    show R (StmtForm.lower (.ret (some e)) ctx line) (StmtForm.lower (.ret (some e)) ctx' line)
    rw [StmtForm.lower, StmtForm.lower, h.kind, if_neg hk, if_neg hk]
    exact hR.refl _
  · intro e ctx line he ctx' h
    exact hR.before (he ctx' h) _
  · intro body handler cleanup ctx line hn ctx' h
    show R (StmtForm.lower (.tryCatch body handler cleanup) ctx line)
      (StmtForm.lower (.tryCatch body handler cleanup) ctx' line)
    rw [StmtForm.lower, StmtForm.lower, if_pos hn, if_pos hn]
    exact hR.refl _
  · intro body handler cleanup ctx line hn clause hc hh hb ctx' h
    show R (StmtForm.lower (.tryCatch body handler cleanup) ctx line)
      (StmtForm.lower (.tryCatch body handler cleanup) ctx' line)
    rw [StmtForm.lower, StmtForm.lower, if_neg hn, if_neg hn, h.loops]
    have hclause := hc ctx' h
    refine hR.after _ (hR.cleaned ?_ (hR.guarded (hh _ (h.inRegion false hclause))
      (hR.block (hb _ (h.inRegion _ hclause)))))
    exact hclause.map fun _ _ hcleanup => hcleanup _
  · intro subject cases default ctx line hs ht hb hd ctx' h
    show R (StmtForm.lower (.switch subject cases default) ctx line)
      (StmtForm.lower (.switch subject cases default) ctx' line)
    rw [StmtForm.lower, StmtForm.lower]
    refine hR.block (hR.append (hs ctx' h) (hR.withHidden fun x => hR.after _
      (hR.withLabel fun done => hR.withLabels fun first => hR.append (ht x first ctx' h)
        (hR.withLabel fun fallback => hR.before (hR.append (hR.before (hR.after _
          (hb done first _ (h.inLoop done none))) _) ?_) _))))
    exact hR.optional (hd done _ (h.inLoop done none)) ((h.inLoop done none).loops)
  · intro x f ctx line hf ctx' h
    show R (StmtForm.lower (.function x f) ctx line) (StmtForm.lower (.function x f) ctx' line)
    rw [StmtForm.lower, StmtForm.lower, h.predeclare_eq, h.bindDeclared_eq, h.kind]
    exact hR.before (hR.after _ (hf ctx' h)) _
  · intro x parent body ctx line hp hb ctx' h
    show R (StmtForm.lower (.classDef x parent body) ctx line)
      (StmtForm.lower (.classDef x parent body) ctx' line)
    rw [StmtForm.lower, StmtForm.lower, h.predeclare_eq, h.bindDeclared_eq]
    exact hR.before (hR.append (hR.after _ (hp ctx' h)) (hR.unit (hR.before (hb _ h.inObject) _))) _
  · intro x body ctx line hb ctx' h
    show R (StmtForm.lower (.namespaceDef x body) ctx line)
      (StmtForm.lower (.namespaceDef x body) ctx' line)
    rw [StmtForm.lower, StmtForm.lower, h.predeclare_eq, h.bindDeclared_eq]
    exact hR.before (hR.after _ (hR.unit (hR.before (hb _ h.inObject) _))) _
  -- arguments
  · intro ctx call line names ctx' h
    exact hR.refl _
  · intro e rest ctx call line names hn he hr ctx' h
    show R (Arg.lower (.positional e :: rest) ctx call line names)
      (Arg.lower (.positional e :: rest) ctx' call line names)
    rw [Arg.lower, Arg.lower, if_pos hn, if_pos hn]
    exact hR.append (he ctx' h) (hr ctx' h)
  · intro e rest ctx call line names hn ctx' h
    show R (Arg.lower (.positional e :: rest) ctx call line names)
      (Arg.lower (.positional e :: rest) ctx' call line names)
    rw [Arg.lower, Arg.lower, if_neg hn, if_neg hn]
    exact hR.refl _
  · intro e rest ctx call line names hn he hr ctx' h
    show R (Arg.lower (.spread e :: rest) ctx call line names)
      (Arg.lower (.spread e :: rest) ctx' call line names)
    rw [Arg.lower, Arg.lower, if_pos hn, if_pos hn]
    exact hR.append (hR.before (he ctx' h) _) (hr ctx' h)
  · intro e rest ctx call line names hn ctx' h
    show R (Arg.lower (.spread e :: rest) ctx call line names)
      (Arg.lower (.spread e :: rest) ctx' call line names)
    rw [Arg.lower, Arg.lower, if_neg hn, if_neg hn]
    exact hR.refl _
  · intro x e rest ctx call line names hn ctx' h
    show R (Arg.lower (.named x e :: rest) ctx call line names)
      (Arg.lower (.named x e :: rest) ctx' call line names)
    rw [Arg.lower, Arg.lower, if_pos hn, if_pos hn]
    exact hR.refl _
  · intro x e rest ctx call line names hn he hr ctx' h
    show R (Arg.lower (.named x e :: rest) ctx call line names)
      (Arg.lower (.named x e :: rest) ctx' call line names)
    rw [Arg.lower, Arg.lower, if_neg hn, if_neg hn]
    exact hR.append (hR.after _ (he ctx' h)) (hr ctx' h)
  -- several expressions
  · intro ctx x l ctx' h
    exact hR.refl _
  · intro e rest ctx x l he hr ctx' h
    exact hR.append (hR.before (hR.before (hR.after _ (he ctx' h)) _) _) (hr ctx' h)
  · intro ctx ctx' h
    exact hR.refl _
  · intro e rest ctx he hr ctx' h
    exact hR.append (he ctx' h) (hr ctx' h)
  · intro ctx ctx' h
    exact hR.refl _
  · intro x v rest ctx hv hr ctx' h
    exact hR.append (hR.after _ (hv ctx' h)) (hr ctx' h)
  · intro k v rest ctx hk hv hr ctx' h
    exact hR.append (hR.append (hk ctx' h) (hv ctx' h)) (hr ctx' h)
  · intro ctx terminal first done ctx' h
    exact hR.refl _
  · intro values result rest ctx terminal l done hv hr ctx' h
    exact hR.append (hR.before (hR.after _ (hv ctx' h)) _) (hr ctx' h)
  · intro ctx x l ctx' h
    exact hR.refl _
  · intro values result rest ctx x l hv hr ctx' h
    exact hR.append (hv ctx' h) (hr ctx' h)
  · intro ctx terminal ctx' h
    exact hR.refl _
  · intro e ctx terminal he ctx' h
    exact he ctx' h
  · intro ctx ctx' h
    exact hR.refl _
  · intro e ctx he ctx' h
    exact hR.before (he ctx' h) _
  · intro ctx done ctx' h
    exact hR.refl _
  · intro e ctx done he ctx' h
    exact hR.before (he ctx' h) _
  · intro ctx i ctx' h
    exact hR.refl _
  · intro name rest ctx i hr ctx' h
    exact hr ctx' h
  · intro x e rest ctx i he hr ctx' h
    exact hR.append (hR.withLabel fun skip => hR.before (hR.before (hR.before
      (hR.after _ (he ctx' h)) _) _) _) (hr ctx' h)
  -- bodies and clauses
  · intro ctx ctx' h
    exact hR.refl _
  · intro line e ctx he ctx' h
    show R (Stmt.lowerBody [.mk line (.expr e)] ctx) (Stmt.lowerBody [.mk line (.expr e)] ctx')
    rw [Stmt.lowerBody, Stmt.lowerBody, Draft.append_assoc, Draft.append_assoc]
    exact hR.append (h.lines line) (hR.returned h (he ctx' h) (hR.refl _))
  · intro line value ctx hv ctx' h
    exact hR.append (h.lines line) (hv ctx' h)
  · intro line form ctx h₁ h₂ hf ctx' h
    show R (Stmt.lowerBody [.mk line form] ctx) (Stmt.lowerBody [.mk line form] ctx')
    rw [Stmt.lowerBody, Stmt.lowerBody]
    · exact hR.before (hR.append (h.lines line) (hf ctx' h)) _
    all_goals assumption
  · intro s rest ctx h₁ h₂ h₃ hs hr ctx' h
    show R (Stmt.lowerBody (s :: rest) ctx) (Stmt.lowerBody (s :: rest) ctx')
    rw [Stmt.lowerBody, Stmt.lowerBody]
    · exact hR.append (hs ctx' h) (hr ctx' h)
    all_goals assumption
  · intro ctx ctx' h
    exact hR.refl _
  · intro s rest ctx hs hr ctx' h
    exact hR.append (hs ctx' h) (hr ctx' h)
  · intro ctx ctx' h
    exact hR.refl _
  · intro s ctx hs ctx' h
    exact hs ctx' h
  · intro ctx ctx' h
    exact .none
  · intro x body ctx hb ctx' h
    exact .some (hR.block (hR.after _ (hb ctx' h)))
  · intro ctx ctx' h
    exact .none
  · intro body ctx hb ctx' h
    exact .some fun loops => hR.block (hb loops _ (h.withLoops loops))
  · intro ctx first done ctx' h
    exact hR.refl _
  · intro values body rest ctx l done hb hr ctx' h
    exact hR.append (hR.before (hR.after _ (hR.block (hb ctx' h))) _) (hr ctx' h)
  · intro ctx x l ctx' h
    exact hR.refl _
  · intro values body rest ctx x l hv hr ctx' h
    exact hR.append (hv ctx' h) (hr ctx' h)

end StackCode
