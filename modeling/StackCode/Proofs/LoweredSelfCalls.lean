import StackCode.Proofs.LoweredOrder
import StackCode.Proofs.SelfCalls

/-!
# Lowered programs keep to their functions

Every form of the language is lowered to a draft that keeps to the name of the function around it,
as long as it does not give that name another meaning. A function that calls itself by its name was
found not to do so.

* `Context.Loyal`: the cleanups of the regions around a node keep to the name of the function;
* `Context.Spares`: a piece of a program does not bind that name;
* `Draft.Faithful.tailCall`: a call in tail position;
* `Program.faithful`: the script of every program that is compiled keeps to its functions.
-/

namespace StackCode

open Draft

/-! ### Contexts -/

/-- The cleanups of the regions around a node keep to the name of the function. -/
def Context.Loyal (ctx : Context) : Prop :=
  ∀ r ∈ ctx.regions, ∀ cleanup, r.cleanup = some cleanup → ∀ loops,
    (cleanup loops).Faithful ctx.self

/-- The name by which the function calls itself is not among the names that are bound. -/
def Context.Spares (ctx : Context) (binds : String → Bool) : Prop :=
  ∀ x, ctx.self = some x → binds x = false

namespace Context

variable {ctx : Context} {p q : String → Bool}

/-- A unit begins without regions. -/
theorem loyal_of_regions (h : ctx.regions = []) : ctx.Loyal := by
  intro r hr
  rw [h] at hr
  cases hr

theorem Loyal.inRegion {caught : Bool} {clause : Option (List Loop → Draft)} (h : ctx.Loyal)
    (hc : ∀ cleanup, clause = some cleanup → ∀ loops, (cleanup loops).Faithful ctx.self) :
    (ctx.inRegion caught clause).Loyal :=
  List.forall_mem_cons.mpr ⟨hc, h⟩

theorem Spares.left (h : ctx.Spares fun x => p x || q x) : ctx.Spares p :=
  fun x hx => (Bool.or_eq_false_iff.mp (h x hx)).1

theorem Spares.right (h : ctx.Spares fun x => p x || q x) : ctx.Spares q :=
  fun x hx => (Bool.or_eq_false_iff.mp (h x hx)).2

/-- Outside functions there is no name to be spared. -/
theorem spares_of_self (h : ctx.self = none) : ctx.Spares p := by
  intro x hx
  rw [h] at hx
  cases hx

/-- A name that is bound is not that of the function. -/
theorem Spares.ne {y : String} (h : ctx.Spares fun x => y == x) : ctx.self = some y → IsHidden y :=
  fun hy => absurd (h y hy) (by simp)

/-- A function calls itself only by the name that it is bound to, which keeps its meaning inside. -/
theorem self_inFunction {binding : Option String} {f : Function} {x : String}
    (h : (ctx.inFunction binding f).self = some x) :
    binding = some x ∧ x ∉ f.params.map Param.name ∧ Stmt.anyBinds x f.body = false := by
  obtain ⟨hx, hself⟩ := Option.filter_eq_some_iff.mp h
  simp only [Function.bindsSelf, Bool.and_eq_true, Bool.not_eq_true', List.any_eq_false,
    beq_iff_eq] at hself
  refine ⟨hx, fun hmem => ?_, hself.2.2⟩
  obtain ⟨p, hp, hname⟩ := List.mem_map.mp hmem
  exact hself.2.1.2 p hp hname

end Context

/-! ### Pieces -/

namespace Draft.Faithful

variable {self : Option String} {ctx : Context} {d : Draft} {x : String}

theorem markLine {line : Nat} : (markLine ctx line).Faithful self := by
  unfold StackCode.markLine
  split
  · exact of_none fun _ => rfl
  · exact step rfl nofun

theorem value (v : Value) : v.lower.Faithful self := by
  unfold Value.lower
  split
  · exact op rfl
  · exact op rfl
  · exact op rfl
  · exact step rfl nofun

theorem count {op : Opcode} {n : Nat} (h : (Step.count op n).isOrdinary = true) :
    (Draft.step (.count op n)).Faithful self :=
  step h nofun

theorem named {op : Opcode} {name : String} (h : (Step.named op name).isOrdinary = true) :
    (Draft.step (.named op name)).Faithful self :=
  step h nofun

theorem slot {op : Opcode} {name : String} (h : (Step.slot op name).isOrdinary = true) :
    (Draft.step (.slot op name)).Faithful self :=
  step h nofun

theorem loadName {name : String} : (Draft.step (.loadName name)).Faithful self := step rfl nofun

theorem storeName {name : String} : (Draft.step (.storeName name)).Faithful self := step rfl nofun

theorem loadConst {v : Value} : (Draft.step (.loadConst v)).Faithful self := step rfl nofun

theorem discard : (Draft.step .discard).Faithful self := step rfl nofun

theorem callOp {args : List Arg} : (callOp args false).Faithful self := by
  unfold StackCode.callOp
  simp only [Bool.false_eq_true, if_false]
  split
  · unfold callNamedOp
    simp only
    split
    · exact of_none fun _ => rfl
    · exact step rfl nofun
  · exact count rfl

theorem methodOp {args : List Arg} {line : Nat} : (methodOp args line).Faithful self := by
  unfold StackCode.methodOp
  split
  · exact refuse
  · exact count rfl

theorem unmixed {args : List Arg} {call : String} {line : Nat} (h : d.Faithful self) :
    (unmixed args call line d).Faithful self := by
  unfold StackCode.unmixed
  split
  · exact refuse
  · exact h

theorem returnNil : returnNil.Faithful self := (op rfl).append (op rfl)

theorem declareAndStore (h : self = some x → IsHidden x) : (declareAndStore x).Faithful self :=
  (declare h).append (slot rfl)

theorem predeclare (h : self = some x → IsHidden x) : (predeclare ctx x).Faithful self := by
  unfold StackCode.predeclare
  cases ctx.kind with
  | function => exact declare h
  | global => exact nil
  | object => exact nil

theorem bindDeclared : (bindDeclared ctx x).Faithful self := by
  unfold StackCode.bindDeclared
  cases ctx.kind with
  | function => exact slot rfl
  | global => exact named rfl
  | object => exact named rfl

theorem binary (o : BinaryOp) : (plain o.opcode).Faithful self := by
  cases o <;> exact op rfl

theorem unary (o : UnaryOp) : (plain o.opcode).Faithful self := by
  cases o <;> exact op rfl

theorem logical (op : LogicalOp) {l : Label} : (StackCode.jump op.opcode l).Faithful self := by
  cases op <;> exact jump rfl

/-! ### Exits and handlers -/

/-- Leaving regions lowers their cleanups where the exit is. -/
theorem unwind {loops : List Loop} {k : Nat} {regions : List Region}
    (h : ∀ r ∈ regions, ∀ cleanup, r.cleanup = some cleanup → ∀ loops,
      (cleanup loops).Faithful self) : (unwind loops k regions).Faithful self := by
  induction regions generalizing k with
  | nil => cases k <;> exact nil
  | cons r rest ih =>
    obtain ⟨hr, hrest⟩ := List.forall_mem_cons.mp h
    cases k with
    | zero => exact nil
    | succ k =>
      unfold StackCode.unwind
      have htaken : (if r.catchInstalled then plain .endTry else Draft.nil).Faithful
          self := by
        split
        · exact op rfl
        · exact nil
      cases hc : r.cleanup with
      | none => exact (htaken.append nil).append (ih hrest)
      | some cleanup =>
        exact (htaken.append ((op rfl).append (hr cleanup hc loops))).append (ih hrest)

theorem unwindTo {depth : Nat} (h : ctx.Loyal) : (ctx.unwindTo depth).Faithful ctx.self := unwind h

theorem returnTop (h : ctx.Loyal) : ctx.returnTop.Faithful ctx.self :=
  (unwindTo h).append (op rfl)

theorem lowerBreak {line : Nat} (h : ctx.Loyal) : (lowerBreak ctx line).Faithful ctx.self := by
  unfold StackCode.lowerBreak
  cases ctx.loops with
  | nil => exact refuse
  | cons l rest => exact (unwindTo h).append (jump rfl)

theorem lowerContinue {line : Nat} (h : ctx.Loyal) : (lowerContinue ctx line).Faithful ctx.self := by
  unfold StackCode.lowerContinue
  cases continuable? ctx.loops with
  | none => exact refuse
  | some target => exact (unwindTo h).append (jump rfl)

theorem guarded {handler : Option Draft} (hh : ∀ c, handler = some c → c.Faithful self)
    (hd : d.Faithful self) : (guarded handler d).Faithful self := by
  cases handler with
  | none => exact hd
  | some clause =>
    have hreceive : (Draft.step .receive).Faithful self := step rfl nofun
    unfold StackCode.guarded
    exact .withLabel fun h => .append (.append (.append (.jump rfl) hd) (.op rfl))
      (.withLabel fun done => .append (.append (.append (.append (.jump rfl) .place) hreceive)
        (hh clause rfl)) .place)

theorem cleaned {cleanup : Option Draft} (hc : ∀ c, cleanup = some c → c.Faithful self)
    (hd : d.Faithful self) : (cleaned cleanup d).Faithful self := by
  cases cleanup with
  | none => exact hd
  | some clause =>
    unfold StackCode.cleaned
    exact .withLabel fun l => .append (.append (.append (.append (.append (.jump rfl) hd)
      (.op rfl)) .place) (hc clause rfl)) (.op rfl)

theorem tryCatch {handler : Option Draft} {clause : Option (List Loop → Draft)}
    (hc : ∀ cleanup, clause = some cleanup → ∀ loops, (cleanup loops).Faithful self)
    (hh : ∀ c, handler = some c → c.Faithful self) (hd : d.Faithful self) :
    (Draft.step .protect ++ StackCode.cleaned (clause.map (· ctx.loops))
      (StackCode.guarded handler (Draft.block d))).Faithful self := by
  have hprotect : (Draft.step .protect).Faithful self := step rfl nofun
  refine hprotect.append (cleaned (fun c hmap => ?_) (guarded hh hd.block))
  obtain ⟨cleanup, hcl, rfl⟩ := Option.map_eq_some_iff.mp hmap
  exact hc cleanup hcl _

end Draft.Faithful

/-! ### Tail calls -/

/-- Positional arguments are lowered as expressions one after the other. -/
theorem Arg.lower_positional {args : List Arg} {ctx : Context} {call : String} {line : Nat}
    (h : ∀ a ∈ args, a.isPositional = true) :
    ∃ es : List Expr, es.length = args.length
      ∧ Arg.lower args ctx call line [] = Expr.lowerAll es ctx := by
  induction args with
  | nil => exact ⟨[], rfl, rfl⟩
  | cons a rest ih =>
    obtain ⟨ha, hrest⟩ := List.forall_mem_cons.mp h
    obtain ⟨es, hlen, hes⟩ := ih hrest
    cases a with
    | positional e =>
      refine ⟨e :: es, by rw [List.length_cons, List.length_cons, hlen], ?_⟩
      rw [Arg.lower, if_pos List.isEmpty_nil, hes]
      rfl
    | spread e => cases ha
    | named x e => cases ha

/-- Positional arguments are counted all at once. -/
theorem callOp_positional {args : List Arg} (h : ∀ a ∈ args, a.isPositional = true) :
    callOp args true = Draft.step (.count .tailCall args.length) := by
  have hnone : args.countP Arg.isNamed = 0 := by
    refine List.countP_eq_zero.mpr fun a ha hn => ?_
    have hp := h a ha
    cases a with
    | positional e => cases hn
    | spread e => cases hn
    | named x e => cases hp
  unfold callOp
  simp only [hnone, Nat.sub_zero, if_true]

/-- Positional arguments do not mix. -/
theorem unmixed_positional {args : List Arg} {call : String} {line : Nat} {body : Draft}
    (h : ∀ a ∈ args, a.isPositional = true) : unmixed args call line body = body := by
  have hnone : args.any Arg.isSpread = false := by
    refine List.any_eq_false.mpr fun a ha hs => ?_
    have hp := h a ha
    cases a with
    | positional e => cases hs
    | spread e => cases hp
    | named x e => cases hs
  rw [unmixed, hnone]
  rfl

/-- Where a call is a tail call, it is one of the function to itself. -/
theorem Context.of_isTail {ctx : Context} {terminal : Bool} {line : Nat} {callee : Expr}
    {args : List Arg} (h : ctx.isTail terminal (.call line callee args) = true) :
    ∃ x, ctx.self = some x ∧ callee = .name x ∧ ∀ a ∈ args, a.isPositional = true := by
  obtain ⟨-, hself⟩ := Bool.and_eq_true_iff.mp h
  obtain ⟨x, hx, hcall⟩ := (Option.any_eq_true _ _).mp hself
  exact ⟨x, hx, Expr.isCallOf_iff.mp hcall⟩

/-- A call, in tail position or not. -/
theorem Draft.Faithful.call {ctx : Context} {terminal : Bool} {line : Nat} {callee : Expr}
    {args : List Arg} (hc : (callee.lower ctx false).Faithful ctx.self)
    (ha : (Arg.lower args ctx "call" line []).Faithful ctx.self) :
    ((Expr.call line callee args).lower ctx terminal).Faithful ctx.self := by
  rw [Expr.lower]
  cases htail : ctx.isTail terminal (.call line callee args) with
  | false => exact (hc.append (unmixed ha)).append callOp
  | true =>
    obtain ⟨x, hself, rfl, hpos⟩ := Context.of_isTail htail
    obtain ⟨es, hlen, hes⟩ := Arg.lower_positional hpos
    rw [callOp_positional hpos, unmixed_positional hpos, append_assoc]
    rw [hself] at ha ⊢
    intro s s₂ hs
    obtain ⟨s₀, h₀, hs⟩ := exists_of_append hs
    obtain ⟨s₁, h₁, -⟩ := exists_of_append hs
    rw [steps_append_of_some _ h₀, steps_append_of_some _ h₁]
    cases h₀
    exact .tail ⟨es, ctx, s, hlen, by rw [hes]⟩ (ha s s₁ h₁) .done

/-! ### Functions -/

/-- A function calls itself only by the name that it is bound to. -/
theorem Draft.Closes.function {ctx : Context} {binding : Option String} {f : Function} {d : Draft}
    (h : d.Faithful (ctx.inFunction binding f).self) :
    (Draft.unit .makeClosure .function f.signature d).Closes binding := by
  intro s s₂ hs
  rw [rest?_unit] at hs
  obtain ⟨s₁, h₁, -⟩ := Option.map_eq_some_iff.mp hs
  refine ⟨f.signature, _, _, steps_unit _ _ _ _ _, h _ _ h₁, fun x hx => ?_⟩
  obtain ⟨hbinding, hparams, -⟩ := Context.self_inFunction hx
  refine ⟨hbinding, ?_⟩
  cases f
  exact hparams

/-- A declared function is bound to its name, unless it is a member. -/
theorem Draft.Faithful.function {ctx : Context} {x : String} {d : Draft}
    (hx : ctx.self = some x → IsHidden x)
    (hd : d.Closes (if ctx.kind = .object then none else some x)) :
    (StackCode.predeclare ctx x ++ d ++ StackCode.bindDeclared ctx x).Faithful ctx.self := by
  rw [append_assoc]
  refine (predeclare hx).append ?_
  cases hk : ctx.kind with
  | object =>
    rw [if_pos hk] at hd
    exact (unbound hd).append bindDeclared
  | global =>
    rw [hk, if_neg nofun] at hd
    refine bound hd ?_
    rw [StackCode.bindDeclared, hk]
    exact .step .global
  | function =>
    rw [hk, if_neg nofun] at hd
    refine bound hd ?_
    rw [StackCode.bindDeclared, hk]
    exact .step .declared

/-! ### The recursion -/

/-- A draft keeps to the name of the function around it. -/
def Keeps (ctx : Context) (d : Draft) : Prop := ctx.Loyal → d.Faithful ctx.self

/-- A draft keeps to the name of the function around it, unless it binds the name. -/
def KeepsUnless (ctx : Context) (binds : String → Bool) (d : Draft) : Prop :=
  ctx.Spares binds → Keeps ctx d

/-- All statements keep to the function around them; the other parts of the lowering are followed on
the way. -/
theorem Stmt.keeps_lowerAll (program : List Stmt) (ctx : Context) :
    KeepsUnless ctx (fun x => Stmt.anyBinds x program) (Stmt.lowerAll program ctx) := by
  refine (Expr.lower.mutual_induct
    (fun e ctx terminal => Keeps ctx (e.lower ctx terminal))
    (fun arms ctx terminal first done => Keeps ctx (Arm.lowerResults arms ctx terminal first done))
    (fun e ctx terminal => Keeps ctx (Expr.lowerOr e ctx terminal))
    (fun arms ctx x first => Keeps ctx (Arm.lowerTests arms ctx x first))
    (fun values ctx x l => Keeps ctx (Expr.lowerTests values ctx x l))
    (fun entries ctx => Keeps ctx (Entry.lower entries ctx))
    (fun items ctx => Keeps ctx (Expr.lowerAll items ctx))
    (fun args ctx call line names => Keeps ctx (Arg.lower args ctx call line names))
    (fun f ctx binding line => (f.lower ctx binding line).Closes binding)
    (fun body ctx => KeepsUnless ctx (fun x => Stmt.anyBinds x body) (Stmt.lowerBody body ctx))
    (fun s ctx => KeepsUnless ctx (fun x => s.binds x) (s.lower ctx))
    (fun form ctx line => KeepsUnless ctx (fun x => form.binds x) (form.lower ctx line))
    (fun cases ctx first done => KeepsUnless ctx (fun x => Case.anyBinds x cases)
      (Case.lowerBodies cases ctx first done))
    (fun body ctx => KeepsUnless ctx (fun x => Stmt.anyBinds x body) (Stmt.lowerAll body ctx))
    (fun cases ctx x first => Keeps ctx (Case.lowerTests cases ctx x first))
    (fun handler ctx => ∀ d, Catch.lower handler ctx = some d →
      KeepsUnless ctx (fun x => Catch.optionBinds x handler) d)
    (fun body ctx => ∀ c, Stmt.lowerBlock? body ctx = some c → ∀ loops,
      KeepsUnless ctx (fun x => Stmt.optionBinds x body) (c loops))
    (fun e ctx => Keeps ctx (Expr.lowerEffect e ctx))
    (fun e ctx done => Keeps ctx (Expr.lowerCondition e ctx done))
    (fun s ctx => (∀ t, s = some t → ctx.Spares fun x => t.binds x) →
      Keeps ctx (Stmt.lowerOptional s ctx))
    (fun params ctx i => Keeps ctx (Param.lower params ctx i))
    ?_ ?_ ?_ ?_ ?_ ?_ ?_ ?_ ?_ ?_ ?_ ?_ ?_ ?_ ?_ ?_ ?_ ?_ ?_ ?_ ?_ ?_ ?_ ?_ ?_ ?_ ?_ ?_ ?_ ?_
    ?_ ?_ ?_ ?_ ?_ ?_ ?_ ?_ ?_ ?_ ?_ ?_ ?_ ?_ ?_ ?_ ?_ ?_ ?_ ?_ ?_ ?_ ?_ ?_ ?_ ?_ ?_ ?_ ?_ ?_
    ?_ ?_ ?_ ?_ ?_ ?_ ?_ ?_ ?_ ?_ ?_ ?_ ?_ ?_ ?_ ?_ ?_ ?_ ?_ ?_ ?_ ?_ ?_ ?_ ?_ ?_ ?_ ?_ ?_ ?_
    ?_ ?_).2.2.2.2.2.2.2.2.2.2.2.2.2.1 program ctx
  -- expressions
  · intro v ctx terminal
    exact fun _ => .value v
  · intro x ctx terminal
    exact fun _ => .loadName
  · intro ctx terminal
    exact fun _ => .op rfl
  · intro line x line' f ctx terminal hf h
    rw [Expr.lower, append_assoc]
    exact .bound hf .assigned
  · intro line x value ctx terminal hne hv
    rw [Expr.lower]
    · exact fun h => .append (.append (hv h) (.op rfl)) .storeName
    · exact hne
  · intro line object x value ctx terminal ho hv
    exact fun h => .append (.append (ho h) (hv h)) (.named rfl)
  · intro line object index value ctx terminal ho hi hv
    exact fun h => .append (.append (.append (ho h) (hi h)) (hv h)) (.op rfl)
  · intro line target value ctx terminal h₁ h₂ h₃ h₄
    rw [Expr.lower]
    · exact fun _ => .refuse
    · exact h₁
    · exact h₂
    · exact h₃
    · exact h₄
  · intro op lhs rhs ctx terminal hl hr
    exact fun h => .append (.append (hl h) (hr h)) (.binary op)
  · intro op lhs rhs ctx terminal hl hr
    exact fun h => .withLabel fun done =>
      .append (.append (.append (hl h) (.logical op)) (hr h)) .place
  · intro op operand ctx terminal ho
    exact fun h => .append (ho h) (.unary op)
  · intro line callee args ctx terminal hc ha
    exact fun h => .call (hc h) (ha h)
  · intro line object x args ctx terminal ho ha
    exact fun h => .append (.append (.append (ho h) (.named rfl)) (.unmixed (ha h))) .methodOp
  · intro object x ctx terminal ho
    exact fun h => .append (ho h) (.named rfl)
  · intro object index ctx terminal ho hi
    exact fun h => .append (.append (ho h) (hi h)) (.op rfl)
  · intro items ctx terminal hi
    exact fun h => .append (hi h) (.count rfl)
  · intro entries ctx terminal he
    exact fun h => .append (he h) (.count rfl)
  · intro line f ctx terminal hf
    exact fun _ => .unbound hf
  · intro cond thenE elseE ctx terminal hc ht he
    exact fun h => .withLabel fun other => .withLabel fun done =>
      .append (.append (.append (.append (.append (.append (hc h) (.jump rfl)) (ht h))
        (.jump rfl)) .place) (he h)) .place
  · intro subject arms default ctx terminal hs ht hd hr
    exact fun h => .block (.append (hs h) (.withHidden fun x hx =>
      .append (.declareAndStore fun _ => hx) (.withLabel fun done => .withLabels fun first =>
        .append (.append (.append (.append (ht x first h) (hd h)) (.jump rfl))
          (hr done first h)) .place)))
  · intro line value ctx terminal hg hv
    rw [Expr.lower, if_pos hg]
    exact fun h => .append (hv h) (.op rfl)
  · intro line value ctx terminal hg
    rw [Expr.lower, if_neg hg]
    exact fun _ => .refuse
  -- functions
  · intro params variadic generator body ctx binding line x hx
    rw [Function.lower]
    simp only [hx]
    exact .refuse
  · intro params variadic generator body ctx binding line f hn inner hp hb
    rw [Function.lower]
    simp only [hn]
    have hloyal : inner.Loyal := Context.loyal_of_regions rfl
    exact .function (.append (hp hloyal)
      (hb (fun x hx => (Context.self_inFunction hx).2.2) hloyal))
  -- statements
  · intro line form ctx hf
    exact fun hn h => .append .markLine (hf hn h)
  · intro e ctx line he
    exact fun _ h => .append (he h) .discard
  · intro x ctx line
    exact fun hn _ => .append (.op rfl) (.declareAndStore hn.ne)
  · intro x line f ctx line' hf hn h
    rw [StmtForm.lower, append_assoc]
    exact .append (.declare hn.ne) (.bound hf (.step .declared))
  · intro x e ctx line hne he hn h
    rw [StmtForm.lower]
    · exact .append (he h) (.declareAndStore hn.ne)
    · exact hne
  · intro body ctx line hb
    exact fun hn h => .block (hb hn h)
  · intro cond thenS ctx line hc ht
    rw [StmtForm.lower]
    exact fun hn h => .withLabel fun other =>
      .append (.append (.append (hc h) (.jump rfl)) (.block (ht hn h))) .place
  · intro cond thenS elseS ctx line hc ht he
    rw [StmtForm.lower]
    exact fun hn h => .withLabel fun other =>
      .append (.append (.append (hc h) (.jump rfl)) (.block (ht hn.left h)))
        (.withLabel fun done =>
          .append (.append (.append (.jump rfl) .place) (.block (he hn.right h))) .place)
  · intro cond body ctx line hc hb
    rw [StmtForm.lower]
    exact fun hn h => .withLabel fun top => .withLabel fun done =>
      .append (.append (.append (.append (.append .place (hc h)) (.jump rfl))
        (.block (hb top done hn h))) (.jump rfl)) .place
  · intro init cond afterwards body ctx line hi hc hb ha hn h
    have hinit : ∀ t, init = some t → ctx.Spares fun x => t.binds x := by
      rintro t rfl
      exact hn.left
    have hbody : ctx.Spares fun x => body.binds x := by
      cases init with
      | none => exact hn
      | some t => exact hn.right
    exact .block (.append (hi hinit h) (.withLabel fun top => .withLabel fun next =>
      .withLabel fun done =>
        .append (.append (.append (.append (.append (.append .place (hc done h))
          (.block (hb next done hbody h))) .place) (ha h)) (.jump rfl)) .place))
  · intro x iterable body ctx line hi hb
    exact fun hn h => .block (.append (.append (hi h) (.op rfl)) (.withHidden fun it hit =>
      .append (.declareAndStore fun _ => hit) (.withLabel fun next => .withLabel fun done =>
        .append (.append (.append (.append (.append (.append .place (.slot rfl)) (.jump rfl))
          (.declareAndStore hn.left.ne)) (.block (hb next done hn.right h))) (.jump rfl)) .place)))
  · intro ctx line
    exact fun _ h => .lowerBreak h
  · intro ctx line
    exact fun _ h => .lowerContinue h
  · intro ctx line hk
    rw [StmtForm.lower, if_pos hk]
    exact fun _ h => .append (.op rfl) (.returnTop h)
  · intro ctx line hk
    rw [StmtForm.lower, if_neg hk]
    exact fun _ _ => .refuse
  · intro e ctx line hk he
    rw [StmtForm.lower, if_pos hk]
    split
    · exact fun _ h => .append (he h) .nil
    · exact fun _ h => .append (he h) (.returnTop h)
  · intro e ctx line hk
    rw [StmtForm.lower, if_neg hk]
    exact fun _ _ => .refuse
  · intro e ctx line he
    exact fun _ h => .append (he h) (.op rfl)
  · intro body handler cleanup ctx line hn
    rw [StmtForm.lower, if_pos hn]
    exact fun _ _ => .refuse
  · intro body handler cleanup ctx line hsome clause hc hh hb hn h
    rw [StmtForm.lower, if_neg hsome]
    have hclause : ∀ cleanup, clause = some cleanup → ∀ loops,
        (cleanup loops).Faithful ctx.self :=
      fun cleanup hcl loops => hc cleanup hcl loops hn.right h
    have hregion : ∀ caught, (ctx.inRegion caught clause).Loyal := fun _ => h.inRegion hclause
    exact .tryCatch hclause (fun c hcl => hh c hcl hn.left.right (hregion _))
      (hb hn.left.left (hregion _))
  · intro subject cases default ctx line hs ht hb hd hn h
    rw [StmtForm.lower]
    refine .block (.append (hs h) (.withHidden fun x hx => .append (.declareAndStore fun _ => hx)
      (.withLabel fun done => .withLabels fun first => .append (ht x first h)
        (.withLabel fun fallback => .append (.append (.append (.append (.jump rfl)
          (hb done first hn.left h)) .place) ?_) .place))))
    cases hdef : Stmt.lowerBlock? default (ctx.inLoop done none) with
    | none => exact .nil
    | some body => exact hd done body hdef _ hn.right h
  · intro x f ctx line hf
    exact fun hn _ => .function hn.ne hf
  · intro x parent body ctx line hp hb
    have hloyal : ctx.inObject.Loyal := Context.loyal_of_regions rfl
    exact fun hn h => .append (.append (.append (.predeclare hn.ne) (hp h))
      (.unit rfl (.append (hb (Context.spares_of_self rfl) hloyal) .returnNil))) .bindDeclared
  · intro x body ctx line hb
    have hloyal : ctx.inObject.Loyal := Context.loyal_of_regions rfl
    exact fun hn h => .append (.append (.predeclare hn.ne)
      (.unit rfl (.append (hb (Context.spares_of_self rfl) hloyal) .returnNil))) .bindDeclared
  -- arguments
  · intro ctx call line names
    exact fun _ => .nil
  · intro e rest ctx call line names hn he hr
    rw [Arg.lower, if_pos hn]
    exact fun h => .append (he h) (hr h)
  · intro e rest ctx call line names hn
    rw [Arg.lower, if_neg hn]
    exact fun _ => .refuse
  · intro e rest ctx call line names hn he hr
    rw [Arg.lower, if_pos hn]
    exact fun h => .append (.append (he h) (.op rfl)) (hr h)
  · intro e rest ctx call line names hn
    rw [Arg.lower, if_neg hn]
    exact fun _ => .refuse
  · intro x e rest ctx call line names hn
    rw [Arg.lower, if_pos hn]
    exact fun _ => .refuse
  · intro x e rest ctx call line names hn he hr
    rw [Arg.lower, if_neg hn]
    exact fun h => .append (.append .loadConst (he h)) (hr h)
  -- several expressions
  · intro ctx x l
    exact fun _ => .nil
  · intro e rest ctx x l he hr
    exact fun h => .append (.append (.append (.append (.slot rfl) (he h)) (.op rfl)) (.jump rfl))
      (hr h)
  · intro ctx
    exact fun _ => .nil
  · intro e rest ctx he hr
    exact fun h => .append (he h) (hr h)
  · intro ctx
    exact fun _ => .nil
  · intro x v rest ctx hv hr
    exact fun h => .append (.append .loadConst (hv h)) (hr h)
  · intro k v rest ctx hk hv hr
    exact fun h => .append (.append (hk h) (hv h)) (hr h)
  · intro ctx terminal first done
    exact fun _ => .nil
  · intro values result rest ctx terminal l done hv hr
    exact fun h => .append (.append (.append .place (hv h)) (.jump rfl)) (hr h)
  · intro ctx x l
    exact fun _ => .nil
  · intro values result rest ctx x l hv hr
    exact fun h => .append (hv h) (hr h)
  · intro ctx terminal
    exact fun _ => .op rfl
  · intro e ctx terminal he
    exact he
  · intro ctx
    exact fun _ => .nil
  · intro e ctx he
    exact fun h => .append (he h) .discard
  · intro ctx done
    exact fun _ => .nil
  · intro e ctx done he
    exact fun h => .append (he h) (.jump rfl)
  · intro ctx i
    exact fun _ => .nil
  · intro name rest ctx i hr
    exact hr
  · intro x e rest ctx i he hr
    exact fun h => .append (.withLabel fun skip =>
      .append (.append (.append (.append (.append (.count rfl) (.jump rfl)) (he h)) (.slot rfl))
        .place) (.count rfl)) (hr h)
  -- bodies and clauses
  · intro ctx
    exact fun _ _ => .returnNil
  · intro line e ctx he
    rw [Stmt.lowerBody]
    split
    · exact fun _ h => .append (.append .markLine (he h)) .nil
    · exact fun _ h => .append (.append .markLine (he h)) (.op rfl)
  · intro line value ctx hv
    exact fun _ h => .append .markLine (hv (fun _ _ => rfl) h)
  · intro line form ctx h₁ h₂ hf
    rw [Stmt.lowerBody]
    · exact fun hn h => .append (.append .markLine (hf hn.left h)) .returnNil
    · exact h₁
    · exact h₂
  · intro s rest ctx h₁ h₂ h₃ hs hr
    rw [Stmt.lowerBody]
    · exact fun hn h => .append (hs hn.left h) (hr hn.right h)
    · exact h₁
    · exact h₂
    · exact h₃
  · intro ctx
    exact fun _ _ => .nil
  · intro s rest ctx hs hr
    exact fun hn h => .append (hs hn.left h) (hr hn.right h)
  · intro ctx
    exact fun _ _ => .nil
  · intro s ctx hs
    exact fun hn => hs (hn s rfl)
  · intro ctx d hd
    cases hd
  · rintro x body ctx hb d ⟨⟩
    exact fun hn h => .block (.append (.declareAndStore hn.left.ne) (hb hn.right h))
  · intro ctx c hc
    cases hc
  · rintro body ctx hb c ⟨⟩ loops
    exact fun hn h => .block (hb loops hn h)
  · intro ctx first done
    exact fun _ _ => .nil
  · intro values body rest ctx l done hb hr
    exact fun hn h => .append (.append (.append .place (.block (hb hn.left h))) (.jump rfl))
      (hr hn.right h)
  · intro ctx x l
    exact fun _ => .nil
  · intro values body rest ctx x l hv hr
    exact fun h => .append (hv h) (hr h)

/-! ### Whole programs -/

/-- The script of a program that is compiled keeps to its functions; the program itself is none. -/
theorem Program.faithful {config : Config} {program : List Stmt} {c : CodeObject}
    (h : compile config program = .ok c) :
    Script.Faithful none (Program.script config program) := by
  obtain ⟨s, hs⟩ := Option.ne_none_iff_exists'.mp (Program.rest?_of_compile h)
  have hdraft : (Program.draft config program).Faithful none :=
    (Stmt.keeps_lowerAll program { config } (Context.spares_of_self rfl)
      (Context.loyal_of_regions rfl)).append .returnNil
  rw [Program.script_of_compile h]
  exact hdraft {} s hs

end StackCode
