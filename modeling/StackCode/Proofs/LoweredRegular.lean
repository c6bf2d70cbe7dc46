import StackCode.Proofs.Acceptance
import StackCode.Proofs.LoweredOrder
import StackCode.Proofs.LoweredPairs
import StackCode.Proofs.Regular

/-!
# Lowered programs are regular

Every form of the language is lowered to a regular draft.

* `Context.Sound`: the cleanups of the regions around a node are regular wherever they are lowered;
* `Conforms`: a draft is regular in its context;
* `Draft.Regular.tryCatch`, `Draft.Regular.function`: the constructs that announce something;
* `Program.regular`: the script of every program that is compiled is regular.
-/

namespace StackCode

open Draft

/-! ### Contexts -/

/-- The cleanups of the regions around a node are regular. -/
def Context.Sound (ctx : Context) : Prop :=
  ∀ r ∈ ctx.regions, ∀ cleanup, r.cleanup = some cleanup → ∀ loops,
    (cleanup loops).Regular ctx.generator 0

/-- A draft is regular in its context. -/
def Conforms (ctx : Context) (d : Draft) : Prop := ctx.Sound → d.Regular ctx.generator 0

theorem Context.Sound.inRegion {ctx : Context} {caught : Bool}
    {clause : Option (List Loop → Draft)} (h : ctx.Sound)
    (hc : ∀ cleanup, clause = some cleanup → ∀ loops, (cleanup loops).Regular ctx.generator 0) :
    (ctx.inRegion caught clause).Sound :=
  List.forall_mem_cons.mpr ⟨hc, h⟩

/-- A unit begins without regions. -/
theorem Context.sound_of_regions {ctx : Context} (h : ctx.regions = []) : ctx.Sound := by
  intro r hr
  rw [h] at hr
  cases hr

/-! ### Pieces -/

namespace Draft.Regular

variable {generator : Bool} {args : Nat} {ctx : Context} {d : Draft}

theorem markLine {line : Nat} : (markLine ctx line).Regular generator args := by
  unfold StackCode.markLine
  split
  · exact of_none fun _ => rfl
  · exact step rfl rfl nofun

theorem value (v : Value) : v.lower.Regular generator args := by
  unfold Value.lower
  split
  · exact op rfl
  · exact op rfl
  · exact op rfl
  · exact step rfl rfl nofun

theorem count {o : Opcode} {n : Nat} (ho : o.isCount = true) :
    (Draft.step (.count o n)).Regular generator args := by
  refine step ?_ ?_ nofun
  · simp [Step.isRegular, ho]
  · cases o <;> first | rfl | cases ho

theorem named {o : Opcode} {name : String} (ho : o.isNamed = true) :
    (Draft.step (.named o name)).Regular generator args := by
  refine step ho ?_ nofun
  cases o <;> first | rfl | cases ho

theorem loadSlot {name : String} : (Draft.step (.slot .loadLocal name)).Regular generator args :=
  step rfl rfl nofun

theorem storeSlot {name : String} :
    (Draft.step (.slot .storeLocal name)).Regular generator args :=
  step rfl rfl nofun

theorem declare {name : String} : (Draft.step (.declare name)).Regular generator args :=
  step rfl rfl nofun

theorem loadConst {v : Value} : (Draft.step (.loadConst v)).Regular generator args :=
  step rfl rfl nofun

theorem loadName {name : String} : (Draft.step (.loadName name)).Regular generator args :=
  step rfl rfl nofun

theorem storeName {name : String} : (Draft.step (.storeName name)).Regular generator args :=
  step rfl rfl nofun

/-- Only a generator yields. -/
theorem yieldOp (hg : generator = true) : (plain .yield).Regular generator args := by
  refine step ?_ rfl nofun
  rw [hg]
  rfl

theorem callOp {as : List Arg} {tail : Bool} : (callOp as tail).Regular generator args := by
  unfold StackCode.callOp
  simp only
  split
  · exact count rfl
  · split
    · unfold callNamedOp
      simp only
      split
      · exact of_none fun _ => rfl
      · exact step rfl rfl nofun
    · exact count rfl

theorem methodOp {as : List Arg} {line : Nat} : (methodOp as line).Regular generator args := by
  unfold StackCode.methodOp
  split
  · exact refuse
  · exact count rfl

theorem unmixed {as : List Arg} {call : String} {line : Nat} (h : d.Regular generator args) :
    (unmixed as call line d).Regular generator args := by
  unfold StackCode.unmixed
  split
  · exact refuse
  · exact h

theorem returnNil : returnNil.Regular generator args :=
  (op rfl).append (op rfl)

theorem declareAndStore {x : String} : (declareAndStore x).Regular generator args :=
  declare.append storeSlot

theorem predeclare {x : String} : (predeclare ctx x).Regular generator args := by
  unfold StackCode.predeclare
  cases ctx.kind with
  | function => exact declare
  | global => exact nil
  | object => exact nil

theorem bindDeclared {x : String} : (bindDeclared ctx x).Regular generator args := by
  unfold StackCode.bindDeclared
  cases ctx.kind with
  | function => exact storeSlot
  | global => exact named rfl
  | object => exact named rfl

theorem binary (o : BinaryOp) : (plain o.opcode).Regular generator args := by
  cases o <;> exact op rfl

theorem unary (o : UnaryOp) : (plain o.opcode).Regular generator args := by
  cases o <;> exact op rfl

theorem logical (o : LogicalOp) {l : Label} :
    (StackCode.jump o.opcode l).Regular generator args := by
  cases o <;> exact jump rfl rfl

/-! ### Exits -/

/-- Leaving regions lowers their cleanups where the exit is. -/
theorem unwind {loops : List Loop} {k : Nat} {regions : List Region}
    (h : ∀ r ∈ regions, ∀ cleanup, r.cleanup = some cleanup → ∀ loops,
      (cleanup loops).Regular generator args) : (unwind loops k regions).Regular generator args := by
  induction regions generalizing k with
  | nil => cases k <;> exact nil
  | cons r rest ih =>
    obtain ⟨hr, hrest⟩ := List.forall_mem_cons.mp h
    cases k with
    | zero => exact nil
    | succ k =>
      unfold StackCode.unwind
      have htaken : (if r.catchInstalled then plain .endTry else Draft.nil).Regular generator
          args := by
        split
        · exact op rfl
        · exact nil
      cases hc : r.cleanup with
      | none => exact (htaken.append nil).append (ih hrest)
      | some cleanup =>
        exact (htaken.append ((op rfl).append (hr cleanup hc loops))).append (ih hrest)

theorem unwindTo {depth : Nat} (h : ctx.Sound) :
    (ctx.unwindTo depth).Regular ctx.generator 0 := unwind h

theorem returnTop (h : ctx.Sound) : ctx.returnTop.Regular ctx.generator 0 :=
  (unwindTo h).append (op rfl)

theorem lowerBreak {line : Nat} (h : ctx.Sound) : (lowerBreak ctx line).Regular ctx.generator 0 := by
  unfold StackCode.lowerBreak
  cases ctx.loops with
  | nil => exact refuse
  | cons l rest => exact (unwindTo h).append (jump rfl rfl)

theorem lowerContinue {line : Nat} (h : ctx.Sound) :
    (lowerContinue ctx line).Regular ctx.generator 0 := by
  unfold StackCode.lowerContinue
  cases continuable? ctx.loops with
  | none => exact refuse
  | some x => exact (unwindTo h).append (jump rfl rfl)

end Draft.Regular

/-! ### Handlers -/

theorem Draft.Fits.guarded {generator : Bool} {args : Nat} {handler : Option Draft} {d : Draft}
    (hh : ∀ c, handler = some c → c.Fits generator args) (hd : d.Fits generator args) :
    (guarded handler d).Fits generator args := by
  cases handler with
  | none => exact hd
  | some clause =>
    unfold StackCode.guarded
    refine .withLabel fun h => .append (.append (.append (.step rfl) hd) (.step rfl))
      (.withLabel fun done => ?_)
    exact .append (.append (.append (.append (.step rfl) (.step rfl)) (.step rfl)) (hh clause rfl))
      (.step rfl)

theorem Draft.Fits.cleaned {generator : Bool} {args : Nat} {cleanup : Option Draft} {d : Draft}
    (hc : ∀ c, cleanup = some c → c.Fits generator args) (hd : d.Fits generator args) :
    (cleaned cleanup d).Fits generator args := by
  cases cleanup with
  | none => exact hd
  | some clause =>
    unfold StackCode.cleaned
    exact .withLabel fun l => .append (.append (.append (.append (.append (.step rfl) hd)
      (.step rfl)) (.step rfl)) (hc clause rfl)) (.step rfl)

/-- A region has a catch clause or a cleanup, and either one installs a handler. -/
theorem Draft.Has.region {handler cleanup : Option Draft} {d : Draft}
    (h : (handler.isNone && cleanup.isNone) = false) :
    (cleaned cleanup (guarded handler d)).Has Step.installs := by
  cases cleanup with
  | some clause =>
    unfold StackCode.cleaned
    exact .withLabel fun l => .left (.left (.left (.left (.left (.step rfl)))))
  | none =>
    cases handler with
    | none => cases h
    | some clause =>
      unfold StackCode.cleaned StackCode.guarded
      exact .withLabel fun l => .left (.left (.left (.step rfl)))

namespace Draft.Regular

variable {generator : Bool} {args : Nat} {ctx : Context} {d : Draft}

theorem tryCatch {handler : Option Draft} {clause : Option (List Loop → Draft)}
    (hsome : (handler.isNone && clause.isNone) = false)
    (hc : ∀ cleanup, clause = some cleanup → ∀ loops, (cleanup loops).Regular generator args)
    (hh : ∀ c, handler = some c → c.Regular generator args) (hd : d.Regular generator args) :
    (Draft.step .protect ++ cleaned (clause.map (· ctx.loops))
      (StackCode.guarded handler (Draft.block d))).Regular generator args := by
  refine protect (.cleaned ?_ (.guarded (fun c hcl => (hh c hcl).fits) hd.block.fits)) (.region ?_)
  · intro c hmap
    obtain ⟨cleanup, hcl, rfl⟩ := Option.map_eq_some_iff.mp hmap
    exact (hc cleanup hcl _).fits
  · rw [Option.isNone_map]
    exact hsome

/-- The default of a parameter. -/
theorem default {x : String} {i : Nat} (hd : d.Regular generator 0) (hi : i < args) :
    (Draft.withLabel fun skip =>
      Draft.step (.count .hasArg i) ++ StackCode.jump .jumpTrue skip ++ d
        ++ Draft.step (.slot .storeLocal x) ++ StackCode.place skip
        ++ Draft.step (.count .paramEnd i)).Regular generator args := by
  have harg : ∀ {o : Opcode}, o.isArgument = true →
      (Draft.step (.count o i)).Regular generator args := by
    intro o ho
    refine step ?_ ?_ nofun
    · simp [Step.isRegular, ho, hi]
    · cases o <;> first | rfl | cases ho
  exact .withLabel fun skip => .append (.append (.append (.append (.append (harg rfl)
    (.jump rfl rfl)) (hd.mono (Nat.zero_le _))) .storeSlot) .place) (harg rfl)

/-- A body that asks for no argument. -/
theorem asksForArg_eq_false (h : d.Regular generator 0) {s s₁ : Supply} (hs : d.rest? s = some s₁) :
    ∀ x ∈ d.steps s, x.asksForArg = false :=
  (h.fits s s₁ hs []).asksForArg_eq_false rfl

/-- The body of a class or a namespace. -/
theorem object {o : Opcode} (ho : o.instantiates = true) (hd : d.Regular false 0) :
    (Draft.unit o .object {} (d ++ StackCode.returnNil)).Regular generator args := by
  have hbody : (d ++ StackCode.returnNil).Regular false 0 := hd.append returnNil
  refine unit ho List.nodup_nil hbody fun s s₁ hs => ⟨nofun, ?_⟩
  rintro ⟨x, hx, hask⟩
  exact absurd ((hbody.asksForArg_eq_false hs x hx).symm.trans hask) Bool.false_ne_true

end Draft.Regular

/-! ### Parameters -/

/-- The defaults of parameters are regular, and an argument is asked for where there is a default. -/
structure Param.Regular (params : List Param) (ctx : Context) (i : Nat) : Prop where
  regular : ∀ args, i + params.length ≤ args →
    (Param.lower params ctx i).Regular ctx.generator args
  asks : ∀ s s₁, (Param.lower params ctx i).rest? s = some s₁ →
    ((params.any fun p => p.default.isSome) = true
      ↔ ∃ x ∈ (Param.lower params ctx i).steps s, x.asksForArg = true)

namespace Param.Regular

variable {ctx : Context} {i : Nat} {params : List Param}

theorem nil : Param.Regular [] ctx i :=
  ⟨fun _ _ => .nil, fun _ _ _ => by simp [Param.lower, steps_nil]⟩

theorem none {x : String} (h : Param.Regular params ctx (i + 1)) :
    Param.Regular (.mk x none :: params) ctx i := by
  refine ⟨fun args hi => h.regular args ?_, fun s s₁ hs => ?_⟩
  · rw [List.length_cons] at hi
    omega
  · rw [List.any_cons]
    exact h.asks s s₁ hs

theorem some {x : String} {e : Expr} (he : (e.lower ctx false).Regular ctx.generator 0)
    (h : Param.Regular params ctx (i + 1)) : Param.Regular (.mk x (some e) :: params) ctx i := by
  refine ⟨fun args hi => ?_, fun s s₂ hs => ?_⟩
  · rw [List.length_cons] at hi
    exact (Draft.Regular.default he (by omega)).append (h.regular args (by omega))
  · have hask : (Param.lower (.mk x (Option.some e) :: params) ctx i).Has Step.asksForArg := by
      rw [Param.lower]
      exact .left (.withLabel fun skip => .left (.left (.left (.left (.left (.step rfl))))))
    exact ⟨fun _ => hask s, fun _ => rfl⟩

end Param.Regular

/-- A function is a unit that announces its defaults. -/
theorem Draft.Regular.function {generator : Bool} {args : Nat} {params : List Param}
    {inner : Context} {body : List Stmt} {f : Function} (hf : f.signature.params = params.map Param.name)
    (hg : f.signature.generator = inner.generator)
    (hdef : f.signature.defaults = params.any fun p => p.default.isSome)
    (hnodup : (params.map Param.name).Nodup) (hp : Param.Regular params inner 0)
    (hb : (Stmt.lowerBody body inner).Regular inner.generator 0) :
    (Draft.unit .makeClosure .function f.signature
      (Param.lower params inner 0 ++ Stmt.lowerBody body inner)).Regular generator args := by
  have hlen : f.signature.params.length = params.length := by rw [hf, List.length_map]
  refine .unit rfl (hf ▸ hnodup) ?_ fun s s₂ hs => ?_
  · rw [hg, hlen]
    exact (hp.regular _ (by omega)).append (hb.mono (Nat.zero_le _))
  · obtain ⟨s₁, h₁, h₂⟩ := exists_of_append hs
    rw [steps_append_of_some _ h₁, hdef, hp.asks s s₁ h₁]
    constructor
    · rintro ⟨x, hx, hask⟩
      exact ⟨x, List.mem_append_left _ hx, hask⟩
    · rintro ⟨x, hx, hask⟩
      rcases List.mem_append.mp hx with hx | hx
      · exact ⟨x, hx, hask⟩
      · exact absurd ((hb.asksForArg_eq_false h₂ x hx).symm.trans hask) Bool.false_ne_true

/-! ### The recursion -/

/-- All statements conform to their contexts; the other parts of the lowering are followed on the
way. -/
theorem Stmt.conforms_lowerAll (program : List Stmt) (ctx : Context) :
    Conforms ctx (Stmt.lowerAll program ctx) := by
  refine (Expr.lower.mutual_induct
    (fun e ctx terminal => Conforms ctx (e.lower ctx terminal))
    (fun arms ctx terminal first done => Conforms ctx (Arm.lowerResults arms ctx terminal first done))
    (fun e ctx terminal => Conforms ctx (Expr.lowerOr e ctx terminal))
    (fun arms ctx x first => Conforms ctx (Arm.lowerTests arms ctx x first))
    (fun values ctx x l => Conforms ctx (Expr.lowerTests values ctx x l))
    (fun entries ctx => Conforms ctx (Entry.lower entries ctx))
    (fun items ctx => Conforms ctx (Expr.lowerAll items ctx))
    (fun args ctx call line names => Conforms ctx (Arg.lower args ctx call line names))
    (fun f ctx binding line => Conforms ctx (f.lower ctx binding line))
    (fun body ctx => Conforms ctx (Stmt.lowerBody body ctx))
    (fun s ctx => Conforms ctx (s.lower ctx))
    (fun form ctx line => Conforms ctx (form.lower ctx line))
    (fun cases ctx first done => Conforms ctx (Case.lowerBodies cases ctx first done))
    (fun body ctx => Conforms ctx (Stmt.lowerAll body ctx))
    (fun cases ctx x first => Conforms ctx (Case.lowerTests cases ctx x first))
    (fun handler ctx => ∀ d, Catch.lower handler ctx = some d → Conforms ctx d)
    (fun body ctx => ∀ c, Stmt.lowerBlock? body ctx = some c → ∀ loops, Conforms ctx (c loops))
    (fun e ctx => Conforms ctx (Expr.lowerEffect e ctx))
    (fun e ctx done => Conforms ctx (Expr.lowerCondition e ctx done))
    (fun s ctx => Conforms ctx (Stmt.lowerOptional s ctx))
    (fun params ctx i => ctx.Sound → Param.Regular params ctx i)
    ?_ ?_ ?_ ?_ ?_ ?_ ?_ ?_ ?_ ?_ ?_ ?_ ?_ ?_ ?_ ?_ ?_ ?_ ?_ ?_ ?_ ?_ ?_ ?_ ?_ ?_ ?_ ?_ ?_ ?_
    ?_ ?_ ?_ ?_ ?_ ?_ ?_ ?_ ?_ ?_ ?_ ?_ ?_ ?_ ?_ ?_ ?_ ?_ ?_ ?_ ?_ ?_ ?_ ?_ ?_ ?_ ?_ ?_ ?_ ?_
    ?_ ?_ ?_ ?_ ?_ ?_ ?_ ?_ ?_ ?_ ?_ ?_ ?_ ?_ ?_ ?_ ?_ ?_ ?_ ?_ ?_ ?_ ?_ ?_ ?_ ?_ ?_ ?_ ?_ ?_
    ?_ ?_).2.2.2.2.2.2.2.2.2.2.2.2.2.1 program ctx
  -- expressions
  · intro v ctx terminal
    exact fun _ => .value v
  · intro x ctx terminal
    exact fun _ => .loadName
  · intro ctx terminal
    exact fun _ => .op rfl
  · intro line x line' f ctx terminal hf
    exact fun h => .append (.append (hf h) (.op rfl)) .storeName
  · intro line x value ctx terminal hne hv
    rw [Expr.lower]
    · exact fun h => .append (.append (hv h) (.op rfl)) .storeName
    · exact hne
  · intro line object x value ctx terminal ho hv
    exact fun h => .append (.append (ho h) (hv h)) (.named rfl)
  · intro line object index value ctx terminal ho hi hv
    exact fun h => .append (.append (.append (ho h) (hi h)) (hv h)) (.op rfl)
  · intro line target value ctx terminal h₁ h₂ h₃ h₄
    rw [Expr.lower]
    · exact fun _ => .refuse
    · exact h₁
    · exact h₂
    · exact h₃
    · exact h₄
  · intro op lhs rhs ctx terminal hl hr
    exact fun h => .append (.append (hl h) (hr h)) (.binary op)
  · intro op lhs rhs ctx terminal hl hr
    exact fun h => .withLabel fun done =>
      .append (.append (.append (hl h) (.logical op)) (hr h)) .place
  · intro op operand ctx terminal ho
    exact fun h => .append (ho h) (.unary op)
  · intro line callee args ctx terminal hc ha
    exact fun h => .append (.append (hc h) (.unmixed (ha h))) .callOp
  · intro line object x args ctx terminal ho ha
    exact fun h => .append (.append (.append (ho h) (.named rfl)) (.unmixed (ha h))) .methodOp
  · intro object x ctx terminal ho
    exact fun h => .append (ho h) (.named rfl)
  · intro object index ctx terminal ho hi
    exact fun h => .append (.append (ho h) (hi h)) (.op rfl)
  · intro items ctx terminal hi
    exact fun h => .append (hi h) (.count rfl)
  · intro entries ctx terminal he
    exact fun h => .append (he h) (.count rfl)
  · intro line f ctx terminal hf
    exact hf
  · intro cond thenE elseE ctx terminal hc ht he
    exact fun h => .withLabel fun other => .withLabel fun done =>
      .append (.append (.append (.append (.append (.append (hc h) (.jump rfl rfl)) (ht h))
        (.jump rfl rfl)) .place) (he h)) .place
  · intro subject arms default ctx terminal hs ht hd hr
    exact fun h => .block (.append (hs h) (.withHidden fun x => .append .declareAndStore
      (.withLabel fun done => .withLabels fun first =>
        .append (.append (.append (.append (ht x first h) (hd h)) (.jump rfl rfl))
          (hr done first h)) .place)))
  · intro line value ctx terminal hg hv
    rw [Expr.lower, if_pos hg]
    exact fun h => .append (hv h) (.yieldOp hg)
  · intro line value ctx terminal hg
    rw [Expr.lower, if_neg hg]
    exact fun _ => .refuse
  -- functions
  · intro params variadic generator body ctx binding line x hx
    rw [Function.lower]
    simp only [hx]
    exact fun _ => .refuse
  · intro params variadic generator body ctx binding line f hn inner hp hb
    rw [Function.lower]
    simp only [hn]
    have hsound : inner.Sound := Context.sound_of_regions rfl
    exact fun _ => .function rfl rfl rfl (firstRepeated?_eq_none.mp hn).1 (hp hsound) (hb hsound)
  -- statements
  · intro line form ctx hf
    exact fun h => .append .markLine (hf h)
  · intro e ctx line he
    exact fun h => .discard (he h) (e.calm_lower ctx false)
  · intro x ctx line
    exact fun _ => .append (.op rfl) .declareAndStore
  · intro x line f ctx line' hf
    exact fun h => .append (.append .declare (hf h)) .storeSlot
  · intro x e ctx line hne he
    rw [StmtForm.lower]
    · exact fun h => .append (he h) .declareAndStore
    · exact hne
  · intro body ctx line hb
    exact fun h => .block (hb h)
  · intro cond thenS ctx line hc ht
    rw [StmtForm.lower]
    exact fun h => .withLabel fun other =>
      .append (.append (.append (hc h) (.jump rfl rfl)) (.block (ht h))) .place
  · intro cond thenS elseS ctx line hc ht he
    rw [StmtForm.lower]
    exact fun h => .withLabel fun other =>
      .append (.append (.append (hc h) (.jump rfl rfl)) (.block (ht h))) (.withLabel fun done =>
        .append (.append (.append (.jump rfl rfl) .place) (.block (he h))) .place)
  · intro cond body ctx line hc hb
    rw [StmtForm.lower]
    exact fun h => .withLabel fun top => .withLabel fun done =>
      .append (.append (.append (.append (.append .place (hc h)) (.jump rfl rfl))
        (.block (hb top done h))) (.jump rfl rfl)) .place
  · intro init cond afterwards body ctx line hi hc hb ha
    exact fun h => .block (.append (hi h) (.withLabel fun top => .withLabel fun next =>
      .withLabel fun done =>
        .append (.append (.append (.append (.append (.append .place (hc done h))
          (.block (hb next done h))) .place) (ha h)) (.jump rfl rfl)) .place))
  · intro x iterable body ctx line hi hb
    exact fun h => .block (.append (.append (hi h) (.op rfl)) (.withHidden fun it =>
      .append .declareAndStore (.withLabel fun next => .withLabel fun done =>
        .append (.append (.append (.append (.append (.append .place .loadSlot) (.jump rfl rfl))
          .declareAndStore) (.block (hb next done h))) (.jump rfl rfl)) .place)))
  · intro ctx line
    exact fun h => .lowerBreak h
  · intro ctx line
    exact fun h => .lowerContinue h
  · intro ctx line hk
    rw [StmtForm.lower, if_pos hk]
    exact fun h => .append (.op rfl) (.returnTop h)
  · intro ctx line hk
    rw [StmtForm.lower, if_neg hk]
    exact fun _ => .refuse
  · intro e ctx line hk he
    rw [StmtForm.lower, if_pos hk]
    split
    · exact fun h => .append (he h) .nil
    · exact fun h => .append (he h) (.returnTop h)
  · intro e ctx line hk
    rw [StmtForm.lower, if_neg hk]
    exact fun _ => .refuse
  · intro e ctx line he
    exact fun h => .append (he h) (.op rfl)
  · intro body handler cleanup ctx line hn
    rw [StmtForm.lower, if_pos hn]
    exact fun _ => .refuse
  · intro body handler cleanup ctx line hn clause hc hh hb
    rw [StmtForm.lower, if_neg hn]
    intro h
    have hregion : ∀ caught, (ctx.inRegion caught clause).Sound := fun _ =>
      h.inRegion fun cleanup hcl loops => hc cleanup hcl loops h
    refine .tryCatch ?_ (fun cleanup hcl loops => hc cleanup hcl loops h)
      (fun c hcl => hh c hcl (hregion _)) (hb (hregion _))
    cases handler with
    | some handler => cases handler; rfl
    | none =>
      cases cleanup with
      | some cleanup => rfl
      | none => exact absurd rfl hn
  · intro subject cases default ctx line hs ht hb hd
    rw [StmtForm.lower]
    refine fun h => .block (.append (hs h) (.withHidden fun x => .append .declareAndStore
      (.withLabel fun done => .withLabels fun first => .append (ht x first h)
        (.withLabel fun fallback => .append (.append (.append (.append (.jump rfl rfl)
          (hb done first h)) .place) ?_) .place))))
    cases hdef : Stmt.lowerBlock? default (ctx.inLoop done none) with
    | none => exact .nil
    | some body => exact hd done body hdef _ h
  · intro x f ctx line hf
    exact fun h => .append (.append .predeclare (hf h)) .bindDeclared
  · intro x parent body ctx line hp hb
    have hsound : ctx.inObject.Sound := Context.sound_of_regions rfl
    exact fun h => .append (.append (.append .predeclare (hp h)) (.object rfl (hb hsound)))
      .bindDeclared
  · intro x body ctx line hb
    have hsound : ctx.inObject.Sound := Context.sound_of_regions rfl
    exact fun h => .append (.append .predeclare (.object rfl (hb hsound))) .bindDeclared
  -- arguments
  · intro ctx call line names
    exact fun _ => .nil
  · intro e rest ctx call line names hn he hr
    rw [Arg.lower, if_pos hn]
    exact fun h => .append (he h) (hr h)
  · intro e rest ctx call line names hn
    rw [Arg.lower, if_neg hn]
    exact fun _ => .refuse
  · intro e rest ctx call line names hn he hr
    rw [Arg.lower, if_pos hn]
    exact fun h => .append (.append (he h) (.op rfl)) (hr h)
  · intro e rest ctx call line names hn
    rw [Arg.lower, if_neg hn]
    exact fun _ => .refuse
  · intro x e rest ctx call line names hn
    rw [Arg.lower, if_pos hn]
    exact fun _ => .refuse
  · intro x e rest ctx call line names hn he hr
    rw [Arg.lower, if_neg hn]
    exact fun h => .append (.append .loadConst (he h)) (hr h)
  -- several expressions
  · intro ctx x l
    exact fun _ => .nil
  · intro e rest ctx x l he hr
    exact fun h => .append (.append (.append (.append .loadSlot (he h)) (.op rfl)) (.jump rfl rfl))
      (hr h)
  · intro ctx
    exact fun _ => .nil
  · intro e rest ctx he hr
    exact fun h => .append (he h) (hr h)
  · intro ctx
    exact fun _ => .nil
  · intro x v rest ctx hv hr
    exact fun h => .append (.append .loadConst (hv h)) (hr h)
  · intro k v rest ctx hk hv hr
    exact fun h => .append (.append (hk h) (hv h)) (hr h)
  · intro ctx terminal first done
    exact fun _ => .nil
  · intro values result rest ctx terminal l done hv hr
    exact fun h => .append (.append (.append .place (hv h)) (.jump rfl rfl)) (hr h)
  · intro ctx x l
    exact fun _ => .nil
  · intro values result rest ctx x l hv hr
    exact fun h => .append (hv h) (hr h)
  · intro ctx terminal
    exact fun _ => .op rfl
  · intro e ctx terminal he
    exact he
  · intro ctx
    exact fun _ => .nil
  · intro e ctx he
    exact fun h => .discard (he h) (e.calm_lower ctx false)
  · intro ctx done
    exact fun _ => .nil
  · intro e ctx done he
    exact fun h => .append (he h) (.jump rfl rfl)
  · intro ctx i
    exact fun _ => .nil
  · intro name rest ctx i hr
    exact fun h => .none (hr h)
  · intro x e rest ctx i he hr
    exact fun h => .some (he h) (hr h)
  -- bodies and clauses
  · intro ctx
    exact fun _ => .returnNil
  · intro line e ctx he
    rw [Stmt.lowerBody]
    split
    · exact fun h => .append (.append .markLine (he h)) .nil
    · exact fun h => .append (.append .markLine (he h)) (.op rfl)
  · intro line value ctx hv
    exact fun h => .append .markLine (hv h)
  · intro line form ctx h₁ h₂ hf
    rw [Stmt.lowerBody]
    · exact fun h => .append (.append .markLine (hf h)) .returnNil
    · exact h₁
    · exact h₂
  · intro s rest ctx h₁ h₂ h₃ hs hr
    rw [Stmt.lowerBody]
    · exact fun h => .append (hs h) (hr h)
    · exact h₁
    · exact h₂
    · exact h₃
  · intro ctx
    exact fun _ => .nil
  · intro s rest ctx hs hr
    exact fun h => .append (hs h) (hr h)
  · intro ctx
    exact fun _ => .nil
  · intro s ctx hs
    exact hs
  · intro ctx d hd
    cases hd
  · rintro x body ctx hb d ⟨⟩
    exact fun h => .block (.append .declareAndStore (hb h))
  · intro ctx c hc
    cases hc
  · rintro body ctx hb c ⟨⟩ loops
    exact fun h => .block (hb loops h)
  · intro ctx first done
    exact fun _ => .nil
  · intro values body rest ctx l done hb hr
    exact fun h => .append (.append (.append .place (.block (hb h))) (.jump rfl rfl)) (hr h)
  · intro ctx x l
    exact fun _ => .nil
  · intro values body rest ctx x l hv hr
    exact fun h => .append (hv h) (hr h)

/-! ### Whole programs -/

/-- The script of a program that is compiled is regular, and its handlers are announced. -/
theorem Program.regular {config : Config} {program : List Stmt} {c : CodeObject}
    (h : compile config program = .ok c) :
    Script.Regular false 0 [] (Program.script config program)
      ∧ Script.Guarded (Program.script config program) := by
  obtain ⟨s, hs⟩ := Option.ne_none_iff_exists'.mp (Program.rest?_of_compile h)
  have hdraft : (Program.draft config program).Regular false 0 :=
    (Stmt.conforms_lowerAll program { config } (Context.sound_of_regions rfl)).append .returnNil
  rw [Program.script_of_compile h]
  exact ⟨hdraft.fits {} s hs [], hdraft.guarded {} s hs⟩

end StackCode
