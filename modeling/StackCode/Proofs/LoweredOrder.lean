import StackCode.Proofs.DraftOrder

/-!
# Lowered programs are orderly

Every form of the language is lowered to an orderly draft, so that the assembler is never driven in a
way on which it does not rely.

* `Context.Below`, `Steady`: contexts whose labels are known, and drafts that are orderly in them;
* `Steady.whileDo`, `Steady.switch`, `Steady.tryCatch`, …: one rule for each construct with labels;
* `steady_lower`: all expressions and all statements are steady;
* `Program.orderly`: the draft of every program is orderly;
* `Program.script_of_compile`: a program that compiles has few enough labels for numbers of 32 bits, so
  that its script is what its draft has drawn;
* `compile_ne_fault`: no compilation ends in a fault as long as there are few enough labels.

The cleanup of a region is lowered again at each exit, where more labels are known than where it is
written, and other loops are open; it is orderly at all these places.
-/

namespace StackCode

open Draft

/-! ### Contexts -/

/-- The labels of the loops are among the first `n`. -/
def Loop.AllBelow (loops : List Loop) (n : Nat) : Prop :=
  ∀ l ∈ loops, l.breakTo < n ∧ ∀ k, l.continueTo = some k → k < n

/-- The loops around a node have known labels, and the cleanups of the regions around it are orderly
wherever the loops do. -/
structure Context.Below (ctx : Context) (n : Nat) : Prop where
  loops : Loop.AllBelow ctx.loops n
  regions : ∀ r ∈ ctx.regions, ∀ cleanup, r.cleanup = some cleanup → ∀ m loops N, n ≤ m →
    Loop.AllBelow loops m → InOrder ctx.config.lineMarkers m (cleanup loops) [] N N

/-- A draft is orderly in its context, sets no label from around it and needs no variable. -/
def Steady (ctx : Context) (d : Draft) : Prop :=
  ∀ n N, ctx.Below n → InOrder ctx.config.lineMarkers n d [] N N

namespace Context.Below

variable {ctx : Context} {n m : Nat}

theorem mono (h : ctx.Below n) (hm : n ≤ m) : ctx.Below m := by
  refine ⟨fun l hl => ?_, fun r hr cleanup hc k loops N hk => ?_⟩
  · obtain ⟨hb, hc⟩ := h.loops l hl
    exact ⟨Nat.lt_of_lt_of_le hb hm, fun k hk => Nat.lt_of_lt_of_le (hc k hk) hm⟩
  · exact h.regions r hr cleanup hc k loops N (Nat.le_trans hm hk)

/-- Other loops with known labels may be open. -/
theorem withLoops {loops : List Loop} (h : ctx.Below n) (hm : n ≤ m)
    (hl : Loop.AllBelow loops m) : Context.Below { ctx with loops } m :=
  ⟨hl, (h.mono hm).regions⟩

theorem inLoop {breakTo : Label} {continueTo : Option Label} (h : ctx.Below n)
    (hb : breakTo < n) (hc : ∀ k, continueTo = some k → k < n) :
    (ctx.inLoop breakTo continueTo).Below n :=
  ⟨List.forall_mem_cons.mpr ⟨⟨hb, hc⟩, h.loops⟩, h.regions⟩

theorem inRegion {caught : Bool} {clause : Option (List Loop → Draft)} (h : ctx.Below n)
    (hc : ∀ cleanup, clause = some cleanup → ∀ m loops N, n ≤ m → Loop.AllBelow loops m →
      InOrder ctx.config.lineMarkers m (cleanup loops) [] N N) :
    (ctx.inRegion caught clause).Below n :=
  ⟨h.loops, List.forall_mem_cons.mpr ⟨hc, h.regions⟩⟩

/-- A unit begins without loops and regions. -/
theorem start (h₁ : ctx.loops = []) (h₂ : ctx.regions = []) : ctx.Below n := by
  refine ⟨?_, ?_⟩
  · intro l hl
    rw [h₁] at hl
    cases hl
  · intro r hr
    rw [h₂] at hr
    cases hr

end Context.Below

section Pieces

variable {ctx : Context} {markers : Bool} {n : Nat} {d e : Draft} {N : List String}

theorem InOrder.markLine {line : Nat} :
    InOrder ctx.config.lineMarkers n (markLine ctx line) [] N N := by
  unfold StackCode.markLine
  split
  · next h =>
    obtain ⟨hm, hl⟩ := Bool.and_eq_true_iff.mp h
    exact final (.markLine hm (of_decide_eq_true hl))
  · exact plain rfl

theorem InOrder.value (v : Value) : InOrder markers n v.lower [] N N := by
  unfold Value.lower
  split <;> exact plain rfl

theorem InOrder.callOp {args : List Arg} {tail : Bool} :
    InOrder markers n (callOp args tail) [] N N := by
  unfold StackCode.callOp
  simp only
  split
  · exact plain rfl
  · split
    · unfold callNamedOp
      simp only
      split
      · next h =>
        refine final (.pair ?_)
        simpa only [Bool.or_eq_true, decide_eq_true_eq] using h
      · exact plain rfl
    · exact plain rfl

theorem InOrder.methodOp {args : List Arg} {line : Nat} :
    InOrder markers n (methodOp args line) [] N N := by
  unfold StackCode.methodOp
  split
  · exact refuse
  · exact plain rfl

theorem InOrder.unmixed {args : List Arg} {call : String} {line : Nat}
    (h : InOrder markers n d [] N N) : InOrder markers n (unmixed args call line d) [] N N := by
  unfold StackCode.unmixed
  split
  · exact refuse
  · exact h

/-- The operations of the language stand for themselves. -/
theorem BinaryOp.isProper_opcode (op : BinaryOp) : op.opcode.isProper = true := by
  cases op <;> rfl

theorem UnaryOp.isProper_opcode (op : UnaryOp) : op.opcode.isProper = true := by
  cases op <;> rfl

theorem LogicalOp.isJump_opcode (op : LogicalOp) : op.opcode.isJump = true := by
  cases op <;> rfl

theorem InOrder.op {o : Opcode} (h : o.isProper = true) :
    InOrder markers n (StackCode.plain o) [] N N :=
  plain h

theorem InOrder.returnNil : InOrder markers n returnNil [] N N :=
  (op rfl).append (op rfl)

theorem InOrder.predeclare {x : String} :
    InOrder markers n (predeclare ctx x) [] N (if ctx.kind = .function then x :: N else N) := by
  unfold StackCode.predeclare
  cases ctx.kind with
  | function => exact declare
  | global => exact nil
  | object => exact nil

theorem InOrder.bindDeclared {x : String} :
    InOrder markers n (bindDeclared ctx x) [] (if ctx.kind = .function then x :: N else N) N := by
  unfold StackCode.bindDeclared
  cases ctx.kind with
  | function => exact (slot rfl List.mem_cons_self).forget (List.subset_cons_self x N)
  | global => exact plain rfl
  | object => exact plain rfl

/-! ### Exits -/

/-- Leaving regions lowers their cleanups where the exit is. -/
theorem InOrder.unwind {loops : List Loop} {k : Nat} {regions : List Region}
    (hl : Loop.AllBelow loops n)
    (h : ∀ r ∈ regions, ∀ cleanup, r.cleanup = some cleanup → ∀ m loops N, n ≤ m →
      Loop.AllBelow loops m → InOrder markers m (cleanup loops) [] N N) :
    InOrder markers n (unwind loops k regions) [] N N := by
  induction regions generalizing k with
  | nil =>
    cases k with
    | zero => exact nil
    | succ k => exact nil
  | cons r rest ih =>
    obtain ⟨hr, hrest⟩ := List.forall_mem_cons.mp h
    cases k with
    | zero => exact nil
    | succ k =>
      unfold StackCode.unwind
      have htaken : InOrder markers n (if r.catchInstalled then StackCode.plain .endTry else Draft.nil)
          [] N N := by
        split
        · exact op rfl
        · exact nil
      cases hc : r.cleanup with
      | none => exact (htaken.append nil).append (ih hrest)
      | some cleanup =>
        have hcleanup := hr cleanup hc n loops N (Nat.le_refl n) hl
        exact (htaken.append ((op rfl).append hcleanup)).append (ih hrest)

theorem InOrder.unwindTo {depth : Nat} (h : ctx.Below n) :
    InOrder ctx.config.lineMarkers n (ctx.unwindTo depth) [] N N := .unwind h.loops h.regions

theorem InOrder.returnTop (h : ctx.Below n) :
    InOrder ctx.config.lineMarkers n ctx.returnTop [] N N := (unwindTo h).append (op rfl)

theorem steady_lowerBreak {line : Nat} : Steady ctx (lowerBreak ctx line) := by
  intro n N h
  unfold lowerBreak
  cases hl : ctx.loops with
  | nil => exact .refuse
  | cons l rest =>
    have hbreak := (h.loops l (by rw [hl]; exact List.mem_cons_self)).1
    exact (InOrder.unwindTo h).append (.jump rfl hbreak)

theorem continuable?_below {loops : List Loop} {l : Label} {depth : Nat}
    (h : Loop.AllBelow loops n) (hl : continuable? loops = some (l, depth)) : l < n := by
  induction loops with
  | nil => cases hl
  | cons x rest ih =>
    obtain ⟨hx, hrest⟩ := List.forall_mem_cons.mp h
    unfold continuable? at hl
    cases hc : x.continueTo with
    | none =>
      simp only [hc] at hl
      exact ih hrest hl
    | some k =>
      simp only [hc, Option.some.injEq, Prod.mk.injEq] at hl
      rw [← hl.1]
      exact hx.2 k hc

theorem steady_lowerContinue {line : Nat} : Steady ctx (lowerContinue ctx line) := by
  intro n N h
  unfold lowerContinue
  cases hl : continuable? ctx.loops with
  | none => exact .refuse
  | some x => exact (InOrder.unwindTo h).append (.jump rfl (continuable?_below h.loops hl))

/-! ### Regions -/

theorem InOrder.guarded {handler : Option Draft}
    (hh : ∀ c, handler = some c → InOrder markers n c [] N N) (hd : InOrder markers n d [] N N) :
    InOrder markers n (guarded handler d) [] N N := by
  cases handler with
  | none => exact hd
  | some clause =>
    unfold StackCode.guarded
    refine .withLabel fun h hn => ?_
    have hbody : InOrder markers (h + 1)
        (StackCode.jump .tryCatch h ++ d ++ StackCode.plain .endTry) [] N N :=
      ((jump rfl (Nat.lt_succ_self h)).append (hd.mono (Nat.le_succ_of_le hn))).append (op rfl)
    refine hbody.append (.withLabel fun done hdone => ?_)
    have hclause := (hh clause rfl).mono (Nat.le_succ_of_le (Nat.le_trans (Nat.le_succ_of_le hn) hdone))
    exact ((((jump rfl (Nat.lt_succ_self done)).append place).append (plain rfl)).append
      hclause).append place

theorem InOrder.cleaned {cleanup : Option Draft}
    (hc : ∀ c, cleanup = some c → InOrder markers n c [] N N) (hd : InOrder markers n d [] N N) :
    InOrder markers n (cleaned cleanup d) [] N N := by
  cases cleanup with
  | none => exact hd
  | some clause =>
    unfold StackCode.cleaned
    refine .withLabel fun l hn => ?_
    exact (((((jump rfl (Nat.lt_succ_self l)).append (hd.mono (Nat.le_succ_of_le hn))).append
      (op rfl)).append place).append ((hc clause rfl).mono (Nat.le_succ_of_le hn))).append (op rfl)

end Pieces

/-! ### Bodies -/

/-- A tail call leaves the unit. -/
theorem Expr.exits_lower {e : Expr} {ctx : Context} {terminal : Bool}
    (h : ctx.isTail terminal e = true) : (e.lower ctx terminal).Exits := by
  obtain ⟨-, hself⟩ := Bool.and_eq_true_iff.mp h
  obtain ⟨name, -, hcall⟩ := (Option.any_eq_true _ _).mp hself
  cases e with
  | call line callee args =>
    rw [Expr.lower, h]
    exact .append (.step (.inr ⟨_, rfl⟩))
  | _ => exact absurd hcall Bool.false_ne_true

theorem StmtForm.exits_ret {value : Option Expr} {ctx : Context} {line : Nat} :
    ((StmtForm.ret value).lower ctx line).Exits := by
  cases value with
  | none =>
    rw [StmtForm.lower]
    split
    · exact .append .returnTop
    · exact .final
  | some e =>
    rw [StmtForm.lower]
    split
    · split
      · next h => exact (e.exits_lower h).append_nil
      · exact .append .returnTop
    · exact .final

/-- The body of a function ends in a return or in a tail call. -/
theorem Stmt.exits_lowerBody (body : List Stmt) (ctx : Context) : (Stmt.lowerBody body ctx).Exits := by
  induction body with
  | nil =>
    rw [Stmt.lowerBody]
    exact .returnNil
  | cons s rest ih =>
    cases rest with
    | cons s' rest =>
      rw [Stmt.lowerBody]
      · exact .append ih
      · simp
      · simp
      · simp
    | nil =>
      obtain ⟨line, form⟩ := s
      cases form with
      | expr e =>
        rw [Stmt.lowerBody]
        split
        · next h => exact (Draft.Exits.append (e.exits_lower h)).append_nil
        · exact .append (.step (.inl rfl))
      | ret value =>
        rw [Stmt.lowerBody]
        exact .append StmtForm.exits_ret
      | _ =>
        rw [Stmt.lowerBody]
        · exact .append .returnNil
        · simp
        · simp

/-! ### Constructs with labels -/

namespace Steady

variable {ctx : Context} {d e e' : Draft}

theorem append (hd : Steady ctx d) (he : Steady ctx e) : Steady ctx (d ++ e) :=
  fun n N h => (hd n N h).append (he n N h)

theorem op {o : Opcode} (ho : o.isProper = true) : Steady ctx (StackCode.plain o) :=
  fun _ _ _ => .op ho

theorem step {x : Step} (hx : x.isPlain = true) : Steady ctx (Draft.step x) :=
  fun _ _ _ => .plain hx

theorem refuse {line : Nat} {cause : Misuse} : Steady ctx (refuse line cause) :=
  fun _ _ _ => .refuse

theorem nil : Steady ctx Draft.nil := fun _ _ _ => .nil

theorem block (hd : Steady ctx d) : Steady ctx (Draft.block d) := fun n N h => (hd n N h).block

theorem markLine {line : Nat} : Steady ctx (markLine ctx line) := fun _ _ _ => .markLine

theorem returnNil : Steady ctx returnNil := fun _ _ _ => .returnNil

/-- More labels are known after one was drawn. -/
theorem later (hd : Steady ctx d) {n m : Nat} {N : List String} (h : ctx.Below n) (hm : n ≤ m) :
    InOrder ctx.config.lineMarkers m d [] N N := hd m N (h.mono hm)

theorem logical {o : LogicalOp} (hd : Steady ctx d) (he : Steady ctx e) :
    Steady ctx (withLabel fun done => d ++ jump o.opcode done ++ e ++ place done) := by
  intro n N h
  refine .withLabel fun done hn => ?_
  have hn := Nat.le_succ_of_le hn
  exact (((hd.later h hn).append (.jump o.isJump_opcode (Nat.lt_succ_self done))).append
    (he.later h hn)).append .place

theorem conditional (hd : Steady ctx d) (he : Steady ctx e) (he' : Steady ctx e') :
    Steady ctx (withLabel fun other => withLabel fun done =>
      d ++ jump .jumpFalse other ++ e ++ jump .jump done ++ place other ++ e' ++ place done) := by
  intro n N h
  refine .withLabel fun other hn => .withLabel fun done hdone => ?_
  have hm : n ≤ done + 1 := by omega
  exact ((((((hd.later h hm).append (.jump rfl (Nat.lt_succ_of_lt hdone))).append
    (he.later h hm)).append (.jump rfl (Nat.lt_succ_self done))).append .place).append
    (he'.later h hm)).append .place

theorem ifThen (hd : Steady ctx d) (he : Steady ctx e) :
    Steady ctx (withLabel fun other =>
      d ++ jump .jumpFalse other ++ Draft.block e ++ place other) := by
  intro n N h
  refine .withLabel fun other hn => ?_
  have hn := Nat.le_succ_of_le hn
  exact (((hd.later h hn).append (.jump rfl (Nat.lt_succ_self other))).append
    (he.later h hn).block).append .place

theorem ifElse (hd : Steady ctx d) (he : Steady ctx e) (he' : Steady ctx e') :
    Steady ctx (withLabel fun other =>
      d ++ jump .jumpFalse other ++ Draft.block e
        ++ withLabel fun done =>
          jump .jump done ++ place other ++ Draft.block e' ++ place done) := by
  intro n N h
  refine .withLabel fun other hn => ?_
  have hm := Nat.le_succ_of_le hn
  refine (((hd.later h hm).append (.jump rfl (Nat.lt_succ_self other))).append
    (he.later h hm).block).append (.withLabel fun done hdone => ?_)
  have hm : n ≤ done + 1 := by omega
  exact (((InOrder.jump rfl (Nat.lt_succ_self done)).append .place).append
    (he'.later h hm).block).append .place

theorem whileDo {body : Label → Label → Draft} (hd : Steady ctx d)
    (hb : ∀ top done, Steady (ctx.inLoop done (some top)) (body top done)) :
    Steady ctx (withLabel fun top => withLabel fun done =>
      place top ++ d ++ jump .jumpFalse done ++ Draft.block (body top done) ++ jump .jump top
        ++ place done) := by
  intro n N h
  refine .withLabel fun top hn => .withLabel fun done hdone => ?_
  have hm : n ≤ done + 1 := by omega
  have htop : top < done + 1 := Nat.lt_succ_of_lt hdone
  have hloop : (ctx.inLoop done (some top)).Below (done + 1) := by
    refine (h.mono hm).inLoop (Nat.lt_succ_self done) fun k hk => ?_
    rw [← Option.some.inj hk]
    exact htop
  exact (((((InOrder.place.append (hd.later h hm)).append (.jump rfl (Nat.lt_succ_self done))).append
    (hb top done _ _ hloop).block).append (.jump rfl htop)).append .place)

theorem forLoop {cond : Label → Draft} {body : Label → Label → Draft} (hd : Steady ctx d)
    (hc : ∀ done n N, ctx.Below n → done < n → InOrder ctx.config.lineMarkers n (cond done) [] N N)
    (hb : ∀ next done, Steady (ctx.inLoop done (some next)) (body next done)) (he : Steady ctx e) :
    Steady ctx (Draft.block (d ++ withLabel fun top => withLabel fun next => withLabel fun done =>
      place top ++ cond done ++ Draft.block (body next done) ++ place next ++ e ++ jump .jump top
        ++ place done)) := by
  intro n N h
  refine @InOrder.block _ n _ _ N N ((hd n N h).append (.withLabel fun top hn =>
    .withLabel fun next hnext => .withLabel fun done hdone => ?_))
  have hm : n ≤ done + 1 := by omega
  have htop : top < done + 1 := by omega
  have hloop : (ctx.inLoop done (some next)).Below (done + 1) := by
    refine (h.mono hm).inLoop (Nat.lt_succ_self done) fun k hk => ?_
    rw [← Option.some.inj hk]
    exact Nat.lt_succ_of_lt hdone
  exact ((((((InOrder.place.append (hc done _ N (h.mono hm) (Nat.lt_succ_self done))).append
    (hb next done _ _ hloop).block).append .place).append (he.later h hm)).append
    (.jump rfl htop)).append .place)

theorem forIn {x : String} {body : Label → Label → Draft} (hd : Steady ctx d)
    (hb : ∀ next done, Steady (ctx.inLoop done (some next)) (body next done)) :
    Steady ctx (Draft.block (d ++ StackCode.plain .iter ++ withHidden "iter" fun it =>
      declareAndStore it ++ withLabel fun next => withLabel fun done =>
        place next ++ Draft.step (.slot .loadLocal it) ++ jump .forIter done ++ declareAndStore x
          ++ Draft.block (body next done) ++ jump .jump next ++ place done)) := by
  intro n N h
  refine (((hd n N h).append (.op rfl)).append (.hidden fun it =>
    .withLabel fun next hn => .withLabel fun done hdone => ?_)).block
  have hm : n ≤ done + 1 := by omega
  have hloop : (ctx.inLoop done (some next)).Below (done + 1) := by
    refine (h.mono hm).inLoop (Nat.lt_succ_self done) fun k hk => ?_
    rw [← Option.some.inj hk]
    exact Nat.lt_succ_of_lt hdone
  refine InOrder.forget ?_ (List.subset_cons_self x _)
  exact (((((InOrder.place.append (.slot rfl List.mem_cons_self)).append
    (.jump rfl (Nat.lt_succ_self done))).append .declareAndStore).append
    (hb next done _ _ hloop).block).append (.jump rfl (Nat.lt_succ_of_lt hdone))).append .place

theorem case {k : Nat} {tests : String → Label → Draft} {results : Label → Label → Draft}
    (hd : Steady ctx d)
    (ht : ∀ x first n N, ctx.Below n → first + k ≤ n → x ∈ N →
      InOrder ctx.config.lineMarkers n (tests x first) [] N N)
    (he : Steady ctx e)
    (hr : ∀ first done n N, ctx.Below n → done < n →
      InOrder ctx.config.lineMarkers n (results first done) (List.range' first k) N N) :
    Steady ctx (Draft.block (d ++ withHidden "case" fun x =>
      declareAndStore x ++ withLabel fun done => withLabels k fun first =>
        tests x first ++ e ++ jump .jump done ++ results first done ++ place done)) := by
  intro n N h
  refine ((hd n N h).append (.hidden fun x =>
    .withLabel fun done hn => .withLabels fun first hfirst => ?_)).block
  have hm : n ≤ first + k := by omega
  have hdone : done < first + k := by omega
  refine InOrder.perm ?_ List.perm_append_comm
  exact ((((ht x first _ (x :: N) (h.mono hm) (Nat.le_refl _) List.mem_cons_self).append
    (he.later h hm)).append (.jump rfl hdone)).append (hr first done _ _ (h.mono hm) hdone)).append
    .place

theorem switch {k : Nat} {tests : String → Label → Draft} {bodies : Label → Label → Draft}
    {default : Label → Draft} (hd : Steady ctx d)
    (ht : ∀ x first n N, ctx.Below n → first + k ≤ n → x ∈ N →
      InOrder ctx.config.lineMarkers n (tests x first) [] N N)
    (hb : ∀ first done n N, (ctx.inLoop done none).Below n → done < n →
      InOrder ctx.config.lineMarkers n (bodies first done) (List.range' first k) N N)
    (he : ∀ done, Steady (ctx.inLoop done none) (default done)) :
    Steady ctx (Draft.block (d ++ withHidden "switch" fun x =>
      declareAndStore x ++ withLabel fun done => withLabels k fun first =>
        tests x first ++ withLabel fun fallback =>
          jump .jump fallback ++ bodies first done ++ place fallback ++ default done
            ++ place done)) := by
  intro n N h
  refine ((hd n N h).append (.hidden fun x =>
    .withLabel fun done hn => .withLabels fun first hfirst => ?_)).block
  have hm : n ≤ first + k := by omega
  refine (ht x first _ (x :: N) (h.mono hm) (Nat.le_refl _) List.mem_cons_self).append
    (.withLabel fun fallback hback => ?_)
  have hdone : done < fallback + 1 := by omega
  have hloop : (ctx.inLoop done none).Below (fallback + 1) :=
    (h.mono (by omega)).inLoop hdone fun k hk => by cases hk
  have horder : (List.range' first k ++ [fallback] ++ [done]).Perm
      ([done] ++ List.range' first k ++ [fallback]) := by
    rw [List.append_assoc [done]]
    exact List.perm_append_comm
  refine InOrder.perm ?_ horder
  have hbody := ((((InOrder.jump (rfl : Opcode.jump.isJump = true) (Nat.lt_succ_self fallback)).append
    (hb first done _ (x :: N) hloop hdone)).append (.place (l := fallback))).append
    (he done _ _ hloop)).append (.place (l := done))
  rw [List.nil_append, List.append_nil] at hbody
  exact hbody

/-- The clause of a region is lowered where it is written and at every exit of the region. -/
theorem tryCatch {handler : Option Draft} {clause : Option (List Loop → Draft)} {caught : Bool}
    (hc : ∀ cleanup, clause = some cleanup → ∀ n loops N, Context.Below { ctx with loops } n →
      InOrder ctx.config.lineMarkers n (cleanup loops) [] N N)
    (hh : ∀ c, handler = some c → Steady (ctx.inRegion false clause) c)
    (hd : Steady (ctx.inRegion caught clause) d) :
    Steady ctx (Draft.step .protect ++ cleaned (clause.map (· ctx.loops))
      (guarded handler (Draft.block d))) := by
  intro n N h
  have hregion : ∀ caught, (ctx.inRegion caught clause).Below n := fun _ =>
    h.inRegion fun cleanup hcl m loops N hm hl => hc cleanup hcl m loops N (h.withLoops hm hl)
  refine (InOrder.plain rfl).append (.cleaned ?_ (.guarded ?_ (hd n N (hregion _)).block))
  · intro c hmap
    obtain ⟨cleanup, hcl, rfl⟩ := Option.map_eq_some_iff.mp hmap
    exact hc cleanup hcl n ctx.loops N h
  · intro c hcl
    exact hh c hcl n N (hregion _)

/-- A declaration has its slot before its value is lowered, if it needs one. -/
theorem declared {x : String} (hd : Steady ctx d) :
    Steady ctx (predeclare ctx x ++ d ++ bindDeclared ctx x) :=
  fun n _ h => (InOrder.predeclare.append (hd n _ h)).append .bindDeclared

/-- The default of a parameter, which has its slot. -/
theorem default {x : String} {i n : Nat} {N : List String} (hd : Steady ctx d) (hx : x ∈ N)
    (h : ctx.Below n) :
    InOrder ctx.config.lineMarkers n (withLabel fun skip =>
      Draft.step (.count .hasArg i) ++ jump .jumpTrue skip ++ d ++ Draft.step (.slot .storeLocal x)
        ++ place skip ++ Draft.step (.count .paramEnd i)) [] N N := by
  refine .withLabel fun skip hn => ?_
  exact (((((InOrder.plain rfl).append (.jump rfl (Nat.lt_succ_self skip))).append
    (hd.later h (Nat.le_succ_of_le hn))).append (.slot rfl hx)).append .place).append (.plain rfl)

/-- The body of a class or a namespace. -/
theorem object {o : Opcode} {inner : Context} (ho : o.isProper = true)
    (hinner : inner = ctx.inObject) (hd : Steady inner d) :
    Steady ctx (Draft.unit o .object {} (d ++ StackCode.returnNil)) := by
  subst hinner
  exact fun _ _ _ => .unit ho ((hd 0 [] (.start rfl rfl)).append .returnNil) (.append .returnNil)

end Steady

/-! ### The recursion -/

/-- Consecutive labels are taken one by one. -/
theorem first_and_rest {l k n : Nat} (h : l + (k + 1) ≤ n) : l < n ∧ l + 1 + k ≤ n := by
  omega

/-- All expressions and all statements are steady; the other parts of the lowering are followed on
the way. -/
theorem steady_lower :
    (∀ (e : Expr) (ctx : Context) (terminal : Bool), Steady ctx (e.lower ctx terminal))
      ∧ ∀ (program : List Stmt) (ctx : Context), Steady ctx (Stmt.lowerAll program ctx) := by
  refine And.imp_right (fun h => h.2.2.2.2.2.2.2.2.2.2.2.2.1) (Expr.lower.mutual_induct
    (fun e ctx terminal => Steady ctx (e.lower ctx terminal))
    (fun arms ctx terminal first done => ∀ n N, ctx.Below n → done < n →
      InOrder ctx.config.lineMarkers n (Arm.lowerResults arms ctx terminal first done)
        (List.range' first arms.length) N N)
    (fun e ctx terminal => Steady ctx (Expr.lowerOr e ctx terminal))
    (fun arms ctx x first => ∀ n N, ctx.Below n → first + arms.length ≤ n → x ∈ N →
      InOrder ctx.config.lineMarkers n (Arm.lowerTests arms ctx x first) [] N N)
    (fun values ctx x l => ∀ n N, ctx.Below n → l < n → x ∈ N →
      InOrder ctx.config.lineMarkers n (Expr.lowerTests values ctx x l) [] N N)
    (fun entries ctx => Steady ctx (Entry.lower entries ctx))
    (fun items ctx => Steady ctx (Expr.lowerAll items ctx))
    (fun args ctx call line names => Steady ctx (Arg.lower args ctx call line names))
    (fun f ctx binding line => Steady ctx (f.lower ctx binding line))
    (fun body ctx => Steady ctx (Stmt.lowerBody body ctx))
    (fun s ctx => Steady ctx (s.lower ctx))
    (fun form ctx line => Steady ctx (form.lower ctx line))
    (fun cases ctx first done => ∀ n N, ctx.Below n → done < n →
      InOrder ctx.config.lineMarkers n (Case.lowerBodies cases ctx first done)
        (List.range' first cases.length) N N)
    (fun body ctx => Steady ctx (Stmt.lowerAll body ctx))
    (fun cases ctx x first => ∀ n N, ctx.Below n → first + cases.length ≤ n → x ∈ N →
      InOrder ctx.config.lineMarkers n (Case.lowerTests cases ctx x first) [] N N)
    (fun handler ctx => ∀ d, Catch.lower handler ctx = some d → Steady ctx d)
    (fun body ctx => ∀ c, Stmt.lowerBlock? body ctx = some c → ∀ n loops N,
      Context.Below { ctx with loops } n → InOrder ctx.config.lineMarkers n (c loops) [] N N)
    (fun e ctx => Steady ctx (Expr.lowerEffect e ctx))
    (fun e ctx done => ∀ n N, ctx.Below n → done < n →
      InOrder ctx.config.lineMarkers n (Expr.lowerCondition e ctx done) [] N N)
    (fun s ctx => Steady ctx (Stmt.lowerOptional s ctx))
    (fun params ctx i => ∀ n N, ctx.Below n → params.map Param.name ⊆ N →
      InOrder ctx.config.lineMarkers n (Param.lower params ctx i) [] N N)
    ?_ ?_ ?_ ?_ ?_ ?_ ?_ ?_ ?_ ?_ ?_ ?_ ?_ ?_ ?_ ?_ ?_ ?_ ?_ ?_ ?_ ?_ ?_ ?_ ?_ ?_ ?_ ?_ ?_ ?_
    ?_ ?_ ?_ ?_ ?_ ?_ ?_ ?_ ?_ ?_ ?_ ?_ ?_ ?_ ?_ ?_ ?_ ?_ ?_ ?_ ?_ ?_ ?_ ?_ ?_ ?_ ?_ ?_ ?_ ?_
    ?_ ?_ ?_ ?_ ?_ ?_ ?_ ?_ ?_ ?_ ?_ ?_ ?_ ?_ ?_ ?_ ?_ ?_ ?_ ?_ ?_ ?_ ?_ ?_ ?_ ?_ ?_ ?_ ?_ ?_
    ?_ ?_)
  -- expressions
  · intro v ctx terminal
    exact fun _ _ _ => .value v
  · intro x ctx terminal
    exact .step rfl
  · intro ctx terminal
    exact .op rfl
  · intro line x line' f ctx terminal hf
    exact (hf.append (.op rfl)).append (.step rfl)
  · intro line x value ctx terminal hne hv
    rw [Expr.lower]
    · exact (hv.append (.op rfl)).append (.step rfl)
    · exact hne
  · intro line object x value ctx terminal ho hv
    exact (ho.append hv).append (.step rfl)
  · intro line object index value ctx terminal ho hi hv
    exact ((ho.append hi).append hv).append (.op rfl)
  · intro line target value ctx terminal h₁ h₂ h₃ h₄
    rw [Expr.lower]
    · exact .refuse
    · exact h₁
    · exact h₂
    · exact h₃
    · exact h₄
  · intro op lhs rhs ctx terminal hl hr
    exact (hl.append hr).append (.op op.isProper_opcode)
  · intro op lhs rhs ctx terminal hl hr
    exact .logical hl hr
  · intro op operand ctx terminal ho
    exact ho.append (.op op.isProper_opcode)
  · intro line callee args ctx terminal hc ha
    exact fun n N h => ((hc n N h).append (ha n N h).unmixed).append .callOp
  · intro line object x args ctx terminal ho ha
    exact fun n N h => (((ho n N h).append (.plain rfl)).append (ha n N h).unmixed).append .methodOp
  · intro object x ctx terminal ho
    exact ho.append (.step rfl)
  · intro object index ctx terminal ho hi
    exact (ho.append hi).append (.op rfl)
  · intro items ctx terminal hi
    exact hi.append (.step rfl)
  · intro entries ctx terminal he
    exact he.append (.step rfl)
  · intro line f ctx terminal hf
    exact hf
  · intro cond thenE elseE ctx terminal hc ht he
    exact .conditional hc ht he
  · intro subject arms default ctx terminal hs ht hd hr
    exact .case hs ht hd fun first done => hr done first
  · intro line value ctx terminal hg hv
    rw [Expr.lower, if_pos hg]
    exact hv.append (.op rfl)
  · intro line value ctx terminal hg
    rw [Expr.lower, if_neg hg]
    exact .refuse
  -- functions
  · intro params variadic generator body ctx binding line x hx
    rw [Function.lower]
    simp only [hx]
    exact .refuse
  · intro params variadic generator body ctx binding line f hn inner hp hb
    rw [Function.lower]
    simp only [hn]
    have hbody := (hp 0 _ (.start rfl rfl) (List.Subset.refl _)).append (hb 0 _ (.start rfl rfl))
    exact fun n N h => .unit rfl hbody (.append (Stmt.exits_lowerBody body inner))
  -- statements
  · intro line form ctx hf
    exact Steady.markLine.append hf
  · intro e ctx line he
    exact he.append (.step rfl)
  · intro x ctx line
    exact fun n N h => ((InOrder.op rfl).append .declareAndStore).forget (List.subset_cons_self x N)
  · intro x line f ctx line' hf
    exact fun n N h => ((InOrder.declare.append (hf n _ h)).append
      (.slot rfl List.mem_cons_self)).forget (List.subset_cons_self x N)
  · intro x e ctx line hne he
    rw [StmtForm.lower]
    · exact fun n N h =>
        ((he n N h).append .declareAndStore).forget (List.subset_cons_self x N)
    · exact hne
  · intro body ctx line hb
    exact hb.block
  · intro cond thenS ctx line hc ht
    exact .ifThen hc ht
  · intro cond thenS elseS ctx line hc ht he
    exact .ifElse hc ht he
  · intro cond body ctx line hc hb
    rw [StmtForm.lower]
    exact .whileDo hc hb
  · intro init cond afterwards body ctx line hi hc hb ha
    exact .forLoop hi hc hb ha
  · intro x iterable body ctx line hi hb
    exact .forIn hi hb
  · intro ctx line
    exact steady_lowerBreak
  · intro ctx line
    exact steady_lowerContinue
  · intro ctx line hk
    rw [StmtForm.lower, if_pos hk]
    exact fun n N h => (InOrder.op rfl).append (.returnTop h)
  · intro ctx line hk
    rw [StmtForm.lower, if_neg hk]
    exact .refuse
  · intro e ctx line hk he
    rw [StmtForm.lower, if_pos hk]
    split
    · exact he.append .nil
    · exact fun n N h => (he n N h).append (.returnTop h)
  · intro e ctx line hk
    rw [StmtForm.lower, if_neg hk]
    exact .refuse
  · intro e ctx line he
    exact he.append (.op rfl)
  · intro body handler cleanup ctx line hn
    rw [StmtForm.lower, if_pos hn]
    exact .refuse
  · intro body handler cleanup ctx line hn clause hc hh hb
    rw [StmtForm.lower, if_neg hn]
    exact .tryCatch hc hh hb
  · intro subject cases default ctx line hs ht hb hd
    rw [StmtForm.lower]
    refine .switch hs ht (fun first done => hb done first) fun done => ?_
    cases hdef : Stmt.lowerBlock? default (ctx.inLoop done none) with
    | none => exact .nil
    | some body => exact fun n N h => hd done body hdef n _ N h
  · intro x f ctx line hf
    exact .declared hf
  · intro x parent body ctx line hp hb
    exact fun n N h => ((InOrder.predeclare.append (hp n _ h)).append
      (Steady.object rfl rfl hb n _ h)).append .bindDeclared
  · intro x body ctx line hb
    exact .declared (.object rfl rfl hb)
  -- arguments
  · intro ctx call line names
    exact .nil
  · intro e rest ctx call line names hn he hr
    rw [Arg.lower, if_pos hn]
    exact he.append hr
  · intro e rest ctx call line names hn
    rw [Arg.lower, if_neg hn]
    exact .refuse
  · intro e rest ctx call line names hn he hr
    rw [Arg.lower, if_pos hn]
    exact (he.append (.op rfl)).append hr
  · intro e rest ctx call line names hn
    rw [Arg.lower, if_neg hn]
    exact .refuse
  · intro x e rest ctx call line names hn
    rw [Arg.lower, if_pos hn]
    exact .refuse
  · intro x e rest ctx call line names hn he hr
    rw [Arg.lower, if_neg hn]
    exact ((Steady.step rfl).append he).append hr
  -- several expressions
  · intro ctx x l
    exact fun _ _ _ _ _ => .nil
  · intro e rest ctx x l he hr
    exact fun n N h hl hx => ((((InOrder.slot rfl hx).append (he n N h)).append (.op rfl)).append
      (.jump rfl hl)).append (hr n N h hl hx)
  · intro ctx
    exact .nil
  · intro e rest ctx he hr
    exact he.append hr
  · intro ctx
    exact .nil
  · intro x v rest ctx hv hr
    exact ((Steady.step rfl).append hv).append hr
  · intro k v rest ctx hk hv hr
    exact (hk.append hv).append hr
  · intro ctx terminal first done
    exact fun _ _ _ _ => .nil
  · intro values result rest ctx terminal l done hv hr
    exact fun n N h hd => ((InOrder.place.append (hv n N h)).append (.jump rfl hd)).append
      (hr n N h hd)
  · intro ctx x l
    exact fun _ _ _ _ _ => .nil
  · intro values result rest ctx x l hv hr n N h hl hx
    obtain ⟨hfirst, hrest⟩ := first_and_rest hl
    exact (hv n N h hfirst hx).append (hr n N h hrest hx)
  · intro ctx terminal
    exact .op rfl
  · intro e ctx terminal he
    exact he
  · intro ctx
    exact .nil
  · intro e ctx he
    exact he.append (.step rfl)
  · intro ctx done
    exact fun _ _ _ _ => .nil
  · intro e ctx done he
    exact fun n N h hd => (he n N h).append (.jump rfl hd)
  · intro ctx i
    exact fun _ _ _ _ => .nil
  · intro name rest ctx i hr
    exact fun n N h hN => hr n N h (List.cons_subset.mp hN).2
  · intro x e rest ctx i he hr
    exact fun n N h hN => (Steady.default he (List.cons_subset.mp hN).1 h).append
      (hr n N h (List.cons_subset.mp hN).2)
  -- bodies and clauses
  · intro ctx
    exact .returnNil
  · intro line e ctx he
    rw [Stmt.lowerBody]
    split
    · exact (Steady.markLine.append he).append .nil
    · exact (Steady.markLine.append he).append (.op rfl)
  · intro line value ctx hv
    exact Steady.markLine.append hv
  · intro line form ctx h₁ h₂ hf
    rw [Stmt.lowerBody]
    · exact (Steady.markLine.append hf).append .returnNil
    · exact h₁
    · exact h₂
  · intro s rest ctx h₁ h₂ h₃ hs hr
    rw [Stmt.lowerBody]
    · exact hs.append hr
    · exact h₁
    · exact h₂
    · exact h₃
  · intro ctx
    exact .nil
  · intro s rest ctx hs hr
    exact hs.append hr
  · intro ctx
    exact .nil
  · intro s ctx hs
    exact hs
  · intro ctx d hd
    cases hd
  · rintro x body ctx hb d ⟨⟩
    exact fun n N h => (InOrder.declareAndStore.append (hb n _ h)).block
  · intro ctx c hc
    cases hc
  · rintro body ctx hb c ⟨⟩
    exact fun n loops N h => (hb loops n N h).block
  · intro ctx first done
    exact fun _ _ _ _ => .nil
  · intro values body rest ctx l done hb hr
    exact fun n N h hd => ((InOrder.place.append (hb n N h).block).append (.jump rfl hd)).append
      (hr n N h hd)
  · intro ctx x l
    exact fun _ _ _ _ _ => .nil
  · intro values body rest ctx x l hv hr n N h hl hx
    obtain ⟨hfirst, hrest⟩ := first_and_rest hl
    exact (hv n N h hfirst hx).append (hr n N h hrest hx)

/-! ### Whole programs -/

theorem Program.inOrder (config : Config) (program : List Stmt) :
    InOrder config.lineMarkers 0 (Program.draft config program) [] [] [] :=
  (steady_lower.2 program { config } 0 [] (.start rfl rfl)).append .returnNil

/-- Nothing was done at the start. -/
theorem Ledger.admits_start : Ledger.Admits {} {} 0 [] [] :=
  ⟨rfl, Nat.le_refl 0, fun _ hl => absurd hl List.not_mem_nil, List.nodup_nil,
    fun _ hl => absurd hl List.not_mem_nil, List.nil_subset _⟩

/-- A draft that ends early leads to every ledger. -/
theorem Program.orderly_of_rest?_eq_none {config : Config} {program : List Stmt}
    (h : (Program.draft config program).rest? {} = none) (L : Ledger) :
    Orderly config.lineMarkers ((Program.draft config program).steps {}) {} L := by
  have hrun := Program.inOrder config program {} {} Ledger.admits_start
  simp only [h] at hrun
  exact hrun L

/-- The steps of every program are orderly, and the program is settled at their end. -/
theorem Program.orderly (config : Config) (program : List Stmt) :
    ∃ L, Orderly config.lineMarkers ((Program.draft config program).steps {}) {} L
      ∧ L.Settled := by
  cases hr : (Program.draft config program).rest? {} with
  | none =>
    exact ⟨{}, Program.orderly_of_rest?_eq_none hr {}, rfl, fun l hl => absurd hl (Nat.not_lt_zero l)⟩
  | some s' =>
    have hrun := Program.inOrder config program {} {} Ledger.admits_start
    simp only [hr] at hrun
    obtain ⟨L, ho, hl⟩ := hrun
    refine ⟨L, ho, hl.blocks, fun l hlt => (hl.placed l).mpr (.inr (.inr ⟨Nat.zero_le l, ?_⟩))⟩
    rw [hl.made] at hlt
    exact hlt

theorem Assembler.tidy_start (config : Config) : (Assembler.start config).Tidy {} :=
  ⟨.new, fun _ hs => absurd hs List.not_mem_nil⟩

/-- A script that ends early is never run to its end. -/
theorem Program.rest?_of_compile {config : Config} {program : List Stmt} {c : CodeObject}
    (h : compile config program = .ok c) : (Program.draft config program).rest? {} ≠ none := by
  intro hr
  obtain ⟨final, ha⟩ := compile_eq_ok.mp h
  obtain ⟨b, s, hb, -⟩ := assemble_eq_ok.mp ha
  exact Safe.ne_ok (fun L => (Program.orderly_of_rest?_eq_none hr L).safe False.elim)
    (Assembler.tidy_start config) rfl hb

/-- A program that compiles has few enough labels in every unit. -/
theorem Program.narrow_and_cut_eq_of_compile {config : Config} {program : List Stmt}
    {c : CodeObject} (h : compile config program = .ok c) :
    Script.Narrow ((Program.draft config program).steps {})
      ∧ Script.cut ((Program.draft config program).steps {})
        = (Program.draft config program).steps {} := by
  obtain ⟨L, ho, hL⟩ := Program.orderly config program
  obtain ⟨final, ha⟩ := compile_eq_ok.mp h
  obtain ⟨b, s, hb, -⟩ := assemble_eq_ok.mp ha
  have htidy := Assembler.tidy_start config
  obtain ⟨ht, -, -⟩ := (ho.safe False.elim _ htidy rfl).2 b hb
  obtain ⟨⟨hcount, hinside⟩, hcut⟩ := ho.cut_eq (ht.current.made_le hL) htidy rfl hb
  rw [Nat.zero_add] at hcount
  exact ⟨⟨hcount, hinside⟩, hcut⟩

/-- The script of a program that compiles has the labels that its draft has drawn. -/
theorem Program.script_of_compile {config : Config} {program : List Stmt} {c : CodeObject}
    (h : compile config program = .ok c) :
    Program.script config program = (Program.draft config program).steps {} :=
  (Program.narrow_and_cut_eq_of_compile h).2

/-- No assembly of a program ends in a fault, unless some unit makes too many labels. -/
theorem Program.raises_assemble (config : Config) (program : List Stmt) :
    Edit.Raises (Error.Faultless (Script.Narrow (Program.script config program)))
      (assemble (Program.script config program)) (Assembler.start config) := by
  obtain ⟨L, ho, hL⟩ := Program.orderly config program
  have hnarrow : Script.Narrow (Program.script config program) →
      Ledger.Narrow {} ((Program.draft config program).steps {}) := by
    intro h
    obtain ⟨hcount, hinside⟩ := Script.narrow_cut.mp h
    exact ⟨by rw [Nat.zero_add]; exact hcount, hinside⟩
  obtain ⟨hraise, hrun⟩ :=
    ho.safe hnarrow (Assembler.start config) (Assembler.tidy_start config) rfl
  refine Edit.raises_bind hraise fun u b hb => ?_
  obtain ⟨ht, henc, -⟩ := hrun b hb
  refine Assembler.raises_finish (fun hne => absurd henc hne) (ht.current.raises_reconcile hL) ?_
  -- a descriptor of the outermost scope would refer to a scope around it
  intro hne
  obtain ⟨o, ho⟩ := List.exists_mem_of_ne_nil _ hne
  obtain ⟨hlo, hhi⟩ := ht.current.outers o ho
  rw [henc] at hhi
  exact absurd (Nat.le_trans hlo hhi) (Nat.not_succ_le_zero 0)

/-- The one fault in which a compilation may end is that a label is found to be set already, and only
where some unit makes too many labels. -/
theorem Program.fault_of_compile {config : Config} {program : List Stmt} {cause : Fault}
    (h : compile config program = .error (.fault cause)) :
    (∃ l, cause = .labelSetTwice l) ∧ ¬ Script.Narrow (Program.script config program) := by
  obtain ⟨t, ha⟩ := exists_of_compile_eq_error h
  obtain ⟨hwide, l, hl⟩ := Program.raises_assemble config program _ _ ha rfl
  exact ⟨⟨l, Error.fault.inj hl⟩, hwide⟩

/-- A loop with an exit through a cleanup: `fn f() { while (a) { try { break; } finally { a; } } }`. -/
def cleanedLoop : List Stmt :=
  [.mk 1 (.function "f" (.mk [] false false [.mk 1 (.whileDo (.name "a")
    (.mk 1 (.tryCatch [.mk 1 .breakLoop] none (some [.mk 1 (.expr (.name "a"))]))))]))]

end StackCode
