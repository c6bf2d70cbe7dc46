import StackCode.Proofs.Twins

/-!
# Two copies of a tree

A tree that is lowered twice, in settings that differ in the loops around it only, gives twins. Labels and
hidden variables that a call is given correspond on both sides.

* `Gap.LoopsLike`, `Gap.Targets`: the loops on both sides, and where exits lead;
* `Task.Like`: a call and the same one on the other side;
* `Gap.CopiesBelow.ofExpr`, `ofForm`, `ofTask`: one call, given its own calls, with one case per form;
* `Gap.twins_lowered`: whole calls.
-/

namespace StackCode

open Draft

/-! ### Loops on both sides -/

namespace Gap

/-- The loops around a node on both sides. Those around both copies come last. -/
inductive LoopsLike (G : Gap) : (depth : Nat) → LabelPairs → List Loop → List Loop → Prop where
  | around {M : LabelPairs} : LoopsLike G 0 M G.outer (G.opened ++ G.outer)
  | unit {depth : Nat} {M : LabelPairs} : LoopsLike G (depth + 1) M [] []
  | loop {depth n : Nat} {M : LabelPairs} {b b' t t' : Label} {loops loops' : List Loop}
      (hb : (b, b') ∈ M) (ht : (t, t') ∈ M) (h : LoopsLike G depth M loops loops') :
      LoopsLike G depth M (⟨b, some t, n⟩ :: loops) (⟨b', some t', n⟩ :: loops')
  | switch {depth n : Nat} {M : LabelPairs} {b b' : Label} {loops loops' : List Loop}
      (hb : (b, b') ∈ M) (h : LoopsLike G depth M loops loops') :
      LoopsLike G depth M (⟨b, none, n⟩ :: loops) (⟨b', none, n⟩ :: loops')

/-- Where an exit leads on both sides, unless it is refused at home: out of both copies, or to a label that
was drawn in them. -/
inductive Targets (G : Gap) (depth : Nat) (M : LabelPairs) :
    Option (Label × Nat) → Option (Label × Nat) → Prop where
  | none {t' : Option (Label × Nat)} : Targets G depth M none t'
  | own {l l' : Label} {n : Nat} (h : (l, l') ∈ M) : Targets G depth M (some (l, n)) (some (l', n))
  | exit {t t' : Label × Nat} (hd : depth = 0) (h : G.Exit t t') : Targets G depth M (some t) (some t')

variable {G : Gap} {depth : Nat} {M N : LabelPairs} {loops loops' : List Loop}

namespace LoopsLike

theorem mono (h : G.LoopsLike depth M loops loops') (hM : M ⊆ N) : G.LoopsLike depth N loops loops' := by
  induction h with
  | around => exact .around
  | unit => exact .unit
  | loop hb ht _ ih => exact .loop (hM hb) (hM ht) (ih hM)
  | switch hb _ ih => exact .switch (hM hb) (ih hM)

theorem breaks (h : G.LoopsLike depth M loops loops') :
    G.Targets depth M (loops.head?.map fun k => (k.breakTo, k.depth))
      (loops'.head?.map fun k => (k.breakTo, k.depth)) := by
  cases h with
  | unit => exact .none
  | loop hb _ _ | switch hb _ => exact .own hb
  | around =>
    cases hk : G.outer.head? with
    | none => exact .none
    | some k =>
      obtain ⟨k', hk'⟩ : ∃ k', (G.opened ++ G.outer).head? = some k' := by
        rw [List.head?_append, hk]
        cases G.opened.head? <;> exact ⟨_, rfl⟩
      rw [hk']
      exact .exit rfl (.breaks hk hk')

theorem exists_continuable?_append (front : List Loop) {t : Label × Nat}
    (h : continuable? loops = some t) : ∃ t', continuable? (front ++ loops) = some t' := by
  induction front with
  | nil => exact ⟨t, h⟩
  | cons k rest ih =>
    obtain ⟨b, c, n⟩ := k
    cases c with
    | none => exact ih
    | some l => exact ⟨_, rfl⟩

theorem continues (h : G.LoopsLike depth M loops loops') :
    G.Targets depth M (continuable? loops) (continuable? loops') := by
  induction h with
  | unit => exact .none
  | loop _ ht _ _ => exact .own ht
  | switch _ _ ih => exact ih
  | around =>
    cases ht : continuable? G.outer with
    | none => exact .none
    | some t =>
      obtain ⟨t', ht'⟩ := exists_continuable?_append G.opened ht
      rw [ht']
      exact .exit rfl (.continues ht ht')

end LoopsLike

end Gap

/-! ### Calls on both sides -/

/-- Whether a call is given no label. -/
def Task.isFree : Task → Bool
  | tests _ _ _ | armTests _ _ _ | armResults _ _ _ _ | condition _ _ | caseTests _ _ _
  | caseBodies _ _ _ => false
  | _ => true

/-- A call and the same one on the other side, where labels and hidden variables have other names. -/
inductive Task.Like (M : LabelPairs) : Task → Task → Prop where
  | same {t : Task} (ht : t.isFree = true) : Like M t t
  | tests {values : List Expr} {x x' : String} {l l' : Label} (hx : IsHidden x) (hx' : IsHidden x')
      (hl : (l, l') ∈ M) : Like M (.tests values x l) (.tests values x' l')
  | armTests {arms : List Arm} {x x' : String} {l l' : Label} (hx : IsHidden x) (hx' : IsHidden x')
      (hl : consecutive arms.length l l' ⊆ M) : Like M (.armTests arms x l) (.armTests arms x' l')
  | armResults {arms : List Arm} {terminal : Bool} {l l' done done' : Label}
      (hl : consecutive arms.length l l' ⊆ M) (hdone : (done, done') ∈ M) :
      Like M (.armResults arms terminal l done) (.armResults arms terminal l' done')
  | condition {e : Option Expr} {done done' : Label} (hdone : (done, done') ∈ M) :
      Like M (.condition e done) (.condition e done')
  | caseTests {cases : List Case} {x x' : String} {l l' : Label} (hx : IsHidden x) (hx' : IsHidden x')
      (hl : consecutive cases.length l l' ⊆ M) : Like M (.caseTests cases x l) (.caseTests cases x' l')
  | caseBodies {cases : List Case} {l l' done done' : Label}
      (hl : consecutive cases.length l l' ⊆ M) (hdone : (done, done') ∈ M) :
      Like M (.caseBodies cases l done) (.caseBodies cases l' done')

/-- The answer to a call that costs less than `n`. -/
noncomputable def Task.within (n : Nat) (t : Task) (s : Setting) : Draft :=
  if t.cost s < n then t.lowered s else refuse 0 .tryWithoutHandler

namespace Task

variable {n : Nat} {t : Task} {s : Setting} {p q : Stage}

theorem within_of_lt (h : t.cost s < n) : t.within n s = t.lowered s := if_pos h

theorem keeps_within : (t.within n s).Keeps := by
  unfold within
  split
  · exact keeps_lowered t s
  · exact brief_refuse.keeps

/-- Calls that cost more do not succeed. -/
theorem cost_lt_of_leads (h : (t.within n s).Leads p q) : t.cost s < n := by
  unfold within at h
  split at h
  · assumption
  · exact absurd h not_leads_final

/-- A plan whose calls are answered, since they cost less. -/
theorem draft_within (h : t.cost s < n + 1) :
    (Plan.ofTask t s).draft (Task.within n) = t.within (n + 1) s := by
  rw [Plan.draft_ofTask, within_of_lt h, ← visitBelow_lowered t s]
  exact visit_congr fun t' s' hlt => within_of_lt (Nat.lt_of_lt_of_le hlt (Nat.le_of_lt_succ h))

end Task

namespace Gap

/-- Calls that cost less than `n` give twins. -/
def CopiesBelow (G : Gap) (n : Nat) : Prop :=
  ∀ {depth : Nat} {M : LabelPairs} {t t' : Task} {s : Setting} {loops : List Loop},
    t.Like M t' → G.LoopsLike depth M s.loops loops →
      G.Twins depth M (t.within n s) (t'.within n { s with loops })

variable {G : Gap} {n depth : Nat} {M : LabelPairs} {s : Setting} {loops : List Loop}

/-! ### Drafts that name no labels -/

namespace Twins

theorem brief {d : Draft} (h : d.Brief) : G.Twins depth M d d := by
  cases h with
  | nil => exact .nil
  | step hfree hlevel => exact .same hfree hlevel
  | final => exact .of_final Draft.Still.final.keeps

theorem declareAndStore {x : String} :
    G.Twins depth M (declareAndStore x) (StackCode.declareAndStore x) :=
  .append (.same rfl rfl) (.same rfl rfl)

theorem declareAndStore_hidden {x x' : String} (hx : IsHidden x) (hx' : IsHidden x') :
    G.Twins depth M (StackCode.declareAndStore x) (StackCode.declareAndStore x') :=
  .append (.step (.declare hx hx') rfl rfl) (.step (.slot hx hx') rfl rfl)

theorem returnNil : G.Twins depth M returnNil StackCode.returnNil := .append .op .op

/-- Only drafts that succeed on both sides matter. -/
theorem of_leads {D D' : Draft} (hD : D.Keeps) (hD' : D'.Keeps)
    (h : ∀ {p p' q q' : Stage}, D.Leads p q → D'.Leads p' q' → G.Twins depth M D D') :
    G.Twins depth M D D' :=
  ⟨hD, hD', fun N p p' q q' hN hp hp' => (h hp.toLeads hp'.toLeads).run N p p' q q' hN hp hp'⟩

section Plans

variable {answer : Task → Setting → Draft} {A A' B B' : Plan}

theorem unmixed {args : List Arg} {name : String} {line : Nat}
    (h : G.Twins depth M (A.draft answer) (A'.draft answer)) :
    G.Twins depth M ((Plan.unmixed args name line A).draft answer)
      ((Plan.unmixed args name line A').draft answer) := by
  unfold Plan.unmixed
  split
  · exact .brief brief_refuse
  · exact h

theorem guarded (hA : ∀ K, M ⊆ K → G.Twins depth K (A.draft answer) (A'.draft answer))
    (hB : ∀ K, M ⊆ K → G.Twins depth K (B.draft answer) (B'.draft answer)) :
    G.Twins depth M ((Plan.guarded (some A) B).draft answer)
      ((Plan.guarded (some A') B').draft answer) := by
  refine .withLabel fun K l l' hK hl => .append (.append (.append (.jump hl) (hB K hK)) .op)
    (.withLabel fun K' done done' hK' hdone => ?_)
  exact .append (.append (.append (.append (.jump hdone) (.place (hK' hl))) (.same rfl rfl))
    (hA K' (List.Subset.trans hK hK'))) (.place hdone)

theorem cleaned (hA : ∀ K, M ⊆ K → G.Twins depth K (A.draft answer) (A'.draft answer))
    (hB : ∀ K, M ⊆ K → G.Twins depth K (B.draft answer) (B'.draft answer)) :
    G.Twins depth M ((Plan.cleaned A B).draft answer) ((Plan.cleaned A' B').draft answer) := by
  refine .withLabel fun K l l' hK hl => ?_
  exact .append (.append (.append (.append (.append (.jump hl) (hB K hK)) .op) (.place hl)) (hA K hK)) .op

end Plans

end Twins

namespace CopiesBelow

variable (h : G.CopiesBelow n) (hl : G.LoopsLike depth M s.loops loops)
include h hl

/-- The same call. -/
theorem same {t : Task} (ht : t.isFree = true := by rfl) :
    G.Twins depth M (t.within n s) (t.within n { s with loops }) :=
  h (.same ht) hl

/-- An expression on both sides. -/
theorem ofExpr (e : Expr) (terminal : Bool) :
    G.Twins depth M ((Plan.ofExpr e terminal s).draft (Task.within n))
      ((Plan.ofExpr e terminal { s with loops }).draft (Task.within n)) := by
  cases e with
  | literal v => exact .brief (brief_value v)
  | name x | this => exact .same rfl rfl
  | assign line target value =>
    cases target with
    | name x =>
      cases value <;> exact .append (.append (h.same hl) .op) (.same rfl rfl)
    | member object x => exact .append (.append (h.same hl) (h.same hl)) (.same rfl rfl)
    | index object i => exact .append (.append (.append (h.same hl) (h.same hl)) (h.same hl)) .op
    | _ => exact .brief brief_refuse
  | binary op lhs rhs => exact .append (.append (h.same hl) (h.same hl)) .op
  | logical op lhs rhs =>
    refine .withLabel fun K done done' hK hdone => ?_
    have hl := hl.mono hK
    exact .append (.append (.append (h.same hl) (.jump hdone)) (h.same hl)) (.place hdone)
  | unary op operand => exact .append (h.same hl) .op
  | call line callee args =>
    exact .append (.append (h.same hl) (.unmixed (h.same hl))) (.brief brief_callOp)
  | methodCall line object x args =>
    exact .append (.append (.append (h.same hl) (.same rfl rfl)) (.unmixed (h.same hl)))
      (.brief brief_methodOp)
  | member object x => exact .append (h.same hl) (.same rfl rfl)
  | index object i => exact .append (.append (h.same hl) (h.same hl)) .op
  | array items | map entries => exact .append (h.same hl) (.same rfl rfl)
  | function line f => exact h.same hl
  | conditional cond thenE elseE =>
    refine .withLabel fun K other other' hK hother => .withLabel fun K' done done' hK' hdone => ?_
    have hother := hK' hother
    have hl := (hl.mono hK).mono hK'
    exact .append (.append (.append (.append (.append (.append (h.same hl) (.jump hother)) (h.same hl))
      (.jump hdone)) (.place hother)) (h.same hl)) (.place hdone)
  | case subject arms default =>
    refine .block (.append (h.same hl) (.withHidden fun x x' hx hx' =>
      .append (.declareAndStore_hidden hx hx') (.withLabel fun K done done' hK hdone =>
        .withLabels fun K' first first' hK' hfirst => ?_)))
    have hdone := hK' hdone
    have hl := (hl.mono hK).mono hK'
    exact .append (.append (.append (.append (h (.armTests hx hx' hfirst) hl) (h.same hl))
      (.jump hdone)) (h (.armResults hfirst hdone) hl)) (.place hdone)
  | yield line value =>
    simp only [Plan.ofExpr]
    split
    · exact .append (h.same hl) .op
    · exact .brief brief_refuse

/-- An exit on both sides. -/
theorem exit {t t' : Option (Label × Nat)} (ht : G.Targets depth M t t') (line : Nat)
    (cause : Misuse) :
    G.Twins depth M
      (t.elim (refuse line cause) fun t =>
        (Task.unwind (s.regions.length - t.2)).within n s ++ jump .jump t.1)
      (t'.elim (refuse line cause) fun t =>
        (Task.unwind (s.regions.length - t.2)).within n { s with loops } ++ jump .jump t.1) := by
  have hkeeps : ∀ k s l, ((Task.unwind k).within n s ++ jump .jump l).Keeps :=
    fun k s l => .append Task.keeps_within keeps_jump
  cases ht with
  | none =>
    refine .of_final ?_
    cases t' with
    | none => exact brief_refuse.keeps
    | some t' => exact hkeeps _ _ _
  | own hm => exact .append (h.same hl) (.jump hm)
  | @exit t t' hd hexit =>
    obtain ⟨l, k⟩ := t
    obtain ⟨l', k'⟩ := t'
    by_cases hk : k = k'
    · subst hk
      exact .append (h.same hl) (.step (.exit hd hexit) rfl rfl)
    · subst hd
      refine .of_leads (hkeeps _ _ _) (hkeeps _ _ _) fun hp hp' => ?_
      obtain ⟨q, hq, -⟩ := leads_append.mp hp
      obtain ⟨q', hq', -⟩ := leads_append.mp hp'
      simp only [Option.elim_some, Task.within_of_lt (Task.cost_lt_of_leads hq),
        Task.within_of_lt (Task.cost_lt_of_leads hq')]
      exact .stray hexit hk

/-- A statement on both sides. -/
theorem ofForm (form : StmtForm) (line : Nat) :
    G.Twins depth M ((Plan.ofForm form line s).draft (Task.within n))
      ((Plan.ofForm form line { s with loops }).draft (Task.within n)) := by
  cases form with
  | expr e => exact .append (h.same hl) (.same rfl rfl)
  | var x init =>
    cases init with
    | none => exact .append .op .declareAndStore
    | some e =>
      cases e with
      | function line f => exact .append (.append (.same rfl rfl) (h.same hl)) (.same rfl rfl)
      | _ => exact .append (h.same hl) .declareAndStore
  | block body => exact .block (h.same hl)
  | ifElse cond thenS elseS =>
    cases elseS with
    | none =>
      refine .withLabel fun K other other' hK hother => ?_
      have hl := hl.mono hK
      exact .append (.append (.append (h.same hl) (.jump hother)) (.block (h.same hl))) (.place hother)
    | some elseS =>
      refine .withLabel fun K other other' hK hother => ?_
      have hl := hl.mono hK
      refine .append (.append (.append (h.same hl) (.jump hother)) (.block (h.same hl)))
        (.withLabel fun K' done done' hK' hdone => ?_)
      have hl := hl.mono hK'
      exact .append (.append (.append (.jump hdone) (.place (hK' hother))) (.block (h.same hl)))
        (.place hdone)
  | whileDo cond body =>
    refine .withLabel fun K top top' hK htop => .withLabel fun K' done done' hK' hdone => ?_
    have htop := hK' htop
    have hl := (hl.mono hK).mono hK'
    exact .append (.append (.append (.append (.append (.place htop) (h.same hl)) (.jump hdone))
      (.block (h.same (hl.loop hdone htop)))) (.jump htop)) (.place hdone)
  | forLoop init cond afterwards body =>
    refine .block (.append (h.same hl) (.withLabel fun K top top' hK htop =>
      .withLabel fun K' next next' hK' hnext => .withLabel fun K'' done done' hK'' hdone => ?_))
    have htop := hK'' (hK' htop)
    have hnext := hK'' hnext
    have hl := ((hl.mono hK).mono hK').mono hK''
    exact .append (.append (.append (.append (.append (.append (.place htop) (h (.condition hdone) hl))
      (.block (h.same (hl.loop hdone hnext)))) (.place hnext)) (h.same hl)) (.jump htop)) (.place hdone)
  | forIn x iterable body =>
    refine .block (.append (.append (h.same hl) .op) (.withHidden fun it it' hit hit' =>
      .append (.declareAndStore_hidden hit hit') (.withLabel fun K next next' hK hnext =>
        .withLabel fun K' done done' hK' hdone => ?_)))
    have hnext := hK' hnext
    have hl := (hl.mono hK).mono hK'
    exact .append (.append (.append (.append (.append (.append (.place hnext)
      (.step (.slot hit hit') rfl rfl)) (.jump hdone)) .declareAndStore)
      (.block (h.same (hl.loop hdone hnext)))) (.jump hnext)) (.place hdone)
  | breakLoop =>
    have hexit := h.exit hl hl.breaks line (.outsideLoop "break")
    simp only [Plan.ofForm]
    cases hk : s.loops.head? <;> cases hk' : loops.head? <;>
    · rw [hk, hk'] at hexit
      exact hexit
  | continueLoop =>
    have hexit := h.exit hl hl.continues line (.outsideLoop "continue")
    simp only [Plan.ofForm]
    cases hk : continuable? s.loops <;> cases hk' : continuable? loops <;>
    · rw [hk, hk'] at hexit
      exact hexit
  | ret value =>
    cases value with
    | none =>
      simp only [Plan.ofForm]
      split
      · exact .append .op (.append (h.same hl) .op)
      · exact .brief brief_refuse
    | some e =>
      simp only [Plan.ofForm]
      split
      · refine .append (h.same hl) ?_
        show G.Twins depth M (Plan.draft _ (if s.bare.isTail s.regions.isEmpty e then _ else _))
          (Plan.draft _ (if s.bare.isTail s.regions.isEmpty e then _ else _))
        split
        · exact .nil
        · exact .append (h.same hl) .op
      · exact .brief brief_refuse
  | throw e => exact .append (h.same hl) .op
  | tryCatch body handler cleanup =>
    have hbody : ∀ K, M ⊆ K → ∀ caught cleanup, G.Twins depth K
        ((Plan.block (.call (.stmts body) (s.inRegion caught cleanup))).draft (Task.within n))
        ((Plan.block (.call (.stmts body) ({ s with loops }.inRegion caught cleanup))).draft
          (Task.within n)) :=
      fun K hK caught cleanup => .block (h.same (s := s.inRegion caught cleanup) (hl.mono hK))
    have hclause : ∀ K, M ⊆ K → ∀ x clause cleanup, G.Twins depth K
        ((Plan.block (.own (StackCode.declareAndStore x)
          ++ .call (.stmts clause) (s.inRegion false cleanup))).draft (Task.within n))
        ((Plan.block (.own (StackCode.declareAndStore x)
          ++ .call (.stmts clause) ({ s with loops }.inRegion false cleanup))).draft (Task.within n)) :=
      fun K hK x clause cleanup =>
        .block (.append .declareAndStore (h.same (s := s.inRegion false cleanup) (hl.mono hK)))
    obtain _ | ⟨x, clause⟩ := handler
    · cases cleanup with
      | none => exact .brief brief_refuse
      | some cleanup =>
        exact .append (.same rfl rfl) (.cleaned (fun K hK => .block (h.same (hl.mono hK)))
          fun K hK => hbody K hK false _)
    · cases cleanup with
      | none =>
        exact .append (.same rfl rfl) (.guarded (fun K hK => hclause K hK x clause none)
          fun K hK => hbody K hK true none)
      | some cleanup =>
        exact .append (.same rfl rfl) (.cleaned (fun K hK => .block (h.same (hl.mono hK)))
          fun K hK => .guarded (fun K' hK' => hclause K' (List.Subset.trans hK hK') x clause _)
            fun K' hK' => hbody K' (List.Subset.trans hK hK') true _)
  | switch subject cases default =>
    refine .block (.append (h.same hl) (.withHidden fun x x' hx hx' =>
      .append (.declareAndStore_hidden hx hx') (.withLabel fun K done done' hK hdone =>
        .withLabels fun K' first first' hK' hfirst => ?_)))
    have hl := (hl.mono hK).mono hK'
    refine .append (h (.caseTests hx hx' hfirst) hl)
      (.withLabel fun K'' fallback fallback' hK'' hfallback => ?_)
    have hdone := hK'' (hK' hdone)
    have hl := (hl.mono hK'').switch (n := s.regions.length) hdone
    exact .append (.append (.append (.append (.jump hfallback)
      (h (.caseBodies (List.Subset.trans hfirst hK'') hdone) hl)) (.place hfallback)) (h.same hl))
      (.place hdone)
  | function x f =>
    exact .append (.append (.brief brief_predeclare) (h.same hl)) (.brief brief_bindDeclared)
  | classDef x parent body =>
    exact .append (.append (.append (.brief brief_predeclare) (h.same hl))
      (.unit (.append (h.same .unit) .returnNil))) (.brief brief_bindDeclared)
  | namespaceDef x body =>
    exact .append (.append (.brief brief_predeclare)
      (.unit (.append (h.same .unit) .returnNil))) (.brief brief_bindDeclared)

omit hl in
/-- A call on both sides. -/
theorem ofTask {t t' : Task} (ht : t.Like M t') (hl : G.LoopsLike depth M s.loops loops) :
    G.Twins depth M ((Plan.ofTask t s).draft (Task.within n))
      ((Plan.ofTask t' { s with loops }).draft (Task.within n)) := by
  cases ht with
  | @tests values x x' l l' hx hx' hmem =>
    cases values with
    | nil => exact .nil
    | cons e rest =>
      exact .append (.append (.append (.append (.step (.slot hx hx') rfl rfl) (h.same hl)) .op)
        (.jump hmem)) (h (.tests hx hx' hmem) hl)
  | @armTests arms x x' l l' hx hx' hpairs =>
    cases arms with
    | nil => exact .nil
    | cons arm rest =>
      obtain ⟨values, result⟩ := arm
      obtain ⟨hmem, hpairs⟩ := List.cons_subset.mp hpairs
      exact .append (h (.tests hx hx' hmem) hl) (h (.armTests hx hx' hpairs) hl)
  | @armResults arms terminal l l' done done' hpairs hdone =>
    cases arms with
    | nil => exact .nil
    | cons arm rest =>
      obtain ⟨values, result⟩ := arm
      obtain ⟨hmem, hpairs⟩ := List.cons_subset.mp hpairs
      exact .append (.append (.append (.place hmem) (h.same hl)) (.jump hdone))
        (h (.armResults hpairs hdone) hl)
  | @condition e done done' hdone =>
    cases e with
    | none => exact .nil
    | some e => exact .append (h.same hl) (.jump hdone)
  | @caseTests cases x x' l l' hx hx' hpairs =>
    cases cases with
    | nil => exact .nil
    | cons case rest =>
      obtain ⟨values, body⟩ := case
      obtain ⟨hmem, hpairs⟩ := List.cons_subset.mp hpairs
      exact .append (h (.tests hx hx' hmem) hl) (h (.caseTests hx hx' hpairs) hl)
  | @caseBodies cases l l' done done' hpairs hdone =>
    cases cases with
    | nil => exact .nil
    | cons case rest =>
      obtain ⟨values, body⟩ := case
      obtain ⟨hmem, hpairs⟩ := List.cons_subset.mp hpairs
      exact .append (.append (.append (.place hmem) (.block (h.same hl))) (.jump hdone))
        (h (.caseBodies hpairs hdone) hl)
  | same ht =>
    cases t with
    | tests _ _ _ | armTests _ _ _ | armResults _ _ _ _ | condition _ _ | caseTests _ _ _
    | caseBodies _ _ _ => cases ht
    | expr e terminal => exact h.ofExpr hl e terminal
    | form form line => exact h.ofForm hl form line
    | exprOr e terminal =>
      cases e with
      | none => exact .op
      | some e => exact h.same hl
    | exprs items =>
      cases items with
      | nil => exact .nil
      | cons e rest => exact .append (h.same hl) (h.same hl)
    | args items call line names =>
      cases items with
      | nil => exact .nil
      | cons a rest =>
        cases a with
        | positional e =>
          simp only [Plan.ofTask]
          split
          · exact .append (h.same hl) (h.same hl)
          · exact .brief brief_refuse
        | spread e =>
          simp only [Plan.ofTask]
          split
          · exact .append (.append (h.same hl) .op) (h.same hl)
          · exact .brief brief_refuse
        | named x e =>
          simp only [Plan.ofTask]
          split
          · exact .brief brief_refuse
          · exact .append (.append (.same rfl rfl) (h.same hl)) (h.same hl)
    | entries items =>
      cases items with
      | nil => exact .nil
      | cons entry rest =>
        cases entry with
        | named x v => exact .append (.append (.same rfl rfl) (h.same hl)) (h.same hl)
        | computed k v => exact .append (.append (h.same hl) (h.same hl)) (h.same hl)
    | function f binding line =>
      obtain ⟨params, variadic, generator, body⟩ := f
      simp only [Plan.ofTask]
      cases firstRepeated? [] (params.map Param.name) with
      | none => exact .unit (.append (h.same .unit) (h.same .unit))
      | some x => exact .brief brief_refuse
    | params items i =>
      cases items with
      | nil => exact .nil
      | cons param rest =>
        obtain ⟨x, default⟩ := param
        cases default with
        | none => exact h.same hl
        | some e =>
          refine .append (.withLabel fun K skip skip' hK hskip => ?_) (h.same hl)
          exact .append (.append (.append (.append (.append (.same rfl rfl) (.jump hskip))
            (h.same (hl.mono hK))) (.same rfl rfl)) (.place hskip)) (.same rfl rfl)
    | body items =>
      cases items with
      | nil => exact .returnNil
      | cons stmt rest =>
        obtain ⟨line, form⟩ := stmt
        cases rest with
        | cons next rest => cases form <;> exact .append (h.same hl) (h.same hl)
        | nil =>
          cases form with
          | expr e =>
            refine .append (.append (.brief brief_markLine) (h.same hl)) (.brief ?_)
            split
            · exact .nil
            · exact brief_op
          | ret value => exact .append (.brief brief_markLine) (h.same hl)
          | _ => exact .append (.append (.brief brief_markLine) (h.same hl)) .returnNil
    | stmt item =>
      obtain ⟨line, form⟩ := item
      exact .append (.brief brief_markLine) (h.same hl)
    | stmts items =>
      cases items with
      | nil => exact .nil
      | cons stmt rest => exact .append (h.same hl) (h.same hl)
    | optional item =>
      cases item with
      | none => exact .nil
      | some stmt => exact h.same hl
    | fallback items =>
      cases items with
      | none => exact .nil
      | some body => exact .block (h.same hl)
    | effect e =>
      cases e with
      | none => exact .nil
      | some e => exact .append (h.same hl) (.same rfl rfl)
    | unwind k =>
      obtain ⟨config, kind, generator, self, regions, around⟩ := s
      cases k with
      | zero => exact .nil
      | succ k =>
        cases regions with
        | nil => exact .nil
        | cons r rest =>
          obtain ⟨caught, cleanup⟩ := r
          have hcaught : (if caught then plain .endTry else Draft.nil).Brief := by
            split
            · exact brief_op
            · exact .nil
          have hrest {t : Task} (ht : t.isFree = true) := h (s := ⟨config, kind, generator, self, rest, around⟩)
            (.same ht) hl
          refine .append ?_ (hrest rfl)
          cases cleanup with
          | none => exact .append (.brief hcaught) .nil
          | some clause => exact .append (.brief hcaught) (.append .op (.block (hrest rfl)))

end CopiesBelow

theorem copiesBelow (n : Nat) : G.CopiesBelow n := by
  -- the calls that a call makes cost less than the call itself, also where regions are left
  induction n with
  | zero =>
    intro depth M t t' s loops _ _
    exact .of_leads Task.keeps_within Task.keeps_within fun hp _ =>
      absurd (Task.cost_lt_of_leads hp) (Nat.not_lt_zero _)
  | succ n ih =>
    intro depth M t t' s loops ht hl
    refine .of_leads Task.keeps_within Task.keeps_within fun hp hp' => ?_
    rw [← Task.draft_within (Task.cost_lt_of_leads hp), ← Task.draft_within (Task.cost_lt_of_leads hp')]
    exact ih.ofTask ht hl

/-- A call on both sides, and all calls that it makes. -/
theorem twins_lowered {t t' : Task} (ht : t.Like M t') (hl : G.LoopsLike depth M s.loops loops) :
    G.Twins depth M (t.lowered s) (t'.lowered { s with loops }) := by
  have h := copiesBelow (G := G) (t.cost s + t'.cost { s with loops } + 1) ht hl
  rw [Task.within_of_lt (by omega), Task.within_of_lt (by omega)] at h
  exact h

end Gap

end StackCode
