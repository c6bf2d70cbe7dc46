import StackCode.Proofs.Stages
import StackCode.Proofs.TreeWalk

/-!
# Plans of the walk

What a call of the walk over the tree does is known before its own calls are answered: what it writes
itself, which calls it makes, and in which order. Here this is written down as data, so that one can say
where a call is made, and with which labels and in which state.

* `Plan`, `Plan.draft`: one call as data, and the draft that it stands for;
* `Plan.ofTask`, `Plan.draft_ofTask`: the plan of each call;
* `Plan.Makes`, `Task.Reaches`: carrying out a plan comes to a call, and so does the whole walk;
* `Plan.Makes.leadsNarrow`, `Task.Reaches.leadsNarrow`: the calls of a compilation that succeeds succeed;
* `Plan.Some`, `Task.exists_makes`: a call that succeeds comes to its calls;
* `Plan.All`, `Setting.Near`, `Plan.steady_ofTask`: what plans consist of;
* `Task.keeps_lowered`, `Plan.Makes.grows`: what every call leaves as it is.
-/

namespace StackCode

open Draft

/-! ### Plans -/

/-- What one call does. -/
inductive Plan where
  /-- What the call writes itself. -/
  | own (d : Draft)
  | call (t : Task) (s : Setting)
  | seq (p q : Plan)
  | withLabel (f : Label → Plan)
  | withLabels (n : Nat) (f : Label → Plan)
  | withHidden (what : String) (f : String → Plan)
  | block (p : Plan)
  | unit (op : Opcode) (kind : ScopeKind) (signature : Signature) (p : Plan)

namespace Plan

instance : Append Plan := ⟨seq⟩

/-- The draft of a plan, given the answers to its calls. -/
def draft (answer : Task → Setting → Draft) : Plan → Draft
  | own d => d
  | call t s => answer t s
  | seq p q => p.draft answer ++ q.draft answer
  | withLabel f => .withLabel fun l => (f l).draft answer
  | withLabels n f => .withLabels n fun l => (f l).draft answer
  | withHidden what f => .withHidden what fun x => (f x).draft answer
  | block p => .block (p.draft answer)
  | unit op kind signature p => .unit op kind signature (p.draft answer)

/-- The draft of a plan whose calls are lowered. -/
abbrev lowered (p : Plan) : Draft := p.draft Task.lowered

/-- A body under the handler of a catch clause, if there is one. -/
def guarded (handler : Option Plan) (body : Plan) : Plan :=
  match handler with
  | none => body
  | some clause =>
    withLabel fun h =>
      own (jump .tryCatch h) ++ body ++ own (plain .endTry)
        ++ withLabel fun done =>
          own (jump .jump done) ++ own (place h) ++ own (step .receive) ++ clause ++ own (place done)

/-- A body and then a cleanup. -/
def cleaned (clause body : Plan) : Plan :=
  withLabel fun l =>
    own (jump .tryFinally l) ++ body ++ own (plain .endTry) ++ own (place l) ++ clause
      ++ own (plain .endFinally)

/-- An argument list, unless it mixes spread and named arguments. -/
def unmixed (args : List Arg) (call : String) (line : Nat) (body : Plan) : Plan :=
  if args.any Arg.isSpread && args.any Arg.isNamed then own (refuse line (.spreadWithNamed call))
  else body

/-- The plan of a call for an expression. -/
def ofExpr : Expr → Bool → Setting → Plan
  | .literal v, _, _ => own v.lower
  | .name x, _, _ => own (step (.loadName x))
  | .this, _, _ => own (plain .pushThis)
  | .assign _ (.name x) (.function line f), _, s =>
    call (.function f (some x) line) s ++ own (plain .dup) ++ own (step (.storeName x))
  | .assign _ (.name x) value, _, s =>
    call (.expr value false) s ++ own (plain .dup) ++ own (step (.storeName x))
  | .assign _ (.member object x) value, _, s =>
    call (.expr object false) s ++ call (.expr value false) s ++ own (step (.named .setMember x))
  | .assign _ (.index object index) value, _, s =>
    call (.expr object false) s ++ call (.expr index false) s ++ call (.expr value false) s
      ++ own (plain .setIndex)
  | .assign line target _, _, _ => own (refuse line (.assignmentTarget target.construct))
  | .binary op lhs rhs, _, s =>
    call (.expr lhs false) s ++ call (.expr rhs false) s ++ own (plain op.opcode)
  | .logical op lhs rhs, _, s =>
    withLabel fun done =>
      call (.expr lhs false) s ++ own (jump op.opcode done) ++ call (.expr rhs false) s
        ++ own (place done)
  | .unary op operand, _, s => call (.expr operand false) s ++ own (plain op.opcode)
  | .call line callee args, terminal, s =>
    call (.expr callee false) s ++ unmixed args "call" line (call (.args args "call" line []) s)
      ++ own (callOp args (s.bare.isTail terminal (.call line callee args)))
  | .methodCall line object x args, _, s =>
    call (.expr object false) s ++ own (step (.named .getMethod x))
      ++ unmixed args "method call" line (call (.args args "method call" line []) s)
      ++ own (methodOp args line)
  | .member object x, _, s => call (.expr object false) s ++ own (step (.named .getMember x))
  | .index object index, _, s =>
    call (.expr object false) s ++ call (.expr index false) s ++ own (plain .getIndex)
  | .array items, _, s => call (.exprs items) s ++ own (step (.count .newArray items.length))
  | .map entries, _, s => call (.entries entries) s ++ own (step (.count .newMap entries.length))
  | .function line f, _, s => call (.function f none line) s
  | .conditional cond thenE elseE, terminal, s =>
    withLabel fun other => withLabel fun done =>
      call (.expr cond false) s ++ own (jump .jumpFalse other)
        ++ call (.expr thenE terminal) s ++ own (jump .jump done)
        ++ own (place other) ++ call (.expr elseE terminal) s ++ own (place done)
  | .case subject arms default, terminal, s =>
    block (call (.expr subject false) s ++ withHidden "case" fun x =>
      own (declareAndStore x) ++ withLabel fun done => withLabels arms.length fun first =>
        call (.armTests arms x first) s
          ++ call (.exprOr default terminal) s ++ own (jump .jump done)
          ++ call (.armResults arms terminal first done) s ++ own (place done))
  | .yield line value, _, s =>
    if s.generator then call (.exprOr value false) s ++ own (plain .yield)
    else own (refuse line .yieldOutsideGenerator)

/-- The plan of a call for a statement. -/
def ofForm : StmtForm → Nat → Setting → Plan
  | .expr e, _, s => call (.expr e false) s ++ own (step .discard)
  | .var x none, _, _ => own (plain .pushNil) ++ own (declareAndStore x)
  | .var x (some (.function line f)), _, s =>
    own (step (.declare x)) ++ call (.function f (some x) line) s ++ own (step (.slot .storeLocal x))
  | .var x (some e), _, s => call (.expr e false) s ++ own (declareAndStore x)
  | .block body, _, s => block (call (.stmts body) s)
  | .ifElse cond thenS none, _, s =>
    withLabel fun other =>
      call (.expr cond false) s ++ own (jump .jumpFalse other) ++ block (call (.stmt thenS) s)
        ++ own (place other)
  | .ifElse cond thenS (some elseS), _, s =>
    withLabel fun other =>
      call (.expr cond false) s ++ own (jump .jumpFalse other) ++ block (call (.stmt thenS) s)
        ++ withLabel fun done =>
          own (jump .jump done) ++ own (place other) ++ block (call (.stmt elseS) s)
            ++ own (place done)
  | .whileDo cond body, _, s =>
    withLabel fun top => withLabel fun done =>
      own (place top) ++ call (.expr cond false) s ++ own (jump .jumpFalse done)
        ++ block (call (.stmt body) (s.inLoop done (some top)))
        ++ own (jump .jump top) ++ own (place done)
  | .forLoop init cond afterwards body, _, s =>
    block (call (.optional init) s
      ++ withLabel fun top => withLabel fun next => withLabel fun done =>
        own (place top) ++ call (.condition cond done) s
          ++ block (call (.stmt body) (s.inLoop done (some next)))
          ++ own (place next) ++ call (.effect afterwards) s
          ++ own (jump .jump top) ++ own (place done))
  | .forIn x iterable body, _, s =>
    block (call (.expr iterable false) s ++ own (plain .iter) ++ withHidden "iter" fun it =>
      own (declareAndStore it) ++ withLabel fun next => withLabel fun done =>
        own (place next) ++ own (step (.slot .loadLocal it)) ++ own (jump .forIter done)
          ++ own (declareAndStore x)
          ++ block (call (.stmt body) (s.inLoop done (some next)))
          ++ own (jump .jump next) ++ own (place done))
  | .breakLoop, line, s =>
    s.loops.head?.elim (own (refuse line (.outsideLoop "break"))) fun l =>
      call (.unwind (s.regions.length - l.depth)) s ++ own (jump .jump l.breakTo)
  | .continueLoop, line, s =>
    (continuable? s.loops).elim (own (refuse line (.outsideLoop "continue"))) fun target =>
      call (.unwind (s.regions.length - target.2)) s ++ own (jump .jump target.1)
  | .ret none, line, s =>
    if s.kind = .function then
      own (plain .pushNil) ++ (call (.unwind s.regions.length) s ++ own (plain .ret))
    else own (refuse line .returnOutsideFunction)
  | .ret (some e), line, s =>
    if s.kind = .function then
      call (.expr e s.regions.isEmpty) s
        ++ (if s.bare.isTail s.regions.isEmpty e then own nil
          else call (.unwind s.regions.length) s ++ own (plain .ret))
    else own (refuse line .returnOutsideFunction)
  | .throw e, _, s => call (.expr e false) s ++ own (plain .throw)
  | .tryCatch _ none none, line, _ => own (refuse line .tryWithoutHandler)
  | .tryCatch body (some (.mk x clause)) none, _, s =>
    own (step .protect)
      ++ guarded
          (some (block (own (declareAndStore x) ++ call (.stmts clause) (s.inRegion false none))))
          (block (call (.stmts body) (s.inRegion true none)))
  | .tryCatch body none (some cleanup), _, s =>
    own (step .protect)
      ++ cleaned (block (call (.stmts cleanup) s))
          (block (call (.stmts body) (s.inRegion false (some cleanup))))
  | .tryCatch body (some (.mk x clause)) (some cleanup), _, s =>
    own (step .protect)
      ++ cleaned (block (call (.stmts cleanup) s))
          (guarded
            (some (block (own (declareAndStore x)
              ++ call (.stmts clause) (s.inRegion false (some cleanup)))))
            (block (call (.stmts body) (s.inRegion true (some cleanup)))))
  | .switch subject cases default, _, s =>
    block (call (.expr subject false) s ++ withHidden "switch" fun x =>
      own (declareAndStore x) ++ withLabel fun done => withLabels cases.length fun first =>
        call (.caseTests cases x first) s
          ++ withLabel fun fallback =>
            own (jump .jump fallback) ++ call (.caseBodies cases first done) (s.inLoop done none)
              ++ own (place fallback)
              ++ call (.fallback default) (s.inLoop done none)
              ++ own (place done))
  | .function x f, line, s =>
    own (predeclare s.bare x)
      ++ call (.function f (if s.kind = .object then none else some x) line) s
      ++ own (bindDeclared s.bare x)
  | .classDef x parent body, _, s =>
    own (predeclare s.bare x) ++ call (.exprOr parent false) s
      ++ unit .makeClass .object {} (call (.stmts body) s.inObject ++ own returnNil)
      ++ own (bindDeclared s.bare x)
  | .namespaceDef x body, _, s =>
    own (predeclare s.bare x)
      ++ unit .makeNamespace .object {} (call (.stmts body) s.inObject ++ own returnNil)
      ++ own (bindDeclared s.bare x)

/-- The plan to leave a region: its handlers are taken down and its cleanup runs, where only the regions
around it are open. -/
def ofRegion (r : Protection) (around : Setting) : Plan :=
  own (if r.catchInstalled then plain .endTry else nil)
    ++ match r.cleanup with
      | some clause => own (plain .endTry) ++ block (call (.stmts clause) around)
      | none => own nil

/-- The plan of a call. -/
def ofTask : Task → Setting → Plan
  | .expr e terminal, s => ofExpr e terminal s
  | .exprOr none _, _ => own (plain .pushNil)
  | .exprOr (some e) terminal, s => call (.expr e terminal) s
  | .exprs [], _ => own nil
  | .exprs (e :: rest), s => call (.expr e false) s ++ call (.exprs rest) s
  | .tests [] _ _, _ => own nil
  | .tests (e :: rest) x l, s =>
    own (step (.slot .loadLocal x)) ++ call (.expr e false) s ++ own (plain .eq)
      ++ own (jump .jumpTrue l) ++ call (.tests rest x l) s
  | .args [] _ _ _, _ => own nil
  | .args (.positional e :: rest) name line names, s =>
    if names.isEmpty then call (.expr e false) s ++ call (.args rest name line names) s
    else own (refuse line (.positionalAfterNamed name))
  | .args (.spread e :: rest) name line names, s =>
    if names.isEmpty then
      call (.expr e false) s ++ own (plain .spread) ++ call (.args rest name line names) s
    else own (refuse line (.positionalAfterNamed name))
  | .args (.named x e :: rest) name line names, s =>
    if names.contains x then own (refuse line (.duplicateArgument name x))
    else
      own (step (.loadConst (.string x))) ++ call (.expr e false) s
        ++ call (.args rest name line (x :: names)) s
  | .entries [], _ => own nil
  | .entries (.named x v :: rest), s =>
    own (step (.loadConst (.string x))) ++ call (.expr v false) s ++ call (.entries rest) s
  | .entries (.computed k v :: rest), s =>
    call (.expr k false) s ++ call (.expr v false) s ++ call (.entries rest) s
  | .armTests [] _ _, _ => own nil
  | .armTests (.mk values _ :: rest) x l, s =>
    call (.tests values x l) s ++ call (.armTests rest x (l + 1)) s
  | .armResults [] _ _ _, _ => own nil
  | .armResults (.mk _ result :: rest) terminal l done, s =>
    own (place l) ++ call (.expr result terminal) s ++ own (jump .jump done)
      ++ call (.armResults rest terminal (l + 1) done) s
  | .function (.mk params variadic generator body) binding line, s =>
    let f := Function.mk params variadic generator body
    (firstRepeated? [] (params.map Param.name)).elim
      (unit .makeClosure .function f.signature
        (call (.params params 0) (s.inFunction binding f) ++ call (.body body) (s.inFunction binding f)))
      fun x => own (refuse line (.duplicateParameter x))
  | .params [] _, _ => own nil
  | .params (.mk _ none :: rest) i, s => call (.params rest (i + 1)) s
  | .params (.mk x (some e) :: rest) i, s =>
    (withLabel fun skip =>
      own (step (.count .hasArg i)) ++ own (jump .jumpTrue skip) ++ call (.expr e false) s
        ++ own (step (.slot .storeLocal x)) ++ own (place skip) ++ own (step (.count .paramEnd i)))
      ++ call (.params rest (i + 1)) s
  | .body [], _ => own returnNil
  | .body [.mk line (.expr e)], s =>
    own (markLine s.bare line) ++ call (.expr e true) s
      ++ own (if s.bare.isTail true e then nil else plain .ret)
  | .body [.mk line (.ret value)], s => own (markLine s.bare line) ++ call (.form (.ret value) line) s
  | .body [.mk line form], s => own (markLine s.bare line) ++ call (.form form line) s ++ own returnNil
  | .body (stmt :: rest), s => call (.stmt stmt) s ++ call (.body rest) s
  | .stmt (.mk line form), s => own (markLine s.bare line) ++ call (.form form line) s
  | .stmts [], _ => own nil
  | .stmts (stmt :: rest), s => call (.stmt stmt) s ++ call (.stmts rest) s
  | .optional none, _ => own nil
  | .optional (some stmt), s => call (.stmt stmt) s
  | .fallback none, _ => own nil
  | .fallback (some body), s => block (call (.stmts body) s)
  | .form form line, s => ofForm form line s
  | .condition none _, _ => own nil
  | .condition (some e) done, s => call (.expr e false) s ++ own (jump .jumpFalse done)
  | .effect none, _ => own nil
  | .effect (some e), s => call (.expr e false) s ++ own (step .discard)
  | .caseTests [] _ _, _ => own nil
  | .caseTests (.mk values _ :: rest) x l, s =>
    call (.tests values x l) s ++ call (.caseTests rest x (l + 1)) s
  | .caseBodies [] _ _, _ => own nil
  | .caseBodies (.mk _ body :: rest) l done, s =>
    own (place l) ++ block (call (.stmts body) s) ++ own (jump .jump done)
      ++ call (.caseBodies rest (l + 1) done) s
  | .unwind 0, _ => own nil
  | .unwind (n + 1), s =>
    match s.regions with
    | [] => own nil
    | r :: rest =>
      ofRegion r { s with regions := rest } ++ call (.unwind n) { s with regions := rest }

/-! ### Plans stand for the walk -/

section Answers

variable (answer : Task → Setting → Draft)

theorem draft_append (p q : Plan) : (p ++ q).draft answer = p.draft answer ++ q.draft answer := rfl

theorem draft_unmixed (args : List Arg) (call : String) (line : Nat) (body : Plan) :
    (unmixed args call line body).draft answer
      = StackCode.unmixed args call line (body.draft answer) := by
  unfold unmixed StackCode.unmixed
  split <;> rfl

theorem draft_ofExpr (e : Expr) (terminal : Bool) (s : Setting) :
    (ofExpr e terminal s).draft answer = visitExpr e terminal s fun t s _ => answer t s := by
  cases e with
  | assign line target value =>
    cases target with
    | name x => cases value <;> rfl
    | _ => rfl
  | call line callee args =>
    simp only [ofExpr, draft_append, draft_unmixed]
    rfl
  | methodCall line object x args =>
    simp only [ofExpr, draft_append, draft_unmixed]
    rfl
  | yield line value =>
    simp only [ofExpr, visitExpr]
    split <;> rfl
  | _ => rfl

theorem draft_ofForm (form : StmtForm) (line : Nat) (s : Setting) :
    (ofForm form line s).draft answer = visitForm form line s fun t s _ => answer t s := by
  cases form with
  | var x init =>
    cases init with
    | none => rfl
    | some e => cases e <;> rfl
  | ifElse cond thenS elseS => cases elseS <;> rfl
  | breakLoop =>
    simp only [ofForm, visitForm]
    cases s.loops.head? <;> rfl
  | continueLoop =>
    simp only [ofForm, visitForm]
    cases continuable? s.loops <;> rfl
  | ret value =>
    cases value with
    | none =>
      simp only [ofForm, visitForm]
      split <;> rfl
    | some e =>
      simp only [ofForm, visitForm]
      split
      · split <;> rfl
      · rfl
  | tryCatch body handler cleanup =>
    obtain _ | ⟨x, clause⟩ := handler <;> cases cleanup <;> rfl
  | _ => rfl

/-- The plan of a call stands for what the walk does. -/
theorem draft_ofTask (t : Task) (s : Setting) : (ofTask t s).draft answer = visit answer t s := by
  cases t with
  | expr e terminal => exact draft_ofExpr answer e terminal s
  | form form line => exact draft_ofForm answer form line s
  | exprOr e terminal => cases e <;> rfl
  | exprs items => cases items <;> rfl
  | tests values x l => cases values <;> rfl
  | args items call line names =>
    cases items with
    | nil => rfl
    | cons a rest =>
      cases a <;>
      · simp only [ofTask, visit, visitBelow]
        split <;> rfl
  | entries items =>
    cases items with
    | nil => rfl
    | cons entry rest => cases entry <;> rfl
  | armTests arms x first =>
    cases arms with
    | nil => rfl
    | cons arm rest => cases arm; rfl
  | armResults arms terminal first done =>
    cases arms with
    | nil => rfl
    | cons arm rest => cases arm; rfl
  | function f binding line =>
    obtain ⟨params, variadic, generator, body⟩ := f
    simp only [ofTask, visit, visitBelow]
    cases firstRepeated? [] (params.map Param.name) <;> rfl
  | params items i =>
    cases items with
    | nil => rfl
    | cons param rest =>
      obtain ⟨x, default⟩ := param
      cases default <;> rfl
  | body items =>
    cases items with
    | nil => rfl
    | cons stmt rest =>
      obtain ⟨line, form⟩ := stmt
      cases rest with
      | nil => cases form <;> rfl
      | cons next rest => cases form <;> rfl
  | stmt item => cases item; rfl
  | stmts items => cases items <;> rfl
  | optional item => cases item <;> rfl
  | fallback items => cases items <;> rfl
  | condition e done => cases e <;> rfl
  | effect e => cases e <;> rfl
  | caseTests items x first =>
    cases items with
    | nil => rfl
    | cons case rest => cases case; rfl
  | caseBodies items first done =>
    cases items with
    | nil => rfl
    | cons case rest => cases case; rfl
  | unwind n =>
    obtain ⟨config, kind, generator, self, regions, loops⟩ := s
    cases n with
    | zero => rfl
    | succ n =>
      cases regions with
      | nil => rfl
      | cons r rest =>
        obtain ⟨caught, cleanup⟩ := r
        cases cleanup <;> rfl

end Answers

/-- The plan of a call stands for the lowering of its task. -/
theorem lowered_ofTask (t : Task) (s : Setting) : (ofTask t s).lowered = t.lowered s :=
  (draft_ofTask Task.lowered t s).trans (visitBelow_lowered t s)

/-! ### Where calls are made -/

/-- Carrying out a plan from a stage on comes to a call, which is made in a unit inside the one that is
written there, or in this unit itself. -/
def Makes : Plan → Stage → (inside : Bool) → Task → Setting → Stage → Prop
  | own _, _, _, _, _, _ => False
  | call t' s', p, inside, t, s, q => inside = false ∧ t = t' ∧ s = s' ∧ q = p
  | seq A B, p, inside, t, s, q =>
    A.Makes p inside t s q ∨ ∃ m, A.lowered.Leads p m ∧ B.Makes m inside t s q
  | withLabel f, p, inside, t, s, q =>
    ∃ a, Step.run .newLabel p.state = .ok () a ∧ (f p.supply.labels).Makes (p.drawn 1 a) inside t s q
  | withLabels n f, p, inside, t, s, q =>
    ∃ a, Step.runAll (List.replicate n .newLabel) p.state = .ok () a
      ∧ (f p.supply.labels).Makes (p.drawn n a) inside t s q
  | withHidden what f, p, inside, t, s, q =>
    (f (hiddenName what (p.supply.hidden + 1))).Makes p.hidden inside t s q
  | block A, p, inside, t, s, q =>
    ∃ a, Step.run .enterBlock p.state = .ok () a ∧ A.Makes ⟨p.supply, a⟩ inside t s q
  | unit _ kind signature A, p, inside, t, s, q =>
    inside = true ∧ ∃ n a scope anywhere, Assembler.enterScope kind signature p.state = .ok n a
      ∧ declareAll signature.params a.current = .ok () scope
      ∧ A.Makes (p.inside a scope) anywhere t s q

namespace Makes

variable {A : Plan} {p q r : Stage} {inside : Bool} {t : Task} {s : Setting}

/-- A call that is made while a plan succeeds succeeds. -/
theorem leadsNarrow (h : A.Makes p inside t s q) (hA : A.lowered.LeadsNarrow p r) :
    ∃ r', (t.lowered s).LeadsNarrow q r' := by
  induction A generalizing p r inside with
  | own d => exact h.elim
  | call t' s' =>
    obtain ⟨-, rfl, rfl, rfl⟩ := h
    exact ⟨r, hA⟩
  | seq A B ihA ihB =>
    obtain ⟨m, hm, hB⟩ := LeadsNarrow.exists_of_append hA
    obtain h | ⟨m', hm', h⟩ := h
    · exact ihA h hm
    · obtain rfl := hm'.unique hm.toLeads
      exact ihB h hB
  | withLabel f ih =>
    obtain ⟨a, ha, h⟩ := h
    obtain ⟨a', ha', hA⟩ := LeadsNarrow.exists_of_withLabel hA
    obtain ⟨-, rfl⟩ := EStateM.Result.ok.inj (ha.symm.trans ha')
    exact ih _ h hA
  | withLabels n f ih =>
    obtain ⟨a, ha, h⟩ := h
    obtain ⟨a', ha', hA⟩ := LeadsNarrow.exists_of_withLabels hA
    obtain ⟨-, rfl⟩ := EStateM.Result.ok.inj (ha.symm.trans ha')
    exact ih _ h hA
  | withHidden what f ih => exact ih _ h (LeadsNarrow.of_withHidden hA)
  | block A ih =>
    obtain ⟨a, ha, h⟩ := h
    obtain ⟨a', b, ha', hA, -⟩ := LeadsNarrow.exists_of_block hA
    obtain ⟨-, rfl⟩ := EStateM.Result.ok.inj (ha.symm.trans ha')
    exact ih h hA
  | unit op kind signature A ih =>
    obtain ⟨-, n, a, scope, anywhere, ha, hs, h⟩ := h
    obtain ⟨n', a', scope', r', ha', hs', hA, -, -⟩ := LeadsNarrow.exists_of_unit hA
    obtain ⟨-, rfl⟩ := EStateM.Result.ok.inj (ha.symm.trans ha')
    obtain ⟨-, rfl⟩ := EStateM.Result.ok.inj (hs.symm.trans hs')
    exact ih h hA

end Makes

end Plan

namespace Plan

/-- Some call that a plan makes, whatever the labels are. -/
def Some (C : (inside : Bool) → Task → Setting → Prop) : Plan → Prop
  | own _ => False
  | call t s => C false t s
  | seq p q => p.Some C ∨ q.Some C
  | withLabel f => ∀ l, (f l).Some C
  | withLabels _ f => ∀ l, (f l).Some C
  | withHidden _ f => ∀ x, (f x).Some C
  | block p => p.Some C
  | unit _ _ _ p => p.Some fun _ => C true

/-- A plan that succeeds comes to its calls. -/
theorem exists_makes {A : Plan} {C : Bool → Task → Setting → Prop} {p q : Stage} (h : A.Some C)
    (hA : A.lowered.Leads p q) : ∃ inside t s r, C inside t s ∧ A.Makes p inside t s r := by
  induction A generalizing p q C with
  | own d => exact h.elim
  | call t s => exact ⟨false, t, s, p, h, rfl, rfl, rfl, rfl⟩
  | seq A B ihA ihB =>
    obtain ⟨m, hA, hB⟩ := leads_append.mp hA
    obtain h | h := h
    · obtain ⟨inside, t, s, r, hC, hr⟩ := ihA h hA
      exact ⟨inside, t, s, r, hC, .inl hr⟩
    · obtain ⟨inside, t, s, r, hC, hr⟩ := ihB h hB
      exact ⟨inside, t, s, r, hC, .inr ⟨m, hA, hr⟩⟩
  | withLabel f ih =>
    obtain ⟨a, ha, hA⟩ := leads_withLabel.mp hA
    obtain ⟨inside, t, s, r, hC, hr⟩ := ih _ (h _) hA
    exact ⟨inside, t, s, r, hC, a, ha, hr⟩
  | withLabels n f ih =>
    obtain ⟨a, ha, hA⟩ := leads_withLabels.mp hA
    obtain ⟨inside, t, s, r, hC, hr⟩ := ih _ (h _) hA
    exact ⟨inside, t, s, r, hC, a, ha, hr⟩
  | withHidden what f ih => exact ih _ (h _) (leads_withHidden.mp hA)
  | block A ih =>
    obtain ⟨a, b, ha, hA, -⟩ := leads_block.mp hA
    obtain ⟨inside, t, s, r, hC, hr⟩ := ih h hA
    exact ⟨inside, t, s, r, hC, a, ha, hr⟩
  | unit op kind signature A ih =>
    obtain ⟨n, a, scope, r', ha, hscope, hA, -, -⟩ := exists_of_leads_unit hA
    obtain ⟨inside, t, s, r, hC, hr⟩ := ih (C := fun _ => C true) h hA
    exact ⟨true, t, s, r, hC, rfl, n, a, scope, inside, ha, hscope, hr⟩

end Plan

/-- A call that succeeds makes its calls, and they succeed. -/
theorem Task.exists_makes {t t' : Task} {s s' : Setting} {inside : Bool} {p q : Stage}
    (hq : (t.lowered s).LeadsNarrow p q)
    (h : (Plan.ofTask t s).Some fun i t₁ s₁ => i = inside ∧ t₁ = t' ∧ s₁ = s') :
    ∃ p', (Plan.ofTask t s).Makes p inside t' s' p'
      ∧ ∃ q', (t'.lowered s').LeadsNarrow p' q' := by
  rw [← Plan.lowered_ofTask] at hq
  obtain ⟨_, _, _, p', ⟨rfl, rfl, rfl⟩, hm⟩ := Plan.exists_makes h hq.toLeads
  exact ⟨p', hm, hm.leadsNarrow hq⟩

/-- The walk comes from one call to another. All calls on the way are as they should be. -/
inductive Task.Reaches (ok : Bool → Setting → Prop) :
    Task → Setting → Stage → Task → Setting → Stage → Prop where
  | here {t : Task} {s : Setting} {p : Stage} : Reaches ok t s p t s p
  | call {t t₁ t₂ : Task} {s s₁ s₂ : Setting} {p p₁ p₂ : Stage} {inside : Bool}
      (hm : (Plan.ofTask t s).Makes p inside t₁ s₁ p₁) (hok : ok inside s₁)
      (h : Reaches ok t₁ s₁ p₁ t₂ s₂ p₂) : Reaches ok t s p t₂ s₂ p₂

/-- A call that the walk comes to while another one succeeds succeeds. -/
theorem Task.Reaches.leadsNarrow {ok : Bool → Setting → Prop} {t t' : Task} {s s' : Setting}
    {p p' q : Stage} (h : Task.Reaches ok t s p t' s' p') (hq : (t.lowered s).LeadsNarrow p q) :
    ∃ q', (t'.lowered s').LeadsNarrow p' q' := by
  induction h generalizing q with
  | here => exact ⟨q, hq⟩
  | @call t t₁ t₂ s s₁ s₂ p p₁ p₂ inside hm _ _ ih =>
    rw [← Plan.lowered_ofTask] at hq
    obtain ⟨q₁, hq₁⟩ := hm.leadsNarrow hq
    exact ih hq₁

/-! ### What calls leave as it is -/

namespace Draft

/-- At most one step, which is not about blocks, labels or units. -/
inductive Brief : Draft → Prop where
  | nil : Brief nil
  | step {x : Step} (hfree : x.isFree = true) (hlevel : x.isLevel = true) : Brief (step x)
  | final {x : Step} : Brief (final x)

@[simp]
theorem Brief.keeps {d : Draft} (h : d.Brief) : d.Keeps := by
  cases h with
  | nil => exact Still.nil.keeps
  | step _ hlevel => exact .step hlevel
  | final => exact Still.final.keeps

@[simp]
theorem brief_nil : nil.Brief := .nil

@[simp]
theorem brief_op {op : Opcode} : (plain op).Brief := .step rfl rfl

@[simp]
theorem brief_refuse {line : Nat} {cause : Misuse} : (refuse line cause).Brief := .final

@[simp]
theorem brief_markLine {ctx : Context} {line : Nat} : (markLine ctx line).Brief := by
  unfold markLine
  split
  · exact .final
  · exact .step rfl rfl

@[simp]
theorem brief_predeclare {ctx : Context} {x : String} : (predeclare ctx x).Brief := by
  unfold predeclare
  cases ctx.kind with
  | function => exact .step rfl rfl
  | global | object => exact .nil

@[simp]
theorem brief_bindDeclared {ctx : Context} {x : String} : (bindDeclared ctx x).Brief := by
  unfold bindDeclared
  cases ctx.kind <;> exact .step rfl rfl

@[simp]
theorem brief_value (v : Value) : v.lower.Brief := by
  unfold Value.lower
  split <;> exact .step rfl rfl

@[simp]
theorem brief_callOp {args : List Arg} {tail : Bool} : (callOp args tail).Brief := by
  unfold callOp
  simp only
  split
  · exact .step rfl rfl
  · split
    · unfold callNamedOp
      simp only
      split
      · exact .final
      · exact .step rfl rfl
    · exact .step rfl rfl

@[simp]
theorem brief_methodOp {args : List Arg} {line : Nat} : (methodOp args line).Brief := by
  unfold methodOp
  split
  · exact .final
  · exact .step rfl rfl

@[simp]
theorem keeps_step {x : Step} (henter : x ≠ .enterBlock) (hleave : x ≠ .leaveBlock)
    (hlabel : x ≠ .newLabel) : (step x).Keeps := by
  cases x with
  | enterBlock => exact absurd rfl henter
  | leaveBlock => exact absurd rfl hleave
  | newLabel => exact absurd rfl hlabel
  | _ => exact .step rfl

@[simp]
theorem keeps_jump {op : Opcode} {l : Label} : (jump op l).Keeps := .step rfl

@[simp]
theorem keeps_place {l : Label} : (place l).Keeps := .step rfl

@[simp]
theorem keeps_declareAndStore {x : String} : (declareAndStore x).Keeps :=
  .append (.step rfl) (.step rfl)

@[simp]
theorem keeps_returnNil : returnNil.Keeps := .append brief_op.keeps brief_op.keeps

end Draft

namespace Plan

/-- All that a plan writes itself in the unit that is being written, and all calls that it makes, in this unit
or inside another one. -/
def All (D : Draft → Prop) (C : (inside : Bool) → Task → Setting → Prop) : Plan → Prop
  | own d => D d
  | call t s => C false t s
  | seq p q => p.All D C ∧ q.All D C
  | withLabel f => ∀ l, (f l).All D C
  | withLabels _ f => ∀ l, (f l).All D C
  | withHidden _ f => ∀ x, (f x).All D C
  | block p => p.All D C
  | unit _ _ _ p => p.All D fun _ => C true

section All

variable {D : Draft → Prop} {C : Bool → Task → Setting → Prop} {A B : Plan}

theorem all_append : (A ++ B).All D C ↔ A.All D C ∧ B.All D C := Iff.rfl

theorem all_unmixed {args : List Arg} {name : String} {line : Nat} {t : Task} {s : Setting}
    (hd : ∀ line cause, D (refuse line cause)) (hc : C false t s) :
    (unmixed args name line (call t s)).All D C := by
  unfold unmixed
  split
  · exact hd _ _
  · exact hc

theorem Makes.of_all {p q : Stage} {inside : Bool} {t : Task} {s : Setting}
    (h : A.Makes p inside t s q) (hA : A.All D C) : C inside t s := by
  induction A generalizing p inside C with
  | own d => exact h.elim
  | call t' s' =>
    obtain ⟨rfl, rfl, rfl, -⟩ := h
    exact hA
  | seq A B ihA ihB =>
    obtain h | ⟨m, -, h⟩ := h
    · exact ihA h hA.1
    · exact ihB h hA.2
  | withLabel f ih =>
    obtain ⟨a, -, h⟩ := h
    exact ih _ h (hA _)
  | withLabels n f ih =>
    obtain ⟨a, -, h⟩ := h
    exact ih _ h (hA _)
  | withHidden what f ih => exact ih _ h (hA _)
  | block A ih =>
    obtain ⟨a, -, h⟩ := h
    exact ih h hA
  | unit op kind signature A ih =>
    obtain ⟨rfl, n, a, scope, anywhere, -, -, h⟩ := h
    exact ih (C := fun _ => C true) h hA

/-- A plan whose parts keep the unit keeps it. -/
theorem All.keeps_draft {answer : Task → Setting → Draft} (h : A.All Draft.Keeps C)
    (hanswer : ∀ t s, (answer t s).Keeps) : (A.draft answer).Keeps := by
  induction A with
  | own d => exact h
  | call t s => exact hanswer t s
  | seq A B ihA ihB => exact (ihA h.1).append (ihB h.2)
  | withLabel f ih => exact .withLabel fun l => ih l (h l)
  | withLabels n f ih => exact .withLabels fun l => ih l (h l)
  | withHidden what f ih => exact .withHidden fun n => ih _ (h _)
  | block A ih => exact (Draft.Still.block (ih h)).keeps
  | unit op kind signature A => exact Draft.Still.unit.keeps

end All

end Plan

/-! ### The settings in which calls are made -/

/-- A call in the same unit: there may be more loops, some regions less, or one region more that is opened. -/
structure Setting.Near (s : Setting) (opens : Protection → Prop) (s' : Setting) : Prop where
  unit : s' = { s with loops := s'.loops, regions := s'.regions }
  loops : s.loops <:+ s'.loops
  regions : s'.regions <:+ s.regions
    ∨ ∃ caught cleanup, opens ⟨caught, cleanup⟩ ∧ s' = s.inRegion caught cleanup

/-- The setting of a call. Inside another unit, no region is open. -/
def Setting.Calls (s : Setting) (opens : Protection → Prop) : (inside : Bool) → Setting → Prop
  | false, s' => s.Near opens s'
  | true, s' => s'.regions = []

/-- Regions are opened by the statements that have them. -/
def Task.Opens (t : Task) (r : Protection) : Prop :=
  ∃ body handler line, t = .form (.tryCatch body handler r.cleanup) line

@[simp]
theorem Task.opens_tryCatch {body : List Stmt} {handler : Option Catch} {cleanup : Option (List Stmt)}
    {line : Nat} {caught : Bool} : (form (.tryCatch body handler cleanup) line).Opens ⟨caught, cleanup⟩ :=
  ⟨body, handler, line, rfl⟩

namespace Setting.Calls

variable (s : Setting) (opens : Protection → Prop)

@[simp]
theorem refl : s.Calls opens false s := ⟨rfl, List.suffix_refl _, .inl (List.suffix_refl _)⟩

@[simp]
theorem inLoop (breakTo : Label) (continueTo : Option Label) :
    s.Calls opens false (s.inLoop breakTo continueTo) :=
  ⟨rfl, List.suffix_cons _ _, .inl (List.suffix_refl _)⟩

@[simp]
theorem inRegion (caught : Bool) (cleanup : Option (List Stmt)) (h : opens ⟨caught, cleanup⟩) :
    s.Calls opens false (s.inRegion caught cleanup) :=
  ⟨rfl, List.suffix_refl _, .inr ⟨caught, cleanup, h, rfl⟩⟩

/-- The innermost region was left. -/
theorem outside {r : Protection} {rest : List Protection} (h : s.regions = r :: rest) :
    s.Calls opens false { s with regions := rest } :=
  ⟨rfl, List.suffix_refl _, .inl (h ▸ List.suffix_cons r rest)⟩

@[simp]
theorem inFunction (binding : Option String) (f : Function) : s.Calls opens true (s.inFunction binding f) :=
  rfl

@[simp]
theorem inObject : s.Calls opens true s.inObject := rfl

end Setting.Calls

namespace Plan

theorem steady_ofExpr (e : Expr) (terminal : Bool) (s : Setting) (opens : Protection → Prop) :
    (ofExpr e terminal s).All Draft.Keeps fun inside _ s' => s.Calls opens inside s' := by
  cases e with
  | assign line target value =>
    cases target with
    | name x => cases value <;> simp [ofExpr, all_append, All]
    | _ => simp [ofExpr, all_append, All]
  | call line callee args | methodCall line object x args =>
    simp [ofExpr, all_append, All, all_unmixed]
  | yield line value =>
    simp only [ofExpr]
    split <;> simp [all_append, All]
  | _ => simp [ofExpr, all_append, All]

theorem steady_ofForm (form : StmtForm) (line : Nat) (s : Setting) :
    (ofForm form line s).All Draft.Keeps
      fun inside _ s' => s.Calls (Task.form form line).Opens inside s' := by
  cases form with
  | var x init =>
    cases init with
    | none => simp [ofForm, all_append, All]
    | some e => cases e <;> simp [ofForm, all_append, All]
  | ifElse cond thenS elseS => cases elseS <;> simp [ofForm, all_append, All]
  | breakLoop =>
    simp only [ofForm]
    cases s.loops.head? <;> simp [all_append, All]
  | continueLoop =>
    simp only [ofForm]
    cases continuable? s.loops <;> simp [all_append, All]
  | ret value =>
    cases value with
    | none =>
      simp only [ofForm]
      split <;> simp [all_append, All]
    | some e =>
      simp only [ofForm]
      split
      · split <;> simp [all_append, All]
      · simp [All]
  | tryCatch body handler cleanup =>
    obtain _ | ⟨x, clause⟩ := handler <;> cases cleanup <;>
      simp [ofForm, guarded, cleaned, all_append, All]
  | _ => simp [ofForm, all_append, All]

theorem steady_ofRegion {r : Protection} {s s' : Setting} {opens : Protection → Prop}
    (h : s.Calls opens false s') :
    (ofRegion r s').All Draft.Keeps fun inside _ s' => s.Calls opens inside s' := by
  obtain ⟨caught, cleanup⟩ := r
  cases caught <;> cases cleanup <;> simp [ofRegion, all_append, All, h]

/-- What a call writes itself keeps the unit, and calls in the same unit are made nearby. -/
theorem steady_ofTask (t : Task) (s : Setting) :
    (ofTask t s).All Draft.Keeps fun inside _ s' => s.Calls t.Opens inside s' := by
  cases t with
  | expr e terminal => exact steady_ofExpr e terminal s _
  | form form line => exact steady_ofForm form line s
  | args items call line names =>
    cases items with
    | nil => simp [ofTask, All]
    | cons a rest =>
      cases a <;>
      · simp only [ofTask]
        split <;> simp [all_append, All]
  | entries items =>
    cases items with
    | nil => simp [ofTask, All]
    | cons entry rest => cases entry <;> simp [ofTask, all_append, All]
  | function f binding line =>
    obtain ⟨params, variadic, generator, body⟩ := f
    simp only [ofTask]
    cases firstRepeated? [] (params.map Param.name) <;> simp [all_append, All]
  | params items i =>
    cases items with
    | nil => simp [ofTask, All]
    | cons param rest =>
      obtain ⟨x, default⟩ := param
      cases default <;> simp [ofTask, all_append, All]
  | body items =>
    cases items with
    | nil => simp [ofTask, All]
    | cons stmt rest =>
      obtain ⟨line, form⟩ := stmt
      cases rest with
      | nil =>
        cases form with
        | expr e =>
          simp only [ofTask]
          split <;> simp [all_append, All]
        | _ => simp [ofTask, all_append, All]
      | cons next rest => cases form <;> simp [ofTask, all_append, All]
  | unwind n =>
    cases n with
    | zero => simp [ofTask, All]
    | succ n =>
      simp only [ofTask]
      split
      · exact brief_nil.keeps
      · next r rest hregions =>
        exact ⟨steady_ofRegion (.outside s _ hregions), .outside s _ hregions⟩
  | exprOr item terminal | optional item | fallback item | condition item done | effect item =>
    cases item <;> simp [ofTask, all_append, All]
  | stmt item => cases item; simp [ofTask, all_append, All]
  | exprs items | tests items x l | stmts items =>
    cases items <;> simp [ofTask, all_append, All]
  | armTests items x first | armResults items terminal first done | caseTests items x first
  | caseBodies items first done =>
    cases items with
    | nil => simp [ofTask, All]
    | cons item rest => cases item; simp [ofTask, all_append, All]

end Plan

/-! ### Whole calls -/

/-- Every call keeps its unit. -/
theorem Task.keeps_lowered (t : Task) (s : Setting) : (t.lowered s).Keeps := by
  have hwalk : ∀ n t s, (walk (refuse 0 .tryWithoutHandler) n t s).Keeps := by
    intro n
    induction n with
    | zero => exact fun _ _ => brief_refuse.keeps
    | succ n ih =>
      intro t s
      rw [walk, ← Plan.draft_ofTask]
      exact (Plan.steady_ofTask t s).keeps_draft ih
  rw [← walk_eq_lowered (Nat.lt_succ_self (t.cost s))]
  exact hwalk _ t s

/-- When regions are left, the variables stay. -/
theorem Task.still_unwind (n : Nat) (s : Setting) : ((Task.unwind n).lowered s).Still := by
  induction n generalizing s with
  | zero => exact .nil
  | succ n ih =>
    rw [← Plan.lowered_ofTask]
    obtain ⟨config, kind, generator, self, regions, loops⟩ := s
    cases regions with
    | nil => exact .nil
    | cons r rest =>
      refine .append ?_ (ih _)
      obtain ⟨caught, cleanup⟩ := r
      have hcaught : (if caught then plain .endTry else Draft.nil).Still := by
        split
        · exact .step rfl rfl
        · exact .nil
      cases cleanup with
      | none => exact .append hcaught .nil
      | some clause => exact .append hcaught (.append (.step rfl rfl) (.block (Task.keeps_lowered _ _)))

namespace Plan

namespace Makes

variable {A : Plan} {p q : Stage} {inside : Bool} {t : Task} {s : Setting}

/-- Where a call is made, labels are drawn as they are made. -/
theorem numbered (h : A.Makes p inside t s q) {C : Bool → Task → Setting → Prop}
    (hA : A.All Draft.Keeps C) (hp : p.Numbered) : q.Numbered := by
  induction A generalizing p inside C with
  | own d => exact h.elim
  | call t' s' =>
    obtain ⟨-, -, -, rfl⟩ := h
    exact hp
  | seq A B ihA ihB =>
    obtain h | ⟨m, hm, h⟩ := h
    · exact ihA h hA.1 hp
    · exact ihB h hA.2 ((hA.1.keeps_draft Task.keeps_lowered p m hm).numbered hp)
  | withLabel f ih =>
    obtain ⟨a, ha, h⟩ := h
    exact ih _ h (hA _) ((Stage.Still.drawn_one ha).numbered hp)
  | withLabels n f ih =>
    obtain ⟨a, ha, h⟩ := h
    exact ih _ h (hA _) ((Stage.Still.drawn ha).numbered hp)
  | withHidden what f ih => exact ih _ h (hA _) hp
  | block A ih =>
    obtain ⟨a, ha, h⟩ := h
    obtain rfl := Step.run_enterBlock_eq_ok ha
    exact ih h hA hp
  | unit op kind signature A ih =>
    obtain ⟨-, n, a, scope, anywhere, ha, hs, h⟩ := h
    exact ih h hA (.inside ha hs)

/-- Up to a call in the same unit, the variables go on living. -/
theorem grows (h : A.Makes p false t s q) {C : Bool → Task → Setting → Prop}
    (hA : A.All Draft.Keeps C) : p.Grows q := by
  induction A generalizing p with
  | own d => exact h.elim
  | call t' s' =>
    obtain ⟨-, -, -, rfl⟩ := h
    exact .refl _
  | seq A B ihA ihB =>
    obtain h | ⟨m, hm, h⟩ := h
    · exact ihA h hA.1
    · exact (hA.1.keeps_draft Task.keeps_lowered p m hm).toGrows.trans (ihB h hA.2)
  | withLabel f ih =>
    obtain ⟨a, ha, h⟩ := h
    exact (Stage.Still.drawn_one ha).toGrows.trans (ih _ h (hA _))
  | withLabels n f ih =>
    obtain ⟨a, ha, h⟩ := h
    exact (Stage.Still.drawn ha).toGrows.trans (ih _ h (hA _))
  | withHidden what f ih =>
    obtain ⟨henclosing, hinitial, hnumbered⟩ := ih _ h (hA _)
    exact ⟨henclosing, hinitial, hnumbered⟩
  | block A ih =>
    obtain ⟨a, ha, h⟩ := h
    obtain rfl := Step.run_enterBlock_eq_ok ha
    obtain ⟨henclosing, hinitial, hnumbered⟩ := ih h hA
    exact ⟨henclosing, hinitial, hnumbered⟩
  | unit op kind signature A ih => cases h.1

end Makes

end Plan

/-- Wherever the walk comes, labels are drawn as they are made. -/
theorem Task.Reaches.numbered {ok : Bool → Setting → Prop} {t t' : Task} {s s' : Setting} {p p' : Stage}
    (h : Reaches ok t s p t' s' p') (hp : p.Numbered) : p'.Numbered := by
  induction h with
  | here => exact hp
  | call hm _ _ ih => exact ih (hm.numbered (Plan.steady_ofTask _ _) hp)

end StackCode
