import StackCode.Proofs.HandlerBalance

/-!
# The walk of the tree

A jump out of a protected region compiles the cleanup of the region once more, at the place of the jump.
The cleanup is no part of the statement that jumps, and it may jump, return and protect regions itself.
Here the walk is taken call by call, with the cleanups of the open regions as they stand in the program.

* `Setting`: what surrounds a node, with the cleanups still to be compiled;
* `Task`, `Task.cost`: what a call is asked to compile, and a measure of it;
* `visitBelow`, `visit`: what one call does, given the answers to the calls that it makes;
* `walk`: the walk with a limited number of calls inside one another;
* `visitBelow_lowered`: lowering answers every call;
* `walk_settles`: enough calls are always at hand, and then the limit does not matter.

The cost of a call is the size of its node together with the cleanups of all open regions. An exit that
leaves regions pays for their cleanups out of this: each is compiled where only the regions around its own
are open.
-/

namespace StackCode

open Draft

/-! ### Settings -/

/-- A protected region with its cleanup as it stands in the program. -/
structure Protection where
  /-- Whether the handler of its catch clause is installed. -/
  catchInstalled : Bool
  cleanup : Option (List Stmt)

/-- What surrounds a node. -/
structure Setting where
  config : Config
  kind : ScopeKind := .global
  generator : Bool := false
  /-- The name by which the function calls itself. -/
  self : Option String := none
  /-- The protected regions of the unit, innermost first. -/
  regions : List Protection := []
  /-- The loops and switches of the unit, innermost first. -/
  loops : List Loop := []

namespace Setting

/-- The unit around a node, without regions and loops. -/
def bare (s : Setting) : Context :=
  { config := s.config, kind := s.kind, generator := s.generator, self := s.self }

/-- The setting inside a loop. -/
def inLoop (s : Setting) (breakTo : Label) (continueTo : Option Label) : Setting :=
  { s with loops := ⟨breakTo, continueTo, s.regions.length⟩ :: s.loops }

/-- The setting inside a protected region. -/
def inRegion (s : Setting) (catchInstalled : Bool) (cleanup : Option (List Stmt)) : Setting :=
  { s with regions := ⟨catchInstalled, cleanup⟩ :: s.regions }

/-- The setting inside the body of a class or a namespace. -/
def inObject (s : Setting) : Setting := { config := s.config, kind := .object }

/-- The setting inside a function. -/
def inFunction (s : Setting) (binding : Option String) (f : Function) : Setting :=
  { config := s.config
    kind := .function
    generator := f.generator
    self := binding.filter fun name => s.config.tailCalls && f.bindsSelf name }

/-- The size of the cleanups of some regions. -/
noncomputable def weight : List Protection → Nat
  | [] => 0
  | r :: rest => sizeOf r.cleanup + weight rest

end Setting

/-! ### Tasks -/

/-- What a call is asked to compile. -/
inductive Task where
  | expr (e : Expr) (terminal : Bool)
  | exprOr (e : Option Expr) (terminal : Bool)
  | exprs (items : List Expr)
  | tests (values : List Expr) (x : String) (l : Label)
  | args (args : List Arg) (call : String) (line : Nat) (names : List String)
  | entries (entries : List Entry)
  | armTests (arms : List Arm) (x : String) (first : Label)
  | armResults (arms : List Arm) (terminal : Bool) (first done : Label)
  | function (f : Function) (binding : Option String) (line : Nat)
  | params (params : List Param) (i : Nat)
  | body (body : List Stmt)
  | stmt (s : Stmt)
  | stmts (body : List Stmt)
  | optional (s : Option Stmt)
  | fallback (body : Option (List Stmt))
  | form (form : StmtForm) (line : Nat)
  | condition (e : Option Expr) (done : Label)
  | effect (e : Option Expr)
  | caseTests (cases : List Case) (x : String) (first : Label)
  | caseBodies (cases : List Case) (first done : Label)
  /-- To leave the `n` innermost regions. -/
  | unwind (n : Nat)

namespace Task

/-- The size of the node that is compiled. -/
noncomputable def size : Task → Nat
  | .expr e _ => sizeOf e
  | .exprOr e _ => sizeOf e
  | .exprs items => sizeOf items
  | .tests values _ _ => sizeOf values
  | .args items _ _ _ => sizeOf items
  | .entries items => sizeOf items
  | .armTests arms _ _ => sizeOf arms
  | .armResults arms _ _ _ => sizeOf arms
  | .function f _ _ => sizeOf f
  | .params items _ => sizeOf items
  | .body items => sizeOf items
  | .stmt s => sizeOf s
  | .stmts items => sizeOf items
  | .optional s => sizeOf s
  | .fallback items => sizeOf items
  | .form f _ => sizeOf f
  | .condition e _ => sizeOf e
  | .effect e => sizeOf e
  | .caseTests items _ _ => sizeOf items
  | .caseBodies items _ _ => sizeOf items
  | .unwind _ => 0

/-- The size of the node, and of the cleanups of all open regions. -/
noncomputable def cost (t : Task) (s : Setting) : Nat := t.size + Setting.weight s.regions

end Task

/-- The answers to the calls that cost less than `n`. -/
abbrev Answers (n : Nat) :=
  (t : Task) → (s : Setting) →
    (h : t.cost s < n := by
      simp +arith [Task.cost, Task.size, Setting.inLoop, Setting.inRegion, Setting.inObject,
        Setting.inFunction, Setting.weight]) → Draft

/-! ### One call -/

/-- What a call for an expression does. -/
def visitExpr : (e : Expr) → (terminal : Bool) → (s : Setting) →
    Answers (sizeOf e + Setting.weight s.regions) → Draft
  | .literal v, _, _, _ => v.lower
  | .name x, _, _, _ => step (.loadName x)
  | .this, _, _, _ => plain .pushThis
  | .assign _ (.name x) (.function line f), _, s, call =>
    call (.function f (some x) line) s ++ plain .dup ++ step (.storeName x)
  | .assign _ (.name x) value, _, s, call =>
    call (.expr value false) s ++ plain .dup ++ step (.storeName x)
  | .assign _ (.member object x) value, _, s, call =>
    call (.expr object false) s ++ call (.expr value false) s ++ step (.named .setMember x)
  | .assign _ (.index object index) value, _, s, call =>
    call (.expr object false) s ++ call (.expr index false) s ++ call (.expr value false) s
      ++ plain .setIndex
  | .assign line target _, _, _, _ => refuse line (.assignmentTarget target.construct)
  | .binary op lhs rhs, _, s, call =>
    call (.expr lhs false) s ++ call (.expr rhs false) s ++ plain op.opcode
  | .logical op lhs rhs, _, s, call =>
    withLabel fun done =>
      call (.expr lhs false) s ++ jump op.opcode done ++ call (.expr rhs false) s ++ place done
  | .unary op operand, _, s, call => call (.expr operand false) s ++ plain op.opcode
  | .call line callee args, terminal, s, call =>
    call (.expr callee false) s ++ unmixed args "call" line (call (.args args "call" line []) s)
      ++ callOp args (s.bare.isTail terminal (.call line callee args))
  | .methodCall line object x args, _, s, call =>
    call (.expr object false) s ++ step (.named .getMethod x)
      ++ unmixed args "method call" line (call (.args args "method call" line []) s)
      ++ methodOp args line
  | .member object x, _, s, call => call (.expr object false) s ++ step (.named .getMember x)
  | .index object index, _, s, call =>
    call (.expr object false) s ++ call (.expr index false) s ++ plain .getIndex
  | .array items, _, s, call => call (.exprs items) s ++ step (.count .newArray items.length)
  | .map entries, _, s, call => call (.entries entries) s ++ step (.count .newMap entries.length)
  | .function line f, _, s, call => call (.function f none line) s
  | .conditional cond thenE elseE, terminal, s, call =>
    withLabel fun other => withLabel fun done =>
      call (.expr cond false) s ++ jump .jumpFalse other
        ++ call (.expr thenE terminal) s ++ jump .jump done
        ++ place other ++ call (.expr elseE terminal) s ++ place done
  | .case subject arms default, terminal, s, call =>
    block (call (.expr subject false) s ++ withHidden "case" fun x =>
      declareAndStore x ++ withLabel fun done => withLabels arms.length fun first =>
        call (.armTests arms x first) s
          ++ call (.exprOr default terminal) s ++ jump .jump done
          ++ call (.armResults arms terminal first done) s ++ place done)
  | .yield line value, _, s, call =>
    if s.generator then call (.exprOr value false) s ++ plain .yield
    else refuse line .yieldOutsideGenerator

/-- What a call for a statement does. The regions that an exit leaves are left by a call of its own. -/
def visitForm : (form : StmtForm) → (line : Nat) → (s : Setting) →
    Answers (sizeOf form + Setting.weight s.regions) → Draft
  | .expr e, _, s, call => call (.expr e false) s ++ step .discard
  | .var x none, _, _, _ => plain .pushNil ++ declareAndStore x
  | .var x (some (.function line f)), _, s, call =>
    step (.declare x) ++ call (.function f (some x) line) s ++ step (.slot .storeLocal x)
  | .var x (some e), _, s, call => call (.expr e false) s ++ declareAndStore x
  | .block body, _, s, call => block (call (.stmts body) s)
  | .ifElse cond thenS none, _, s, call =>
    withLabel fun other =>
      call (.expr cond false) s ++ jump .jumpFalse other ++ block (call (.stmt thenS) s)
        ++ place other
  | .ifElse cond thenS (some elseS), _, s, call =>
    withLabel fun other =>
      call (.expr cond false) s ++ jump .jumpFalse other ++ block (call (.stmt thenS) s)
        ++ withLabel fun done =>
          jump .jump done ++ place other ++ block (call (.stmt elseS) s) ++ place done
  | .whileDo cond body, _, s, call =>
    withLabel fun top => withLabel fun done =>
      place top ++ call (.expr cond false) s ++ jump .jumpFalse done
        ++ block (call (.stmt body) (s.inLoop done (some top)))
        ++ jump .jump top ++ place done
  | .forLoop init cond afterwards body, _, s, call =>
    block (call (.optional init) s
      ++ withLabel fun top => withLabel fun next => withLabel fun done =>
        place top ++ call (.condition cond done) s
          ++ block (call (.stmt body) (s.inLoop done (some next)))
          ++ place next ++ call (.effect afterwards) s
          ++ jump .jump top ++ place done)
  | .forIn x iterable body, _, s, call =>
    block (call (.expr iterable false) s ++ plain .iter ++ withHidden "iter" fun it =>
      declareAndStore it ++ withLabel fun next => withLabel fun done =>
        place next ++ step (.slot .loadLocal it) ++ jump .forIter done
          ++ declareAndStore x
          ++ block (call (.stmt body) (s.inLoop done (some next)))
          ++ jump .jump next ++ place done)
  | .breakLoop, line, s, call =>
    s.loops.head?.elim (refuse line (.outsideLoop "break")) fun l =>
      call (.unwind (s.regions.length - l.depth)) s ++ jump .jump l.breakTo
  | .continueLoop, line, s, call =>
    (continuable? s.loops).elim (refuse line (.outsideLoop "continue")) fun target =>
      call (.unwind (s.regions.length - target.2)) s ++ jump .jump target.1
  | .ret none, line, s, call =>
    if s.kind = .function then plain .pushNil ++ (call (.unwind s.regions.length) s ++ plain .ret)
    else refuse line .returnOutsideFunction
  | .ret (some e), line, s, call =>
    if s.kind = .function then
      call (.expr e s.regions.isEmpty) s
        ++ (if s.bare.isTail s.regions.isEmpty e then nil
          else call (.unwind s.regions.length) s ++ plain .ret)
    else refuse line .returnOutsideFunction
  | .throw e, _, s, call => call (.expr e false) s ++ plain .throw
  | .tryCatch _ none none, line, _, _ => refuse line .tryWithoutHandler
  | .tryCatch body (some (.mk x clause)) none, _, s, call =>
    step .protect
      ++ guarded (some (block (declareAndStore x ++ call (.stmts clause) (s.inRegion false none))))
          (block (call (.stmts body) (s.inRegion true none)))
  | .tryCatch body none (some cleanup), _, s, call =>
    step .protect
      ++ cleaned (some (block (call (.stmts cleanup) s)))
          (block (call (.stmts body) (s.inRegion false (some cleanup))))
  | .tryCatch body (some (.mk x clause)) (some cleanup), _, s, call =>
    step .protect
      ++ cleaned (some (block (call (.stmts cleanup) s)))
          (guarded
            (some (block (declareAndStore x ++ call (.stmts clause) (s.inRegion false (some cleanup)))))
            (block (call (.stmts body) (s.inRegion true (some cleanup)))))
  | .switch subject cases default, _, s, call =>
    block (call (.expr subject false) s ++ withHidden "switch" fun x =>
      declareAndStore x ++ withLabel fun done => withLabels cases.length fun first =>
        call (.caseTests cases x first) s
          ++ withLabel fun fallback =>
            jump .jump fallback ++ call (.caseBodies cases first done) (s.inLoop done none)
              ++ place fallback
              ++ call (.fallback default) (s.inLoop done none)
              ++ place done)
  | .function x f, line, s, call =>
    predeclare s.bare x
      ++ call (.function f (if s.kind = .object then none else some x) line) s
      ++ bindDeclared s.bare x
  | .classDef x parent body, _, s, call =>
    predeclare s.bare x ++ call (.exprOr parent false) s
      ++ unit .makeClass .object {} (call (.stmts body) s.inObject ++ returnNil)
      ++ bindDeclared s.bare x
  | .namespaceDef x body, _, s, call =>
    predeclare s.bare x
      ++ unit .makeNamespace .object {} (call (.stmts body) s.inObject ++ returnNil)
      ++ bindDeclared s.bare x

/-- What one call does, given the answers to the calls that it makes. -/
def visitBelow : (t : Task) → (s : Setting) → Answers (t.cost s) → Draft
  | .expr e terminal, s, call => visitExpr e terminal s fun t s h => call t s h
  | .exprOr none _, _, _ => plain .pushNil
  | .exprOr (some e) terminal, s, call => call (.expr e terminal) s
  | .exprs [], _, _ => nil
  | .exprs (e :: rest), s, call => call (.expr e false) s ++ call (.exprs rest) s
  | .tests [] _ _, _, _ => nil
  | .tests (e :: rest) x l, s, call =>
    step (.slot .loadLocal x) ++ call (.expr e false) s ++ plain .eq ++ jump .jumpTrue l
      ++ call (.tests rest x l) s
  | .args [] _ _ _, _, _ => nil
  | .args (.positional e :: rest) name line names, s, call =>
    if names.isEmpty then call (.expr e false) s ++ call (.args rest name line names) s
    else refuse line (.positionalAfterNamed name)
  | .args (.spread e :: rest) name line names, s, call =>
    if names.isEmpty then
      call (.expr e false) s ++ plain .spread ++ call (.args rest name line names) s
    else refuse line (.positionalAfterNamed name)
  | .args (.named x e :: rest) name line names, s, call =>
    if names.contains x then refuse line (.duplicateArgument name x)
    else
      step (.loadConst (.string x)) ++ call (.expr e false) s
        ++ call (.args rest name line (x :: names)) s
  | .entries [], _, _ => nil
  | .entries (.named x v :: rest), s, call =>
    step (.loadConst (.string x)) ++ call (.expr v false) s ++ call (.entries rest) s
  | .entries (.computed k v :: rest), s, call =>
    call (.expr k false) s ++ call (.expr v false) s ++ call (.entries rest) s
  | .armTests [] _ _, _, _ => nil
  | .armTests (.mk values _ :: rest) x l, s, call =>
    call (.tests values x l) s ++ call (.armTests rest x (l + 1)) s
  | .armResults [] _ _ _, _, _ => nil
  | .armResults (.mk _ result :: rest) terminal l done, s, call =>
    place l ++ call (.expr result terminal) s ++ jump .jump done
      ++ call (.armResults rest terminal (l + 1) done) s
  | .function (.mk params variadic generator body) binding line, s, call =>
    let f := Function.mk params variadic generator body
    (firstRepeated? [] (params.map Param.name)).elim
      (unit .makeClosure .function f.signature
        (call (.params params 0) (s.inFunction binding f) ++ call (.body body) (s.inFunction binding f)))
      fun x => refuse line (.duplicateParameter x)
  | .params [] _, _, _ => nil
  | .params (.mk _ none :: rest) i, s, call => call (.params rest (i + 1)) s
  | .params (.mk x (some e) :: rest) i, s, call =>
    (withLabel fun skip =>
      step (.count .hasArg i) ++ jump .jumpTrue skip ++ call (.expr e false) s
        ++ step (.slot .storeLocal x) ++ place skip ++ step (.count .paramEnd i))
      ++ call (.params rest (i + 1)) s
  | .body [], _, _ => returnNil
  | .body [.mk line (.expr e)], s, call =>
    markLine s.bare line ++ call (.expr e true) s
      ++ (if s.bare.isTail true e then nil else plain .ret)
  | .body [.mk line (.ret value)], s, call =>
    markLine s.bare line ++ call (.form (.ret value) line) s
  | .body [.mk line form], s, call => markLine s.bare line ++ call (.form form line) s ++ returnNil
  | .body (stmt :: rest), s, call => call (.stmt stmt) s ++ call (.body rest) s
  | .stmt (.mk line form), s, call => markLine s.bare line ++ call (.form form line) s
  | .stmts [], _, _ => nil
  | .stmts (stmt :: rest), s, call => call (.stmt stmt) s ++ call (.stmts rest) s
  | .optional none, _, _ => nil
  | .optional (some stmt), s, call => call (.stmt stmt) s
  | .fallback none, _, _ => nil
  | .fallback (some body), s, call => block (call (.stmts body) s)
  | .form form line, s, call => visitForm form line s fun t s h => call t s h
  | .condition none _, _, _ => nil
  | .condition (some e) done, s, call => call (.expr e false) s ++ jump .jumpFalse done
  | .effect none, _, _ => nil
  | .effect (some e), s, call => call (.expr e false) s ++ step .discard
  | .caseTests [] _ _, _, _ => nil
  | .caseTests (.mk values _ :: rest) x l, s, call =>
    call (.tests values x l) s ++ call (.caseTests rest x (l + 1)) s
  | .caseBodies [] _ _, _, _ => nil
  | .caseBodies (.mk _ body :: rest) l done, s, call =>
    place l ++ block (call (.stmts body) s) ++ jump .jump done
      ++ call (.caseBodies rest (l + 1) done) s
  | .unwind 0, _, _ => nil
  | .unwind (_ + 1), ⟨_, _, _, _, [], _⟩, _ => nil
  | .unwind (n + 1), ⟨config, kind, generator, self, ⟨caught, none⟩ :: rest, loops⟩, call =>
    (if caught then plain .endTry else nil) ++ nil
      ++ call (.unwind n) ⟨config, kind, generator, self, rest, loops⟩
  | .unwind (n + 1), ⟨config, kind, generator, self, ⟨caught, some clause⟩ :: rest, loops⟩, call =>
    (if caught then plain .endTry else nil)
      ++ (plain .endTry
        ++ delay fun _ => block (call (.stmts clause) ⟨config, kind, generator, self, rest, loops⟩))
      ++ call (.unwind n) ⟨config, kind, generator, self, rest, loops⟩

/-- One call, where any call can be answered. -/
def visit (call : Task → Setting → Draft) (t : Task) (s : Setting) : Draft :=
  visitBelow t s fun t s _ => call t s

/-! ### The walk -/

/-- The walk with at most `n` calls inside one another; `exhausted` stands where one more is made. -/
def walk (exhausted : Draft) : Nat → Task → Setting → Draft
  | 0 => fun _ _ => exhausted
  | n + 1 => visit (walk exhausted n)

/-- The code object of a program, compiled with at most `n` calls inside one another. -/
def compileWithin (exhausted : Draft) (n : Nat) (config : Config) (program : List Stmt) :
    Except Error CodeObject :=
  match assemble (walk exhausted n (.stmts program) { config } ++ returnNil).script
      (Assembler.start config) with
  | .ok c _ => .ok c
  | .error e _ => .error e

/-! ### Lowering answers every call -/

namespace Setting

/-- The cleanups of some regions, as drafts. -/
def lowered (base : Context) : List Protection → List Region
  | [] => []
  | r :: rest =>
    ⟨r.catchInstalled, Stmt.lowerBlock? r.cleanup { base with regions := lowered base rest }⟩
      :: lowered base rest

/-- The context that a setting stands for. -/
def context (s : Setting) : Context :=
  { s.bare with regions := lowered s.bare s.regions, loops := s.loops }

end Setting

/-- What the lowering makes of a task. -/
def Task.lowered : Task → Setting → Draft
  | .expr e terminal, s => e.lower s.context terminal
  | .exprOr e terminal, s => Expr.lowerOr e s.context terminal
  | .exprs items, s => Expr.lowerAll items s.context
  | .tests values x l, s => Expr.lowerTests values s.context x l
  | .args items call line names, s => Arg.lower items s.context call line names
  | .entries items, s => Entry.lower items s.context
  | .armTests arms x first, s => Arm.lowerTests arms s.context x first
  | .armResults arms terminal first done, s => Arm.lowerResults arms s.context terminal first done
  | .function f binding line, s => f.lower s.context binding line
  | .params items i, s => Param.lower items s.context i
  | .body items, s => Stmt.lowerBody items s.context
  | .stmt item, s => item.lower s.context
  | .stmts items, s => Stmt.lowerAll items s.context
  | .optional item, s => Stmt.lowerOptional item s.context
  | .fallback items, s =>
    match Stmt.lowerBlock? items s.context with
    | some clause => clause s.context.loops
    | none => nil
  | .form f line, s => f.lower s.context line
  | .condition e done, s => Expr.lowerCondition e s.context done
  | .effect e, s => Expr.lowerEffect e s.context
  | .caseTests items x first, s => Case.lowerTests items s.context x first
  | .caseBodies items first done, s => Case.lowerBodies items s.context first done
  | .unwind n, s => StackCode.unwind s.loops n s.context.regions

namespace Setting

theorem length_lowered (base : Context) (regions : List Protection) :
    (lowered base regions).length = regions.length := by
  induction regions with
  | nil => rfl
  | cons r rest ih => rw [lowered, List.length_cons, List.length_cons, ih]

variable (s : Setting)

theorem length_regions : s.context.regions.length = s.regions.length :=
  length_lowered s.bare s.regions

theorem loops_context : s.context.loops = s.loops := rfl

theorem isTerminal_context : s.context.isTerminal = s.regions.isEmpty := by
  obtain ⟨config, kind, generator, self, regions, loops⟩ := s
  cases regions with
  | nil => rfl
  | cons r rest => rfl

theorem context_inLoop (breakTo : Label) (continueTo : Option Label) :
    (s.inLoop breakTo continueTo).context = s.context.inLoop breakTo continueTo := by
  rw [Context.inLoop, length_regions]
  rfl

/-- A cleanup does not depend on the loops around its region. -/
theorem context_inRegion (caught : Bool) (cleanup : Option (List Stmt)) :
    (s.inRegion caught cleanup).context
      = s.context.inRegion caught (Stmt.lowerBlock? cleanup s.context) := by
  cases cleanup with
  | none => rfl
  | some clause => rfl

end Setting

theorem visitExpr_lowered (e : Expr) (terminal : Bool) (s : Setting) :
    visitExpr e terminal s (fun t s _ => t.lowered s) = e.lower s.context terminal := by
  cases e with
  | assign line target value =>
    cases target with
    | name x => cases value <;> rfl
    | _ => rfl
  | _ => rfl

theorem visitForm_lowered (form : StmtForm) (line : Nat) (s : Setting) :
    visitForm form line s (fun t s _ => t.lowered s) = form.lower s.context line := by
  cases form with
  | expr e => rfl
  | var x init =>
    cases init with
    | none => rfl
    | some e => cases e <;> rfl
  | block body => rfl
  | ifElse cond thenS elseS => cases elseS <;> rfl
  | whileDo cond body =>
    simp only [visitForm, Task.lowered, StmtForm.lower, Setting.context_inLoop]
  | forLoop init cond afterwards body =>
    simp only [visitForm, Task.lowered, StmtForm.lower, Setting.context_inLoop]
  | forIn x iterable body =>
    simp only [visitForm, Task.lowered, StmtForm.lower, Setting.context_inLoop]
  | breakLoop =>
    simp only [visitForm, StmtForm.lower, lowerBreak, Context.unwindTo, Setting.length_regions]
    obtain ⟨config, kind, generator, self, regions, loops⟩ := s
    cases loops <;> rfl
  | continueLoop =>
    simp only [visitForm, StmtForm.lower, lowerContinue, Context.unwindTo, Setting.length_regions,
      Setting.loops_context]
    cases continuable? s.loops <;> rfl
  | ret value =>
    cases value with
    | none =>
      simp only [visitForm, StmtForm.lower, Context.returnTop, Context.unwindTo,
        Setting.length_regions]
      rfl
    | some e =>
      simp only [visitForm, StmtForm.lower, Context.returnTop, Context.unwindTo,
        Setting.length_regions, Setting.isTerminal_context]
      rfl
  | throw e => rfl
  | tryCatch body handler cleanup =>
    obtain _ | ⟨x, clause⟩ := handler
    · cases cleanup with
      | none => rfl
      | some cleanup =>
        simp only [visitForm, Task.lowered, StmtForm.lower, Setting.context_inRegion]
        rfl
    · cases cleanup with
      | none =>
        simp only [visitForm, Task.lowered, StmtForm.lower, Setting.context_inRegion]
        rfl
      | some cleanup =>
        simp only [visitForm, Task.lowered, StmtForm.lower, Setting.context_inRegion]
        rfl
  | switch subject cases default =>
    cases default <;>
      simp only [visitForm, Task.lowered, StmtForm.lower, Setting.context_inLoop, Stmt.lowerBlock?]
  | function x f => rfl
  | classDef x parent body => rfl
  | namespaceDef x body => rfl

theorem visitBelow_lowered (t : Task) (s : Setting) :
    visitBelow t s (fun t s _ => t.lowered s) = t.lowered s := by
  cases t with
  | expr e terminal => exact visitExpr_lowered e terminal s
  | form form line => exact visitForm_lowered form line s
  | exprOr e terminal => cases e <;> rfl
  | exprs items => cases items <;> rfl
  | tests values x l => cases values <;> rfl
  | args items call line names =>
    cases items with
    | nil => rfl
    | cons a rest => cases a <;> rfl
  | entries items =>
    cases items with
    | nil => rfl
    | cons entry rest => cases entry <;> rfl
  | armTests arms x first =>
    cases arms with
    | nil => rfl
    | cons arm rest => cases arm; rfl
  | armResults arms terminal first done =>
    cases arms with
    | nil => rfl
    | cons arm rest => cases arm; rfl
  | function f binding line =>
    obtain ⟨params, variadic, generator, body⟩ := f
    simp only [visitBelow, Task.lowered, Function.lower]
    cases firstRepeated? [] (params.map Param.name) <;> rfl
  | params items i =>
    cases items with
    | nil => rfl
    | cons param rest =>
      obtain ⟨x, default⟩ := param
      cases default <;> rfl
  | body items =>
    cases items with
    | nil => rfl
    | cons stmt rest =>
      obtain ⟨line, form⟩ := stmt
      cases rest with
      | nil => cases form <;> rfl
      | cons next rest => cases form <;> rfl
  | stmt item => cases item; rfl
  | stmts items => cases items <;> rfl
  | optional item => cases item <;> rfl
  | fallback items => cases items <;> rfl
  | condition e done => cases e <;> rfl
  | effect e => cases e <;> rfl
  | caseTests items x first =>
    cases items with
    | nil => rfl
    | cons case rest => cases case; rfl
  | caseBodies items first done =>
    cases items with
    | nil => rfl
    | cons case rest => cases case; rfl
  | unwind n =>
    obtain ⟨config, kind, generator, self, regions, loops⟩ := s
    cases n with
    | zero => rfl
    | succ n =>
      cases regions with
      | nil => rfl
      | cons r rest =>
        obtain ⟨caught, cleanup⟩ := r
        cases cleanup <;> rfl

/-! ### The result -/

variable {exhausted : Draft} {t : Task} {s : Setting}

/-- A call is answered by the calls that cost less. -/
theorem visit_congr {call call' : Task → Setting → Draft}
    (h : ∀ t' s', t'.cost s' < t.cost s → call t' s' = call' t' s') :
    visit call t s = visit call' t s := by
  have hbelow : (fun t' s' (_ : t'.cost s' < t.cost s) => call t' s') = fun t' s' _ => call' t' s' :=
    funext fun t' => funext fun s' => funext fun hlt => h t' s' hlt
  exact congrArg (visitBelow t s) hbelow

/-- A walk that may go as deep as the cost of a task lowers the task. -/
theorem walk_eq_lowered {n : Nat} (h : t.cost s < n) : walk exhausted n t s = t.lowered s := by
  induction n generalizing t s with
  | zero => exact absurd h (Nat.not_lt_zero _)
  | succ n ih =>
    calc visit (walk exhausted n) t s = visit Task.lowered t s :=
          visit_congr fun t' s' hlt => ih (by omega)
      _ = t.lowered s := visitBelow_lowered t s

/-- The walk of the tree ends. Each call costs more than the calls that it makes: no other answers matter to
it. So a walk that may go as deep as the cost of its first call never goes too deep, in any setting and
whatever it would do then. A program is compiled by any such walk as it is compiled without a limit. -/
theorem walk_settles :
    (∀ (call call' : Task → Setting → Draft) (t : Task) (s : Setting),
        (∀ t' s', t'.cost s' < t.cost s → call t' s' = call' t' s') → visit call t s = visit call' t s)
      ∧ (∀ (exhausted : Draft) (n : Nat) (t : Task) (s : Setting),
        t.cost s < n → walk exhausted n t s = t.lowered s)
      ∧ ∀ (exhausted : Draft) (n : Nat) (config : Config) (program : List Stmt),
        sizeOf program < n → compileWithin exhausted n config program = compile config program := by
  refine ⟨fun _ _ _ _ h => visit_congr h, fun _ _ _ _ h => walk_eq_lowered h, ?_⟩
  intro exhausted n config program h
  have hcost : (Task.stmts program).cost { config } < n := h
  rw [compileWithin, walk_eq_lowered hcost]
  rfl

theorem walk_settles_guardedLoop :
    ∃ c, compile .plain guardedLoop = .ok c ∧ ∀ exhausted n, sizeOf guardedLoop < n →
      compileWithin exhausted n .plain guardedLoop = .ok c := by
  have hok : (compile .plain guardedLoop).toOption.isSome = true := by decide +kernel
  obtain ⟨c, hc⟩ := Option.isSome_iff_exists.mp hok
  have hc := eq_ok_of_toOption hc
  exact ⟨c, hc, fun exhausted n h => (walk_settles.2.2 exhausted n .plain guardedLoop h).trans hc⟩

/-- A walk of ten calls is not deep enough: it ends in what stands for one more. -/
example : (compileWithin (refuse 7 .tryWithoutHandler) 10 .plain guardedLoop).toOption.isNone = true := by
  decide +kernel

end StackCode
