import StackCode.Program
import StackCode.Script
import StackCode.TailCalls

/-!
# From programs to scripts

Each form of the language is lowered to a draft of its script by recursion on the tree.

* `Context`: the unit, the loops and the protected regions around a node;
* `Expr.lower`, `Stmt.lower`, `Function.lower`, …;
* `Program.script`: the script of a whole program.

A jump out of a protected region has to take the handlers of the region down and to run its cleanup.
The region in the context therefore carries the cleanup as a draft that is lowered again at each
exit: it sees the loops around the exit, and only the regions around its own. Cleanups nested in one
another can multiply the script, so each is worked out only when the script comes to the exit.

An expression is lowered as *terminal* when its value is what the function returns. A terminal call
of the function to itself becomes a tail call, and then nothing remains to be returned.

The entries of a literal and the arguments of a call are counted by the lengths of their lists. The
machine counts them with words of 32 bits, which are the lengths below 2^32.
-/

namespace StackCode

open Draft

/-! ### Contexts -/

/-- A construct that can be left early. -/
structure Loop where
  breakTo : Label
  /-- Absent for a switch, which `continue` passes over. -/
  continueTo : Option Label
  /-- How many protected regions there are around it. -/
  depth : Nat

/-- A protected region. -/
structure Region where
  /-- Whether the handler of its catch clause is installed. -/
  catchInstalled : Bool
  /-- The cleanup to run on the way out, given the loops around the exit. -/
  cleanup : Option (List Loop → Draft)

/-- What surrounds a node. -/
structure Context where
  config : Config
  kind : ScopeKind := .global
  generator : Bool := false
  /-- The name by which the function calls itself. -/
  self : Option String := none
  /-- The protected regions of the unit, innermost first. -/
  regions : List Region := []
  /-- The loops and switches of the unit, innermost first. -/
  loops : List Loop := []

namespace Context

/-- Whether an expression that is `terminal` is a tail call. With no region open these are the tail sites
of the function. -/
def isTail (ctx : Context) (terminal : Bool) (e : Expr) : Bool :=
  terminal && ctx.self.any fun name => e.isCallOf name

/-- Whether the value of a `return` here is what the function returns at once. -/
def isTerminal (ctx : Context) : Bool := ctx.regions.isEmpty

/-- The context inside a loop. -/
def inLoop (ctx : Context) (breakTo : Label) (continueTo : Option Label) : Context :=
  { ctx with loops := ⟨breakTo, continueTo, ctx.regions.length⟩ :: ctx.loops }

/-- The context inside a protected region. -/
def inRegion (ctx : Context) (catchInstalled : Bool) (cleanup : Option (List Loop → Draft)) :
    Context :=
  { ctx with regions := ⟨catchInstalled, cleanup⟩ :: ctx.regions }

/-- The context inside the body of a class or a namespace. -/
def inObject (ctx : Context) : Context := { config := ctx.config, kind := .object }

/-- The context inside a function. -/
def inFunction (ctx : Context) (binding : Option String) (f : Function) : Context :=
  { config := ctx.config
    kind := .function
    generator := f.generator
    self := binding.filter fun name => ctx.config.tailCalls && f.bindsSelf name }

end Context

/-! ### Pieces of scripts -/

/-- The program is refused at a line. -/
def refuse (line : Nat) (cause : Misuse) : Draft := final (.fail (.misuse line cause))

/-- Marks a line. Where lines are marked, one that is beyond the operand field ends the script. -/
def markLine (ctx : Context) (line : Nat) : Draft :=
  if ctx.config.lineMarkers && Instruction.maxUnsigned < line then final (.markLine line)
  else step (.markLine line)

/-- An instruction without an operand. -/
def plain (op : Opcode) : Draft := step (.op op)

def jump (op : Opcode) (l : Label) : Draft := step (.jump op l)

def place (l : Label) : Draft := step (.place l)

/-- The end of a unit that returns nil. -/
def returnNil : Draft := plain .pushNil ++ plain .ret

/-- Declares a variable and stores the value on top of the stack into it. -/
def declareAndStore (name : String) : Draft := step (.declare name) ++ step (.slot .storeLocal name)

/-- In a function, a declared name has its slot before the declaration is lowered, which can thus
refer to itself. -/
def predeclare (ctx : Context) (name : String) : Draft :=
  match ctx.kind with
  | .function => step (.declare name)
  | .global => nil
  | .object => nil

/-- Binds the value on top of the stack to a declared name. -/
def bindDeclared (ctx : Context) (name : String) : Draft :=
  match ctx.kind with
  | .global => step (.named .storeGlobal name)
  | .object => step (.named .defineMember name)
  | .function => step (.slot .storeLocal name)

def BinaryOp.opcode : BinaryOp → Opcode
  | add => .add
  | sub => .sub
  | mul => .mul
  | div => .div
  | mod => .mod
  | pow => .pow
  | concat => .concat
  | eq => .eq
  | ne => .ne
  | lt => .lt
  | le => .le
  | gt => .gt
  | ge => .ge
  | bitAnd => .bitAnd
  | bitOr => .bitOr
  | bitXor => .bitXor
  | shl => .shl
  | shr => .shr

def UnaryOp.opcode : UnaryOp → Opcode
  | neg => .neg
  | not => .not
  | bitNot => .bitNot

/-- The jump over the right side of an operator; it keeps the left value where it jumps. -/
def LogicalOp.opcode : LogicalOp → Opcode
  | and => .jumpFalseOrPop
  | or => .jumpTrueOrPop

/-- Nil and the truth values have operations of their own. -/
def Value.lower : Value → Draft
  | nil => plain .pushNil
  | bool true => plain .pushTrue
  | bool false => plain .pushFalse
  | v => step (.loadConst v)

/-! ### Leaving protected regions -/

/-- Leaves the `n` innermost of the given regions: their handlers are taken down and their cleanups
run. -/
def unwind (loops : List Loop) : Nat → List Region → Draft
  | n + 1, r :: rest =>
    (if r.catchInstalled then plain .endTry else nil)
      ++ (match r.cleanup with
        | some cleanup => plain .endTry ++ delay fun _ => cleanup loops
        | none => nil)
      ++ unwind loops n rest
  | _, _ => nil

/-- Leaves all regions but the `depth` outermost ones. -/
def Context.unwindTo (ctx : Context) (depth : Nat) : Draft :=
  unwind ctx.loops (ctx.regions.length - depth) ctx.regions

/-- Leaves the innermost loop or switch. -/
def lowerBreak (ctx : Context) (line : Nat) : Draft :=
  match ctx.loops with
  | [] => refuse line (.outsideLoop "break")
  | l :: _ => ctx.unwindTo l.depth ++ jump .jump l.breakTo

/-- The innermost loop that can be continued. -/
def continuable? : List Loop → Option (Label × Nat)
  | [] => none
  | l :: rest =>
    match l.continueTo with
    | some label => some (label, l.depth)
    | none => continuable? rest

/-- Continues the innermost loop. -/
def lowerContinue (ctx : Context) (line : Nat) : Draft :=
  match continuable? ctx.loops with
  | none => refuse line (.outsideLoop "continue")
  | some (label, depth) => ctx.unwindTo depth ++ jump .jump label

/-- Returns the value on top of the stack. -/
def Context.returnTop (ctx : Context) : Draft := ctx.unwindTo 0 ++ plain .ret

/-- Runs a body under the handler of a catch clause, if there is one.

      TRY_CATCH handler; body; END_TRY; JUMP done; handler: clause; done: -/
def guarded (handler : Option Draft) (body : Draft) : Draft :=
  match handler with
  | none => body
  | some clause =>
    withLabel fun h =>
      jump .tryCatch h ++ body ++ plain .endTry
        ++ withLabel fun done => jump .jump done ++ place h ++ step .receive ++ clause ++ place done

/-- Runs a body and then a cleanup, if there is one, however the body ends.

      TRY_FINALLY cleanup; body; END_TRY; cleanup: clause; END_FINALLY -/
def cleaned (cleanup : Option Draft) (body : Draft) : Draft :=
  match cleanup with
  | none => body
  | some clause =>
    withLabel fun l =>
      jump .tryFinally l ++ body ++ plain .endTry ++ place l ++ clause ++ plain .endFinally

/-! ### Argument lists -/

/-- A call with named arguments, which ends the script when it has too many of one kind. -/
def callNamedOp (positional named : Nat) : Draft :=
  let call := Step.pair .callNamed positional named
  if Instruction.maxPair < positional || Instruction.maxPair < named then final call else step call

/-- How a call takes its arguments: plain ones are counted, named ones are counted apart. -/
def callOp (args : List Arg) (tail : Bool) : Draft :=
  let named := args.countP Arg.isNamed
  let positional := args.length - named
  if tail then step (.count .tailCall positional)
  else if 0 < named then callNamedOp positional named
  else step (.count .call positional)

/-- How a method call takes its arguments, which cannot be named. -/
def methodOp (args : List Arg) (line : Nat) : Draft :=
  if args.any Arg.isNamed then refuse line .namedOnMethod
  else step (.count .callMethod args.length)

/-- An argument list, unless it mixes spread and named arguments. -/
def unmixed (args : List Arg) (call : String) (line : Nat) (body : Draft) : Draft :=
  if args.any Arg.isSpread && args.any Arg.isNamed then refuse line (.spreadWithNamed call)
  else body

/-- The first name that occurs for a second time. -/
def firstRepeated? (seen : List String) : List String → Option String
  | [] => none
  | x :: xs => if seen.contains x then some x else firstRepeated? (x :: seen) xs

/-- How a function is called. -/
def Function.signature : Function → Signature
  | .mk params variadic generator _ =>
    { params := params.map Param.name
      variadic
      generator
      defaults := params.any fun p => p.default.isSome }

/-! ### The lowering -/

mutual

def Expr.lower : Expr → Context → Bool → Draft
  | .literal v, _, _ => v.lower
  | .name x, _, _ => step (.loadName x)
  | .this, _, _ => plain .pushThis
  | .assign _ (.name x) (.function line f), ctx, _ =>
    f.lower ctx (some x) line ++ plain .dup ++ step (.storeName x)
  | .assign _ (.name x) value, ctx, _ =>
    value.lower ctx false ++ plain .dup ++ step (.storeName x)
  | .assign _ (.member object x) value, ctx, _ =>
    object.lower ctx false ++ value.lower ctx false ++ step (.named .setMember x)
  | .assign _ (.index object index) value, ctx, _ =>
    object.lower ctx false ++ index.lower ctx false ++ value.lower ctx false ++ plain .setIndex
  | .assign line target _, _, _ => refuse line (.assignmentTarget target.construct)
  | .binary op lhs rhs, ctx, _ =>
    lhs.lower ctx false ++ rhs.lower ctx false ++ plain op.opcode
  | .logical op lhs rhs, ctx, _ =>
    withLabel fun done =>
      lhs.lower ctx false ++ jump op.opcode done ++ rhs.lower ctx false ++ place done
  | .unary op operand, ctx, _ => operand.lower ctx false ++ plain op.opcode
  | .call line callee args, ctx, terminal =>
    callee.lower ctx false
      ++ unmixed args "call" line (Arg.lower args ctx "call" line [])
      ++ callOp args (ctx.isTail terminal (.call line callee args))
  | .methodCall line object x args, ctx, _ =>
    object.lower ctx false ++ step (.named .getMethod x)
      ++ unmixed args "method call" line (Arg.lower args ctx "method call" line [])
      ++ methodOp args line
  | .member object x, ctx, _ => object.lower ctx false ++ step (.named .getMember x)
  | .index object index, ctx, _ =>
    object.lower ctx false ++ index.lower ctx false ++ plain .getIndex
  | .array items, ctx, _ => Expr.lowerAll items ctx ++ step (.count .newArray items.length)
  | .map entries, ctx, _ => Entry.lower entries ctx ++ step (.count .newMap entries.length)
  | .function line f, ctx, _ => f.lower ctx none line
  | .conditional cond thenE elseE, ctx, terminal =>
    withLabel fun other => withLabel fun done =>
      cond.lower ctx false ++ jump .jumpFalse other
        ++ thenE.lower ctx terminal ++ jump .jump done
        ++ place other ++ elseE.lower ctx terminal ++ place done
  | .case subject arms default, ctx, terminal =>
    block (subject.lower ctx false ++ withHidden "case" fun x =>
      declareAndStore x ++ withLabel fun done => withLabels arms.length fun first =>
        Arm.lowerTests arms ctx x first
          ++ Expr.lowerOr default ctx terminal ++ jump .jump done
          ++ Arm.lowerResults arms ctx terminal first done ++ place done)
  | .yield line value, ctx, _ =>
    if ctx.generator then Expr.lowerOr value ctx false ++ plain .yield
    else refuse line .yieldOutsideGenerator

/-- An expression that may be missing; then its value is nil. -/
def Expr.lowerOr : Option Expr → Context → Bool → Draft
  | none, _, _ => plain .pushNil
  | some e, ctx, terminal => e.lower ctx terminal

def Expr.lowerAll : List Expr → Context → Draft
  | [], _ => nil
  | e :: rest, ctx => e.lower ctx false ++ Expr.lowerAll rest ctx

/-- The tests whether the variable `x` equals one of the values; success jumps to `l`. -/
def Expr.lowerTests : List Expr → Context → String → Label → Draft
  | [], _, _, _ => nil
  | e :: rest, ctx, x, l =>
    step (.slot .loadLocal x) ++ e.lower ctx false ++ plain .eq ++ jump .jumpTrue l
      ++ Expr.lowerTests rest ctx x l

/-- Arguments in order; `names` are the named ones so far. -/
def Arg.lower : List Arg → Context → String → Nat → List String → Draft
  | [], _, _, _, _ => nil
  | .positional e :: rest, ctx, call, line, names =>
    if names.isEmpty then e.lower ctx false ++ Arg.lower rest ctx call line names
    else refuse line (.positionalAfterNamed call)
  | .spread e :: rest, ctx, call, line, names =>
    if names.isEmpty then
      e.lower ctx false ++ plain .spread ++ Arg.lower rest ctx call line names
    else refuse line (.positionalAfterNamed call)
  | .named x e :: rest, ctx, call, line, names =>
    if names.contains x then refuse line (.duplicateArgument call x)
    else
      step (.loadConst (.string x)) ++ e.lower ctx false
        ++ Arg.lower rest ctx call line (x :: names)

def Entry.lower : List Entry → Context → Draft
  | [], _ => nil
  | .named x v :: rest, ctx =>
    step (.loadConst (.string x)) ++ v.lower ctx false ++ Entry.lower rest ctx
  | .computed k v :: rest, ctx =>
    k.lower ctx false ++ v.lower ctx false ++ Entry.lower rest ctx

/-- The tests of all arms; the arms have consecutive labels. -/
def Arm.lowerTests : List Arm → Context → String → Label → Draft
  | [], _, _, _ => nil
  | .mk values _ :: rest, ctx, x, l =>
    Expr.lowerTests values ctx x l ++ Arm.lowerTests rest ctx x (l + 1)

/-- The results of all arms, each followed by a jump to `done`. -/
def Arm.lowerResults : List Arm → Context → Bool → Label → Label → Draft
  | [], _, _, _, _ => nil
  | .mk _ result :: rest, ctx, terminal, l, done =>
    place l ++ result.lower ctx terminal ++ jump .jump done
      ++ Arm.lowerResults rest ctx terminal (l + 1) done

/-- A function that is going to be bound to the name `binding`, if any. -/
def Function.lower : Function → Context → Option String → Nat → Draft
  | .mk params variadic generator body, ctx, binding, line =>
    let f := Function.mk params variadic generator body
    match firstRepeated? [] (params.map Param.name) with
    | some x => refuse line (.duplicateParameter x)
    | none =>
      let inner := ctx.inFunction binding f
      unit .makeClosure .function f.signature
        (Param.lower params inner 0 ++ Stmt.lowerBody body inner)

/-- The defaults of the parameters from number `i` on.

      HAS_ARG i; JUMP_TRUE skip; default; STORE_LOCAL i; skip: PARAM_END i -/
def Param.lower : List Param → Context → Nat → Draft
  | [], _, _ => nil
  | .mk _ none :: rest, ctx, i => Param.lower rest ctx (i + 1)
  | .mk x (some e) :: rest, ctx, i =>
    (withLabel fun skip =>
      step (.count .hasArg i) ++ jump .jumpTrue skip ++ e.lower ctx false
        ++ step (.slot .storeLocal x) ++ place skip ++ step (.count .paramEnd i))
      ++ Param.lower rest ctx (i + 1)

/-- The body of a function. An expression that ends it is its value; otherwise it returns nil. -/
def Stmt.lowerBody : List Stmt → Context → Draft
  | [], _ => returnNil
  | [.mk line (.expr e)], ctx =>
    markLine ctx line ++ e.lower ctx true
      ++ (if ctx.isTail true e then nil else plain .ret)
  | [.mk line (.ret value)], ctx => markLine ctx line ++ (StmtForm.ret value).lower ctx line
  | [.mk line form], ctx => markLine ctx line ++ form.lower ctx line ++ returnNil
  | s :: rest, ctx => s.lower ctx ++ Stmt.lowerBody rest ctx

def Stmt.lower : Stmt → Context → Draft
  | .mk line form, ctx => markLine ctx line ++ form.lower ctx line

def Stmt.lowerAll : List Stmt → Context → Draft
  | [], _ => nil
  | s :: rest, ctx => s.lower ctx ++ Stmt.lowerAll rest ctx

def Stmt.lowerOptional : Option Stmt → Context → Draft
  | none, _ => nil
  | some s, ctx => s.lower ctx

/-- Statements that may be missing, in a block of their own. -/
def Stmt.lowerBlock? : Option (List Stmt) → Context → Option (List Loop → Draft)
  | none, _ => none
  | some body, ctx => some fun loops => block (Stmt.lowerAll body { ctx with loops })

/-- A statement of the given form on a given line. -/
def StmtForm.lower : StmtForm → Context → Nat → Draft
  | .expr e, ctx, _ => e.lower ctx false ++ step .discard
  | .var x none, _, _ => plain .pushNil ++ declareAndStore x
  | .var x (some (.function line f)), ctx, _ =>
    step (.declare x) ++ f.lower ctx (some x) line ++ step (.slot .storeLocal x)
  | .var x (some e), ctx, _ => e.lower ctx false ++ declareAndStore x
  | .block body, ctx, _ => block (Stmt.lowerAll body ctx)
  | .ifElse cond thenS none, ctx, _ =>
    withLabel fun other =>
      cond.lower ctx false ++ jump .jumpFalse other ++ block (thenS.lower ctx) ++ place other
  | .ifElse cond thenS (some elseS), ctx, _ =>
    withLabel fun other =>
      cond.lower ctx false ++ jump .jumpFalse other ++ block (thenS.lower ctx)
        ++ withLabel fun done =>
          jump .jump done ++ place other ++ block (elseS.lower ctx) ++ place done
  | .whileDo cond body, ctx, _ =>
    withLabel fun top => withLabel fun done =>
      place top ++ cond.lower ctx false ++ jump .jumpFalse done
        ++ block (body.lower (ctx.inLoop done (some top)))
        ++ jump .jump top ++ place done
  | .forLoop init cond afterwards body, ctx, _ =>
    block (Stmt.lowerOptional init ctx
      ++ withLabel fun top => withLabel fun next => withLabel fun done =>
        place top ++ Expr.lowerCondition cond ctx done
          ++ block (body.lower (ctx.inLoop done (some next)))
          ++ place next ++ Expr.lowerEffect afterwards ctx
          ++ jump .jump top ++ place done)
  | .forIn x iterable body, ctx, _ =>
    block (iterable.lower ctx false ++ plain .iter ++ withHidden "iter" fun it =>
      declareAndStore it ++ withLabel fun next => withLabel fun done =>
        place next ++ step (.slot .loadLocal it) ++ jump .forIter done
          ++ declareAndStore x
          ++ block (body.lower (ctx.inLoop done (some next)))
          ++ jump .jump next ++ place done)
  | .breakLoop, ctx, line => lowerBreak ctx line
  | .continueLoop, ctx, line => lowerContinue ctx line
  | .ret none, ctx, line =>
    if ctx.kind = .function then plain .pushNil ++ ctx.returnTop
    else refuse line .returnOutsideFunction
  | .ret (some e), ctx, line =>
    if ctx.kind = .function then
      e.lower ctx ctx.isTerminal
        ++ (if ctx.isTail ctx.isTerminal e then nil else ctx.returnTop)
    else refuse line .returnOutsideFunction
  | .throw e, ctx, _ => e.lower ctx false ++ plain .throw
  | .tryCatch body handler cleanup, ctx, line =>
    if handler.isNone && cleanup.isNone then refuse line .tryWithoutHandler
    else
      let clause := Stmt.lowerBlock? cleanup ctx
      step .protect
        ++ cleaned (clause.map (· ctx.loops))
            (guarded (Catch.lower handler (ctx.inRegion false clause))
              (block (Stmt.lowerAll body (ctx.inRegion handler.isSome clause))))
  | .switch subject cases default, ctx, _ =>
    block (subject.lower ctx false ++ withHidden "switch" fun x =>
      declareAndStore x ++ withLabel fun done => withLabels cases.length fun first =>
        let inner := ctx.inLoop done none
        Case.lowerTests cases ctx x first
          ++ withLabel fun fallback =>
            jump .jump fallback ++ Case.lowerBodies cases inner first done
              ++ place fallback
              ++ (match Stmt.lowerBlock? default inner with
                | some body => body inner.loops
                | none => nil)
              ++ place done)
  | .function x f, ctx, line =>
    predeclare ctx x
      ++ f.lower ctx (if ctx.kind = .object then none else some x) line
      ++ bindDeclared ctx x
  | .classDef x parent body, ctx, _ =>
    predeclare ctx x ++ Expr.lowerOr parent ctx false
      ++ unit .makeClass .object {} (Stmt.lowerAll body ctx.inObject ++ returnNil)
      ++ bindDeclared ctx x
  | .namespaceDef x body, ctx, _ =>
    predeclare ctx x
      ++ unit .makeNamespace .object {} (Stmt.lowerAll body ctx.inObject ++ returnNil)
      ++ bindDeclared ctx x

/-- A condition that may be missing; where it fails it jumps to `done`. -/
def Expr.lowerCondition : Option Expr → Context → Label → Draft
  | none, _, _ => nil
  | some e, ctx, done => e.lower ctx false ++ jump .jumpFalse done

/-- An expression that may be missing, evaluated for its effects. -/
def Expr.lowerEffect : Option Expr → Context → Draft
  | none, _ => nil
  | some e, ctx => e.lower ctx false ++ step .discard

/-- A catch clause: it starts with the exception on top of the stack. -/
def Catch.lower : Option Catch → Context → Option Draft
  | none, _ => none
  | some (.mk x body), ctx => some (block (declareAndStore x ++ Stmt.lowerAll body ctx))

/-- The tests of all cases; the cases have consecutive labels. -/
def Case.lowerTests : List Case → Context → String → Label → Draft
  | [], _, _, _ => nil
  | .mk values _ :: rest, ctx, x, l =>
    Expr.lowerTests values ctx x l ++ Case.lowerTests rest ctx x (l + 1)

/-- The bodies of all cases, each followed by a jump to `done`. -/
def Case.lowerBodies : List Case → Context → Label → Label → Draft
  | [], _, _, _ => nil
  | .mk _ body :: rest, ctx, l, done =>
    place l ++ block (Stmt.lowerAll body ctx) ++ jump .jump done
      ++ Case.lowerBodies rest ctx (l + 1) done

end

/-- The draft of a whole program. -/
def Program.draft (config : Config) (program : List Stmt) : Draft :=
  Stmt.lowerAll program { config } ++ returnNil

/-- The script of a whole program. -/
def Program.script (config : Config) (program : List Stmt) : Script :=
  (Program.draft config program).script

end StackCode
