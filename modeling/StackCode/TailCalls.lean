import StackCode.Program

/-!
# Tail calls of a function to itself

A call stands in tail position when its result is what the function returns: the value of a
`return`, the expression that ends the body, and from there down through the branches of
conditionals and the results of case expressions. It is a call of the function to itself when it
names the function, passes plain positional arguments, and the name means the function all through
the body.

* `Expr.isCallOf`, `Function.bindsSelf`: the two conditions on names;
* `CallSite`: a call, identified by the way from the function down to it;
* `Function.tailSites`: the calls in tail position;
* `Function.calls`: every call below a function, in the order of reading, and `Function.callReport`,
  which marks the ones in tail position.
-/

namespace StackCode

/-- Whether an expression is a call of `name` with positional arguments only. -/
def Expr.isCallOf (name : String) : Expr → Bool
  | call _ callee args => callee.asName? == some name && args.all Arg.isPositional
  | _ => false

/-! ### Names bound inside a body -/

mutual

/-- Whether a statement, nested units apart, gives `name` another meaning. -/
def Stmt.binds (name : String) : Stmt → Bool
  | .mk _ form => form.binds name

def StmtForm.binds (name : String) : StmtForm → Bool
  | .var x _ => x == name
  | .block body => Stmt.anyBinds name body
  | .ifElse _ thenS none => thenS.binds name
  | .ifElse _ thenS (some elseS) => thenS.binds name || elseS.binds name
  | .whileDo _ body => body.binds name
  | .forLoop none _ _ body => body.binds name
  | .forLoop (some init) _ _ body => init.binds name || body.binds name
  | .forIn x _ body => x == name || body.binds name
  | .tryCatch body handler cleanup =>
    Stmt.anyBinds name body || Catch.optionBinds name handler || Stmt.optionBinds name cleanup
  | .switch _ cases default => Case.anyBinds name cases || Stmt.optionBinds name default
  | .function x _ => x == name
  | .classDef x _ _ => x == name
  | .namespaceDef x _ => x == name
  | _ => false

def Stmt.anyBinds (name : String) : List Stmt → Bool
  | [] => false
  | s :: rest => s.binds name || Stmt.anyBinds name rest

def Stmt.optionBinds (name : String) : Option (List Stmt) → Bool
  | none => false
  | some body => Stmt.anyBinds name body

def Catch.optionBinds (name : String) : Option Catch → Bool
  | none => false
  | some (.mk x body) => x == name || Stmt.anyBinds name body

def Case.anyBinds (name : String) : List Case → Bool
  | [] => false
  | .mk _ body :: rest => Stmt.anyBinds name body || Case.anyBinds name rest

end

/-- Whether `name` means the function itself all through its body. Calls of a generator are never
calls in tail position. -/
def Function.bindsSelf (f : Function) (name : String) : Bool :=
  !f.generator && !f.params.any (·.name == name) && !Stmt.anyBinds name f.body

/-! ### Paths -/

/-- The numbers of the children on the way from a node down to another one. -/
abbrev Path := List Nat

/-- A call, identified by its path, and its line. -/
structure CallSite where
  path : Path
  line : Nat
  deriving DecidableEq, Repr

/-- Prolongs the paths of calls upwards by one child. -/
def under (child : Nat) (sites : List CallSite) : List CallSite :=
  sites.map fun s => { s with path := child :: s.path }

/-! ### Calls in tail position -/

mutual

/-- The calls of `name` whose result is that of the expression. -/
def Expr.tailSites (name : String) : Expr → List CallSite
  | .conditional _ thenE elseE =>
    under 1 (thenE.tailSites name) ++ under 2 (elseE.tailSites name)
  | .case _ arms default =>
    under 1 (Arm.tailSites name 0 arms) ++ under 2 (Expr.optionTailSites name default)
  | e@(.call line _ _) => if e.isCallOf name then [⟨[], line⟩] else []
  | _ => []

def Expr.optionTailSites (name : String) : Option Expr → List CallSite
  | none => []
  | some e => e.tailSites name

/-- The results of the arms from number `i` on. -/
def Arm.tailSites (name : String) (i : Nat) : List Arm → List CallSite
  | [] => []
  | .mk _ result :: rest =>
    under i (under 1 (result.tailSites name)) ++ Arm.tailSites name (i + 1) rest

end

mutual

/-- The tail calls of `name` in values that a statement returns, nested units apart. -/
def Stmt.returnSites (name : String) : Stmt → List CallSite
  | .mk _ form => form.returnSites name

def StmtForm.returnSites (name : String) : StmtForm → List CallSite
  | .ret (some e) => under 0 (e.tailSites name)
  | .block body => Stmt.listReturnSites name 0 body
  | .ifElse _ thenS none => under 1 (thenS.returnSites name)
  | .ifElse _ thenS (some elseS) =>
    under 1 (thenS.returnSites name) ++ under 2 (elseS.returnSites name)
  | .whileDo _ body => under 1 (body.returnSites name)
  | .forLoop none _ _ body => under 3 (body.returnSites name)
  | .forLoop (some init) _ _ body =>
    under 0 (init.returnSites name) ++ under 3 (body.returnSites name)
  | .forIn _ _ body => under 1 (body.returnSites name)
  | .tryCatch body handler cleanup =>
    under 0 (Stmt.listReturnSites name 0 body) ++ under 1 (Catch.returnSites name handler)
      ++ under 2 (Stmt.optionReturnSites name cleanup)
  | .switch _ cases default =>
    under 1 (Case.returnSites name 0 cases) ++ under 2 (Stmt.optionReturnSites name default)
  | _ => []

/-- The statements from number `i` on. -/
def Stmt.listReturnSites (name : String) (i : Nat) : List Stmt → List CallSite
  | [] => []
  | s :: rest => under i (s.returnSites name) ++ Stmt.listReturnSites name (i + 1) rest

def Stmt.optionReturnSites (name : String) : Option (List Stmt) → List CallSite
  | none => []
  | some body => Stmt.listReturnSites name 0 body

def Catch.returnSites (name : String) : Option Catch → List CallSite
  | none => []
  | some (.mk _ body) => Stmt.listReturnSites name 0 body

/-- The bodies of the cases from number `i` on. -/
def Case.returnSites (name : String) (i : Nat) : List Case → List CallSite
  | [] => []
  | .mk _ body :: rest =>
    under i (under 1 (Stmt.listReturnSites name 0 body)) ++ Case.returnSites name (i + 1) rest

end

/-- The tail calls in the statements of a body from number `i` on; an expression that ends the body
is returned. -/
def Stmt.bodySites (name : String) (i : Nat) : List Stmt → List CallSite
  | [] => []
  | [.mk _ (.expr e)] => under i (under 0 (e.tailSites name))
  | s :: rest => under i (s.returnSites name) ++ Stmt.bodySites name (i + 1) rest

/-- The calls of a function, bound to `name`, to itself in tail position. -/
def Function.tailSites (f : Function) (name : String) : List CallSite :=
  if f.bindsSelf name then under 1 (Stmt.bodySites name 0 f.body) else []

/-! ### All calls -/

mutual

/-- Every call in an expression with its line, a call before what is inside it. -/
def Expr.calls : Expr → List CallSite
  | .assign _ target value => under 0 target.calls ++ under 1 value.calls
  | .binary _ lhs rhs => under 0 lhs.calls ++ under 1 rhs.calls
  | .logical _ lhs rhs => under 0 lhs.calls ++ under 1 rhs.calls
  | .unary _ operand => under 0 operand.calls
  | .call line callee args => ⟨[], line⟩ :: under 0 callee.calls ++ under 1 (Arg.calls 0 args)
  | .methodCall _ object _ args => under 0 object.calls ++ under 1 (Arg.calls 0 args)
  | .member object _ => under 0 object.calls
  | .index object index => under 0 object.calls ++ under 1 index.calls
  | .array items => Expr.listCalls 0 items
  | .map entries => Entry.calls 0 entries
  | .function _ f => f.calls
  | .conditional cond thenE elseE =>
    under 0 cond.calls ++ under 1 thenE.calls ++ under 2 elseE.calls
  | .case subject arms default =>
    under 0 subject.calls ++ under 1 (Arm.calls 0 arms) ++ under 2 (Expr.optionCalls default)
  | .yield _ value => under 0 (Expr.optionCalls value)
  | _ => []

def Expr.optionCalls : Option Expr → List CallSite
  | none => []
  | some e => e.calls

def Expr.listCalls (i : Nat) : List Expr → List CallSite
  | [] => []
  | e :: rest => under i e.calls ++ Expr.listCalls (i + 1) rest

def Arg.calls (i : Nat) : List Arg → List CallSite
  | [] => []
  | .positional e :: rest => under i e.calls ++ Arg.calls (i + 1) rest
  | .spread e :: rest => under i e.calls ++ Arg.calls (i + 1) rest
  | .named _ e :: rest => under i e.calls ++ Arg.calls (i + 1) rest

def Entry.calls (i : Nat) : List Entry → List CallSite
  | [] => []
  | .named _ v :: rest => under i (under 1 v.calls) ++ Entry.calls (i + 1) rest
  | .computed k v :: rest =>
    under i (under 0 k.calls ++ under 1 v.calls) ++ Entry.calls (i + 1) rest

def Arm.calls (i : Nat) : List Arm → List CallSite
  | [] => []
  | .mk values result :: rest =>
    under i (under 0 (Expr.listCalls 0 values) ++ under 1 result.calls) ++ Arm.calls (i + 1) rest

/-- The calls in the defaults of the parameters, then those in the body. -/
def Function.calls : Function → List CallSite
  | .mk params _ _ body => under 0 (Param.calls 0 params) ++ under 1 (Stmt.listCalls 0 body)

def Param.calls (i : Nat) : List Param → List CallSite
  | [] => []
  | .mk _ default :: rest => under i (Expr.optionCalls default) ++ Param.calls (i + 1) rest

def Stmt.calls : Stmt → List CallSite
  | .mk _ form => form.calls

def StmtForm.calls : StmtForm → List CallSite
  | .expr e => under 0 e.calls
  | .var _ init => under 0 (Expr.optionCalls init)
  | .block body => Stmt.listCalls 0 body
  | .ifElse cond thenS elseS =>
    under 0 cond.calls ++ under 1 thenS.calls ++ under 2 (Stmt.optionCalls elseS)
  | .whileDo cond body => under 0 cond.calls ++ under 1 body.calls
  | .forLoop init cond step body =>
    under 0 (Stmt.optionCalls init) ++ under 1 (Expr.optionCalls cond)
      ++ under 2 (Expr.optionCalls step) ++ under 3 body.calls
  | .forIn _ iterable body => under 0 iterable.calls ++ under 1 body.calls
  | .breakLoop => []
  | .continueLoop => []
  | .ret value => under 0 (Expr.optionCalls value)
  | .throw value => under 0 value.calls
  | .tryCatch body handler cleanup =>
    under 0 (Stmt.listCalls 0 body) ++ under 1 (Catch.calls handler)
      ++ under 2 (Stmt.optionListCalls cleanup)
  | .switch subject cases default =>
    under 0 subject.calls ++ under 1 (Case.calls 0 cases) ++ under 2 (Stmt.optionListCalls default)
  | .function _ f => f.calls
  | .classDef _ parent body => under 0 (Expr.optionCalls parent) ++ under 1 (Stmt.listCalls 0 body)
  | .namespaceDef _ body => under 1 (Stmt.listCalls 0 body)

def Stmt.optionCalls : Option Stmt → List CallSite
  | none => []
  | some s => s.calls

def Stmt.listCalls (i : Nat) : List Stmt → List CallSite
  | [] => []
  | s :: rest => under i s.calls ++ Stmt.listCalls (i + 1) rest

def Stmt.optionListCalls : Option (List Stmt) → List CallSite
  | none => []
  | some body => Stmt.listCalls 0 body

def Catch.calls : Option Catch → List CallSite
  | none => []
  | some (.mk _ body) => Stmt.listCalls 0 body

def Case.calls (i : Nat) : List Case → List CallSite
  | [] => []
  | .mk values body :: rest =>
    under i (under 0 (Expr.listCalls 0 values) ++ under 1 (Stmt.listCalls 0 body))
      ++ Case.calls (i + 1) rest

end

/-- The line of every call below a function bound to `name`, and whether it is a tail call of the
function to itself. -/
def Function.callReport (f : Function) (name : String) : List (Nat × Bool) :=
  let sites := f.tailSites name
  f.calls.map fun c => (c.line, sites.contains c)

end StackCode
