import StackCode.Lowering

/-!
# Valid programs

Whether a program makes sense, by recursion on its tree and without any regard to how it is compiled.

* `Site`: what may stand at a place of the tree;
* `Arg.listable`: argument lists;
* `Expr.valid`, `Stmt.valid`, `Function.valid`, …;
* `Program.valid`: a whole program.

A function starts anew: the loops around it are none of its own, and it is its own kind that tells
whether it may return or yield. The bodies of classes and namespaces start anew as well, and may do
neither. What a loop evaluates beside its body is outside the loop, and a cleanup is judged where it is
written.
-/

namespace StackCode

/-- What may stand at a place of the tree. -/
structure Site where
  /-- There is a loop or a switch to leave. -/
  breakable : Bool := false
  /-- There is a loop to continue. -/
  continuable : Bool := false
  /-- The unit is a function. -/
  returns : Bool := false
  /-- The unit is a generator. -/
  yields : Bool := false
  deriving DecidableEq, Repr

namespace Site

/-- Inside the body of a loop. -/
def inLoop (site : Site) : Site := { site with breakable := true, continuable := true }

/-- Inside the body of a switch. -/
def inSwitch (site : Site) : Site := { site with breakable := true }

/-- Inside a function. -/
def inFunction (generator : Bool) : Site := { returns := true, yields := generator }

end Site

/-! ### Argument lists -/

namespace Arg

/-- The name of a named argument. -/
def name? : Arg → Option String
  | named x _ => some x
  | _ => none

/-- Behind the first named argument there are only named ones. -/
def namedLast : List Arg → Bool
  | [] => true
  | a :: rest => if a.isNamed then rest.all isNamed else namedLast rest

/-- Spread and named arguments do not meet, named arguments come last, and no name comes twice. -/
def listable (args : List Arg) : Bool :=
  !(args.any isSpread && args.any isNamed) && namedLast args && decide (args.filterMap name?).Nodup

end Arg

/-- Whether the left side of an assignment is a place to store into. -/
def Expr.isPlace : Expr → Bool
  | name _ | member _ _ | index _ _ => true
  | _ => false

/-! ### Trees -/

mutual

def Expr.valid : Expr → Site → Bool
  | .literal _, _ | .name _, _ | .this, _ => true
  | .assign _ target value, site => target.isPlace && target.valid site && value.valid site
  | .binary _ lhs rhs, site | .logical _ lhs rhs, site => lhs.valid site && rhs.valid site
  | .unary _ operand, site => operand.valid site
  | .call _ callee args, site => callee.valid site && Arg.listable args && Arg.valid args site
  | .methodCall _ object _ args, site =>
    object.valid site && Arg.listable args && Arg.valid args site && !args.any Arg.isNamed
  | .member object _, site => object.valid site
  | .index object index, site => object.valid site && index.valid site
  | .array items, site => Expr.validAll items site
  | .map entries, site => Entry.valid entries site
  | .function _ f, _ => f.valid
  | .conditional cond thenE elseE, site =>
    cond.valid site && thenE.valid site && elseE.valid site
  | .case subject arms default, site =>
    subject.valid site && Arm.valid arms site && Expr.validOptional default site
  | .yield _ value, site => site.yields && Expr.validOptional value site

def Expr.validOptional : Option Expr → Site → Bool
  | none, _ => true
  | some e, site => e.valid site

def Expr.validAll : List Expr → Site → Bool
  | [], _ => true
  | e :: rest, site => e.valid site && Expr.validAll rest site

def Arg.valid : List Arg → Site → Bool
  | [], _ => true
  | .positional e :: rest, site | .spread e :: rest, site | .named _ e :: rest, site =>
    e.valid site && Arg.valid rest site

def Entry.valid : List Entry → Site → Bool
  | [], _ => true
  | .named _ v :: rest, site => v.valid site && Entry.valid rest site
  | .computed k v :: rest, site => k.valid site && v.valid site && Entry.valid rest site

def Arm.valid : List Arm → Site → Bool
  | [], _ => true
  | .mk values result :: rest, site =>
    Expr.validAll values site && result.valid site && Arm.valid rest site

/-- The defaults of the parameters are inside the function. -/
def Function.valid : Function → Bool
  | .mk params _ generator body =>
    decide (params.map Param.name).Nodup && Param.valid params (.inFunction generator)
      && Stmt.validAll body (.inFunction generator)

def Param.valid : List Param → Site → Bool
  | [], _ => true
  | .mk _ default :: rest, site => Expr.validOptional default site && Param.valid rest site

def Stmt.valid : Stmt → Site → Bool
  | .mk _ form, site => form.valid site

def Stmt.validAll : List Stmt → Site → Bool
  | [], _ => true
  | s :: rest, site => s.valid site && Stmt.validAll rest site

def Stmt.validOptional : Option Stmt → Site → Bool
  | none, _ => true
  | some s, site => s.valid site

/-- Statements that may be missing. -/
def Stmt.validBlock : Option (List Stmt) → Site → Bool
  | none, _ => true
  | some body, site => Stmt.validAll body site

def StmtForm.valid : StmtForm → Site → Bool
  | .expr e, site | .throw e, site => e.valid site
  | .var _ init, site => Expr.validOptional init site
  | .block body, site => Stmt.validAll body site
  | .ifElse cond thenS elseS, site =>
    cond.valid site && thenS.valid site && Stmt.validOptional elseS site
  | .whileDo cond body, site => cond.valid site && body.valid site.inLoop
  | .forLoop init cond afterwards body, site =>
    Stmt.validOptional init site && Expr.validOptional cond site && body.valid site.inLoop
      && Expr.validOptional afterwards site
  | .forIn _ iterable body, site => iterable.valid site && body.valid site.inLoop
  | .breakLoop, site => site.breakable
  | .continueLoop, site => site.continuable
  | .ret value, site => site.returns && Expr.validOptional value site
  | .tryCatch body handler cleanup, site =>
    (handler.isSome || cleanup.isSome) && Stmt.validAll body site && Catch.valid handler site
      && Stmt.validBlock cleanup site
  | .switch subject cases default, site =>
    subject.valid site && Case.valid cases site && Stmt.validBlock default site.inSwitch
  | .function _ f, _ => f.valid
  | .classDef _ parent body, site => Expr.validOptional parent site && Stmt.validAll body {}
  | .namespaceDef _ body, _ => Stmt.validAll body {}

def Catch.valid : Option Catch → Site → Bool
  | none, _ => true
  | some (.mk _ body), site => Stmt.validAll body site

/-- The values of the cases are outside the switch. -/
def Case.valid : List Case → Site → Bool
  | [], _ => true
  | .mk values body :: rest, site =>
    Expr.validAll values site && Stmt.validAll body site.inSwitch && Case.valid rest site

end

/-- Whether a whole program makes sense. -/
def Program.valid (program : List Stmt) : Bool := Stmt.validAll program {}

end StackCode
