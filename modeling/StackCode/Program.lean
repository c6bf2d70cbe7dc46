import StackCode.Value.Basic

/-!
# Programs

The tree of a program, as a front end hands it over.

* `Stmt` and `StmtForm`: a statement is a line and a form;
* `Expr`: expressions; those that a diagnostic can point at carry their line;
* `Function`, `Param`, `Arg`, `Entry`, `Arm`, `Case`, `Catch`: their parts;
* `Expr.construct`, `StmtForm.construct`: how diagnostics call a form.
-/

namespace StackCode

inductive BinaryOp where
  | add | sub | mul | div | mod | pow | concat
  | eq | ne | lt | le | gt | ge
  | bitAnd | bitOr | bitXor | shl | shr
  deriving DecidableEq, Repr

/-- The operators that evaluate their right side only when they need it. -/
inductive LogicalOp where
  | and | or
  deriving DecidableEq, Repr

inductive UnaryOp where
  | neg | not | bitNot
  deriving DecidableEq, Repr

mutual

inductive Expr where
  | literal (value : Value)
  | name (name : String)
  | this
  | assign (line : Nat) (target value : Expr)
  | binary (op : BinaryOp) (lhs rhs : Expr)
  | logical (op : LogicalOp) (lhs rhs : Expr)
  | unary (op : UnaryOp) (operand : Expr)
  | call (line : Nat) (callee : Expr) (args : List Arg)
  | methodCall (line : Nat) (object : Expr) (name : String) (args : List Arg)
  | member (object : Expr) (name : String)
  | index (object index : Expr)
  | array (items : List Expr)
  | map (entries : List Entry)
  | function (line : Nat) (f : Function)
  /-- `cond ? thenE : elseE`. -/
  | conditional (cond thenE elseE : Expr)
  /-- The result of the first arm with a value equal to the subject, else the default, else nil. -/
  | case (subject : Expr) (arms : List Arm) (default : Option Expr)
  | yield (line : Nat) (value : Option Expr)

/-- An argument of a call. -/
inductive Arg where
  | positional (value : Expr)
  /-- A collection that is expanded into several arguments. -/
  | spread (value : Expr)
  | named (name : String) (value : Expr)

/-- An entry of a map literal. -/
inductive Entry where
  | named (name : String) (value : Expr)
  | computed (key value : Expr)

/-- One arm of a case expression. -/
inductive Arm where
  | mk (values : List Expr) (result : Expr)

/-- A function literal; the last parameter of a variadic one collects the extra arguments. -/
inductive Function where
  | mk (params : List Param) (variadic generator : Bool) (body : List Stmt)

inductive Param where
  | mk (name : String) (default : Option Expr)

inductive Stmt where
  | mk (line : Nat) (form : StmtForm)

inductive StmtForm where
  /-- An expression evaluated for its effects. -/
  | expr (e : Expr)
  | var (name : String) (init : Option Expr)
  | block (body : List Stmt)
  | ifElse (cond : Expr) (thenS : Stmt) (elseS : Option Stmt)
  | whileDo (cond : Expr) (body : Stmt)
  | forLoop (init : Option Stmt) (cond step : Option Expr) (body : Stmt)
  | forIn (name : String) (iterable : Expr) (body : Stmt)
  | breakLoop
  | continueLoop
  | ret (value : Option Expr)
  | throw (value : Expr)
  | tryCatch (body : List Stmt) (handler : Option Catch) (cleanup : Option (List Stmt))
  /-- The body of the first case that has a value equal to the subject, else the default. -/
  | switch (subject : Expr) (cases : List Case) (default : Option (List Stmt))
  | function (name : String) (f : Function)
  | classDef (name : String) (parent : Option Expr) (body : List Stmt)
  | namespaceDef (name : String) (body : List Stmt)

inductive Catch where
  | mk (name : String) (body : List Stmt)

inductive Case where
  | mk (values : List Expr) (body : List Stmt)

end

instance : Inhabited Expr := ⟨.this⟩

instance : Inhabited Stmt := ⟨.mk 1 .breakLoop⟩

/-! ### Parts of nodes -/

def Function.params : Function → List Param
  | mk params _ _ _ => params

def Function.generator : Function → Bool
  | mk _ _ generator _ => generator

def Function.body : Function → List Stmt
  | mk _ _ _ body => body

def Param.name : Param → String
  | mk name _ => name

def Param.default : Param → Option Expr
  | mk _ default => default

/-- The name of a variable, when the expression is nothing else. -/
def Expr.asName? : Expr → Option String
  | name x => some x
  | _ => none

def Arg.isPositional : Arg → Bool
  | positional _ => true
  | _ => false

def Arg.isSpread : Arg → Bool
  | spread _ => true
  | _ => false

def Arg.isNamed : Arg → Bool
  | named _ _ => true
  | _ => false

/-! ### Constructs in diagnostics -/

/-- How diagnostics call an expression. -/
def Expr.construct : Expr → String
  | literal _ => "literal"
  | name _ => "identifier"
  | this => "this"
  | assign _ _ _ => "assignment"
  | binary _ _ _ => "binary operator"
  | logical _ _ _ => "logical operator"
  | unary _ _ => "unary operator"
  | call _ _ _ => "call"
  | methodCall _ _ _ _ => "method call"
  | member _ _ => "member access"
  | index _ _ => "index"
  | array _ => "array literal"
  | map _ => "map literal"
  | function _ _ => "function literal"
  | conditional _ _ _ => "conditional"
  | case _ _ _ => "case"
  | yield _ _ => "yield"

/-- How diagnostics call a statement. -/
def StmtForm.construct : StmtForm → String
  | expr _ => "expression statement"
  | var _ _ => "var"
  | block _ => "block"
  | ifElse _ _ _ => "if"
  | whileDo _ _ => "while"
  | forLoop _ _ _ _ => "for"
  | forIn _ _ _ => "for-in"
  | breakLoop => "break"
  | continueLoop => "continue"
  | ret _ => "return"
  | throw _ => "throw"
  | tryCatch _ _ _ => "try"
  | switch _ _ _ => "switch"
  | function _ _ => "fn"
  | classDef _ _ _ => "class"
  | namespaceDef _ _ => "namespace"

end StackCode
