import StackCode.Lowering

/-!
# Returned calls of a program

A call of a function to itself whose result the function returns is either the whole returned
expression or a branch of it. Here the tree is walked the way it is lowered, and each such call is
noted, as often as it is lowered.

* `Role`: how the value of an expression is used;
* `Tails`: the returned calls of a unit in the order of its code, and those of the units inside it;
* `Surroundings`: what surrounds a statement, as far as returned calls are concerned;
* `Stmt.tails`, `Expr.tails`, …, `Program.tails`: the returned calls of a tree.
-/

namespace StackCode

/-- How the value of an expression is used. -/
inductive Role where
  /-- It is a part of something else. -/
  | inner
  /-- The function returns it, as a branch of the returned expression. -/
  | branch
  /-- It is the whole returned expression. -/
  | whole
  deriving DecidableEq, Repr

namespace Role

/-- Whether the function returns the value at once. -/
def isReturned : Role → Bool
  | inner => false
  | branch | whole => true

/-- The role of a branch. -/
def ofBranch : Role → Role
  | inner => inner
  | branch | whole => branch

/-- The role of the value of a `return`, which is not returned at once where regions are left. -/
def ofReturn (atOnce : Bool) : Role := if atOnce then whole else inner

theorem isReturned_ofBranch (r : Role) : r.ofBranch.isReturned = r.isReturned := by
  cases r <;> rfl

theorem isReturned_ofReturn (atOnce : Bool) : (ofReturn atOnce).isReturned = atOnce := by
  cases atOnce <;> rfl

end Role

/-- The calls of a unit to itself that it returns, in order; each is marked when it is the whole
returned expression. Those of the units inside it follow, in order too. -/
inductive Tails where
  | mk (calls : List Bool) (units : List Tails)

namespace Tails

def calls : Tails → List Bool
  | mk calls _ => calls

def units : Tails → List Tails
  | mk _ units => units

/-- No returned call. -/
def none : Tails := mk [] []

/-- One returned call. -/
def call (whole : Bool) : Tails := mk [whole] []

/-- One unit inside. -/
def unit (inner : Tails) : Tails := mk [] [inner]

instance : Append Tails := ⟨fun a b => mk (a.calls ++ b.calls) (a.units ++ b.units)⟩

@[simp] theorem calls_append (a b : Tails) : (a ++ b).calls = a.calls ++ b.calls := rfl

@[simp] theorem units_append (a b : Tails) : (a ++ b).units = a.units ++ b.units := rfl

@[simp] theorem none_append (a : Tails) : none ++ a = a := by
  obtain ⟨calls, units⟩ := a
  rfl

@[simp] theorem append_none (a : Tails) : a ++ none = a := by
  obtain ⟨calls, units⟩ := a
  show mk (calls ++ []) (units ++ []) = _
  rw [List.append_nil, List.append_nil]

theorem append_assoc (a b c : Tails) : a ++ b ++ c = a ++ (b ++ c) := by
  show mk (a.calls ++ b.calls ++ c.calls) (a.units ++ b.units ++ c.units) = _
  rw [List.append_assoc, List.append_assoc]
  rfl

end Tails

/-! ### Surroundings -/

/-- A loop or switch, as seen by the exits in it. -/
structure LoopMark where
  continuable : Bool
  /-- How many protected regions there are around it. -/
  depth : Nat
  deriving DecidableEq, Repr

/-- What the walk knows of a loop. -/
def Loop.mark (l : Loop) : LoopMark := ⟨l.continueTo.isSome, l.depth⟩

/-- The returned calls of a cleanup, given the loops around the place where it is lowered. -/
abbrev CleanupTails := List LoopMark → Tails

/-- What surrounds a statement. -/
structure Surroundings where
  kind : ScopeKind := .global
  /-- The name by which the function calls itself. -/
  self : Option String := .none
  /-- The protected regions, innermost first, each with its cleanup, if any. -/
  regions : List (Option CleanupTails) := []
  /-- The loops and switches, innermost first. -/
  loops : List LoopMark := []

namespace Surroundings

/-- What surrounds the body of a loop or switch. -/
def inLoop (E : Surroundings) (continuable : Bool) : Surroundings :=
  { E with loops := ⟨continuable, E.regions.length⟩ :: E.loops }

/-- What surrounds the body of a region. -/
def inRegion (E : Surroundings) (cleanup : Option CleanupTails) : Surroundings :=
  { E with regions := cleanup :: E.regions }

/-- What surrounds the body of a class or a namespace. -/
def inObject : Surroundings := { kind := .object }

/-- What surrounds the body of a function that is going to be bound to a name. -/
def inFunction (binding : Option String) (f : Function) : Surroundings :=
  { kind := .function, self := binding.filter f.bindsSelf }

end Surroundings

/-- The returned calls of the cleanups of the `n` innermost of the given regions. -/
def unwindTails (loops : List LoopMark) : Nat → List (Option CleanupTails) → Tails
  | n + 1, r :: rest =>
    (match r with
      | some cleanup => cleanup loops
      | none => .none)
      ++ unwindTails loops n rest
  | _, _ => .none

namespace Surroundings

/-- The returned calls on the way out of all regions but the `depth` outermost ones. -/
def unwindTo (E : Surroundings) (depth : Nat) : Tails :=
  unwindTails E.loops (E.regions.length - depth) E.regions

def breakTails (E : Surroundings) : Tails :=
  match E.loops with
  | [] => .none
  | l :: _ => E.unwindTo l.depth

def continueTails (E : Surroundings) : Tails :=
  match E.loops.find? LoopMark.continuable with
  | none => .none
  | some l => E.unwindTo l.depth

end Surroundings

/-! ### The returned calls of a tree -/

mutual

/-- The returned calls of an expression in a given role; `self` is the name of the function. -/
def Expr.tails : Expr → Option String → Role → Tails
  | .literal _, _, _ | .name _, _, _ | .this, _, _ => .none
  | .assign _ (.name x) (.function _ f), _, _ => f.tails (some x)
  | .assign _ (.name _) value, self, _ => value.tails self .inner
  | .assign _ (.member object _) value, self, _ =>
    object.tails self .inner ++ value.tails self .inner
  | .assign _ (.index object index) value, self, _ =>
    object.tails self .inner ++ index.tails self .inner ++ value.tails self .inner
  | .assign _ _ _, _, _ => .none
  | .binary _ lhs rhs, self, _ | .logical _ lhs rhs, self, _ =>
    lhs.tails self .inner ++ rhs.tails self .inner
  | .unary _ operand, self, _ => operand.tails self .inner
  | .call line callee args, self, role =>
    callee.tails self .inner ++ Arg.tails args self
      ++ (if role.isReturned && self.any fun name => (Expr.call line callee args).isCallOf name then
          .call (role == .whole)
        else .none)
  | .methodCall _ object _ args, self, _ => object.tails self .inner ++ Arg.tails args self
  | .member object _, self, _ => object.tails self .inner
  | .index object index, self, _ => object.tails self .inner ++ index.tails self .inner
  | .array items, self, _ => Expr.tailsAll items self
  | .map entries, self, _ => Entry.tails entries self
  | .function _ f, _, _ => f.tails none
  | .conditional cond thenE elseE, self, role =>
    cond.tails self .inner ++ thenE.tails self role.ofBranch ++ elseE.tails self role.ofBranch
  | .case subject arms default, self, role =>
    subject.tails self .inner ++ Arm.testTails arms self
      ++ Expr.tailsOptional default self role.ofBranch ++ Arm.resultTails arms self role.ofBranch
  | .yield _ value, self, _ => Expr.tailsOptional value self .inner

def Expr.tailsOptional : Option Expr → Option String → Role → Tails
  | none, _, _ => .none
  | some e, self, role => e.tails self role

def Expr.tailsAll : List Expr → Option String → Tails
  | [], _ => .none
  | e :: rest, self => e.tails self .inner ++ Expr.tailsAll rest self

def Arg.tails : List Arg → Option String → Tails
  | [], _ => .none
  | .positional e :: rest, self | .spread e :: rest, self | .named _ e :: rest, self =>
    e.tails self .inner ++ Arg.tails rest self

def Entry.tails : List Entry → Option String → Tails
  | [], _ => .none
  | .named _ v :: rest, self => v.tails self .inner ++ Entry.tails rest self
  | .computed k v :: rest, self =>
    k.tails self .inner ++ v.tails self .inner ++ Entry.tails rest self

/-- The values of all arms come before their results. -/
def Arm.testTails : List Arm → Option String → Tails
  | [], _ => .none
  | .mk values _ :: rest, self => Expr.tailsAll values self ++ Arm.testTails rest self

def Arm.resultTails : List Arm → Option String → Role → Tails
  | [], _, _ => .none
  | .mk _ result :: rest, self, role => result.tails self role ++ Arm.resultTails rest self role

/-- A function is a unit of its own. -/
def Function.tails : Function → Option String → Tails
  | .mk params variadic generator body, binding =>
    let E := Surroundings.inFunction binding (.mk params variadic generator body)
    .unit (Param.tails params E.self ++ Stmt.bodyTails body E)

def Param.tails : List Param → Option String → Tails
  | [], _ => .none
  | .mk _ default :: rest, self => Expr.tailsOptional default self .inner ++ Param.tails rest self

/-- An expression that ends the body of a function is returned. -/
def Stmt.bodyTails : List Stmt → Surroundings → Tails
  | [], _ => .none
  | [.mk _ (.expr e)], E => e.tails E.self .whole
  | s :: rest, E => s.tails E ++ Stmt.bodyTails rest E

def Stmt.tails : Stmt → Surroundings → Tails
  | .mk _ form, E => form.tails E

def Stmt.tailsAll : List Stmt → Surroundings → Tails
  | [], _ => .none
  | s :: rest, E => s.tails E ++ Stmt.tailsAll rest E

def Stmt.tailsOptional : Option Stmt → Surroundings → Tails
  | none, _ => .none
  | some s, E => s.tails E

/-- The cleanup of a region, which sees the regions around its own. -/
def Stmt.cleanupTails : Option (List Stmt) → Surroundings → Option CleanupTails
  | none, _ => none
  | some body, E => some fun loops => Stmt.tailsAll body { E with loops }

def StmtForm.tails : StmtForm → Surroundings → Tails
  | .expr e, E | .throw e, E => e.tails E.self .inner
  | .var x (some (.function _ f)), _ => f.tails (some x)
  | .var _ init, E => Expr.tailsOptional init E.self .inner
  | .block body, E => Stmt.tailsAll body E
  | .ifElse cond thenS elseS, E =>
    cond.tails E.self .inner ++ thenS.tails E ++ Stmt.tailsOptional elseS E
  | .whileDo cond body, E => cond.tails E.self .inner ++ body.tails (E.inLoop true)
  | .forLoop init cond afterwards body, E =>
    Stmt.tailsOptional init E ++ Expr.tailsOptional cond E.self .inner ++ body.tails (E.inLoop true)
      ++ Expr.tailsOptional afterwards E.self .inner
  | .forIn _ iterable body, E => iterable.tails E.self .inner ++ body.tails (E.inLoop true)
  | .breakLoop, E => E.breakTails
  | .continueLoop, E => E.continueTails
  | .ret value, E =>
    Expr.tailsOptional value E.self (.ofReturn E.regions.isEmpty) ++ E.unwindTo 0
  | .tryCatch body handler cleanup, E =>
    let clause := Stmt.cleanupTails cleanup E
    Stmt.tailsAll body (E.inRegion clause) ++ Catch.tails handler (E.inRegion clause)
      ++ clause.elim .none (· E.loops)
  | .switch subject cases default, E =>
    let inner := E.inLoop false
    subject.tails E.self .inner ++ Case.testTails cases E.self ++ Case.bodyTails cases inner
      ++ (Stmt.cleanupTails default inner).elim .none (· inner.loops)
  | .function x f, E => f.tails (if E.kind = .object then none else some x)
  | .classDef _ parent body, E =>
    Expr.tailsOptional parent E.self .inner ++ .unit (Stmt.tailsAll body .inObject)
  | .namespaceDef _ body, _ => .unit (Stmt.tailsAll body .inObject)

def Catch.tails : Option Catch → Surroundings → Tails
  | none, _ => .none
  | some (.mk _ body), E => Stmt.tailsAll body E

/-- The values of all cases come before their bodies. -/
def Case.testTails : List Case → Option String → Tails
  | [], _ => .none
  | .mk values _ :: rest, self => Expr.tailsAll values self ++ Case.testTails rest self

def Case.bodyTails : List Case → Surroundings → Tails
  | [], _ => .none
  | .mk _ body :: rest, E => Stmt.tailsAll body E ++ Case.bodyTails rest E

end

/-- The returned calls of a whole program. -/
def Program.tails (program : List Stmt) : Tails := Stmt.tailsAll program {}

end StackCode
