import StackCode.Lowering

/-!
# Early exits of a program

A cleanup is lowered again at each jump out of its region, with the loops around the jump. A `break`
or `continue` in it can therefore mean a loop of the region that is being left, and a value that is
about to be returned is still on the stack while it runs. Here the tree is walked the way it is
lowered, and each `break` and `continue` is noted with what it finds.

* `Exit`: what a `break` or `continue` finds;
* `Enclosure`: the loops and regions around a node, as far as exits are concerned;
* `Stmt.exits`, `Expr.exits`, …, `Program.exits`: the exits of a tree, each as often as it is
  lowered.
-/

namespace StackCode

/-- A `break` or `continue` as it is lowered. -/
structure Exit where
  /-- Whether it leads into a region that has been left already. -/
  stale : Bool
  /-- How many values are about to be returned where it stands. -/
  here : Nat
  /-- How many values were about to be returned where its loop stands. -/
  there : Nat
  deriving DecidableEq, Repr

/-- A loop or switch, as seen by the exits in it. -/
structure LoopNote where
  continuable : Bool
  /-- How many protected regions there are around it. -/
  depth : Nat
  stale : Bool
  pending : Nat
  deriving DecidableEq, Repr

/-- The loop as seen from a place with only `n` regions around it. -/
def LoopNote.seenFrom (n : Nat) (l : LoopNote) : LoopNote :=
  { l with stale := l.stale || decide (n < l.depth) }

/-- The exits of a cleanup, given the loops around the place where it is lowered and the number of
values that are about to be returned there. -/
abbrev CleanupNote := List LoopNote → Nat → List Exit

/-- What surrounds a statement. -/
structure Enclosure where
  /-- The protected regions, innermost first, each with its cleanup, if any. -/
  regions : List (Option CleanupNote) := []
  /-- The loops and switches, innermost first. -/
  loops : List LoopNote := []
  /-- How many values are about to be returned. -/
  pending : Nat := 0

namespace Enclosure

/-- What surrounds the body of a loop or switch. -/
def inLoop (E : Enclosure) (continuable : Bool) : Enclosure :=
  { E with loops := ⟨continuable, E.regions.length, false, E.pending⟩ :: E.loops }

/-- What surrounds the body of a region. -/
def inRegion (E : Enclosure) (cleanup : Option CleanupNote) : Enclosure :=
  { E with regions := cleanup :: E.regions }

end Enclosure

/-- The exits of the cleanups of the `n` innermost of the given regions. -/
def unwindExits (loops : List LoopNote) (pending : Nat) : Nat → List (Option CleanupNote) → List Exit
  | n + 1, r :: rest =>
    (match r with
      | some cleanup => cleanup (loops.map (·.seenFrom rest.length)) pending
      | none => [])
      ++ unwindExits loops pending n rest
  | _, _ => []

namespace Enclosure

/-- The exits on the way out of all regions but the `depth` outermost ones. -/
def unwindTo (E : Enclosure) (depth pending : Nat) : List Exit :=
  unwindExits E.loops pending (E.regions.length - depth) E.regions

/-- The jump to a loop. -/
def leaveFor (E : Enclosure) (l : LoopNote) : List Exit :=
  E.unwindTo l.depth E.pending ++ [⟨l.stale, E.pending, l.pending⟩]

def breakExits (E : Enclosure) : List Exit :=
  match E.loops with
  | [] => []
  | l :: _ => E.leaveFor l

def continueExits (E : Enclosure) : List Exit :=
  match E.loops.find? LoopNote.continuable with
  | none => []
  | some l => E.leaveFor l

def returnExits (E : Enclosure) : List Exit := E.unwindTo 0 (E.pending + 1)

end Enclosure

/-! ### The exits of a tree -/

mutual

/-- The exits in the functions of an expression. -/
def Expr.exits : Expr → List Exit
  | .literal _ | .name _ | .this => []
  | .assign _ target value => target.exits ++ value.exits
  | .binary _ lhs rhs | .logical _ lhs rhs => lhs.exits ++ rhs.exits
  | .unary _ operand => operand.exits
  | .call _ callee args => callee.exits ++ Arg.exits args
  | .methodCall _ object _ args => object.exits ++ Arg.exits args
  | .member object _ => object.exits
  | .index object index => object.exits ++ index.exits
  | .array items => Expr.exitsAll items
  | .map entries => Entry.exits entries
  | .function _ f => f.exits
  | .conditional cond thenE elseE => cond.exits ++ thenE.exits ++ elseE.exits
  | .case subject arms default => subject.exits ++ Arm.exits arms ++ Expr.exitsOptional default
  | .yield _ value => Expr.exitsOptional value

def Expr.exitsOptional : Option Expr → List Exit
  | none => []
  | some e => e.exits

def Expr.exitsAll : List Expr → List Exit
  | [] => []
  | e :: rest => e.exits ++ Expr.exitsAll rest

def Arg.exits : List Arg → List Exit
  | [] => []
  | .positional e :: rest | .spread e :: rest | .named _ e :: rest => e.exits ++ Arg.exits rest

def Entry.exits : List Entry → List Exit
  | [] => []
  | .named _ v :: rest => v.exits ++ Entry.exits rest
  | .computed k v :: rest => k.exits ++ v.exits ++ Entry.exits rest

def Arm.exits : List Arm → List Exit
  | [] => []
  | .mk values result :: rest => Expr.exitsAll values ++ result.exits ++ Arm.exits rest

/-- A function has no loops or regions around it. -/
def Function.exits : Function → List Exit
  | .mk params _ _ body => Param.exits params ++ Stmt.exitsAll body {}

def Param.exits : List Param → List Exit
  | [] => []
  | .mk _ default :: rest => Expr.exitsOptional default ++ Param.exits rest

def Stmt.exits : Stmt → Enclosure → List Exit
  | .mk _ form, E => form.exits E

def Stmt.exitsAll : List Stmt → Enclosure → List Exit
  | [], _ => []
  | s :: rest, E => s.exits E ++ Stmt.exitsAll rest E

def Stmt.exitsOptional : Option Stmt → Enclosure → List Exit
  | none, _ => []
  | some s, E => s.exits E

/-- The cleanup of a region, which sees the regions around its own. -/
def Stmt.exitsCleanup : Option (List Stmt) → Enclosure → Option CleanupNote
  | none, _ => none
  | some body, E => some fun loops pending => Stmt.exitsAll body { E with loops, pending }

def StmtForm.exits : StmtForm → Enclosure → List Exit
  | .expr e, _ | .throw e, _ => e.exits
  | .var _ init, _ => Expr.exitsOptional init
  | .block body, E => Stmt.exitsAll body E
  | .ifElse cond thenS elseS, E => cond.exits ++ thenS.exits E ++ Stmt.exitsOptional elseS E
  | .whileDo cond body, E => cond.exits ++ body.exits (E.inLoop true)
  | .forLoop init cond afterwards body, E =>
    Stmt.exitsOptional init E ++ Expr.exitsOptional cond ++ body.exits (E.inLoop true)
      ++ Expr.exitsOptional afterwards
  | .forIn _ iterable body, E => iterable.exits ++ body.exits (E.inLoop true)
  | .breakLoop, E => E.breakExits
  | .continueLoop, E => E.continueExits
  | .ret value, E => Expr.exitsOptional value ++ E.returnExits
  | .tryCatch body handler cleanup, E =>
    let clause := Stmt.exitsCleanup cleanup E
    Stmt.exitsAll body (E.inRegion clause) ++ Catch.exits handler (E.inRegion clause)
      ++ clause.elim [] (· E.loops E.pending)
  | .switch subject cases default, E =>
    let inner := E.inLoop false
    subject.exits ++ Case.exits cases inner
      ++ (Stmt.exitsCleanup default inner).elim [] (· inner.loops inner.pending)
  | .function _ f, _ => f.exits
  | .classDef _ parent body, _ => Expr.exitsOptional parent ++ Stmt.exitsAll body {}
  | .namespaceDef _ body, _ => Stmt.exitsAll body {}

def Catch.exits : Option Catch → Enclosure → List Exit
  | none, _ => []
  | some (.mk _ body), E => Stmt.exitsAll body E

def Case.exits : List Case → Enclosure → List Exit
  | [], _ => []
  | .mk values body :: rest, E => Expr.exitsAll values ++ Stmt.exitsAll body E ++ Case.exits rest E

end

/-- The exits of a whole program. -/
def Program.exits (program : List Stmt) : List Exit := Stmt.exitsAll program {}

end StackCode
