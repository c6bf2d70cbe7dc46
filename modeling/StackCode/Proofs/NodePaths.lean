import StackCode.Proofs.TailPositions

/-!
# Nodes at paths

A call is known by its path from the function down. Here the path is followed through the tree.

* `Node`: what there is on the way of a path, lists and parts of expressions and statements included;
* `Expr.child?`, `StmtForm.child?`, `Node.child?`: the children by their numbers;
* `Node.at?`, `Function.at?`: the node at a path;
* `Node.below_mem_calls`, `Function.below_mem_calls`: the calls in a node are among those of the whole.
-/

namespace StackCode

/-! ### Nodes -/

/-- A place that a path to a call may come through. -/
inductive Node where
  | expr (e : Expr)
  | exprs (items : List Expr)
  | args (items : List Arg)
  | entry (entry : Entry)
  | arms (items : List Arm)
  | arm (arm : Arm)
  | params (items : List Param)
  | stmt (t : Stmt)
  | stmts (items : List Stmt)
  | cases (items : List Case)
  | case (part : Case)

/-- The expression of an argument. -/
def Arg.value : Arg → Expr
  | positional e | spread e | named _ e => e

def Entry.child? : Entry → Nat → Option Node
  | computed key _, 0 => some (.expr key)
  | computed _ value, 1 | named _ value, 1 => some (.expr value)
  | _, _ => none

def Arm.child? : Arm → Nat → Option Node
  | mk values _, 0 => some (.exprs values)
  | mk _ result, 1 => some (.expr result)
  | _, _ => none

def Case.child? : Case → Nat → Option Node
  | mk values _, 0 => some (.exprs values)
  | mk _ body, 1 => some (.stmts body)
  | _, _ => none

def Catch.node : Catch → Node
  | mk _ body => .stmts body

def Function.child? (f : Function) : Nat → Option Node
  | 0 => some (.params f.params)
  | 1 => some (.stmts f.body)
  | _ => none

def Expr.child? : Expr → Nat → Option Node
  | assign _ x _, 0 | binary _ x _, 0 | logical _ x _, 0 | unary _ x, 0 | call _ x _, 0
  | methodCall _ x _ _, 0 | member x _, 0 | index x _, 0 | conditional x _ _, 0 | case x _ _, 0 =>
    some (.expr x)
  | assign _ _ y, 1 | binary _ _ y, 1 | logical _ _ y, 1 | index _ y, 1 | conditional _ y _, 1 =>
    some (.expr y)
  | call _ _ items, 1 | methodCall _ _ _ items, 1 => some (.args items)
  | array items, k => items[k]?.map .expr
  | map entries, k => entries[k]?.map .entry
  | function _ f, k => f.child? k
  | conditional _ _ z, 2 => some (.expr z)
  | case _ arms _, 1 => some (.arms arms)
  | case _ _ default, 2 => default.map .expr
  | yield _ value, 0 => value.map .expr
  | _, _ => none

def StmtForm.child? : StmtForm → Nat → Option Node
  | expr x, 0 | ifElse x _ _, 0 | whileDo x _, 0 | forIn _ x _, 0 | throw x, 0 | switch x _ _, 0 =>
    some (.expr x)
  | var _ value, 0 | ret value, 0 | classDef _ value _, 0 => value.map .expr
  | block body, k => body[k]?.map .stmt
  | ifElse _ t _, 1 | whileDo _ t, 1 | forIn _ _ t, 1 | forLoop _ _ _ t, 3 => some (.stmt t)
  | ifElse _ _ t, 2 | forLoop t _ _ _, 0 => t.map .stmt
  | forLoop _ value _ _, 1 | forLoop _ _ value _, 2 => value.map .expr
  | tryCatch body _ _, 0 | classDef _ _ body, 1 | namespaceDef _ body, 1 => some (.stmts body)
  | tryCatch _ handler _, 1 => handler.map Catch.node
  | tryCatch _ _ body, 2 | switch _ _ body, 2 => body.map .stmts
  | switch _ cases _, 1 => some (.cases cases)
  | function _ f, k => f.child? k
  | _, _ => none

namespace Node

/-- The child with a number. -/
def child? : Node → Nat → Option Node
  | expr e, k => e.child? k
  | exprs items, k => items[k]?.map expr
  | args items, k => items[k]?.map fun a => expr a.value
  | entry e, k => e.child? k
  | arms items, k => items[k]?.map arm
  | arm a, k => a.child? k
  | params items, k => items[k]?.bind fun x => x.default.map expr
  | stmt (.mk _ form), k => form.child? k
  | stmts items, k => items[k]?.map stmt
  | cases items, k => items[k]?.map case
  | case part, k => part.child? k

/-- The node at a path. -/
def at? : Node → Path → Option Node
  | n, [] => some n
  | n, k :: p => (n.child? k).bind (·.at? p)

end Node

/-- The node at a path from a function down. -/
def Function.at? (f : Function) : Path → Option Node
  | [] => none
  | k :: p => (f.child? k).bind (·.at? p)

theorem Node.at?_append (n : Node) (p q : Path) : n.at? (p ++ q) = (n.at? p).bind (·.at? q) := by
  induction p generalizing n with
  | nil => rfl
  | cons k p ih =>
    rw [List.cons_append, at?, at?]
    cases n.child? k with
    | none => rfl
    | some m => exact ih m

theorem Function.at?_append {f : Function} {n : Node} {p : Path} (h : f.at? p = some n) (q : Path) :
    f.at? (p ++ q) = n.at? q := by
  cases p with
  | nil => cases h
  | cons k p =>
    obtain ⟨m, hm, hp⟩ := Option.bind_eq_some_iff.mp h
    rw [List.cons_append, at?, hm, Option.bind_some, Node.at?_append, hp, Option.bind_some]

/-! ### The calls in a node -/

def Entry.ownCalls : Entry → List CallSite
  | .named _ v => under 1 v.calls
  | .computed k v => under 0 k.calls ++ under 1 v.calls

def Arm.ownCalls : Arm → List CallSite
  | .mk values result => under 0 (Expr.listCalls 0 values) ++ under 1 result.calls

def Case.ownCalls : Case → List CallSite
  | .mk values body => under 0 (Expr.listCalls 0 values) ++ under 1 (Stmt.listCalls 0 body)

/-- The calls in a node, as seen from there. -/
@[simp]
def Node.calls : Node → List CallSite
  | expr e => e.calls
  | exprs items => Expr.listCalls 0 items
  | args items => Arg.calls 0 items
  | entry e => e.ownCalls
  | arms items => Arm.calls 0 items
  | arm a => a.ownCalls
  | params items => Param.calls 0 items
  | stmt t => t.calls
  | stmts items => Stmt.listCalls 0 items
  | cases items => Case.calls 0 items
  | case part => part.ownCalls

@[simp]
theorem CallSite.below_nil (d : CallSite) : d.below [] = d := rfl

theorem CallSite.below_cons_inj {c d : CallSite} {i j : Nat} {p : Path} :
    d.below (i :: p) = c.below [j] ↔ i = j ∧ d.below p = c := by
  constructor
  · intro h
    obtain ⟨hpath, hline⟩ := CallSite.mk.inj h
    obtain ⟨hi, hrest⟩ := List.cons.inj hpath
    exact ⟨hi, congrArg₂ CallSite.mk hrest hline⟩
  · rintro ⟨rfl, rfl⟩
    rfl

@[simp]
theorem CallSite.below_cons_mem_under {d : CallSite} {i j : Nat} {p : Path} {xs : List CallSite} :
    d.below (i :: p) ∈ under j xs ↔ i = j ∧ d.below p ∈ xs := by
  simp only [mem_under, below_cons_inj]
  constructor
  · rintro ⟨c, hc, rfl, rfl⟩
    exact ⟨rfl, hc⟩
  · rintro ⟨rfl, hd⟩
    exact ⟨_, hd, rfl, rfl⟩

@[simp]
theorem CallSite.below_cons_ne {d : CallSite} {i line : Nat} {p : Path} :
    d.below (i :: p) ≠ ⟨[], line⟩ := fun h => List.cons_ne_nil _ _ (CallSite.mk.inj h).1

theorem CallSite.below_cons_mem_siblings {α : Type} {items : List α} {f : α → List CallSite}
    {d : CallSite} {k : Nat} {x : α} {p : Path} (hk : items[k]? = some x) :
    d.below (k :: p) ∈ siblings 0 (items.map f) ↔ d.below p ∈ f x := by
  simp only [mem_siblings, Nat.zero_add, below_cons_inj, List.getElem?_map]
  constructor
  · rintro ⟨k, xs, hx, c, hc, rfl, rfl⟩
    rw [hk] at hx
    obtain rfl := Option.some.inj hx
    exact hc
  · intro hd
    exact ⟨k, f x, congrArg (Option.map f) hk, _, hd, rfl, rfl⟩

/-! ### Children in order -/

theorem Expr.listCalls_eq (i : Nat) (items : List Expr) :
    Expr.listCalls i items = siblings i (items.map Expr.calls) := by
  induction items generalizing i with
  | nil => rfl
  | cons e rest ih => rw [Expr.listCalls, ih]; rfl

theorem Arg.calls_eq (i : Nat) (items : List Arg) :
    Arg.calls i items = siblings i (items.map fun a => a.value.calls) := by
  induction items generalizing i with
  | nil => rfl
  | cons a rest ih => cases a <;> (rw [Arg.calls, ih]; rfl)

theorem Entry.calls_eq (i : Nat) (items : List Entry) :
    Entry.calls i items = siblings i (items.map Entry.ownCalls) := by
  induction items generalizing i with
  | nil => rfl
  | cons a rest ih => cases a <;> (rw [Entry.calls, ih]; rfl)

theorem Arm.calls_eq (i : Nat) (arms : List Arm) :
    Arm.calls i arms = siblings i (arms.map Arm.ownCalls) := by
  induction arms generalizing i with
  | nil => rfl
  | cons a rest ih => cases a; rw [Arm.calls, ih]; rfl

theorem Param.calls_eq (i : Nat) (params : List Param) :
    Param.calls i params = siblings i (params.map fun x => Expr.optionCalls x.default) := by
  induction params generalizing i with
  | nil => rfl
  | cons a rest ih => cases a; rw [Param.calls, ih]; rfl

theorem Stmt.listCalls_eq (i : Nat) (body : List Stmt) :
    Stmt.listCalls i body = siblings i (body.map Stmt.calls) := by
  induction body generalizing i with
  | nil => rfl
  | cons s rest ih => rw [Stmt.listCalls, ih]; rfl

theorem Case.calls_eq (i : Nat) (cases : List Case) :
    Case.calls i cases = siblings i (cases.map Case.ownCalls) := by
  induction cases generalizing i with
  | nil => rfl
  | cons a rest ih => cases a; rw [Case.calls, ih]; rfl

/-! ### The calls in a child -/

section Child

variable {k : Nat} {n : Node} {d : CallSite}

theorem CallSite.below_mem_of_getElem? {α : Type} {items : List α} {f : α → List CallSite}
    {node : α → Node} (hnode : ∀ x, (node x).calls = f x) (h : items[k]?.map node = some n)
    (hd : d ∈ n.calls) : d.below [k] ∈ siblings 0 (items.map f) := by
  obtain ⟨x, hx, rfl⟩ := Option.map_eq_some_iff.mp h
  rw [below_cons_mem_siblings hx, below_nil, ← hnode]
  exact hd

theorem Function.calls_eq (f : Function) :
    f.calls = under 0 (Param.calls 0 f.params) ++ under 1 (Stmt.listCalls 0 f.body) := by
  cases f
  rfl

theorem Function.mem_calls_of_child? {f : Function} (h : f.child? k = some n) (hd : d ∈ n.calls) :
    d.below [k] ∈ f.calls := by
  unfold Function.child? at h
  split at h
  · obtain rfl := Option.some.inj h
    simpa [calls_eq] using hd
  · obtain rfl := Option.some.inj h
    simpa [calls_eq] using hd
  · cases h

theorem Entry.mem_ownCalls_of_child? {e : Entry} (h : e.child? k = some n) (hd : d ∈ n.calls) :
    d.below [k] ∈ e.ownCalls := by
  unfold Entry.child? at h
  split at h <;> cases h <;> simpa [ownCalls] using hd

theorem Arm.mem_ownCalls_of_child? {a : Arm} (h : a.child? k = some n) (hd : d ∈ n.calls) :
    d.below [k] ∈ a.ownCalls := by
  unfold Arm.child? at h
  split at h <;> cases h <;> simpa [ownCalls] using hd

theorem Case.mem_ownCalls_of_child? {c : Case} (h : c.child? k = some n) (hd : d ∈ n.calls) :
    d.below [k] ∈ c.ownCalls := by
  unfold Case.child? at h
  split at h <;> cases h <;> simpa [ownCalls] using hd

theorem Expr.mem_calls_of_child? {e : Expr} (h : e.child? k = some n) (hd : d ∈ n.calls) :
    d.below [k] ∈ e.calls := by
  cases e with
  | array items =>
    rw [Expr.calls, listCalls_eq]
    exact CallSite.below_mem_of_getElem? (fun _ => rfl) h hd
  | map entries =>
    rw [Expr.calls, Entry.calls_eq]
    exact CallSite.below_mem_of_getElem? (fun _ => rfl) h hd
  | function line f => exact Function.mem_calls_of_child? h hd
  | case subject arms value | yield line value =>
    cases value <;> rcases k with _ | _ | _ | k <;> cases h <;>
      simpa [Expr.calls, Expr.optionCalls] using hd
  | _ => rcases k with _ | _ | _ | k <;> cases h <;> simpa [Expr.calls] using hd

theorem StmtForm.mem_calls_of_child? {form : StmtForm} (h : form.child? k = some n)
    (hd : d ∈ n.calls) : d.below [k] ∈ form.calls := by
  cases form with
  | block body =>
    rw [StmtForm.calls, Stmt.listCalls_eq]
    exact CallSite.below_mem_of_getElem? (fun _ => rfl) h hd
  | function x f => exact Function.mem_calls_of_child? h hd
  | var x value | ret value | classDef x value body | ifElse cond thenS value | switch e cases value =>
    cases value <;> rcases k with _ | _ | _ | k <;> cases h <;>
      simpa [StmtForm.calls, Expr.optionCalls, Stmt.optionCalls, Stmt.optionListCalls] using hd
  | forLoop init cond step body =>
    rcases k with _ | _ | _ | _ | k
    · cases init <;> cases h
      simpa [StmtForm.calls, Stmt.optionCalls] using hd
    · cases cond <;> cases h
      simpa [StmtForm.calls, Expr.optionCalls] using hd
    · cases step <;> cases h
      simpa [StmtForm.calls, Expr.optionCalls] using hd
    · cases h
      simpa [StmtForm.calls] using hd
    · cases h
  | tryCatch body handler cleanup =>
    rcases k with _ | _ | _ | k
    · cases h
      simpa [StmtForm.calls] using hd
    · obtain _ | ⟨x, clause⟩ := handler <;> cases h
      simpa [StmtForm.calls, Catch.calls, Catch.node] using hd
    · cases cleanup <;> cases h
      simpa [StmtForm.calls, Stmt.optionListCalls] using hd
    · cases h
  | _ => rcases k with _ | _ | _ | k <;> cases h <;> simpa [StmtForm.calls] using hd

theorem Node.mem_calls_of_child? {m : Node} (h : m.child? k = some n) (hd : d ∈ n.calls) :
    d.below [k] ∈ m.calls := by
  cases m with
  | expr e => exact Expr.mem_calls_of_child? h hd
  | entry e => exact Entry.mem_ownCalls_of_child? h hd
  | arm a => exact Arm.mem_ownCalls_of_child? h hd
  | case c => exact Case.mem_ownCalls_of_child? h hd
  | stmt t =>
    cases t
    exact StmtForm.mem_calls_of_child? h hd
  | exprs items =>
    rw [calls, Expr.listCalls_eq]
    exact CallSite.below_mem_of_getElem? (fun _ => rfl) h hd
  | args items =>
    rw [calls, Arg.calls_eq]
    exact CallSite.below_mem_of_getElem? (fun _ => rfl) h hd
  | arms items =>
    rw [calls, Arm.calls_eq]
    exact CallSite.below_mem_of_getElem? (fun _ => rfl) h hd
  | stmts items =>
    rw [calls, Stmt.listCalls_eq]
    exact CallSite.below_mem_of_getElem? (fun _ => rfl) h hd
  | cases items =>
    rw [calls, Case.calls_eq]
    exact CallSite.below_mem_of_getElem? (fun _ => rfl) h hd
  | params items =>
    obtain ⟨x, hx, hdefault⟩ := Option.bind_eq_some_iff.mp h
    obtain ⟨e, he, rfl⟩ := Option.map_eq_some_iff.mp hdefault
    rw [calls, Param.calls_eq, CallSite.below_cons_mem_siblings hx, he]
    exact hd

end Child

/-- The calls in a node are among those of the nodes above it. -/
theorem Node.below_mem_calls {m n : Node} {p : Path} (h : m.at? p = some n) {d : CallSite}
    (hd : d ∈ n.calls) : d.below p ∈ m.calls := by
  induction p generalizing m with
  | nil =>
    obtain rfl := Option.some.inj h
    exact hd
  | cons k p ih =>
    obtain ⟨c, hc, hp⟩ := Option.bind_eq_some_iff.mp h
    exact mem_calls_of_child? hc (ih hp)

theorem Function.below_mem_calls {f : Function} {n : Node} {p : Path} (h : f.at? p = some n)
    {d : CallSite} (hd : d ∈ n.calls) : d.below p ∈ f.calls := by
  cases p with
  | nil => cases h
  | cons k p =>
    obtain ⟨c, hc, hp⟩ := Option.bind_eq_some_iff.mp h
    exact mem_calls_of_child? hc (Node.below_mem_calls hp hd)

end StackCode
