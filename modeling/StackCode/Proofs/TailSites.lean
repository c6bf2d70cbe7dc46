import StackCode.Proofs.NodePaths
import StackCode.Proofs.Plans

/-!
# Tail calls are lowered at tail sites

The lowering does not look at the list of tail sites. It takes along whether the value of an expression is
returned, and the name by which the function calls itself. Here both are compared, call by call: on the walk
of a function, the instruction that is written for a call is a tail call exactly when the path of the call
is a tail site of the function and no protected region is open.

* `Spot`: the node at a path, and the tail sites among the calls in it;
* `Task.Placed`, `Task.Stands`: where the nodes of a call of the walk stand in the function, and those of
  the cleanups that are still to be compiled;
* `Plan.stands_ofExpr`, `stands_ofForm`, `stands_ofTask`: the calls that one call makes;
* `Function.tailCall_iff`: the comparison.

The path is not part of a call of the walk, so what is shown to be preserved is that there is a path at which
its nodes are found. A cleanup has one path, however often it is compiled.
-/

namespace StackCode

open Draft

/-! ### Spots below a function -/

/-- The node `n` is found in a function at the path `p`. Those of its calls that are in `tails` are the ones
in `sites`. -/
structure Spot (root : Function) (tails : List CallSite) (p : Path) (n : Node) (sites : List CallSite) :
    Prop where
  at_eq : root.at? p = some n
  mem_tails_iff : ∀ d ∈ n.calls, d.below p ∈ tails ↔ d ∈ sites

namespace Spot

variable {root : Function} {tails : List CallSite} {p : Path} {m n : Node} {sites : List CallSite}

/-- What stands further down. -/
theorem down (h : Spot root tails p m sites) (q : Path) {sites' : List CallSite}
    (hat : m.at? q = some n) (hsites : ∀ d ∈ n.calls, d.below q ∈ sites ↔ d ∈ sites') :
    ∃ p, Spot root tails p n sites' := by
  refine ⟨p ++ q, (Function.at?_append h.at_eq q).trans hat, fun d hd => ?_⟩
  rw [← CallSite.below_below, h.mem_tails_iff _ (Node.below_mem_calls hat hd), hsites d hd]

/-- The members of a list stand below its children. -/
theorem child {α : Type} {items : List α} {node : α → Node} {sitesOf : α → List CallSite}
    (h : Spot root tails p m (siblings 0 (items.map sitesOf)))
    (hchild : ∀ k, m.child? k = items[k]?.map node) {x : α} (hx : x ∈ items) :
    ∃ p, Spot root tails p (node x) (sitesOf x) := by
  obtain ⟨k, hk⟩ := List.getElem?_of_mem hx
  refine h.down [k] ?_ fun d _ => ?_
  · rw [Node.at?, hchild, hk]
    rfl
  · rw [CallSite.below_cons_mem_siblings hk, CallSite.below_nil]

/-- There are no tail calls further down than where there is none. -/
theorem child_none {α : Type} {items : List α} {node : α → Node} (h : Spot root tails p m [])
    (hchild : ∀ k, m.child? k = items[k]?.map node) {x : α} (hx : x ∈ items) :
    ∃ p, Spot root tails p (node x) [] := by
  obtain ⟨k, hk⟩ := List.getElem?_of_mem hx
  refine h.down [k] ?_ fun d _ => by simp
  rw [Node.at?, hchild, hk]
  rfl

end Spot

/-! ### Arms and cases -/

section Parts

variable {d : CallSite} {k : Nat} {p : Path} {name : String} {values : List Expr}

theorem Arm.below_mem_tailSites {arms : List Arm} {result : Expr}
    (hk : arms[k]? = some (.mk values result)) :
    d.below (k :: p) ∈ Arm.tailSites name 0 arms ↔ d.below p ∈ under 1 (result.tailSites name) := by
  rw [Arm.tailSites_eq]
  exact CallSite.below_cons_mem_siblings hk

theorem Case.below_mem_returnSites {cases : List Case} {body : List Stmt}
    (hk : cases[k]? = some (.mk values body)) :
    d.below (k :: p) ∈ Case.returnSites name 0 cases
      ↔ d.below p ∈ under 1 (Stmt.listReturnSites name 0 body) := by
  rw [Case.returnSites_eq]
  exact CallSite.below_cons_mem_siblings hk

end Parts

/-! ### What a call of the walk is placed at -/

/-- The tail calls of `name` in the value of an expression, if that is returned. -/
def Expr.valueSites (name : String) (terminal : Bool) (e : Expr) : List CallSite :=
  if terminal then e.tailSites name else []

/-- The tail calls of `name` in what a statement returns when it ends a body. -/
def Stmt.lastSites (name : String) : Stmt → List CallSite
  | .mk _ (.expr e) => under 0 (e.tailSites name)
  | t => t.returnSites name

/-- An expression stands somewhere below a function. -/
def Expr.Placed (root : Function) (tails : List CallSite) (e : Expr) (sites : List CallSite) : Prop :=
  ∃ p, Spot root tails p (.expr e) sites

/-- A statement stands somewhere below a function. -/
def Stmt.Placed (root : Function) (tails : List CallSite) (name : String) (t : Stmt) : Prop :=
  ∃ p, Spot root tails p (.stmt t) (t.returnSites name)

/-- The tail calls that stay tail calls: none while a region is open. -/
def Setting.kept (s : Setting) (tails : List CallSite) : List CallSite :=
  if s.regions.isEmpty then tails else []

/-- While a region is open, nothing is passed on. -/
theorem Spot.kept {root : Function} {tails : List CallSite} {p : Path} {n : Node} {sites : List CallSite}
    (h : Spot root tails p n sites) (s : Setting) :
    Spot root (s.kept tails) p n (if s.regions.isEmpty then sites else []) := by
  refine ⟨h.at_eq, fun d hd => ?_⟩
  unfold Setting.kept
  split
  · exact h.mem_tails_iff d hd
  · simp

theorem Spot.kept_none {root : Function} {tails : List CallSite} {p : Path} {n : Node}
    (h : Spot root tails p n []) (s : Setting) : Spot root (s.kept tails) p n [] := by
  have hkept := h.kept s
  rw [ite_self] at hkept
  exact hkept

namespace Task

variable (root : Function) (tails : List CallSite) (name : String)

/-- What a call compiles stands below a function. -/
def Placed : Task → Setting → Prop
  | .expr e terminal, s => e.Placed root (s.kept tails) (e.valueSites name terminal)
  | .exprOr e terminal, s => ∀ x ∈ e, x.Placed root (s.kept tails) (x.valueSites name terminal)
  | .exprs items, s => ∀ x ∈ items, x.Placed root (s.kept tails) []
  | .tests items _ _, s => ∀ x ∈ items, x.Placed root (s.kept tails) []
  | .args items _ _ _, s => ∀ a ∈ items, a.value.Placed root (s.kept tails) []
  | .entries items, s => ∀ a ∈ items, ∃ p, Spot root (s.kept tails) p (.entry a) []
  | .armTests arms _ _, s => ∀ values result, .mk values result ∈ arms →
      ∀ x ∈ values, x.Placed root (s.kept tails) []
  | .armResults arms terminal _ _, s => ∀ values result, .mk values result ∈ arms →
      result.Placed root (s.kept tails) (result.valueSites name terminal)
  | .function _ _ _, _ => True
  | .params items _, s => ∀ x e, .mk x (some e) ∈ items → e.Placed root (s.kept tails) []
  | .body items, s => s.regions = [] ∧ (∀ t ∈ items.dropLast, t.Placed root tails name)
      ∧ ∀ t ∈ items.getLast?, ∃ p, Spot root tails p (.stmt t) (t.lastSites name)
  | .stmt t, _ => t.Placed root tails name
  | .stmts items, _ => ∀ t ∈ items, t.Placed root tails name
  | .optional t, _ => ∀ u ∈ t, u.Placed root tails name
  | .fallback items, _ => ∀ part ∈ items, ∀ t ∈ part, t.Placed root tails name
  | .form shape line, _ => (Stmt.mk line shape).Placed root tails name
  | .condition e _, s => ∀ x ∈ e, x.Placed root (s.kept tails) []
  | .effect e, s => ∀ x ∈ e, x.Placed root (s.kept tails) []
  | .caseTests cases _ _, s => ∀ values part, .mk values part ∈ cases →
      ∀ x ∈ values, x.Placed root (s.kept tails) []
  | .caseBodies cases _ _, _ => ∀ values part, .mk values part ∈ cases →
      ∀ t ∈ part, t.Placed root tails name
  | .unwind _, _ => True

/-- So do the cleanups of the open regions. -/
structure Stands (t : Task) (s : Setting) : Prop where
  placed : t.Placed root tails name s
  cleanups : ∀ r ∈ s.regions, ∀ body ∈ r.cleanup, ∀ u ∈ body, u.Placed root tails name

end Task

namespace Task.Stands

variable {root : Function} {tails : List CallSite} {name : String} {e : Expr} {terminal : Bool} {s : Setting}

/-- A part of an expression whose value is not passed on. -/
theorem part (h : (Task.expr e terminal).Stands root tails name s) (q : Path) {n : Node}
    (hat : (Node.expr e).at? q = some n := by rfl)
    (hsites : ∀ d ∈ n.calls, d.below q ∉ e.tailSites name := by simp [Expr.tailSites]) :
    ∃ p, Spot root (s.kept tails) p n [] := by
  obtain ⟨p, hspot⟩ := h.placed
  refine hspot.down q hat fun d hd => ?_
  cases terminal <;> simp [Expr.valueSites, hsites d hd]

/-- A part of an expression whose value is passed on. -/
theorem passed (h : (Task.expr e terminal).Stands root tails name s) {x : Expr} (q : Path)
    (hat : (Node.expr e).at? q = some (.expr x) := by rfl)
    (hsites : ∀ d ∈ x.calls, d.below q ∈ e.tailSites name ↔ d ∈ x.tailSites name := by
      simp [Expr.tailSites]) :
    x.Placed root (s.kept tails) (x.valueSites name terminal) := by
  obtain ⟨p, hspot⟩ := h.placed
  refine hspot.down q hat fun d hd => ?_
  cases terminal <;> simp [Expr.valueSites, hsites d hd]

variable {shape : StmtForm} {line : Nat}

/-- What stands inside a statement. -/
theorem inner (h : (Task.form shape line).Stands root tails name s) (q : Path) {n : Node}
    {sites : List CallSite} (hat : (Node.stmt (.mk line shape)).at? q = some n := by rfl)
    (hsites : ∀ d ∈ n.calls, d.below q ∈ shape.returnSites name ↔ d ∈ sites := by
      simp [StmtForm.returnSites]) : ∃ p, Spot root tails p n sites := by
  obtain ⟨p, hspot⟩ := h.placed
  exact hspot.down q hat hsites

/-- A value that a statement does not return. -/
theorem value (h : (Task.form shape line).Stands root tails name s) (q : Path) {n : Node}
    (hat : (Node.stmt (.mk line shape)).at? q = some n := by rfl)
    (hsites : ∀ d ∈ n.calls, d.below q ∉ shape.returnSites name := by simp [StmtForm.returnSites]) :
    ∃ p, Spot root (s.kept tails) p n [] := by
  obtain ⟨p, hspot⟩ : ∃ p, Spot root tails p n [] := h.inner q hat fun d hd => by simp [hsites d hd]
  exact ⟨p, hspot.kept_none s⟩

/-- The statements of a list inside a statement. -/
theorem stmts (h : (Task.form shape line).Stands root tails name s) (q : Path) {items : List Stmt}
    (hat : (Node.stmt (.mk line shape)).at? q = some (.stmts items) := by rfl)
    (hsites : ∀ d ∈ Stmt.listCalls 0 items, d.below q ∈ shape.returnSites name
      ↔ d ∈ Stmt.listReturnSites name 0 items := by
      simp [StmtForm.returnSites, Stmt.optionReturnSites, Catch.returnSites]) :
    ∀ t ∈ items, t.Placed root tails name := by
  obtain ⟨p, hspot⟩ := h.inner q hat hsites
  rw [Stmt.listReturnSites_eq] at hspot
  exact fun t ht => hspot.child (fun _ => rfl) ht

end Task.Stands

/-! ### The calls that one call makes -/

namespace Plan

variable {root : Function} {tails : List CallSite} {name : String}

/-- The parts of an expression stand below the function. Only branches and results pass a value on. -/
theorem stands_ofExpr {e : Expr} {terminal : Bool} {s : Setting}
    (h : (Task.expr e terminal).Stands root tails name s) :
    (ofExpr e terminal s).All (fun _ => True) fun inside t s' =>
      inside = false → t.Stands root tails name s' := by
  have hnext : ∀ {t : Task}, t.Placed root tails name s → t.Stands root tails name s :=
    fun ht => ⟨ht, h.cleanups⟩
  cases e with
  | assign line target value =>
    cases target with
    | name x =>
      cases value <;> simp only [ofExpr, all_append, All, forall_true_left, and_true]
      case function => exact hnext trivial
      all_goals exact hnext (h.part [1])
    | member object x =>
      -- the target is no call of the walk, but its parts are
      simp only [ofExpr, all_append, All, forall_true_left, and_true]
      exact ⟨hnext (h.part [0, 0]), hnext (h.part [1])⟩
    | index object i =>
      simp only [ofExpr, all_append, All, forall_true_left, and_true]
      exact ⟨⟨hnext (h.part [0, 0]), hnext (h.part [0, 1])⟩, hnext (h.part [1])⟩
    | _ => trivial
  | binary op lhs rhs =>
    simp only [ofExpr, all_append, All, forall_true_left, and_true]
    exact ⟨hnext (h.part [0]), hnext (h.part [1])⟩
  | call line callee args =>
    simp only [ofExpr, all_append, All, and_true]
    obtain ⟨q, hargs⟩ : ∃ q, Spot root (s.kept tails) q (.args args) [] := h.part [1]
    exact ⟨fun _ => hnext (h.part [0]), all_unmixed (fun _ _ => trivial)
      fun _ => hnext fun a ha => hargs.child_none (fun _ => rfl) ha⟩
  | methodCall line object x args =>
    simp only [ofExpr, all_append, All, and_true]
    obtain ⟨q, hargs⟩ : ∃ q, Spot root (s.kept tails) q (.args args) [] := h.part [1]
    exact ⟨fun _ => hnext (h.part [0]), all_unmixed (fun _ _ => trivial)
      fun _ => hnext fun a ha => hargs.child_none (fun _ => rfl) ha⟩
  | array items =>
    obtain ⟨q, hitems⟩ : ∃ q, Spot root (s.kept tails) q (.expr (.array items)) [] := h.part []
    exact ⟨fun _ => hnext fun x hx => hitems.child_none (fun _ => rfl) hx, trivial⟩
  | map entries =>
    obtain ⟨q, hentries⟩ : ∃ q, Spot root (s.kept tails) q (.expr (.map entries)) [] := h.part []
    exact ⟨fun _ => hnext fun x hx => hentries.child_none (fun _ => rfl) hx, trivial⟩
  | function line f => exact fun _ => hnext trivial
  | conditional cond thenE elseE =>
    simp only [ofExpr, all_append, All, forall_true_left, and_true]
    exact fun _ _ => ⟨⟨hnext (h.part [0]), hnext (h.passed [1])⟩, hnext (h.passed [2])⟩
  | case subject arms default =>
    simp only [ofExpr, all_append, All, forall_true_left, and_true, true_and]
    refine ⟨hnext (h.part [0]), fun _ _ _ => ⟨⟨hnext ?_, hnext ?_⟩, hnext ?_⟩⟩
    · intro values result harm x hx
      obtain ⟨k, hk⟩ := List.getElem?_of_mem harm
      obtain ⟨q, hvalues⟩ : ∃ q, Spot root (s.kept tails) q (.exprs values) [] :=
        h.part [1, k, 0] (by simp [Node.at?, Node.child?, Expr.child?, Arm.child?, hk])
          (by simp [Expr.tailSites, Arm.below_mem_tailSites hk])
      exact hvalues.child_none (fun _ => rfl) hx
    · rintro x ⟨⟩
      exact h.passed [2] rfl (by simp [Expr.tailSites, Expr.optionTailSites])
    · intro values result harm
      obtain ⟨k, hk⟩ := List.getElem?_of_mem harm
      exact h.passed [1, k, 1] (by simp [Node.at?, Node.child?, Expr.child?, Arm.child?, hk])
        (by simp [Expr.tailSites, Arm.below_mem_tailSites hk])
  | yield line value =>
    simp only [ofExpr]
    split
    · refine ⟨fun _ => hnext ?_, trivial⟩
      rintro x ⟨⟩
      exact h.part [0]
    · trivial
  | literal v | name x | this => trivial
  | logical op lhs rhs =>
    simp only [ofExpr, all_append, All, forall_true_left, and_true]
    exact fun _ => ⟨hnext (h.part [0]), hnext (h.part [1])⟩
  | unary op operand | member object x =>
    simp only [ofExpr, all_append, All, forall_true_left, and_true]
    exact hnext (h.part [0])
  | index object i =>
    simp only [ofExpr, all_append, All, forall_true_left, and_true]
    exact ⟨hnext (h.part [0]), hnext (h.part [1])⟩

/-- The parts of a statement stand below the function. A value that is returned is returned at once only
where no region is open. -/
theorem stands_ofForm {shape : StmtForm} {line : Nat} {s : Setting}
    (h : (Task.form shape line).Stands root tails name s) :
    (ofForm shape line s).All (fun _ => True) fun inside t s' =>
      inside = false → t.Stands root tails name s' := by
  have hnext : ∀ {t : Task}, t.Placed root tails name s → t.Stands root tails name s :=
    fun ht => ⟨ht, h.cleanups⟩
  cases shape with
  | expr e => exact ⟨fun _ => hnext (h.value [0]), trivial⟩
  | var x init =>
    cases init with
    | none => simp [ofForm, all_append, All]
    | some e =>
      cases e <;> simp only [ofForm, all_append, All, forall_true_left, and_true, true_and]
      case function => exact hnext trivial
      all_goals exact hnext (h.value [0])
  | block body =>
    obtain ⟨p, hspot⟩ : ∃ p, Spot root tails p (.stmt (.mk line (.block body)))
      (Stmt.listReturnSites name 0 body) := h.placed
    rw [Stmt.listReturnSites_eq] at hspot
    exact fun _ => hnext fun t ht => hspot.child (fun _ => rfl) ht
  | ifElse cond thenS elseS =>
    cases elseS with
    | none =>
      simp only [ofForm, all_append, All, forall_true_left, and_true]
      exact fun _ => ⟨hnext (h.value [0]), hnext (h.inner [1])⟩
    | some elseS =>
      simp only [ofForm, all_append, All, forall_true_left, and_true, true_and]
      exact fun _ => ⟨⟨hnext (h.value [0]), hnext (h.inner [1])⟩, fun _ => hnext (h.inner [2])⟩
  | whileDo cond body =>
    simp only [ofForm, all_append, All, forall_true_left, and_true, true_and]
    exact fun _ _ => ⟨hnext (h.value [0]), ⟨h.inner [1], h.cleanups⟩⟩
  | forLoop init cond afterwards body =>
    simp only [ofForm, all_append, All, forall_true_left, and_true, true_and]
    refine ⟨hnext ?_, fun _ _ _ => ⟨⟨hnext ?_, ⟨?_, h.cleanups⟩⟩, hnext ?_⟩⟩
    · rintro u ⟨⟩
      exact h.inner [0]
    · rintro x ⟨⟩
      cases init <;> exact h.value [1]
    · cases init <;> exact h.inner [3]
    · rintro x ⟨⟩
      cases init <;> exact h.value [2]
  | forIn x iterable body =>
    simp only [ofForm, all_append, All, forall_true_left, and_true, true_and]
    exact ⟨hnext (h.value [0]), fun _ _ _ => ⟨h.inner [1], h.cleanups⟩⟩
  | breakLoop =>
    simp only [ofForm]
    cases s.loops.head? with
    | none => trivial
    | some l => exact ⟨fun _ => hnext trivial, trivial⟩
  | continueLoop =>
    simp only [ofForm]
    cases continuable? s.loops with
    | none => trivial
    | some target => exact ⟨fun _ => hnext trivial, trivial⟩
  | ret value =>
    cases value with
    | none =>
      simp only [ofForm]
      split
      · exact ⟨trivial, fun _ => hnext trivial, trivial⟩
      · trivial
    | some e =>
      simp only [ofForm]
      split
      · obtain ⟨p, hspot⟩ : ∃ p, Spot root tails p (.expr e) (e.tailSites name) := h.inner [0]
        refine ⟨fun _ => hnext ⟨p, hspot.kept s⟩, ?_⟩
        split
        · trivial
        · exact ⟨fun _ => hnext trivial, trivial⟩
      · trivial
  | throw e => exact ⟨fun _ => hnext (h.value [0]), trivial⟩
  | tryCatch body handler cleanup =>
    -- an exit from the region compiles the cleanup where it stands, here
    have hcleanup : ∀ items ∈ cleanup, ∀ t ∈ items, t.Placed root tails name := by
      rintro items ⟨⟩
      exact h.stmts [2]
    have hregion : ∀ {items : List Stmt} {caught : Bool},
        (∀ t ∈ items, t.Placed root tails name) →
        (Task.stmts items).Stands root tails name (s.inRegion caught cleanup) :=
      fun hitems => ⟨hitems, List.forall_mem_cons.mpr ⟨hcleanup, h.cleanups⟩⟩
    obtain _ | ⟨x, clause⟩ := handler <;> cases cleanup <;>
      simp only [ofForm, guarded, cleaned, all_append, All, forall_true_left, and_true, true_and]
    case none.some clause => exact fun _ => ⟨hregion (h.stmts [0]), hnext (h.stmts [2])⟩
    case some.none => exact fun _ => ⟨hregion (h.stmts [0]), fun _ => hregion (h.stmts [1])⟩
    case some.some =>
      exact fun _ => ⟨fun _ => ⟨hregion (h.stmts [0]), fun _ => hregion (h.stmts [1])⟩,
        hnext (h.stmts [2])⟩
  | switch subject cases default =>
    simp only [ofForm, all_append, All, forall_true_left, and_true, true_and]
    refine ⟨hnext (h.value [0]), fun _ _ _ => ⟨hnext ?_, fun _ => ⟨⟨?_, h.cleanups⟩, ⟨?_, h.cleanups⟩⟩⟩⟩
    · intro values part hcase x hx
      obtain ⟨k, hk⟩ := List.getElem?_of_mem hcase
      obtain ⟨q, hvalues⟩ : ∃ q, Spot root (s.kept tails) q (.exprs values) [] :=
        h.value [1, k, 0] (by simp [Node.at?, Node.child?, StmtForm.child?, Case.child?, hk])
          (by simp [StmtForm.returnSites, Case.below_mem_returnSites hk])
      exact hvalues.child_none (fun _ => rfl) hx
    · intro values part hcase
      obtain ⟨k, hk⟩ := List.getElem?_of_mem hcase
      exact h.stmts [1, k, 1] (by simp [Node.at?, Node.child?, StmtForm.child?, Case.child?, hk])
        (by simp [StmtForm.returnSites, Case.below_mem_returnSites hk])
    · rintro part ⟨⟩
      exact h.stmts [2]
  | function x f =>
    simp only [ofForm, all_append, All, and_true, true_and]
    exact fun _ => hnext trivial
  | classDef x parent body =>
    simp only [ofForm, all_append, All, and_true, true_and]
    refine ⟨fun _ => hnext ?_, fun h => Bool.noConfusion h⟩
    rintro e ⟨⟩
    exact h.value [0]
  | namespaceDef x body =>
    simp only [ofForm, all_append, All, and_true, true_and]
    exact fun h => Bool.noConfusion h

/-- What stands below a function makes calls for what stands below it, nested units apart. -/
theorem stands_ofTask {t : Task} {s : Setting} (h : t.Stands root tails name s) :
    (ofTask t s).All (fun _ => True) fun inside t' s' =>
      inside = false → t'.Stands root tails name s' := by
  have hnext : ∀ {t : Task}, t.Placed root tails name s → t.Stands root tails name s :=
    fun ht => ⟨ht, h.cleanups⟩
  cases t with
  | expr e terminal => exact stands_ofExpr h
  | form shape line => exact stands_ofForm h
  | exprOr item terminal =>
    cases item with
    | none => trivial
    | some e => exact fun _ => hnext (h.placed e rfl)
  | exprs items =>
    cases items with
    | nil => trivial
    | cons e rest =>
      obtain ⟨he, hrest⟩ := List.forall_mem_cons.mp h.placed
      exact ⟨fun _ => hnext he, fun _ => hnext hrest⟩
  | tests items x l =>
    cases items with
    | nil => trivial
    | cons e rest =>
      obtain ⟨he, hrest⟩ := List.forall_mem_cons.mp h.placed
      simp only [ofTask, all_append, All, forall_true_left, and_true, true_and]
      exact ⟨hnext he, hnext hrest⟩
  | args items call line names =>
    cases items with
    | nil => trivial
    | cons a rest =>
      obtain ⟨ha, hrest⟩ := List.forall_mem_cons.mp h.placed
      cases a <;>
      · simp only [ofTask]
        split <;> simp only [all_append, All, forall_true_left, and_true, true_and]
        exact ⟨hnext ha, hnext hrest⟩
  | entries items =>
    cases items with
    | nil => trivial
    | cons entry rest =>
      obtain ⟨⟨p, hentry⟩, hrest⟩ := List.forall_mem_cons.mp h.placed
      have hpart : ∀ {e : Expr} (q : Path), (Node.entry entry).at? q = some (.expr e) →
          (Task.expr e false).Stands root tails name s := fun q hat =>
        hnext (hentry.down q hat fun d _ => by simp [Expr.valueSites])
      cases entry with
      | named x v =>
        simp only [ofTask, all_append, All, forall_true_left, true_and]
        exact ⟨hpart [1] rfl, hnext hrest⟩
      | computed k v =>
        simp only [ofTask, all_append, All, forall_true_left]
        exact ⟨⟨hpart [0] rfl, hpart [1] rfl⟩, hnext hrest⟩
  | armTests arms x first =>
    cases arms with
    | nil => trivial
    | cons arm rest =>
      cases arm with
      | mk values result =>
        exact ⟨fun _ => hnext (h.placed values result List.mem_cons_self),
          fun _ => hnext fun values result hm => h.placed values result (List.mem_cons_of_mem _ hm)⟩
  | armResults arms terminal first done =>
    cases arms with
    | nil => trivial
    | cons arm rest =>
      cases arm with
      | mk values result =>
        simp only [ofTask, all_append, All, forall_true_left, and_true, true_and]
        exact ⟨hnext (h.placed values result List.mem_cons_self),
          hnext fun values result hm => h.placed values result (List.mem_cons_of_mem _ hm)⟩
  | function f binding line =>
    obtain ⟨params, variadic, generator, body⟩ := f
    simp only [ofTask]
    cases firstRepeated? [] (params.map Param.name) with
    | none => exact ⟨fun h => Bool.noConfusion h, fun h => Bool.noConfusion h⟩
    | some x => trivial
  | params items i =>
    cases items with
    | nil => trivial
    | cons param rest =>
      have hrest : (Task.params rest (i + 1)).Stands root tails name s :=
        hnext fun x e hm => h.placed x e (List.mem_cons_of_mem _ hm)
      obtain ⟨x, default⟩ := param
      cases default with
      | none => exact fun _ => hrest
      | some e =>
        simp only [ofTask, all_append, All, forall_true_left, and_true, true_and]
        exact ⟨fun _ => hnext (h.placed x e List.mem_cons_self), hrest⟩
  | body items =>
    cases items with
    | nil => trivial
    | cons stmt rest =>
      obtain ⟨hregions, hinit, hlast⟩ := h.placed
      cases rest with
      | nil =>
        obtain ⟨p, hspot⟩ := hlast stmt rfl
        obtain ⟨line, shape⟩ := stmt
        cases shape with
        | expr e =>
          obtain ⟨q, he⟩ : ∃ q, Spot root tails q (.expr e) (e.tailSites name) :=
            hspot.down [0] rfl (by simp [Stmt.lastSites])
          have hkept := he.kept s
          rw [hregions] at hkept
          exact ⟨⟨trivial, fun _ => hnext ⟨q, hkept⟩⟩, trivial⟩
        | ret value => exact ⟨trivial, fun _ => hnext ⟨p, hspot⟩⟩
        | _ => exact ⟨⟨trivial, fun _ => hnext ⟨p, hspot⟩⟩, trivial⟩
      | cons next rest =>
        obtain ⟨hfirst, hrest⟩ := List.forall_mem_cons.mp hinit
        obtain ⟨line, shape⟩ := stmt
        have hbody : (Task.body (next :: rest)).Stands root tails name s :=
          hnext ⟨hregions, hrest, hlast⟩
        cases shape <;> exact ⟨fun _ => hnext hfirst, fun _ => hbody⟩
  | stmt item => cases item; exact ⟨trivial, fun _ => hnext h.placed⟩
  | stmts items =>
    cases items with
    | nil => trivial
    | cons u rest =>
      obtain ⟨hu, hrest⟩ := List.forall_mem_cons.mp h.placed
      exact ⟨fun _ => hnext hu, fun _ => hnext hrest⟩
  | optional item =>
    cases item with
    | none => trivial
    | some u => exact fun _ => hnext (h.placed u rfl)
  | fallback items =>
    cases items with
    | none => trivial
    | some part => exact fun _ => hnext (h.placed part rfl)
  | condition item done =>
    cases item with
    | none => trivial
    | some e => exact ⟨fun _ => hnext (h.placed e rfl), trivial⟩
  | effect item =>
    cases item with
    | none => trivial
    | some e => exact ⟨fun _ => hnext (h.placed e rfl), trivial⟩
  | caseTests cases x first =>
    cases cases with
    | nil => trivial
    | cons case rest =>
      cases case with
      | mk values part =>
        exact ⟨fun _ => hnext (h.placed values part List.mem_cons_self),
          fun _ => hnext fun values part hm => h.placed values part (List.mem_cons_of_mem _ hm)⟩
  | caseBodies cases first done =>
    cases cases with
    | nil => trivial
    | cons case rest =>
      cases case with
      | mk values part =>
        simp only [ofTask, all_append, All, forall_true_left, and_true, true_and]
        exact ⟨hnext (h.placed values part List.mem_cons_self),
          hnext fun values part hm => h.placed values part (List.mem_cons_of_mem _ hm)⟩
  | unwind n =>
    cases n with
    | zero => trivial
    | succ n =>
      simp only [ofTask]
      split
      · trivial
      · next r rest hregions =>
        obtain ⟨hr, hrest⟩ := List.forall_mem_cons.mp (hregions ▸ h.cleanups)
        refine ⟨⟨trivial, ?_⟩, fun _ => ⟨trivial, hrest⟩⟩
        obtain ⟨caught, cleanup⟩ := r
        cases cleanup with
        | none => trivial
        | some clause => exact ⟨trivial, fun _ => ⟨hr clause rfl, hrest⟩⟩

end Plan

/-! ### The start of a function -/

/-- The last statement of a body returns what any statement does, and the value of an expression. -/
theorem Stmt.mem_lastSites {name : String} {t : Stmt} {d : CallSite} :
    d ∈ t.lastSites name ↔ d ∈ t.returnSites name
      ∨ ∃ line e, t = .mk line (.expr e) ∧ d ∈ under 0 (e.tailSites name) := by
  obtain ⟨line, shape⟩ := t
  cases shape with
  | expr e =>
    refine ⟨fun hd => .inr ⟨line, e, rfl, hd⟩, ?_⟩
    rintro (hd | ⟨_, _, ⟨⟩, hd⟩)
    · cases hd
    · exact hd
  | _ =>
    refine ⟨.inl, ?_⟩
    rintro (hd | ⟨_, _, ⟨⟩, -⟩)
    exact hd

theorem Stmt.below_mem_bodySites {name : String} {body : List Stmt} {k : Nat} {t : Stmt} {d : CallSite}
    (hk : body[k]? = some t) :
    d.below [k] ∈ Stmt.bodySites name 0 body ↔
      d ∈ if k = body.length - 1 then t.lastSites name else t.returnSites name := by
  have hlast : ∀ (c : CallSite) n, c.below [n, 0] = (c.below [0]).below [n] := fun _ _ => rfl
  have hsites : d.below [k] ∈ Stmt.bodySites name 0 body ↔ d ∈ t.returnSites name
      ∨ k = body.length - 1 ∧ ∃ line e, t = .mk line (.expr e) ∧ d ∈ under 0 (e.tailSites name) := by
    simp only [Stmt.mem_bodySites, Nat.zero_add, hlast, CallSite.below_cons_inj, CallSite.below_nil,
      mem_under, List.getLast?_eq_getElem?]
    refine or_congr ⟨?_, ?_⟩ ⟨?_, ?_⟩
    · rintro ⟨k, u, hu, c, hc, rfl, rfl⟩
      rw [hk] at hu
      obtain rfl := Option.some.inj hu
      exact hc
    · intro hd
      exact ⟨k, t, hk, d, hd, rfl, rfl⟩
    · rintro ⟨line, e, hlast, c, hc, rfl, rfl⟩
      rw [hk] at hlast
      exact ⟨rfl, line, e, Option.some.inj hlast, c, hc, rfl⟩
    · rintro ⟨rfl, line, e, rfl, c, hc, rfl⟩
      exact ⟨line, e, hk, c, hc, rfl, rfl⟩
  rw [hsites]
  split
  · next hend => simp only [hend, true_and, mem_lastSites]
  · next hend => simp only [hend, false_and, or_false]

namespace Function

variable {f : Function} {name : String}

theorem stands_params {s : Setting} (hs : s.regions = []) :
    (Task.params f.params 0).Stands f (under 1 (Stmt.bodySites name 0 f.body)) name s := by
  refine ⟨fun x e hm => ?_, hs ▸ fun r hr => absurd hr List.not_mem_nil⟩
  obtain ⟨k, hk⟩ := List.getElem?_of_mem hm
  have hspot : Spot f (under 1 (Stmt.bodySites name 0 f.body)) [0, k] (.expr e) [] :=
    ⟨by simp [at?, child?, Node.at?, Node.child?, hk, Param.default], by simp⟩
  exact ⟨[0, k], hspot.kept_none s⟩

theorem stands_body {s : Setting} (hs : s.regions = []) :
    (Task.body f.body).Stands f (under 1 (Stmt.bodySites name 0 f.body)) name s := by
  have hpart : ∀ {k : Nat} {t : Stmt}, f.body[k]? = some t →
      ∃ p, Spot f (under 1 (Stmt.bodySites name 0 f.body)) p (.stmt t)
        (if k = f.body.length - 1 then t.lastSites name else t.returnSites name) := by
    intro k t hk
    refine ⟨[1, k], by simp [at?, child?, Node.at?, Node.child?, hk], fun d _ => ?_⟩
    rw [CallSite.below_cons_mem_under, eq_self, true_and]
    exact Stmt.below_mem_bodySites hk
  refine ⟨⟨hs, fun t ht => ?_, fun t ht => ?_⟩, hs ▸ fun r hr => absurd hr List.not_mem_nil⟩
  · obtain ⟨k, hk⟩ := List.getElem?_of_mem ht
    rw [List.getElem?_dropLast] at hk
    split at hk
    · next hlt =>
      have hinit := hpart hk
      rw [if_neg (Nat.ne_of_lt hlt)] at hinit
      exact hinit
    · cases hk
  · have hlast := hpart (List.getLast?_eq_getElem?.symm.trans ht)
    rw [if_pos rfl] at hlast
    exact hlast

/-- The parameters and the body of a function are compiled in a unit of their own. -/
theorem stands_of_makes (name : String) {line : Nat} {s s' : Setting} {p p' : Stage} {t : Task}
    {binding : Option String}
    (h : (Plan.ofTask (.function f binding line) s).Makes p true t s' p') :
    s' = s.inFunction binding f
      ∧ t.Stands f (under 1 (Stmt.bodySites name 0 f.body)) name s' := by
  refine h.of_all (D := fun _ => True) (C := fun _ t s' => s' = s.inFunction binding f
    ∧ t.Stands f (under 1 (Stmt.bodySites name 0 f.body)) name s') ?_
  obtain ⟨params, variadic, generator, body⟩ := f
  simp only [Plan.ofTask]
  cases firstRepeated? [] (params.map Param.name) with
  | none => exact ⟨⟨rfl, stands_params rfl⟩, rfl, stands_body rfl⟩
  | some x => trivial

end Function

/-! ### Tail calls and tail sites -/

/-- In a unit, the name by which the function calls itself stays the same. -/
theorem Task.Reaches.self_eq {t t' : Task} {s s' : Setting} {p p' : Stage}
    (h : Task.Reaches (fun inside _ => inside = false) t s p t' s' p') : s'.self = s.self := by
  induction h with
  | here => rfl
  | @call t t₁ t₂ s s₁ s₂ p p₁ p₂ inside hm hok h ih =>
    have hcalls := hm.of_all (Plan.steady_ofTask t s)
    rw [hok] at hcalls
    rw [ih, hcalls.unit]

/-- In a unit, the walk stays below the function. -/
theorem Task.Reaches.stands {root : Function} {tails : List CallSite} {name : String} {t t' : Task}
    {s s' : Setting} {p p' : Stage} (h : Task.Reaches (fun inside _ => inside = false) t s p t' s' p')
    (ht : t.Stands root tails name s) : t'.Stands root tails name s' := by
  induction h with
  | here => exact ht
  | call hm hok _ ih => exact ih (hm.of_all (Plan.stands_ofTask ht) hok)

theorem Setting.mem_kept {s : Setting} {tails : List CallSite} {d : CallSite} :
    d ∈ s.kept tails ↔ d ∈ tails ∧ s.regions = [] := by
  rw [kept, ← List.isEmpty_iff]
  split
  · next hnone => simp [hnone]
  · next hopen => simp [hopen]

theorem Expr.mem_valueSites_call {name : String} {terminal : Bool} {line : Nat} {callee : Expr}
    {args : List Arg} :
    ⟨[], line⟩ ∈ (call line callee args).valueSites name terminal
      ↔ terminal = true ∧ (call line callee args).isCallOf name = true := by
  cases terminal
  · simp [valueSites]
  · simp only [valueSites, if_true, tailSites, true_and]
    split
    · next hcall => simp [hcall]
    · next hcall => simp [hcall]

/-- An argument list is passed by a tail call just when it is said to be. -/
theorem callOp_writes_tailCall {args : List Arg} {tail : Bool} {supply : Supply} :
    (∃ n, .count .tailCall n ∈ (callOp args tail).steps supply) ↔ tail = true := by
  unfold callOp callNamedOp
  simp only
  split
  · next htail => simp [htail, steps_step]
  · next htail =>
    split
    · split <;> simp [htail, steps_step, steps_final]
    · simp [htail, steps_step]

/-- **Tail calls are written at tail sites.** Wherever the walk of a function that is bound to `name` comes
to a call, in the unit of the function, the call is found in the function at some path. Its code ends in the
instruction that makes it, which is a tail call just when tail calls are asked for, the path is a tail site
of the function and no region is open. -/
theorem Function.tailCall_iff {f : Function} {name : String} {functionLine line : Nat} {s₀ s₁ s : Setting}
    {p₀ p₁ p : Stage} {t : Task} {callee : Expr} {args : List Arg} {terminal : Bool}
    (hf : (Plan.ofTask (.function f (some name) functionLine) s₀).Makes p₀ true t s₁ p₁)
    (h : Task.Reaches (fun inside _ => inside = false) t s₁ p₁
      (.expr (.call line callee args) terminal) s p) :
    ∃ path parts, f.at? path = some (.expr (.call line callee args))
      ∧ (Expr.call line callee args).lower s.context terminal
        = parts ++ callOp args (s.context.isTail terminal (.call line callee args))
      ∧ ∀ supply, (∃ n, .count .tailCall n
          ∈ (callOp args (s.context.isTail terminal (.call line callee args))).steps supply)
        ↔ s₀.config.tailCalls = true ∧ ⟨path, line⟩ ∈ f.tailSites name ∧ s.regions = [] := by
  obtain ⟨rfl, hstart⟩ := Function.stands_of_makes name hf
  obtain ⟨path, hspot⟩ := (h.stands hstart).placed
  have hcall : (⟨[], line⟩ : CallSite) ∈ (Expr.call line callee args).calls := List.mem_cons_self
  have htails := hspot.mem_tails_iff _ hcall
  rw [CallSite.below, List.append_nil, Setting.mem_kept, Expr.mem_valueSites_call] at htails
  refine ⟨path, _, hspot.at_eq, rfl, fun supply => ?_⟩
  have hself : s.self = (some name).filter fun x => s₀.config.tailCalls && f.bindsSelf x := h.self_eq
  rw [callOp_writes_tailCall]
  unfold Context.isTail Function.tailSites
  rw [Bool.and_eq_true, show s.context.self = s.self from rfl, hself, Option.filter_some]
  cases htail : s₀.config.tailCalls <;> cases hbinds : f.bindsSelf name
  case true.true => simp [htails]
  all_goals simp

end StackCode
