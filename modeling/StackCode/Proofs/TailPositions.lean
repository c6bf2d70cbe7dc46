import Mathlib.Data.List.Nodup
import StackCode.TailCalls

/-!
# Which calls stand in tail position

The calls in tail position are listed by one walk of the tree. Here the same calls are described without
a walk: by where a statement of the function stands, by what a statement returns, and by the expressions
from which the returned value is passed on.

* `Stmt.Part`, `Stmt.Holds`: the statements of a unit inside a statement, each with its path;
* `Expr.PassesOn`: the expressions whose value an expression may have;
* `Function.CallsItself`: a call in tail position of a function to itself;
* `Stmt.mem_returnSites`, `Stmt.binds_eq_true`: what the walk finds in statements;
* `Function.tailSites_exact`: the walk lists these calls, each once.

A call is known by its path from the function down to it, and no two calls have the same path.
-/

namespace StackCode

/-! ### Statements of a unit -/

/-- The statement `t` stands right inside a statement at a path, and belongs to the same unit. -/
inductive Stmt.Part : Stmt → Path → Stmt → Prop where
  | block {line i : Nat} {body : List Stmt} {t : Stmt} (h : body[i]? = some t) :
      Part (.mk line (.block body)) [i] t
  | thenS {line : Nat} {cond : Expr} {t : Stmt} {elseS : Option Stmt} :
      Part (.mk line (.ifElse cond t elseS)) [1] t
  | elseS {line : Nat} {cond : Expr} {thenS t : Stmt} :
      Part (.mk line (.ifElse cond thenS (some t))) [2] t
  | whileDo {line : Nat} {cond : Expr} {t : Stmt} : Part (.mk line (.whileDo cond t)) [1] t
  | forInit {line : Nat} {cond step : Option Expr} {body t : Stmt} :
      Part (.mk line (.forLoop (some t) cond step body)) [0] t
  | forBody {line : Nat} {init : Option Stmt} {cond step : Option Expr} {t : Stmt} :
      Part (.mk line (.forLoop init cond step t)) [3] t
  | forIn {line : Nat} {x : String} {iterable : Expr} {t : Stmt} :
      Part (.mk line (.forIn x iterable t)) [1] t
  | guarded {line i : Nat} {body : List Stmt} {handler : Option Catch} {cleanup : Option (List Stmt)}
      {t : Stmt} (h : body[i]? = some t) : Part (.mk line (.tryCatch body handler cleanup)) [0, i] t
  | caught {line i : Nat} {body clause : List Stmt} {x : String} {cleanup : Option (List Stmt)}
      {t : Stmt} (h : clause[i]? = some t) :
      Part (.mk line (.tryCatch body (some (.mk x clause)) cleanup)) [1, i] t
  | cleanup {line i : Nat} {body clause : List Stmt} {handler : Option Catch} {t : Stmt}
      (h : clause[i]? = some t) : Part (.mk line (.tryCatch body handler (some clause))) [2, i] t
  | case {line k i : Nat} {subject : Expr} {cases : List Case} {default : Option (List Stmt)}
      {values : List Expr} {body : List Stmt} {t : Stmt} (hk : cases[k]? = some (.mk values body))
      (h : body[i]? = some t) : Part (.mk line (.switch subject cases default)) [1, k, 1, i] t
  | default {line i : Nat} {subject : Expr} {cases : List Case} {body : List Stmt} {t : Stmt}
      (h : body[i]? = some t) : Part (.mk line (.switch subject cases (some body))) [2, i] t

/-- The statement `u` stands in a statement at a path, however deep, and belongs to the same unit. -/
inductive Stmt.Holds : Stmt → Path → Stmt → Prop where
  | self (s : Stmt) : Holds s [] s
  | part {s t u : Stmt} {p q : Path} (hp : s.Part p t) (h : t.Holds q u) : Holds s (p ++ q) u

/-- A statement gives `name` a meaning: as a variable, also that of a loop or of a catch clause, or as a
function, a class or a namespace. -/
inductive Stmt.Introduces (name : String) : Stmt → Prop where
  | var {line : Nat} {init : Option Expr} : Introduces name (.mk line (.var name init))
  | forIn {line : Nat} {iterable : Expr} {body : Stmt} :
      Introduces name (.mk line (.forIn name iterable body))
  | caught {line : Nat} {body clause : List Stmt} {cleanup : Option (List Stmt)} :
      Introduces name (.mk line (.tryCatch body (some (.mk name clause)) cleanup))
  | function {line : Nat} {f : Function} : Introduces name (.mk line (.function name f))
  | classDef {line : Nat} {parent : Option Expr} {body : List Stmt} :
      Introduces name (.mk line (.classDef name parent body))
  | namespaceDef {line : Nat} {body : List Stmt} :
      Introduces name (.mk line (.namespaceDef name body))

/-- The value of an expression may be that of the expression `e` at a path: a branch of a conditional,
the result of an arm, or the default of a case expression. -/
inductive Expr.PassesOn : Expr → Path → Expr → Prop where
  | self (e : Expr) : PassesOn e [] e
  | thenE {cond thenE elseE e : Expr} {p : Path} (h : thenE.PassesOn p e) :
      PassesOn (.conditional cond thenE elseE) (1 :: p) e
  | elseE {cond thenE elseE e : Expr} {p : Path} (h : elseE.PassesOn p e) :
      PassesOn (.conditional cond thenE elseE) (2 :: p) e
  | result {subject result e : Expr} {arms : List Arm} {default : Option Expr} {k : Nat}
      {values : List Expr} {p : Path} (hk : arms[k]? = some (.mk values result))
      (h : result.PassesOn p e) : PassesOn (.case subject arms default) (1 :: k :: 1 :: p) e
  | default {subject default e : Expr} {arms : List Arm} {p : Path} (h : default.PassesOn p e) :
      PassesOn (.case subject arms (some default)) (2 :: p) e

namespace Function

/-- The statement `s`, at a path below the function, belongs to the function itself. -/
def Owns (f : Function) (p : Path) (s : Stmt) : Prop :=
  ∃ i t q, f.body[i]? = some t ∧ t.Holds q s ∧ p = 1 :: i :: q

/-- The function returns the value of the expression `e` at a path: by a statement of its own, or because
the expression ends its body. -/
inductive Returns (f : Function) : Path → Expr → Prop where
  | ret {p : Path} {line : Nat} {e : Expr} (h : f.Owns p (.mk line (.ret (some e)))) :
      Returns f (p ++ [0]) e
  | last {line : Nat} {e : Expr} (h : f.body.getLast? = some (.mk line (.expr e))) :
      Returns f [1, f.body.length - 1, 0] e

/-- A function that is bound to `name` calls itself in tail position. -/
structure CallsItself (f : Function) (name : String) (c : CallSite) : Prop where
  plain : f.generator = false
  params : ∀ x ∈ f.params, x.name ≠ name
  /-- No statement of the function gives the name another meaning. -/
  unbound : ∀ p s, f.Owns p s → ¬ s.Introduces name
  /-- The call names the function, passes positional arguments, and gives the returned value. -/
  returned : ∃ p e q args, f.Returns p e ∧ e.PassesOn q (.call c.line (.name name) args)
    ∧ (∀ a ∈ args, a.isPositional = true) ∧ c.path = p ++ q

end Function

/-! ### Paths of siblings -/

/-- The call, seen from further up. -/
def CallSite.below (p : Path) (c : CallSite) : CallSite := { c with path := p ++ c.path }

theorem CallSite.below_below (p q : Path) (c : CallSite) :
    (c.below q).below p = c.below (p ++ q) := by
  simp [below]

/-- The calls of several children, the first of which has number `i`. -/
def siblings (i : Nat) : List (List CallSite) → List CallSite
  | [] => []
  | xs :: rest => under i xs ++ siblings (i + 1) rest

theorem mem_under {i : Nat} {xs : List CallSite} {c : CallSite} :
    c ∈ under i xs ↔ ∃ d ∈ xs, c = d.below [i] := by
  simp only [under, List.mem_map]
  constructor
  · rintro ⟨d, hd, rfl⟩
    exact ⟨d, hd, rfl⟩
  · rintro ⟨d, hd, rfl⟩
    exact ⟨d, hd, rfl⟩

theorem mem_siblings {i : Nat} {xss : List (List CallSite)} {c : CallSite} :
    c ∈ siblings i xss ↔
      ∃ (k : Nat) (xs : List CallSite), xss[k]? = some xs ∧ ∃ d ∈ xs, c = d.below [i + k] := by
  induction xss generalizing i with
  | nil => simp [siblings]
  | cons xs rest ih =>
    rw [siblings, List.mem_append, mem_under, ih]
    constructor
    · rintro (⟨d, hd, rfl⟩ | ⟨k, ys, hk, d, hd, rfl⟩)
      · exact ⟨0, xs, rfl, d, hd, rfl⟩
      · exact ⟨k + 1, ys, hk, d, hd, by rw [Nat.add_assoc, Nat.add_comm 1]⟩
    · rintro ⟨k, ys, hk, d, hd, rfl⟩
      cases k with
      | zero =>
        obtain rfl := Option.some.inj hk
        exact .inl ⟨d, hd, rfl⟩
      | succ k => exact .inr ⟨k, ys, hk, d, hd, by rw [Nat.add_assoc, Nat.add_comm 1]⟩

/-! ### What the walk finds in expressions -/

theorem Arm.tailSites_eq (name : String) (i : Nat) (arms : List Arm) :
    Arm.tailSites name i arms
      = siblings i (arms.map fun | .mk _ result => under 1 (result.tailSites name)) := by
  induction arms generalizing i with
  | nil => rfl
  | cons arm rest ih =>
    cases arm with
    | mk values result => rw [Arm.tailSites, ih]; rfl

/-- The calls in the arms of a case expression. -/
theorem Arm.mem_tailSites {name : String} {arms : List Arm} {c : CallSite} :
    c ∈ Arm.tailSites name 0 arms ↔ ∃ (k : Nat) (values : List Expr) (result : Expr),
      arms[k]? = some (.mk values result) ∧ ∃ d ∈ result.tailSites name, c = d.below [k, 1] := by
  rw [Arm.tailSites_eq, mem_siblings]
  simp only [List.getElem?_map, Option.map_eq_some_iff, Nat.zero_add]
  constructor
  · rintro ⟨k, xs, ⟨⟨values, result⟩, hk, rfl⟩, d', hd', rfl⟩
    obtain ⟨d, hd, rfl⟩ := mem_under.mp hd'
    exact ⟨k, values, result, hk, d, hd, rfl⟩
  · rintro ⟨k, values, result, hk, d, hd, rfl⟩
    exact ⟨k, _, ⟨.mk values result, hk, rfl⟩, d.below [1], mem_under.mpr ⟨d, hd, rfl⟩, rfl⟩

theorem Expr.isCallOf_iff {name : String} {line : Nat} {callee : Expr} {args : List Arg} :
    (Expr.call line callee args).isCallOf name = true
      ↔ callee = .name name ∧ ∀ a ∈ args, a.isPositional = true := by
  simp only [isCallOf, Bool.and_eq_true, beq_iff_eq, List.all_eq_true]
  refine and_congr_left fun _ => ?_
  cases callee <;> simp [asName?]

theorem sizeOf_lt_of_getElem? {α : Type} [SizeOf α] {xs : List α} {k : Nat} {x : α}
    (h : xs[k]? = some x) : sizeOf x < sizeOf xs :=
  List.sizeOf_lt_of_mem (List.mem_of_getElem? h)

/-- The calls that the walk finds in an expression have its value. -/
theorem Expr.passesOn_of_mem {name : String} {c : CallSite} (e : Expr) (hc : c ∈ e.tailSites name) :
    ∃ args, e.PassesOn c.path (.call c.line (.name name) args)
      ∧ ∀ a ∈ args, a.isPositional = true := by
  cases e with
  | conditional cond thenE elseE =>
    obtain hc | hc := List.mem_append.mp hc
    · obtain ⟨d, hd, rfl⟩ := mem_under.mp hc
      obtain ⟨args, h, hargs⟩ := Expr.passesOn_of_mem thenE hd
      exact ⟨args, .thenE h, hargs⟩
    · obtain ⟨d, hd, rfl⟩ := mem_under.mp hc
      obtain ⟨args, h, hargs⟩ := Expr.passesOn_of_mem elseE hd
      exact ⟨args, .elseE h, hargs⟩
  | case subject arms default =>
    obtain hc | hc := List.mem_append.mp hc
    · obtain ⟨d, hd, rfl⟩ := mem_under.mp hc
      obtain ⟨k, values, result, hk, b, hb, rfl⟩ := Arm.mem_tailSites.mp hd
      have hsize := sizeOf_lt_of_getElem? hk
      obtain ⟨args, h, hargs⟩ := Expr.passesOn_of_mem result hb
      exact ⟨args, .result hk h, hargs⟩
    · obtain ⟨d, hd, rfl⟩ := mem_under.mp hc
      cases default with
      | none => exact absurd hd List.not_mem_nil
      | some e =>
        obtain ⟨args, h, hargs⟩ := Expr.passesOn_of_mem e hd
        exact ⟨args, .default h, hargs⟩
  | call line callee args =>
    rw [Expr.tailSites] at hc
    split at hc
    · next hcall =>
      obtain rfl := List.mem_singleton.mp hc
      obtain ⟨rfl, hargs⟩ := Expr.isCallOf_iff.mp hcall
      exact ⟨args, .self _, hargs⟩
    · exact absurd hc List.not_mem_nil
  | _ => exact absurd hc List.not_mem_nil
termination_by sizeOf e
decreasing_by all_goals simp_all <;> omega

theorem Expr.PassesOn.mem {name : String} {e e' : Expr} {p : Path} (h : e.PassesOn p e')
    {c : CallSite} (hc : c ∈ e'.tailSites name) : c.below p ∈ e.tailSites name := by
  induction h with
  | self => exact hc
  | thenE _ ih => exact List.mem_append_left _ (mem_under.mpr ⟨_, ih hc, rfl⟩)
  | elseE _ ih => exact List.mem_append_right _ (mem_under.mpr ⟨_, ih hc, rfl⟩)
  | result hk _ ih =>
    have harm := Arm.mem_tailSites.mpr ⟨_, _, _, hk, _, ih hc, rfl⟩
    exact List.mem_append_left _ (mem_under.mpr ⟨_, harm, rfl⟩)
  | default _ ih => exact List.mem_append_right _ (mem_under.mpr ⟨_, ih hc, rfl⟩)

/-- The walk finds the calls of `name` whose value an expression may have. -/
theorem Expr.mem_tailSites {name : String} {e : Expr} {c : CallSite} :
    c ∈ e.tailSites name ↔ ∃ args, e.PassesOn c.path (.call c.line (.name name) args)
      ∧ ∀ a ∈ args, a.isPositional = true := by
  refine ⟨Expr.passesOn_of_mem e, fun ⟨args, h, hargs⟩ => ?_⟩
  have hself : (⟨[], c.line⟩ : CallSite) ∈ (Expr.call c.line (.name name) args).tailSites name := by
    rw [Expr.tailSites, if_pos (Expr.isCallOf_iff.mpr ⟨rfl, hargs⟩)]
    exact List.mem_cons_self
  have hbelow := h.mem hself
  rwa [CallSite.below, List.append_nil] at hbelow

/-! ### What the walk finds in statements -/

theorem Stmt.listReturnSites_eq (name : String) (i : Nat) (body : List Stmt) :
    Stmt.listReturnSites name i body = siblings i (body.map (Stmt.returnSites name)) := by
  induction body generalizing i with
  | nil => rfl
  | cons s rest ih => rw [Stmt.listReturnSites, ih]; rfl

theorem Stmt.mem_listReturnSites {name : String} {body : List Stmt} {c : CallSite} :
    c ∈ Stmt.listReturnSites name 0 body
      ↔ ∃ (i : Nat) (t : Stmt), body[i]? = some t ∧ ∃ d ∈ t.returnSites name, c = d.below [i] := by
  rw [Stmt.listReturnSites_eq, mem_siblings]
  simp only [List.getElem?_map, Option.map_eq_some_iff, Nat.zero_add]
  constructor
  · rintro ⟨i, xs, ⟨t, hi, rfl⟩, d, hd, rfl⟩
    exact ⟨i, t, hi, d, hd, rfl⟩
  · rintro ⟨i, t, hi, d, hd, rfl⟩
    exact ⟨i, _, ⟨t, hi, rfl⟩, d, hd, rfl⟩

theorem Case.returnSites_eq (name : String) (i : Nat) (cases : List Case) :
    Case.returnSites name i cases
      = siblings i (cases.map fun | .mk _ body => under 1 (Stmt.listReturnSites name 0 body)) := by
  induction cases generalizing i with
  | nil => rfl
  | cons case rest ih =>
    cases case with
    | mk values body => rw [Case.returnSites, ih]; rfl

theorem Case.mem_returnSites {name : String} {cases : List Case} {c : CallSite} :
    c ∈ Case.returnSites name 0 cases ↔ ∃ (k : Nat) (values : List Expr) (body : List Stmt),
      cases[k]? = some (.mk values body)
        ∧ ∃ d ∈ Stmt.listReturnSites name 0 body, c = d.below [k, 1] := by
  rw [Case.returnSites_eq, mem_siblings]
  simp only [List.getElem?_map, Option.map_eq_some_iff, Nat.zero_add]
  constructor
  · rintro ⟨k, xs, ⟨⟨values, body⟩, hk, rfl⟩, d', hd', rfl⟩
    obtain ⟨d, hd, rfl⟩ := mem_under.mp hd'
    exact ⟨k, values, body, hk, d, hd, rfl⟩
  · rintro ⟨k, values, body, hk, d, hd, rfl⟩
    exact ⟨k, _, ⟨.mk values body, hk, rfl⟩, d.below [1], mem_under.mpr ⟨d, hd, rfl⟩, rfl⟩

/-- A call in what a statement returns is returned by the statement itself or by one inside it. -/
theorem Stmt.mem_returnSites_iff {name : String} {s : Stmt} {c : CallSite} :
    c ∈ s.returnSites name ↔
      (∃ line e d, s = .mk line (.ret (some e)) ∧ d ∈ e.tailSites name ∧ c = d.below [0])
        ∨ ∃ p t d, s.Part p t ∧ d ∈ t.returnSites name ∧ c = d.below p := by
  constructor
  · intro hc
    cases s with
    | mk line form =>
    cases form with
    | ret value =>
      cases value with
      | none => exact absurd hc List.not_mem_nil
      | some e =>
        obtain ⟨d, hd, rfl⟩ := mem_under.mp hc
        exact .inl ⟨line, e, d, rfl, hd, rfl⟩
    | block body =>
      obtain ⟨i, t, hi, d, hd, rfl⟩ := Stmt.mem_listReturnSites.mp hc
      exact .inr ⟨_, t, d, .block hi, hd, rfl⟩
    | ifElse cond thenS elseS =>
      cases elseS with
      | none =>
        obtain ⟨d, hd, rfl⟩ := mem_under.mp hc
        exact .inr ⟨_, thenS, d, .thenS, hd, rfl⟩
      | some elseS =>
        obtain hc | hc := List.mem_append.mp hc
        · obtain ⟨d, hd, rfl⟩ := mem_under.mp hc
          exact .inr ⟨_, thenS, d, .thenS, hd, rfl⟩
        · obtain ⟨d, hd, rfl⟩ := mem_under.mp hc
          exact .inr ⟨_, elseS, d, .elseS, hd, rfl⟩
    | whileDo cond body =>
      obtain ⟨d, hd, rfl⟩ := mem_under.mp hc
      exact .inr ⟨_, body, d, .whileDo, hd, rfl⟩
    | forLoop init cond step body =>
      cases init with
      | none =>
        obtain ⟨d, hd, rfl⟩ := mem_under.mp hc
        exact .inr ⟨_, body, d, .forBody, hd, rfl⟩
      | some init =>
        obtain hc | hc := List.mem_append.mp hc
        · obtain ⟨d, hd, rfl⟩ := mem_under.mp hc
          exact .inr ⟨_, init, d, .forInit, hd, rfl⟩
        · obtain ⟨d, hd, rfl⟩ := mem_under.mp hc
          exact .inr ⟨_, body, d, .forBody, hd, rfl⟩
    | forIn x iterable body =>
      obtain ⟨d, hd, rfl⟩ := mem_under.mp hc
      exact .inr ⟨_, body, d, .forIn, hd, rfl⟩
    | tryCatch body handler cleanup =>
      obtain hc | hc := List.mem_append.mp hc
      · obtain hc | hc := List.mem_append.mp hc
        · obtain ⟨b, hb, rfl⟩ := mem_under.mp hc
          obtain ⟨i, t, hi, d, hd, rfl⟩ := Stmt.mem_listReturnSites.mp hb
          exact .inr ⟨_, t, d, .guarded hi, hd, rfl⟩
        · obtain ⟨b, hb, rfl⟩ := mem_under.mp hc
          cases handler with
          | none => exact absurd hb List.not_mem_nil
          | some clause =>
            cases clause with
            | mk x clause =>
            obtain ⟨i, t, hi, d, hd, rfl⟩ := Stmt.mem_listReturnSites.mp hb
            exact .inr ⟨_, t, d, .caught hi, hd, rfl⟩
      · obtain ⟨b, hb, rfl⟩ := mem_under.mp hc
        cases cleanup with
        | none => exact absurd hb List.not_mem_nil
        | some clause =>
          obtain ⟨i, t, hi, d, hd, rfl⟩ := Stmt.mem_listReturnSites.mp hb
          exact .inr ⟨_, t, d, .cleanup hi, hd, rfl⟩
    | switch subject cases default =>
      obtain hc | hc := List.mem_append.mp hc
      · obtain ⟨b, hb, rfl⟩ := mem_under.mp hc
        obtain ⟨k, values, body, hk, b', hb', rfl⟩ := Case.mem_returnSites.mp hb
        obtain ⟨i, t, hi, d, hd, rfl⟩ := Stmt.mem_listReturnSites.mp hb'
        exact .inr ⟨_, t, d, .case hk hi, hd, rfl⟩
      · obtain ⟨b, hb, rfl⟩ := mem_under.mp hc
        cases default with
        | none => exact absurd hb List.not_mem_nil
        | some body =>
          obtain ⟨i, t, hi, d, hd, rfl⟩ := Stmt.mem_listReturnSites.mp hb
          exact .inr ⟨_, t, d, .default hi, hd, rfl⟩
    | _ => exact absurd hc List.not_mem_nil
  · rintro (⟨line, e, d, rfl, hd, rfl⟩ | ⟨p, t, d, hp, hd, rfl⟩)
    · exact mem_under.mpr ⟨d, hd, rfl⟩
    · have hlist : ∀ {body : List Stmt} {i : Nat}, body[i]? = some t →
          d.below [i] ∈ Stmt.listReturnSites name 0 body := fun hi =>
        Stmt.mem_listReturnSites.mpr ⟨_, t, hi, d, hd, rfl⟩
      cases hp with
      | block hi => exact hlist hi
      | @thenS _ _ _ elseS =>
        cases elseS with
        | none => exact mem_under.mpr ⟨d, hd, rfl⟩
        | some _ => exact List.mem_append_left _ (mem_under.mpr ⟨d, hd, rfl⟩)
      | elseS => exact List.mem_append_right _ (mem_under.mpr ⟨d, hd, rfl⟩)
      | whileDo | forIn => exact mem_under.mpr ⟨d, hd, rfl⟩
      | forInit => exact List.mem_append_left _ (mem_under.mpr ⟨d, hd, rfl⟩)
      | @forBody _ init =>
        cases init with
        | none => exact mem_under.mpr ⟨d, hd, rfl⟩
        | some _ => exact List.mem_append_right _ (mem_under.mpr ⟨d, hd, rfl⟩)
      | guarded hi =>
        exact List.mem_append_left _ (List.mem_append_left _ (mem_under.mpr ⟨_, hlist hi, rfl⟩))
      | caught hi =>
        exact List.mem_append_left _ (List.mem_append_right _ (mem_under.mpr ⟨_, hlist hi, rfl⟩))
      | cleanup hi => exact List.mem_append_right _ (mem_under.mpr ⟨_, hlist hi, rfl⟩)
      | case hk hi =>
        have hcase := Case.mem_returnSites.mpr ⟨_, _, _, hk, _, hlist hi, rfl⟩
        exact List.mem_append_left _ (mem_under.mpr ⟨_, hcase, rfl⟩)
      | default hi => exact List.mem_append_right _ (mem_under.mpr ⟨_, hlist hi, rfl⟩)

theorem Stmt.Part.sizeOf_lt {s t : Stmt} {p : Path} (h : s.Part p t) : sizeOf t < sizeOf s := by
  cases h with
  | block hi | guarded hi | caught hi | cleanup hi | default hi =>
    have := sizeOf_lt_of_getElem? hi
    simp
    omega
  | case hk hi =>
    have hcase := sizeOf_lt_of_getElem? hk
    have hbody := sizeOf_lt_of_getElem? hi
    simp at hcase ⊢
    omega
  | _ =>
    simp
    omega

/-- The walk finds the calls in the values that statements of the unit return. -/
theorem Stmt.mem_returnSites {name : String} {c : CallSite} (s : Stmt) :
    c ∈ s.returnSites name ↔ ∃ p line e d, s.Holds p (.mk line (.ret (some e)))
      ∧ d ∈ e.tailSites name ∧ c = d.below (p ++ [0]) := by
  rw [Stmt.mem_returnSites_iff]
  constructor
  · rintro (⟨line, e, d, rfl, hd, rfl⟩ | ⟨p, t, d, hp, hd, rfl⟩)
    · exact ⟨[], line, e, d, .self _, hd, rfl⟩
    · have hsize := hp.sizeOf_lt
      obtain ⟨q, line, e, b, h, hb, rfl⟩ := (Stmt.mem_returnSites t).mp hd
      exact ⟨p ++ q, line, e, b, .part hp h, hb, by rw [CallSite.below_below, List.append_assoc]⟩
  · rintro ⟨p, line, e, d, h, hd, rfl⟩
    cases h with
    | self => exact .inl ⟨line, e, d, rfl, hd, rfl⟩
    | @part _ t _ p q hp h =>
      have hsize := hp.sizeOf_lt
      have hin := (Stmt.mem_returnSites t).mpr ⟨q, line, e, d, h, hd, rfl⟩
      exact .inr ⟨p, t, _, hp, hin, by rw [CallSite.below_below, List.append_assoc]⟩
termination_by sizeOf s

/-! ### Names that are bound -/

theorem Stmt.anyBinds_eq_true {name : String} {body : List Stmt} :
    Stmt.anyBinds name body = true
      ↔ ∃ (i : Nat) (t : Stmt), body[i]? = some t ∧ t.binds name = true := by
  induction body with
  | nil => simp [Stmt.anyBinds]
  | cons s rest ih =>
    rw [Stmt.anyBinds, Bool.or_eq_true, ih]
    constructor
    · rintro (hs | ⟨i, t, hi, ht⟩)
      · exact ⟨0, s, rfl, hs⟩
      · exact ⟨i + 1, t, hi, ht⟩
    · rintro ⟨i, t, hi, ht⟩
      cases i with
      | zero =>
        obtain rfl := Option.some.inj hi
        exact .inl ht
      | succ i => exact .inr ⟨i, t, hi, ht⟩

theorem Case.anyBinds_eq_true {name : String} {cases : List Case} :
    Case.anyBinds name cases = true ↔ ∃ (k : Nat) (values : List Expr) (body : List Stmt),
      cases[k]? = some (.mk values body) ∧ Stmt.anyBinds name body = true := by
  induction cases with
  | nil => simp [Case.anyBinds]
  | cons case rest ih =>
    cases case with
    | mk values body =>
    rw [Case.anyBinds, Bool.or_eq_true, ih]
    constructor
    · rintro (hb | ⟨k, values, body, hk, hb⟩)
      · exact ⟨0, values, body, rfl, hb⟩
      · exact ⟨k + 1, values, body, hk, hb⟩
    · rintro ⟨k, values', body', hk, hb⟩
      cases k with
      | zero =>
        obtain ⟨rfl, rfl⟩ := Case.mk.inj (Option.some.inj hk)
        exact .inl hb
      | succ k => exact .inr ⟨k, values', body', hk, hb⟩

/-- A statement binds a name by itself or by a statement inside it. -/
theorem Stmt.binds_iff {name : String} {s : Stmt} :
    s.binds name = true ↔ s.Introduces name ∨ ∃ p t, s.Part p t ∧ t.binds name = true := by
  constructor
  · intro h
    cases s with
    | mk line form =>
    cases form with
    | var x init | function x f | classDef x parent body | namespaceDef x body =>
      obtain rfl := beq_iff_eq.mp h
      exact .inl (by constructor)
    | block body =>
      obtain ⟨i, t, hi, ht⟩ := Stmt.anyBinds_eq_true.mp h
      exact .inr ⟨_, t, .block hi, ht⟩
    | ifElse cond thenS elseS =>
      cases elseS with
      | none => exact .inr ⟨_, thenS, .thenS, h⟩
      | some elseS =>
        obtain h | h := (Bool.or_eq_true _ _).mp h
        · exact .inr ⟨_, thenS, .thenS, h⟩
        · exact .inr ⟨_, elseS, .elseS, h⟩
    | whileDo cond body => exact .inr ⟨_, body, .whileDo, h⟩
    | forLoop init cond step body =>
      cases init with
      | none => exact .inr ⟨_, body, .forBody, h⟩
      | some init =>
        obtain h | h := (Bool.or_eq_true _ _).mp h
        · exact .inr ⟨_, init, .forInit, h⟩
        · exact .inr ⟨_, body, .forBody, h⟩
    | forIn x iterable body =>
      obtain h | h := (Bool.or_eq_true _ _).mp h
      · obtain rfl := beq_iff_eq.mp h
        exact .inl .forIn
      · exact .inr ⟨_, body, .forIn, h⟩
    | tryCatch body handler cleanup =>
      obtain h | h := (Bool.or_eq_true _ _).mp h
      · obtain h | h := (Bool.or_eq_true _ _).mp h
        · obtain ⟨i, t, hi, ht⟩ := Stmt.anyBinds_eq_true.mp h
          exact .inr ⟨_, t, .guarded hi, ht⟩
        · cases handler with
          | none => cases h
          | some clause =>
            cases clause with
            | mk x clause =>
            obtain h | h := (Bool.or_eq_true _ _).mp h
            · obtain rfl := beq_iff_eq.mp h
              exact .inl .caught
            · obtain ⟨i, t, hi, ht⟩ := Stmt.anyBinds_eq_true.mp h
              exact .inr ⟨_, t, .caught hi, ht⟩
      · cases cleanup with
        | none => cases h
        | some clause =>
          obtain ⟨i, t, hi, ht⟩ := Stmt.anyBinds_eq_true.mp h
          exact .inr ⟨_, t, .cleanup hi, ht⟩
    | switch subject cases default =>
      obtain h | h := (Bool.or_eq_true _ _).mp h
      · obtain ⟨k, values, body, hk, h⟩ := Case.anyBinds_eq_true.mp h
        obtain ⟨i, t, hi, ht⟩ := Stmt.anyBinds_eq_true.mp h
        exact .inr ⟨_, t, .case hk hi, ht⟩
      · cases default with
        | none => cases h
        | some body =>
          obtain ⟨i, t, hi, ht⟩ := Stmt.anyBinds_eq_true.mp h
          exact .inr ⟨_, t, .default hi, ht⟩
    | _ => cases h
  · rintro (h | ⟨p, t, hp, ht⟩)
    · cases h <;> simp [Stmt.binds, StmtForm.binds, Catch.optionBinds]
    · have hlist : ∀ {body : List Stmt} {i : Nat}, body[i]? = some t →
          Stmt.anyBinds name body = true := fun hi => Stmt.anyBinds_eq_true.mpr ⟨_, t, hi, ht⟩
      cases hp with
      | @thenS _ _ _ elseS => cases elseS <;> simp [Stmt.binds, StmtForm.binds, ht]
      | @forBody _ init => cases init <;> simp [Stmt.binds, StmtForm.binds, ht]
      | block hi | guarded hi | caught hi | cleanup hi | default hi =>
        simp [Stmt.binds, StmtForm.binds, Catch.optionBinds, Stmt.optionBinds, hlist hi]
      | case hk hi =>
        have hcase := Case.anyBinds_eq_true.mpr ⟨_, _, _, hk, hlist hi⟩
        simp [Stmt.binds, StmtForm.binds, hcase]
      | _ => simp [Stmt.binds, StmtForm.binds, ht]

/-- A statement binds a name if a statement of the unit inside it introduces the name. -/
theorem Stmt.binds_eq_true {name : String} (s : Stmt) :
    s.binds name = true ↔ ∃ p t, s.Holds p t ∧ t.Introduces name := by
  rw [Stmt.binds_iff]
  constructor
  · rintro (h | ⟨p, t, hp, ht⟩)
    · exact ⟨[], s, .self s, h⟩
    · have hsize := hp.sizeOf_lt
      obtain ⟨q, u, h, hu⟩ := (Stmt.binds_eq_true t).mp ht
      exact ⟨p ++ q, u, .part hp h, hu⟩
  · rintro ⟨p, u, h, hu⟩
    cases h with
    | self => exact .inl hu
    | @part _ t _ p q hp h =>
      have hsize := hp.sizeOf_lt
      exact .inr ⟨p, t, hp, (Stmt.binds_eq_true t).mpr ⟨q, u, h, hu⟩⟩
termination_by sizeOf s

/-! ### The body of a function -/

/-- The walk of a body finds the calls in returned values, and those in an expression that ends the
body. -/
theorem Stmt.mem_bodySites {name : String} {i : Nat} {body : List Stmt} {c : CallSite} :
    c ∈ Stmt.bodySites name i body ↔
      (∃ (k : Nat) (t : Stmt), body[k]? = some t ∧ ∃ d ∈ t.returnSites name, c = d.below [i + k])
        ∨ ∃ line e, body.getLast? = some (.mk line (.expr e))
          ∧ ∃ d ∈ e.tailSites name, c = d.below [i + (body.length - 1), 0] := by
  fun_induction Stmt.bodySites name i body with
  | case1 i => simp
  | case2 i line e =>
    constructor
    · intro hc
      obtain ⟨b, hb, rfl⟩ := mem_under.mp hc
      obtain ⟨d, hd, rfl⟩ := mem_under.mp hb
      exact .inr ⟨line, e, rfl, d, hd, rfl⟩
    · rintro (⟨k, t, hk, d, hd, rfl⟩ | ⟨line', e', hlast, d, hd, rfl⟩)
      · obtain rfl := List.mem_singleton.mp (List.mem_of_getElem? hk)
        exact absurd hd List.not_mem_nil
      · obtain ⟨rfl, rfl⟩ : line = line' ∧ e = e' := by simpa using hlast
        exact mem_under.mpr ⟨d.below [0], mem_under.mpr ⟨d, hd, rfl⟩, rfl⟩
  | case3 i s rest hne ih =>
    -- an expression that ends the body is not the first statement, unless it is the only one
    have hlast : ∀ line e, (s :: rest).getLast? = some (.mk line (.expr e)) ↔
        rest.getLast? = some (.mk line (.expr e)) := by
      intro line e
      cases rest with
      | nil =>
        simp only [List.getLast?_singleton, List.getLast?_nil, Option.some.injEq, reduceCtorEq,
          iff_false]
        rintro rfl
        exact hne line e rfl rfl
      | cons t rest => rw [List.getLast?_cons_cons]
    have hend : ∀ t, rest.getLast? = some t →
        i + 1 + (rest.length - 1) = i + ((s :: rest).length - 1) := by
      intro t ht
      have hne : rest ≠ [] := by
        rintro rfl
        cases ht
      have hpos := List.length_pos_iff.mpr hne
      rw [List.length_cons]
      omega
    rw [List.mem_append, mem_under, ih]
    constructor
    · rintro (⟨d, hd, rfl⟩ | ⟨k, t, hk, d, hd, rfl⟩ | ⟨line, e, he, d, hd, rfl⟩)
      · exact .inl ⟨0, s, rfl, d, hd, rfl⟩
      · exact .inl ⟨k + 1, t, hk, d, hd, by rw [Nat.add_assoc, Nat.add_comm 1]⟩
      · exact .inr ⟨line, e, (hlast line e).mpr he, d, hd, by rw [hend _ he]⟩
    · rintro (⟨k, t, hk, d, hd, rfl⟩ | ⟨line, e, he, d, hd, rfl⟩)
      · cases k with
        | zero =>
          obtain rfl := Option.some.inj hk
          exact .inl ⟨d, hd, rfl⟩
        | succ k => exact .inr (.inl ⟨k, t, hk, d, hd, by rw [Nat.add_assoc, Nat.add_comm 1]⟩)
      · have he := (hlast line e).mp he
        exact .inr (.inr ⟨line, e, he, d, hd, by rw [hend _ he]⟩)

namespace Function

variable {f : Function} {name : String} {c : CallSite}

/-- The walk of a body finds the calls in what the function returns. -/
theorem mem_bodySites :
    c ∈ under 1 (Stmt.bodySites name 0 f.body) ↔
      ∃ p e, f.Returns p e ∧ ∃ d ∈ e.tailSites name, c = d.below p := by
  rw [mem_under]
  simp only [Stmt.mem_bodySites, Nat.zero_add]
  constructor
  · rintro ⟨b, ⟨k, t, hk, b', hb, rfl⟩ | ⟨line, e, he, d, hd, rfl⟩, rfl⟩
    · obtain ⟨q, line, e, d, h, hd, rfl⟩ := (Stmt.mem_returnSites t).mp hb
      exact ⟨_, e, .ret ⟨k, t, q, hk, h, rfl⟩, d, hd, by simp [CallSite.below]⟩
    · exact ⟨_, e, .last he, d, hd, rfl⟩
  · rintro ⟨p, e, h, d, hd, rfl⟩
    cases h with
    | ret h =>
      obtain ⟨k, t, q, hk, h, rfl⟩ := h
      have hin := (Stmt.mem_returnSites t).mpr ⟨q, _, e, d, h, hd, rfl⟩
      exact ⟨_, .inl ⟨k, t, hk, _, hin, rfl⟩, by simp [CallSite.below]⟩
    | last h => exact ⟨_, .inr ⟨_, e, h, d, hd, rfl⟩, rfl⟩

/-- The name means the function itself all through the body. -/
theorem bindsSelf_eq_true :
    f.bindsSelf name = true ↔ f.generator = false ∧ (∀ x ∈ f.params, x.name ≠ name)
      ∧ ∀ p s, f.Owns p s → ¬ s.Introduces name := by
  have hbody : Stmt.anyBinds name f.body = false ↔
      ∀ p s, f.Owns p s → ¬ s.Introduces name := by
    rw [← Bool.not_eq_true, Stmt.anyBinds_eq_true]
    simp only [Stmt.binds_eq_true]
    constructor
    · rintro h p s ⟨i, t, q, hi, ht, -⟩ hs
      exact h ⟨i, t, hi, q, s, ht, hs⟩
    · rintro h ⟨i, t, hi, q, s, ht, hs⟩
      exact h _ s ⟨i, t, q, hi, ht, rfl⟩ hs
  simp [bindsSelf, ← hbody, and_assoc]

/-- The walk finds the calls of the function to itself in tail position. -/
theorem mem_tailSites : c ∈ f.tailSites name ↔ f.CallsItself name c := by
  unfold tailSites
  split
  · next hself =>
    obtain ⟨hplain, hparams, hunbound⟩ := bindsSelf_eq_true.mp hself
    rw [mem_bodySites]
    constructor
    · rintro ⟨p, e, h, d, hd, rfl⟩
      obtain ⟨args, hpass, hargs⟩ := Expr.mem_tailSites.mp hd
      exact ⟨hplain, hparams, hunbound, p, e, d.path, args, h, hpass, hargs, rfl⟩
    · intro h
      obtain ⟨p, e, q, args, h, hpass, hargs, hpath⟩ := h.returned
      refine ⟨p, e, h, ⟨q, c.line⟩, Expr.mem_tailSites.mpr ⟨args, hpass, hargs⟩, ?_⟩
      rw [CallSite.below, ← hpath]
  · next hself =>
    refine ⟨fun hc => absurd hc List.not_mem_nil, fun h => absurd ?_ hself⟩
    exact bindsSelf_eq_true.mpr ⟨h.plain, h.params, h.unbound⟩

end Function

/-! ### Calls in tail position among all calls -/

theorem under_sublist {i : Nat} {xs ys : List CallSite} (h : xs.Sublist ys) :
    (under i xs).Sublist (under i ys) := h.map _

mutual

theorem Expr.tailSites_sublist (name : String) : (e : Expr) → (e.tailSites name).Sublist e.calls
  | .conditional _ thenE elseE =>
    ((under_sublist (thenE.tailSites_sublist name)).trans (List.sublist_append_right _ _)).append
      (under_sublist (elseE.tailSites_sublist name))
  | .case _ arms default =>
    ((under_sublist (Arm.tailSites_sublist name 0 arms)).trans
      (List.sublist_append_right _ _)).append (under_sublist (Expr.optionTailSites_sublist name default))
  | .call line callee args => by
    rw [Expr.tailSites]
    split
    · exact ((List.nil_sublist _).cons_cons _).trans (List.sublist_append_left _ _)
    · exact List.nil_sublist _
  | .literal _ | .name _ | .this | .assign _ _ _ | .binary _ _ _ | .logical _ _ _ | .unary _ _
  | .methodCall _ _ _ _ | .member _ _ | .index _ _ | .array _ | .map _ | .function _ _
  | .yield _ _ => List.nil_sublist _

theorem Expr.optionTailSites_sublist (name : String) :
    (e : Option Expr) → (Expr.optionTailSites name e).Sublist (Expr.optionCalls e)
  | none => List.Sublist.refl _
  | some e => e.tailSites_sublist name

theorem Arm.tailSites_sublist (name : String) (i : Nat) :
    (arms : List Arm) → (Arm.tailSites name i arms).Sublist (Arm.calls i arms)
  | [] => List.Sublist.refl _
  | .mk _ result :: rest =>
    (under_sublist ((under_sublist (result.tailSites_sublist name)).trans
      (List.sublist_append_right _ _))).append (Arm.tailSites_sublist name (i + 1) rest)

end

mutual

theorem Stmt.returnSites_sublist (name : String) : (s : Stmt) → (s.returnSites name).Sublist s.calls
  | .mk _ form => form.returnSites_sublist name

theorem StmtForm.returnSites_sublist (name : String) :
    (form : StmtForm) → (form.returnSites name).Sublist form.calls
  | .ret (some e) => under_sublist (e.tailSites_sublist name)
  | .block body => Stmt.listReturnSites_sublist name 0 body
  | .ifElse _ thenS none =>
    ((under_sublist (thenS.returnSites_sublist name)).trans (List.sublist_append_right _ _)).trans
      (List.sublist_append_left _ _)
  | .ifElse _ thenS (some elseS) =>
    ((under_sublist (thenS.returnSites_sublist name)).trans (List.sublist_append_right _ _)).append
      (under_sublist (elseS.returnSites_sublist name))
  | .whileDo _ body =>
    (under_sublist (body.returnSites_sublist name)).trans (List.sublist_append_right _ _)
  | .forLoop none _ _ body =>
    (under_sublist (body.returnSites_sublist name)).trans (List.sublist_append_right _ _)
  | .forLoop (some init) _ _ body =>
    (((under_sublist (init.returnSites_sublist name)).trans (List.sublist_append_left _ _)).trans
      (List.sublist_append_left _ _)).append (under_sublist (body.returnSites_sublist name))
  | .forIn _ _ body =>
    (under_sublist (body.returnSites_sublist name)).trans (List.sublist_append_right _ _)
  | .tryCatch body handler cleanup =>
    ((under_sublist (Stmt.listReturnSites_sublist name 0 body)).append
      (under_sublist (Catch.returnSites_sublist name handler))).append
        (under_sublist (Stmt.optionReturnSites_sublist name cleanup))
  | .switch _ cases default =>
    ((under_sublist (Case.returnSites_sublist name 0 cases)).trans
      (List.sublist_append_right _ _)).append
        (under_sublist (Stmt.optionReturnSites_sublist name default))
  | .expr _ | .var _ _ | .breakLoop | .continueLoop | .ret none | .throw _ | .function _ _
  | .classDef _ _ _ | .namespaceDef _ _ => List.nil_sublist _

theorem Stmt.listReturnSites_sublist (name : String) (i : Nat) :
    (body : List Stmt) → (Stmt.listReturnSites name i body).Sublist (Stmt.listCalls i body)
  | [] => List.Sublist.refl _
  | s :: rest =>
    (under_sublist (s.returnSites_sublist name)).append (Stmt.listReturnSites_sublist name (i + 1) rest)

theorem Stmt.optionReturnSites_sublist (name : String) : (body : Option (List Stmt)) →
    (Stmt.optionReturnSites name body).Sublist (Stmt.optionListCalls body)
  | none => List.Sublist.refl _
  | some body => Stmt.listReturnSites_sublist name 0 body

theorem Catch.returnSites_sublist (name : String) :
    (handler : Option Catch) → (Catch.returnSites name handler).Sublist (Catch.calls handler)
  | none => List.Sublist.refl _
  | some (.mk _ body) => Stmt.listReturnSites_sublist name 0 body

theorem Case.returnSites_sublist (name : String) (i : Nat) :
    (cases : List Case) → (Case.returnSites name i cases).Sublist (Case.calls i cases)
  | [] => List.Sublist.refl _
  | .mk _ body :: rest =>
    (under_sublist ((under_sublist (Stmt.listReturnSites_sublist name 0 body)).trans
      (List.sublist_append_right _ _))).append (Case.returnSites_sublist name (i + 1) rest)

end

theorem Stmt.bodySites_sublist (name : String) (i : Nat) (body : List Stmt) :
    (Stmt.bodySites name i body).Sublist (Stmt.listCalls i body) := by
  fun_induction Stmt.bodySites name i body with
  | case1 => exact List.Sublist.refl _
  | case2 i line e =>
    exact (under_sublist (under_sublist (e.tailSites_sublist name))).trans
      (List.sublist_append_left _ _)
  | case3 i s rest _ ih => exact (under_sublist (s.returnSites_sublist name)).append ih

/-- The calls in tail position are listed in the order of all calls. -/
theorem Function.tailSites_sublist (f : Function) (name : String) :
    (f.tailSites name).Sublist f.calls := by
  unfold tailSites
  split
  · cases f with
    | mk params variadic generator body =>
    exact (under_sublist (Stmt.bodySites_sublist name 0 body)).trans (List.sublist_append_right _ _)
  · exact List.nil_sublist _

/-! ### Different calls have different paths -/

/-- No two calls have the same path. -/
def DistinctPaths (xs : List CallSite) : Prop := (xs.map CallSite.path).Nodup

/-- No two calls have the same path, and each is below a child from number `i` on. -/
structure DistinctFrom (i : Nat) (xs : List CallSite) : Prop where
  distinct : DistinctPaths xs
  child : ∀ c ∈ xs, ∃ k q, i ≤ k ∧ c.path = k :: q

theorem DistinctPaths.nil : DistinctPaths [] := List.nodup_nil

theorem DistinctPaths.under {i : Nat} {xs : List CallSite} (h : DistinctPaths xs) :
    DistinctPaths (under i xs) := by
  unfold DistinctPaths StackCode.under at *
  rw [List.map_map, show (CallSite.path ∘ fun s : CallSite => { s with path := i :: s.path })
    = (i :: ·) ∘ CallSite.path from rfl, ← List.map_map]
  exact List.Nodup.map (fun p q hpq => (List.cons.inj hpq).2) h

namespace DistinctFrom

variable {i : Nat} {xs ys : List CallSite}

theorem nil : DistinctFrom i [] := ⟨.nil, fun _ hc => absurd hc List.not_mem_nil⟩

/-- The calls below one child, and those below later children. -/
theorem cons (hx : DistinctPaths xs) (hy : DistinctFrom (i + 1) ys) :
    DistinctFrom i (under i xs ++ ys) := by
  refine ⟨?_, fun c hc => ?_⟩
  · rw [DistinctPaths, List.map_append]
    refine List.nodup_append.mpr ⟨hx.under, hy.distinct, ?_⟩
    rintro p hp q hq rfl
    obtain ⟨c, hc, rfl⟩ := List.mem_map.mp hp
    obtain ⟨d, hd, hpath⟩ := List.mem_map.mp hq
    obtain ⟨c, -, rfl⟩ := mem_under.mp hc
    obtain ⟨k, r, hk, hr⟩ := hy.child d hd
    have hhead : k = i := (List.cons.inj (hr.symm.trans hpath)).1
    omega
  · obtain hc | hc := List.mem_append.mp hc
    · obtain ⟨d, -, rfl⟩ := mem_under.mp hc
      exact ⟨i, d.path, Nat.le_refl i, rfl⟩
    · obtain ⟨k, q, hk, hq⟩ := hy.child c hc
      exact ⟨k, q, by omega, hq⟩

theorem last (hx : DistinctPaths xs) : DistinctFrom i (under i xs) := by
  rw [← List.append_nil (under i xs)]
  exact cons hx nil

end DistinctFrom

namespace DistinctPaths

variable {xs ys zs ws : List CallSite}

/-- A call has another path than those inside it. -/
theorem call {line : Nat} (h : DistinctFrom 0 xs) : DistinctPaths (⟨[], line⟩ :: xs) := by
  refine List.nodup_cons.mpr ⟨fun hmem => ?_, h.distinct⟩
  obtain ⟨c, hc, hpath⟩ := List.mem_map.mp hmem
  obtain ⟨k, q, -, hq⟩ := h.child c hc
  cases hq.symm.trans hpath

theorem two (hx : DistinctPaths xs) (hy : DistinctPaths ys) :
    DistinctPaths (StackCode.under 0 xs ++ StackCode.under 1 ys) :=
  (DistinctFrom.cons hx (.last hy)).distinct

theorem three (hx : DistinctPaths xs) (hy : DistinctPaths ys) (hz : DistinctPaths zs) :
    DistinctPaths (StackCode.under 0 xs ++ StackCode.under 1 ys ++ StackCode.under 2 zs) := by
  rw [List.append_assoc]
  exact (DistinctFrom.cons hx (.cons hy (.last hz))).distinct

theorem four (hx : DistinctPaths xs) (hy : DistinctPaths ys) (hz : DistinctPaths zs)
    (hw : DistinctPaths ws) :
    DistinctPaths (StackCode.under 0 xs ++ StackCode.under 1 ys ++ StackCode.under 2 zs
      ++ StackCode.under 3 ws) := by
  rw [List.append_assoc, List.append_assoc]
  exact (DistinctFrom.cons hx (.cons hy (.cons hz (.last hw)))).distinct

end DistinctPaths

mutual

theorem Expr.distinct_calls : (e : Expr) → DistinctPaths e.calls
  | .assign _ target value => .two target.distinct_calls value.distinct_calls
  | .binary _ lhs rhs => .two lhs.distinct_calls rhs.distinct_calls
  | .logical _ lhs rhs => .two lhs.distinct_calls rhs.distinct_calls
  | .unary _ operand => operand.distinct_calls.under
  | .call _ callee args =>
    .call (.cons callee.distinct_calls (.last (Arg.distinct_calls 0 args).distinct))
  | .methodCall _ object _ args => .two object.distinct_calls (Arg.distinct_calls 0 args).distinct
  | .member object _ => object.distinct_calls.under
  | .index object place => .two object.distinct_calls place.distinct_calls
  | .array items => (Expr.distinct_listCalls 0 items).distinct
  | .map entries => (Entry.distinct_calls 0 entries).distinct
  | .function _ f => f.distinct_calls
  | .conditional cond thenE elseE =>
    .three cond.distinct_calls thenE.distinct_calls elseE.distinct_calls
  | .case subject arms default =>
    .three subject.distinct_calls (Arm.distinct_calls 0 arms).distinct
      (Expr.distinct_optionCalls default)
  | .yield _ value => (Expr.distinct_optionCalls value).under
  | .literal _ | .name _ | .this => .nil

theorem Expr.distinct_optionCalls : (e : Option Expr) → DistinctPaths (Expr.optionCalls e)
  | none => .nil
  | some e => e.distinct_calls

theorem Expr.distinct_listCalls (i : Nat) :
    (items : List Expr) → DistinctFrom i (Expr.listCalls i items)
  | [] => .nil
  | e :: rest => .cons e.distinct_calls (Expr.distinct_listCalls (i + 1) rest)

theorem Arg.distinct_calls (i : Nat) : (args : List Arg) → DistinctFrom i (Arg.calls i args)
  | [] => .nil
  | .positional e :: rest => .cons e.distinct_calls (Arg.distinct_calls (i + 1) rest)
  | .spread e :: rest => .cons e.distinct_calls (Arg.distinct_calls (i + 1) rest)
  | .named _ e :: rest => .cons e.distinct_calls (Arg.distinct_calls (i + 1) rest)

theorem Entry.distinct_calls (i : Nat) :
    (entries : List Entry) → DistinctFrom i (Entry.calls i entries)
  | [] => .nil
  | .named _ v :: rest => .cons v.distinct_calls.under (Entry.distinct_calls (i + 1) rest)
  | .computed k v :: rest =>
    .cons (.two k.distinct_calls v.distinct_calls) (Entry.distinct_calls (i + 1) rest)

theorem Arm.distinct_calls (i : Nat) : (arms : List Arm) → DistinctFrom i (Arm.calls i arms)
  | [] => .nil
  | .mk values result :: rest =>
    .cons (.two (Expr.distinct_listCalls 0 values).distinct result.distinct_calls)
      (Arm.distinct_calls (i + 1) rest)

theorem Function.distinct_calls : (f : Function) → DistinctPaths f.calls
  | .mk params _ _ body =>
    .two (Param.distinct_calls 0 params).distinct (Stmt.distinct_listCalls 0 body).distinct

theorem Param.distinct_calls (i : Nat) :
    (params : List Param) → DistinctFrom i (Param.calls i params)
  | [] => .nil
  | .mk _ default :: rest =>
    .cons (Expr.distinct_optionCalls default) (Param.distinct_calls (i + 1) rest)

theorem Stmt.distinct_calls : (s : Stmt) → DistinctPaths s.calls
  | .mk _ form => form.distinct_calls

theorem StmtForm.distinct_calls : (form : StmtForm) → DistinctPaths form.calls
  | .expr e => e.distinct_calls.under
  | .var _ init => (Expr.distinct_optionCalls init).under
  | .block body => (Stmt.distinct_listCalls 0 body).distinct
  | .ifElse cond thenS elseS =>
    .three cond.distinct_calls thenS.distinct_calls (Stmt.distinct_optionCalls elseS)
  | .whileDo cond body => .two cond.distinct_calls body.distinct_calls
  | .forLoop init cond step body =>
    .four (Stmt.distinct_optionCalls init) (Expr.distinct_optionCalls cond)
      (Expr.distinct_optionCalls step) body.distinct_calls
  | .forIn _ iterable body => .two iterable.distinct_calls body.distinct_calls
  | .breakLoop | .continueLoop => .nil
  | .ret value => (Expr.distinct_optionCalls value).under
  | .throw value => value.distinct_calls.under
  | .tryCatch body handler cleanup =>
    .three (Stmt.distinct_listCalls 0 body).distinct (Catch.distinct_calls handler)
      (Stmt.distinct_optionListCalls cleanup)
  | .switch subject cases default =>
    .three subject.distinct_calls (Case.distinct_calls 0 cases).distinct
      (Stmt.distinct_optionListCalls default)
  | .function _ f => f.distinct_calls
  | .classDef _ parent body =>
    .two (Expr.distinct_optionCalls parent) (Stmt.distinct_listCalls 0 body).distinct
  | .namespaceDef _ body => (Stmt.distinct_listCalls 0 body).distinct.under

theorem Stmt.distinct_optionCalls : (s : Option Stmt) → DistinctPaths (Stmt.optionCalls s)
  | none => .nil
  | some s => s.distinct_calls

theorem Stmt.distinct_listCalls (i : Nat) :
    (body : List Stmt) → DistinctFrom i (Stmt.listCalls i body)
  | [] => .nil
  | s :: rest => .cons s.distinct_calls (Stmt.distinct_listCalls (i + 1) rest)

theorem Stmt.distinct_optionListCalls :
    (body : Option (List Stmt)) → DistinctPaths (Stmt.optionListCalls body)
  | none => .nil
  | some body => (Stmt.distinct_listCalls 0 body).distinct

theorem Catch.distinct_calls : (handler : Option Catch) → DistinctPaths (Catch.calls handler)
  | none => .nil
  | some (.mk _ body) => (Stmt.distinct_listCalls 0 body).distinct

theorem Case.distinct_calls (i : Nat) : (cases : List Case) → DistinctFrom i (Case.calls i cases)
  | [] => .nil
  | .mk values body :: rest =>
    .cons (.two (Expr.distinct_listCalls 0 values).distinct (Stmt.distinct_listCalls 0 body).distinct)
      (Case.distinct_calls (i + 1) rest)

end

/-! ### The result -/

/-- The calls in tail position are listed, each once: those of the function to itself whose value is
returned. They are among all calls below the function, which differ in their paths, and the report marks
just these. -/
theorem Function.tailSites_exact (f : Function) (name : String) :
    DistinctPaths (f.tailSites name) ∧ (∀ c, c ∈ f.tailSites name ↔ f.CallsItself name c)
      ∧ DistinctPaths f.calls ∧ (∀ c ∈ f.tailSites name, c ∈ f.calls)
      ∧ ∀ (k line : Nat) (marked : Bool), (f.callReport name)[k]? = some (line, marked) ↔
        ∃ c, f.calls[k]? = some c ∧ c.line = line ∧ (marked = true ↔ f.CallsItself name c) := by
  have hsub := f.tailSites_sublist name
  refine ⟨List.Nodup.sublist (hsub.map CallSite.path) f.distinct_calls, fun c => mem_tailSites,
    f.distinct_calls, fun c hc => hsub.subset hc, fun k line marked => ?_⟩
  rw [callReport, List.getElem?_map, Option.map_eq_some_iff]
  refine exists_congr fun c => and_congr_right fun _ => ?_
  rw [Prod.mk.injEq, ← mem_tailSites, ← List.contains_iff_mem, Bool.eq_iff_iff]
  exact and_congr_right fun _ => iff_comm

/-- `if (this) return f(); this ? f() : g()`: the returned call and one branch of the last expression. -/
example :
    (Function.mk [] false false
      [.mk 1 (.ifElse .this (.mk 1 (.ret (some (.call 1 (.name "f") [])))) none),
        .mk 2 (.expr (.conditional .this (.call 2 (.name "f") []) (.call 2 (.name "g") [])))]).tailSites
      "f" = [⟨[1, 0, 1, 0], 1⟩, ⟨[1, 1, 0, 1], 2⟩] := by
  decide

end StackCode
