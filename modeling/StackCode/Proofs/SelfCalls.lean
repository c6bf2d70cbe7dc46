import StackCode.Proofs.DraftPairs
import StackCode.Proofs.Regular
import StackCode.Proofs.TailPositions

/-!
# Scripts that keep to their functions

A function that calls itself in tail position does so by the name that its closure is bound to. In
the script of such a function the name is read, the arguments follow, and then comes the tail call;
all through the script the name keeps its meaning, and around the script stands the store that binds
the closure to the name.

* `Script.Stores`: the steps that bind a closure to a name;
* `Script.Arguments`: the steps of the arguments of a call;
* `Script.Faithful`: a script keeps to the name by which its unit calls itself;
* `Draft.Faithful`, `Draft.Closes`: the same of drafts, and of the draft of a function;
* `Draft.Faithful.append`, `withLabel`, `bound`, …: one rule for each way of making a draft.

Hidden variables have names that no identifier can have, so only these may take the name over.
-/

namespace StackCode

open Draft

/-- The name of a hidden variable. -/
def IsHidden (name : String) : Prop := ∃ what n, name = hiddenName what n

/-! ### Scripts -/

/-- A step that makes no unit and no tail call. -/
def Step.isOrdinary : Step → Bool
  | .unit _ _ _ _ => false
  | x => x.opcode? != some .tailCall

theorem Step.opcode?_of_isOrdinary {x : Step} (h : x.isOrdinary = true) :
    x.opcode? ≠ some .tailCall := by
  cases x with
  | unit => cases h
  | _ => exact bne_iff_ne.mp h

/-- The steps that bind the value on top of the stack to a name; the last one stores it. -/
inductive Script.Stores (x : String) : (between : Script) → (store : Step) → Prop where
  /-- The name was declared in the unit. -/
  | declared : Stores x [] (.slot .storeLocal x)
  /-- A function of the program itself becomes a global variable. -/
  | global : Stores x [] (.named .storeGlobal x)
  /-- The value of an assignment is kept. -/
  | assigned : Stores x [.op .dup] (.storeName x)

/-- The steps of `n` expressions. -/
def Script.Arguments (n : Nat) (args : Script) : Prop :=
  ∃ (es : List Expr) (ctx : Context) (s : Supply), es.length = n
    ∧ args = (Expr.lowerAll es ctx).steps s

/-- The script of a unit that calls itself by the name `self`, if by any. Tail calls are calls of
that name, no other variable takes it over, and each unit inside that calls itself is bound to the
name by which it does. -/
inductive Script.Faithful : (self : Option String) → Script → Prop where
  | done {self : Option String} : Faithful self []
  | step {self : Option String} {x : Step} {xs : Script} (hx : x.isOrdinary = true)
      (hself : ∀ name, x = .declare name → self = some name → IsHidden name)
      (h : Faithful self xs) : Faithful self (x :: xs)
  | tail {x : String} {n : Nat} {args xs : Script} (hn : Script.Arguments n args)
      (hargs : Faithful (some x) args) (h : Faithful (some x) xs) :
      Faithful (some x) (.loadName x :: (args ++ .count .tailCall n :: xs))
  | unit {self : Option String} {op : Opcode} {kind : ScopeKind} {signature : Signature}
      {body xs : Script} (hop : op.instantiates = true) (hbody : Faithful none body)
      (h : Faithful self xs) : Faithful self (.unit op kind signature body :: xs)
  | bound {self : Option String} {x : String} {signature : Signature} {body between xs : Script}
      {store : Step} (hx : x ∉ signature.params) (hbody : Faithful (some x) body)
      (hstore : Script.Stores x between store) (h : Faithful self xs) :
      Faithful self (.unit .makeClosure .function signature body :: (between ++ store :: xs))

namespace Script

variable {self : Option String} {x : String} {xs ys between : Script} {store : Step}

theorem Stores.isOrdinary (h : Stores x between store) :
    ∀ y ∈ between ++ [store], y.isOrdinary = true := by
  cases h <;> simp [Step.isOrdinary, Step.opcode?]

theorem Stores.ne_declare (h : Stores x between store) (name : String) :
    .declare name ∉ between ++ [store] := by
  cases h <;> simp

namespace Faithful

theorem append (hx : Faithful self xs) (hy : Faithful self ys) : Faithful self (xs ++ ys) := by
  induction hx with
  | done => exact hy
  | step hx hself _ ih => exact .step hx hself (ih hy)
  | tail hn hargs _ _ ih =>
    rw [List.cons_append, List.append_assoc, List.cons_append]
    exact .tail hn hargs (ih hy)
  | unit hop hbody _ _ ih => exact .unit hop hbody (ih hy)
  | bound hx hbody hstore _ _ ih =>
    rw [List.cons_append, List.append_assoc, List.cons_append]
    exact .bound hx hbody hstore (ih hy)

/-- Steps that bind a value declare nothing. -/
theorem stores (h : Stores x between store) : Faithful self (between ++ [store]) := by
  cases h with
  | declared => exact .step rfl nofun .done
  | global => exact .step rfl nofun .done
  | assigned => exact .step rfl nofun (.step rfl nofun .done)

/-- The name by which a unit calls itself is declared in it only if it is that of a hidden variable. -/
theorem isHidden_of_declare (h : Faithful self xs) (hself : self = some x)
    (hx : .declare x ∈ xs) : IsHidden x := by
  induction h with
  | done => cases hx
  | step _ hdeclare _ ih =>
    obtain hx | hx := List.mem_cons.mp hx
    · exact hdeclare x hx.symm hself
    · exact ih hself hx
  | tail _ _ _ ihargs ih =>
    simp only [List.mem_cons, List.mem_append, reduceCtorEq, false_or] at hx
    obtain hx | hx := hx
    · exact ihargs hself hx
    · exact ih hself hx
  | unit _ _ _ _ ih =>
    simp only [List.mem_cons, reduceCtorEq, false_or] at hx
    exact ih hself hx
  | bound _ _ hstore _ _ ih =>
    rw [List.append_cons] at hx
    simp only [List.mem_cons, reduceCtorEq, false_or] at hx
    obtain hx | hx := List.mem_append.mp hx
    · exact absurd hx (hstore.ne_declare x)
    · exact ih hself hx

end Faithful

end Script

/-! ### Drafts -/

/-- The script of a draft that is complete keeps to the name `self`. -/
def Draft.Faithful (self : Option String) (d : Draft) : Prop :=
  ∀ s s₁, d.rest? s = some s₁ → Script.Faithful self (d.steps s)

/-- The draft makes a closure. A unit that calls itself does so by the name that its closure is going
to be bound to, which none of its parameters has. -/
def Draft.Closes (binding : Option String) (d : Draft) : Prop :=
  ∀ s s₁, d.rest? s = some s₁ → ∃ signature body self,
    d.steps s = [.unit .makeClosure .function signature body] ∧ Script.Faithful self body
      ∧ ∀ x, self = some x → binding = some x ∧ x ∉ signature.params

/-- The draft binds the value on top of the stack to a name. -/
def Draft.Stores (x : String) (d : Draft) : Prop :=
  ∀ s, ∃ between store, d.steps s = between ++ [store] ∧ Script.Stores x between store

namespace Draft

variable {self binding : Option String} {x : String} {d e : Draft}

theorem Stores.step {y : Step} (h : Script.Stores x [] y) : (Draft.step y).Stores x :=
  fun _ => ⟨[], y, rfl, h⟩

theorem Stores.assigned : (plain .dup ++ Draft.step (.storeName x)).Stores x :=
  fun _ => ⟨[.op .dup], .storeName x, rfl, .assigned⟩

theorem Closes.refuse {line : Nat} {cause : Misuse} : (refuse line cause).Closes binding := nofun

namespace Faithful

theorem of_none (h : ∀ s, d.rest? s = none) : d.Faithful self := by
  intro s s₁ hs
  rw [h s] at hs
  cases hs

theorem refuse {line : Nat} {cause : Misuse} : (refuse line cause).Faithful self :=
  of_none fun _ => rfl

theorem nil : Draft.nil.Faithful self := fun _ _ _ => .done

theorem append (hd : d.Faithful self) (he : e.Faithful self) : (d ++ e).Faithful self := by
  intro s s₂ hs
  obtain ⟨s₁, h₁, h₂⟩ := exists_of_append hs
  rw [steps_append_of_some e h₁]
  exact (hd s s₁ h₁).append (he s₁ s₂ h₂)

theorem declare (hself : self = some x → IsHidden x) : (Draft.step (.declare x)).Faithful self := by
  refine fun _ _ _ => .step rfl ?_ .done
  rintro _ ⟨⟩
  exact hself

/-- A step that declares nothing. -/
theorem step {y : Step} (hy : y.isOrdinary = true) (hne : ∀ name, y ≠ .declare name) :
    (Draft.step y).Faithful self :=
  fun _ _ _ => .step hy (fun name h => absurd h (hne name)) .done

theorem op {o : Opcode} (h : (Step.op o).isOrdinary = true) : (plain o).Faithful self :=
  step h nofun

theorem jump {op : Opcode} {l : Label} (h : (Step.jump op l).isOrdinary = true) :
    (jump op l).Faithful self :=
  step h nofun

theorem place {l : Label} : (place l).Faithful self := step rfl nofun

theorem withLabels {n : Nat} {F : Label → Draft} (h : ∀ l, (F l).Faithful self) :
    (Draft.withLabels n F).Faithful self := by
  have hnew : ∀ n, Script.Faithful self (List.replicate n .newLabel) := by
    intro n
    induction n with
    | zero => exact .done
    | succ n ih => exact .step rfl nofun ih
  intro s s₁ hs
  rw [rest?_withLabels] at hs
  rw [steps_withLabels]
  exact (hnew n).append (h _ _ _ hs)

theorem withLabel {F : Label → Draft} (h : ∀ l, (F l).Faithful self) :
    (Draft.withLabel F).Faithful self := by
  intro s s₁ hs
  rw [rest?_withLabel] at hs
  rw [steps_withLabel]
  exact .step rfl nofun (h _ _ _ hs)

theorem withHidden {what : String} {F : String → Draft}
    (h : ∀ x, IsHidden x → (F x).Faithful self) : (Draft.withHidden what F).Faithful self := by
  intro s s₁ hs
  rw [rest?_withHidden] at hs
  rw [steps_withHidden]
  exact h _ ⟨what, _, rfl⟩ _ _ hs

theorem block (h : d.Faithful self) : (Draft.block d).Faithful self := by
  have henter : (Draft.step .enterBlock).Faithful self := step rfl nofun
  have hleave : (Draft.step .leaveBlock).Faithful self := step rfl nofun
  exact (henter.append h).append hleave

/-- A unit that does not call itself. -/
theorem unit {op : Opcode} {kind : ScopeKind} {signature : Signature}
    (hop : op.instantiates = true) (h : d.Faithful none) :
    (Draft.unit op kind signature d).Faithful self := by
  intro s s₂ hs
  rw [rest?_unit] at hs
  obtain ⟨s₁, h₁, -⟩ := Option.map_eq_some_iff.mp hs
  rw [steps_unit]
  exact .unit hop (h _ _ h₁) .done

/-- A closure that is bound to no name. -/
theorem unbound (h : d.Closes none) : d.Faithful self := by
  intro s s₁ hs
  obtain ⟨signature, body, inner, hsteps, hbody, hinner⟩ := h s s₁ hs
  rw [hsteps]
  cases inner with
  | none => exact .unit rfl hbody .done
  | some x => cases (hinner x rfl).1

/-- A closure and what binds it to its name. -/
theorem bound (hd : d.Closes (some x)) (he : e.Stores x) : (d ++ e).Faithful self := by
  intro s s₂ hs
  obtain ⟨s₁, h₁, -⟩ := exists_of_append hs
  obtain ⟨signature, body, inner, hsteps, hbody, hinner⟩ := hd s s₁ h₁
  obtain ⟨between, store, hsteps', hstore⟩ := he s₁
  rw [steps_append_of_some e h₁, hsteps, hsteps']
  cases inner with
  | none => exact .unit rfl hbody (.stores hstore)
  | some y =>
    obtain ⟨hy, hparams⟩ := hinner y rfl
    obtain rfl := Option.some.inj hy
    exact .bound hparams hbody hstore .done

end Faithful

end Draft

end StackCode
