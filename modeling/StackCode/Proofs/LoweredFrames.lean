import StackCode.Proofs.Contexts

/-!
# The frames of a lowered program

A statement is lowered to a draft that leads back to the frame it starts from, and an expression to
one that leaves one value more. Each form of the language has a rule for the drafts of its parts; the
rules are put together by recursion along the lowering.

* `Evaluates`, `Pushes`, `Tests`, `Restores`, …: what the drafts of the lowering do;
* `Evaluates.conditional`, `Restores.whileDo`, …: one rule for each form;
* `Program.flows`: the draft of a program flows, if its exits are good.
-/

namespace StackCode

open Instruction (effectOf)
open Draft

section Rules

variable (M : Frame → Frame → Prop) (good : Exit → Prop)

/-- The draft of an expression leaves one value. A terminal one stands outside of all regions. -/
def Evaluates (d : Draft) (terminal : Bool) (xs : List Exit) : Prop :=
  (∀ x ∈ xs, good x) → ∀ {labels : List Frame} {H : List Guard} {n : Nat} {b : Bool},
    Coherent labels H → (terminal = true → H = []) → Takes M labels d ⟨H, n⟩ b ⟨H, n + 1⟩ true

/-- The draft of a tail call leads anywhere. -/
def Escapes (d : Draft) (xs : List Exit) : Prop :=
  (∀ x ∈ xs, good x) → ∀ {labels : List Frame} {n : Nat} {b : Bool} {g : Frame},
    Coherent labels g.guards → g.height ≤ n + 1 → Takes M labels d ⟨[], n⟩ b g true

/-- The draft leaves `k` values. -/
def Pushes (d : Draft) (k : Nat) (xs : List Exit) : Prop :=
  (∀ x ∈ xs, good x) → ∀ {labels : List Frame} {H : List Guard} {n : Nat} {b : Bool},
    Coherent labels H → Takes M labels d ⟨H, n⟩ b ⟨H, n + k⟩ false

/-- The draft leaves nothing, and may jump to one of `count` labels. -/
def Tests (d : Draft) (first : Label) (count : Nat) (xs : List Exit) : Prop :=
  (∀ x ∈ xs, good x) → ∀ {labels : List Frame} {H : List Guard} {n : Nat} {b : Bool},
    Coherent labels H → (∀ k < count, labels[first + k]? = some ⟨H, n⟩) →
    Takes M labels d ⟨H, n⟩ b ⟨H, n⟩ false

/-- The draft of several results, each of which jumps to `done`. Without any they start where they
end. -/
def Yields (d : Draft) (terminal : Bool) (first done : Label) (count : Nat) (xs : List Exit) :
    Prop :=
  (∀ x ∈ xs, good x) → ∀ {labels : List Frame} {H : List Guard} {n : Nat},
    Coherent labels H → (terminal = true → H = []) →
    (∀ k < count, labels[first + k]? = some ⟨H, n⟩) → labels[done]? = some ⟨H, n + 1⟩ →
    Takes M labels d ⟨H, if count = 0 then n + 1 else n⟩ true ⟨H, n + 1⟩ true

/-- The draft of a statement leads back to where it starts from, with `k` values less. -/
def Restores (d : Draft) (ctx : Context) (k : Nat) (exits : Enclosure → List Exit) : Prop :=
  ∀ ⦃E : Enclosure⦄ ⦃walls : List (List Guard)⦄ ⦃labels : List Frame⦄ ⦃b : Bool⦄,
    (∀ x ∈ exits E, good x) → Fits M good labels ctx E walls →
    Takes M labels d ⟨walls.flatten, E.pending + k⟩ b ⟨walls.flatten, E.pending⟩ false

end Rules

variable {M : Frame → Frame → Prop} {good : Exit → Prop} {d e : Draft} {terminal : Bool}
  {xs ys zs : List Exit} {ctx : Context}

/-- Only a terminal expression is outside of all regions. -/
theorem false_terminal {H : List Guard} : false = true → H = [] := fun h => absurd h Bool.false_ne_true

/-! ### Expressions -/

namespace Evaluates

theorem refuse {line : Nat} {cause : Misuse} : Evaluates M good (refuse line cause) terminal xs :=
  fun _ _ _ _ _ _ _ => .refuse

/-- A value is assigned to a variable, and kept. -/
theorem store {x : String} (hd : Evaluates M good d false ys) :
    Evaluates M good (d ++ plain .dup ++ step (.storeName x)) terminal (xs ++ ys) := by
  intro hx labels H n b hH _
  obtain ⟨-, hy⟩ := List.forall_mem_append.mp hx
  have hdup : Takes M labels (plain .dup) ⟨H, n + 1⟩ true ⟨H, n + 2⟩ true :=
    .plain 1 2 rfl rfl
  exact ((hd hy hH false_terminal).append hdup).append .storeName

theorem setMember {x : String} (hd : Evaluates M good d false xs) (he : Evaluates M good e false ys) :
    Evaluates M good (d ++ e ++ step (.named .setMember x)) terminal (xs ++ ys) := by
  intro hx labels H n b hH _
  obtain ⟨hx, hy⟩ := List.forall_mem_append.mp hx
  exact ((hd hx hH false_terminal).append (he hy hH false_terminal)).append
    (.named 2 1 rfl fun _ => rfl)

theorem setIndex {c : Draft} (hc : Evaluates M good c false xs) (hd : Evaluates M good d false ys)
    (he : Evaluates M good e false zs) :
    Evaluates M good (c ++ d ++ e ++ plain .setIndex) terminal (xs ++ ys ++ zs) := by
  intro hx labels H n b hH _
  obtain ⟨hx, hz⟩ := List.forall_mem_append.mp hx
  obtain ⟨hx, hy⟩ := List.forall_mem_append.mp hx
  exact (((hc hx hH false_terminal).append (hd hy hH false_terminal)).append
    (he hz hH false_terminal)).append (.plain 3 1 rfl rfl)

theorem binary {op : BinaryOp} (hd : Evaluates M good d false xs)
    (he : Evaluates M good e false ys) :
    Evaluates M good (d ++ e ++ plain op.opcode) terminal (xs ++ ys) := by
  intro hx labels H n b hH _
  obtain ⟨hx, hy⟩ := List.forall_mem_append.mp hx
  exact ((hd hx hH false_terminal).append (he hy hH false_terminal)).append (.binary op)

theorem getIndex (hd : Evaluates M good d false xs) (he : Evaluates M good e false ys) :
    Evaluates M good (d ++ e ++ plain .getIndex) terminal (xs ++ ys) := by
  intro hx labels H n b hH _
  obtain ⟨hx, hy⟩ := List.forall_mem_append.mp hx
  exact ((hd hx hH false_terminal).append (he hy hH false_terminal)).append
    (.plain 2 1 rfl rfl)

theorem logical {op : LogicalOp} (hd : Evaluates M good d false xs)
    (he : Evaluates M good e false ys) :
    Evaluates M good (withLabel fun done => d ++ jump op.opcode done ++ e ++ place done) terminal
      (xs ++ ys) := by
  intro hx labels H n b hH _
  obtain ⟨hx, hy⟩ := List.forall_mem_append.mp hx
  refine .withLabel ⟨H, n + 1⟩ fun known done hk hdone => ?_
  have hH := hH.mono hk
  exact (((hd hx hH false_terminal).append (.jumpLogical hdone)).append
    (he hy hH false_terminal)).append (.place hdone)

theorem unary {op : UnaryOp} (hd : Evaluates M good d false xs) :
    Evaluates M good (d ++ plain op.opcode) terminal xs :=
  fun hx _ _ _ _ hH _ => (hd hx hH false_terminal).append (.unary op)

theorem getMember {x : String} (hd : Evaluates M good d false xs) :
    Evaluates M good (d ++ step (.named .getMember x)) terminal xs :=
  fun hx _ _ _ _ hH _ =>
    (hd hx hH false_terminal).append (.named 1 1 rfl fun _ => rfl)

theorem yield (hd : Evaluates M good d false xs) :
    Evaluates M good (d ++ plain .yield) terminal xs :=
  fun hx _ _ _ _ hH _ => (hd hx hH false_terminal).append (.plain 1 1 rfl rfl)

/-- A collection that is expanded into several arguments counts as one value. -/
theorem spread (hd : Evaluates M good d false xs) :
    Evaluates M good (d ++ plain .spread) terminal xs :=
  fun hx _ _ _ _ hH _ => (hd hx hH false_terminal).append (.plain 1 1 rfl rfl)

theorem methodCall {x : String} {args : List Arg} {call : String} {line : Nat}
    (hd : Evaluates M good d false xs)
    (he : Pushes M good e (args.length + args.countP Arg.isNamed) ys) :
    Evaluates M good (d ++ step (.named .getMethod x) ++ unmixed args call line e
      ++ methodOp args line) terminal (xs ++ ys) := by
  intro hx labels H n b hH _
  obtain ⟨hx, hy⟩ := List.forall_mem_append.mp hx
  have hargs : Takes M labels e ⟨H, n + 2⟩ true
      ⟨H, n + 2 + args.length + args.countP Arg.isNamed⟩ false := by
    rw [Nat.add_assoc]
    exact he hy hH
  exact (((hd hx hH false_terminal).append (.named 1 2 rfl fun _ => rfl)).append
    (.unmixed hargs)).append (.methodOp args line)

theorem call {args : List Arg} {name : String} {line : Nat} {tail : Bool}
    (ht : tail = true → terminal = true) (hd : Evaluates M good d false xs)
    (he : Pushes M good e (args.length + args.countP Arg.isNamed) ys) :
    Evaluates M good (d ++ unmixed args name line e ++ callOp args tail) terminal (xs ++ ys) := by
  intro hx labels H n b hH hterminal
  obtain ⟨hx, hy⟩ := List.forall_mem_append.mp hx
  have hargs : Takes M labels e ⟨H, n + 1⟩ true
      ⟨H, n + 1 + args.length + args.countP Arg.isNamed⟩ false := by
    rw [Nat.add_assoc]
    exact he hy hH
  refine ((hd hx hH false_terminal).append (.unmixed hargs)).append ?_
  cases tail with
  | false => exact .callOp args
  | true =>
    obtain rfl := hterminal (ht rfl)
    exact .tailOp args trivial (Nat.le_refl _)

theorem array {count : Nat} (hd : Pushes M good d count xs) :
    Evaluates M good (d ++ step (.count .newArray count)) terminal xs := by
  intro hx labels H n b hH _
  refine (hd hx hH).append (.count count 1 rfl fun ha => ?_)
  simp only [effectOf, Instruction.unsigned_pack (Nat.lt_succ_of_le ha)]

theorem map {count : Nat} (hd : Pushes M good d (2 * count) xs) :
    Evaluates M good (d ++ step (.count .newMap count)) terminal xs := by
  intro hx labels H n b hH _
  refine (hd hx hH).append (.count (2 * count) 1 rfl fun ha => ?_)
  simp only [effectOf, Instruction.unsigned_pack (Nat.lt_succ_of_le ha)]

theorem conditional {c : Draft} (law : Lawful M good) (hc : Evaluates M good c false xs)
    (hd : Evaluates M good d terminal ys) (he : Evaluates M good e terminal zs) :
    Evaluates M good (withLabel fun other => withLabel fun done =>
      c ++ jump .jumpFalse other ++ d ++ jump .jump done ++ place other ++ e ++ place done) terminal
      (xs ++ ys ++ zs) := by
  intro hx labels H n b hH ht
  obtain ⟨hx, hz⟩ := List.forall_mem_append.mp hx
  obtain ⟨hx, hy⟩ := List.forall_mem_append.mp hx
  refine .withLabel ⟨H, n⟩ fun known₁ other hk₁ hother => ?_
  refine .withLabel ⟨H, n + 1⟩ fun known₂ done hk₂ hdone => ?_
  have hH := hH.mono (hk₁.trans hk₂)
  have hother := getElem?_of_initial hk₂ hother
  exact ((((((hc hx hH false_terminal).append (.jumpFalse hother)).append (hd hy hH ht)).append
    (.leap hdone (law.refl _) hH (Nat.le_add_right n 1))).append (.place hother)).append
    (he hz hH ht)).append (.place hdone)

theorem case {tests results : String → Label → Label → Draft} {count : Nat}
    (law : Lawful M good) (hd : Evaluates M good d false xs)
    (ht : ∀ x first done, Tests M good (tests x first done) first count ys)
    (he : Evaluates M good e terminal zs)
    (hr : ∀ x first done, Yields M good (results x first done) terminal first done count ys) :
    Evaluates M good (block (d ++ withHidden "case" fun x => declareAndStore x
      ++ withLabel fun done => withLabels count fun first => tests x first done ++ e
        ++ jump .jump done ++ results x first done ++ place done)) terminal (xs ++ ys ++ zs) := by
  intro hx labels H n b hH hterminal
  obtain ⟨hx, hz⟩ := List.forall_mem_append.mp hx
  obtain ⟨hx, hy⟩ := List.forall_mem_append.mp hx
  refine .block ((hd hx hH false_terminal).append (.withHidden fun x => ?_))
  refine Takes.declareAndStore.append (.withLabel ⟨H, n + 1⟩ fun known₁ done hk₁ hdone => ?_)
  refine .withLabels ⟨H, n⟩ fun known₂ first hk₂ hfirst => ?_
  have hH := hH.mono (hk₁.trans hk₂)
  have hdone := getElem?_of_initial hk₂ hdone
  refine ((((ht x first done hy hH hfirst).append (he hz hH hterminal)).append
    (.leap hdone (law.refl _) hH ?_)).append (hr x first done hy hH hterminal hfirst hdone)).append
    (.place hdone)
  split
  · exact Nat.le_refl _
  · exact Nat.le_add_right _ _

end Evaluates

/-- A tail call needs its parts, but leads anywhere itself. -/
theorem Escapes.call {args : List Arg} {name : String} {line : Nat}
    (hd : Evaluates M good d false xs)
    (he : Pushes M good e (args.length + args.countP Arg.isNamed) ys) :
    Escapes M good (d ++ unmixed args name line e ++ callOp args true) (xs ++ ys) := by
  intro hx labels n b g hg hh
  obtain ⟨hx, hy⟩ := List.forall_mem_append.mp hx
  have hnil : Coherent labels [] := trivial
  have hargs : Takes M labels e ⟨[], n + 1⟩ true
      ⟨[], n + 1 + args.length + args.countP Arg.isNamed⟩ false := by
    rw [Nat.add_assoc]
    exact he hy hnil
  exact ((hd hx hnil false_terminal).append (.unmixed hargs)).append (.tailOp args hg hh)

/-! ### Several expressions -/

namespace Pushes

theorem nil : Pushes M good nil 0 xs := fun _ _ _ _ _ _ => Takes.nil.forget

theorem refuse {line k : Nat} {cause : Misuse} : Pushes M good (refuse line cause) k xs :=
  fun _ _ _ _ _ _ => .refuse

/-- One value and then more. -/
theorem cons {k : Nat} (hd : Evaluates M good d false xs) (he : Pushes M good e k ys) :
    Pushes M good (d ++ e) (k + 1) (xs ++ ys) := by
  intro hx labels H n b hH
  obtain ⟨hx, hy⟩ := List.forall_mem_append.mp hx
  rw [Nat.add_comm k, ← Nat.add_assoc]
  exact (hd hx hH false_terminal).append (he hy hH)

/-- A value with its name below it. -/
theorem named {x : String} {k : Nat} (hd : Evaluates M good d false xs)
    (he : Pushes M good e k ys) :
    Pushes M good (step (.loadConst (.string x)) ++ d ++ e) (k + 2) (xs ++ ys) := by
  intro hx labels H n b hH
  obtain ⟨hx, hy⟩ := List.forall_mem_append.mp hx
  rw [Nat.add_comm k, ← Nat.add_assoc]
  exact (Takes.loadConst.append (hd hx hH false_terminal)).append (he hy hH)

/-- A key and its value. -/
theorem pair {c : Draft} {k : Nat} (hc : Evaluates M good c false xs)
    (hd : Evaluates M good d false ys) (he : Pushes M good e k zs) :
    Pushes M good (c ++ d ++ e) (k + 2) (xs ++ ys ++ zs) := by
  intro hx labels H n b hH
  obtain ⟨hx, hz⟩ := List.forall_mem_append.mp hx
  obtain ⟨hx, hy⟩ := List.forall_mem_append.mp hx
  rw [Nat.add_comm k, ← Nat.add_assoc]
  exact ((hc hx hH false_terminal).append (hd hy hH false_terminal)).append (he hz hH)

/-- The default of a parameter, which is left out when an argument is there. -/
theorem default {i : Nat} {x : String} (hd : Evaluates M good d false xs)
    (he : Pushes M good e 0 ys) :
    Pushes M good ((withLabel fun skip => step (.count .hasArg i) ++ jump .jumpTrue skip ++ d
      ++ step (.slot .storeLocal x) ++ place skip ++ step (.count .paramEnd i)) ++ e) 0
      (xs ++ ys) := by
  intro hx labels H n b hH
  obtain ⟨hx, hy⟩ := List.forall_mem_append.mp hx
  refine .append (.withLabel ⟨H, n⟩ fun known skip hk hskip => ?_) (he (b := true) hy hH)
  have hhas : Takes M known (step (.count .hasArg i)) ⟨H, n⟩ b ⟨H, n + 1⟩ true :=
    .count 0 1 rfl fun _ => rfl
  have hend : Takes M known (step (.count .paramEnd i)) ⟨H, n⟩ true ⟨H, n⟩ true :=
    .count 0 0 rfl fun _ => rfl
  exact ((((hhas.append (.jumpTrue hskip)).append (hd hx (hH.mono hk) false_terminal)).append
    .storeSlot).append (.place hskip)).append hend

/-- An expression evaluated for its effects. -/
theorem effect (hd : Evaluates M good d false xs) : Pushes M good (d ++ step .discard) 0 xs :=
  fun hx _ _ _ _ hH => (hd hx hH false_terminal).append .discard

end Pushes

/-- The labels of the remaining arms or cases. -/
theorem getElem?_next {labels : List Frame} {t : Frame} {first k m : Nat}
    (hl : ∀ k < m + 1, labels[first + k]? = some t) (hk : k < m) :
    labels[first + 1 + k]? = some t := by
  rw [Nat.add_assoc, Nat.add_comm 1]
  exact hl (k + 1) (Nat.succ_lt_succ hk)

namespace Tests

variable {first : Label} {count : Nat}

theorem nil : Tests M good nil first count xs := fun _ _ _ _ _ _ _ => Takes.nil.forget

/-- A condition that jumps where it fails. -/
theorem condition (hd : Evaluates M good d false xs) :
    Tests M good (d ++ jump .jumpFalse first) first 1 xs :=
  fun hx _ _ _ _ hH hl =>
    ((hd hx hH false_terminal).append (.jumpFalse (hl 0 Nat.zero_lt_one))).forget

/-- One more value to compare with. -/
theorem value {x : String} (hd : Evaluates M good d false xs) (he : Tests M good e first 1 ys) :
    Tests M good (step (.slot .loadLocal x) ++ d ++ plain .eq ++ jump .jumpTrue first ++ e) first 1
      (xs ++ ys) := by
  intro hx labels H n b hH hl
  obtain ⟨hx, hy⟩ := List.forall_mem_append.mp hx
  have heq : Takes M labels (plain .eq) ⟨H, n + 2⟩ true ⟨H, n + 1⟩ true :=
    .plain 2 1 rfl rfl
  exact (((Takes.loadSlot.append (hd hx hH false_terminal)).append heq).append
    (.jumpTrue (hl 0 Nat.zero_lt_one))).append (he hy hH hl)

/-- The tests of one arm or case and then those of the others. -/
theorem cons (hd : Tests M good d first 1 xs) (he : Tests M good e (first + 1) count zs) :
    Tests M good (d ++ e) first (count + 1) (xs ++ ys ++ zs) := by
  intro hx labels H n b hH hl
  obtain ⟨hx, hz⟩ := List.forall_mem_append.mp hx
  obtain ⟨hx, -⟩ := List.forall_mem_append.mp hx
  have hone : ∀ k : Nat, k < 1 → labels[first + k]? = some ⟨H, n⟩ := by
    intro k hk
    exact hl k (by omega)
  exact (hd hx hH hone).append (he hz hH fun k hk => getElem?_next hl hk)

end Tests

theorem Yields.nil {first done : Label} : Yields M good nil terminal first done 0 xs :=
  fun _ _ _ _ _ _ _ _ => .nil

/-- One result and then the others. -/
theorem Yields.cons {first done : Label} {count : Nat} (law : Lawful M good)
    (hd : Evaluates M good d terminal ys) (he : Yields M good e terminal (first + 1) done count zs) :
    Yields M good (place first ++ d ++ jump .jump done ++ e) terminal first done (count + 1)
      (xs ++ ys ++ zs) := by
  intro hx labels H n hH ht hl hdone
  obtain ⟨hx, hz⟩ := List.forall_mem_append.mp hx
  obtain ⟨-, hy⟩ := List.forall_mem_append.mp hx
  rw [if_neg (Nat.succ_ne_zero count)]
  refine (((Takes.place (hl 0 (Nat.zero_lt_succ _))).append (hd hy hH ht)).append
    (.leap hdone (law.refl _) hH ?_)).append (he hz hH ht (fun k hk => getElem?_next hl hk) hdone)
  split
  · exact Nat.le_refl _
  · exact Nat.le_add_right _ _

/-! ### Statements -/

/-- The draft of a body ends where it started, outside of all regions. -/
def Completes (M : Frame → Frame → Prop) (good : Exit → Prop) (d : Draft) (ctx : Context)
    (xs : List Exit) : Prop :=
  (∀ x ∈ xs, good x) → ∀ {labels : List Frame} {b : Bool}, Fits M good labels ctx {} [] →
    Takes M labels d ⟨[], 0⟩ b ⟨[], 0⟩ false

/-- A closure is made of its defaults and its body. -/
theorem Evaluates.closure {signature : Signature} (hr : ctx.regions = []) (hl : ctx.loops = [])
    (hd : Pushes M good d 0 xs) (he : Completes M good e ctx ys) :
    Evaluates M good (unit .makeClosure .function signature (d ++ e)) terminal (xs ++ ys) := by
  intro hx labels H n b hH _
  obtain ⟨hx, hy⟩ := List.forall_mem_append.mp hx
  have hnil : Coherent [] [] := trivial
  exact .unit (.inl rfl) (fun _ => .of_falls rfl rfl (by decide) (Nat.zero_le _))
    ((hd hx hnil).append (he hy (fits_start hr hl)))

namespace Restores

variable {k : Nat} {X Y Z : Enclosure → List Exit}

theorem refuse {line : Nat} {cause : Misuse} : Restores M good (refuse line cause) ctx k X :=
  fun _ _ _ _ _ _ => .refuse

theorem nil : Restores M good nil ctx 0 X := fun _ _ _ _ _ _ => Takes.nil.forget

theorem append (hd : Restores M good d ctx k X) (he : Restores M good e ctx 0 Y) :
    Restores M good (d ++ e) ctx k (fun E => X E ++ Y E) := by
  intro E walls labels b hx hctx
  obtain ⟨hx, hy⟩ := List.forall_mem_append.mp hx
  exact (hd hx hctx).append (he hy hctx)

theorem markLine {line : Nat} (hd : Restores M good d ctx k X) :
    Restores M good (markLine ctx line ++ d) ctx k X :=
  fun _ _ _ _ hx hctx => Takes.markLine.append (hd hx hctx)

theorem block (hd : Restores M good d ctx k X) : Restores M good (block d) ctx k X :=
  fun _ _ _ _ hx hctx => .block (hd hx hctx)

theorem effect (hd : Evaluates M good d false xs) :
    Restores M good (d ++ step .discard) ctx 0 fun _ => xs :=
  fun _ _ _ _ hx hctx => (hd hx hctx.coherent false_terminal).append .discard

/-- A value is stored into a new variable. -/
theorem var {x : String} (hd : Evaluates M good d false xs) :
    Restores M good (d ++ declareAndStore x) ctx 0 fun _ => xs :=
  fun _ _ _ _ hx hctx => ((hd hx hctx.coherent false_terminal).append .declareAndStore).forget

/-- A function is stored into a variable that was there before. -/
theorem varFunction {x : String} (hd : Evaluates M good d false xs) :
    Restores M good (step (.declare x) ++ d ++ step (.slot .storeLocal x)) ctx 0 fun _ => xs :=
  fun _ _ _ _ hx hctx =>
    (((Takes.quiet rfl).append (hd hx hctx.coherent false_terminal)).append .storeSlot).forget

/-- A catch clause starts with the exception on top of the stack. -/
theorem caught {x : String} (hd : Restores M good d ctx 0 X) :
    Restores M good (Draft.block (declareAndStore x ++ d)) ctx 1 X :=
  fun _ _ _ _ hx hctx => .block (Takes.declareAndStore.append (hd hx hctx))

theorem declared {x : String} (hd : Evaluates M good d false xs) :
    Restores M good (predeclare ctx x ++ d ++ bindDeclared ctx x) ctx 0 fun _ => xs :=
  fun _ _ _ _ hx hctx =>
    ((Takes.predeclare.append (hd hx hctx.coherent false_terminal)).append .bindDeclared).forget

theorem throw (hd : Evaluates M good d false xs) :
    Restores M good (d ++ plain .throw) ctx 0 fun _ => xs := by
  intro E walls labels b hx hctx
  have hthrow : Takes M labels (plain .throw) ⟨walls.flatten, E.pending + 1⟩ true
      ⟨walls.flatten, E.pending⟩ true := .throw hctx.coherent (Nat.le_refl _)
  exact ((hd hx hctx.coherent false_terminal).append hthrow).forget

theorem ifThen (hd : Evaluates M good d false xs) (he : Restores M good e ctx 0 X) :
    Restores M good (withLabel fun other => d ++ jump .jumpFalse other ++ Draft.block e
      ++ place other) ctx 0 fun E => xs ++ X E ++ ys := by
  intro E walls labels b hx hctx
  obtain ⟨hx, -⟩ := List.forall_mem_append.mp hx
  obtain ⟨hx, hX⟩ := List.forall_mem_append.mp hx
  refine .withLabel ⟨walls.flatten, E.pending⟩ fun known other hk hother => ?_
  have hctx := hctx.mono hk
  exact (((hd hx hctx.coherent false_terminal).append (.jumpFalse hother)).append
    (.block (he hX hctx))).append (.place hother)

theorem ifElse {c : Draft} (law : Lawful M good) (hc : Evaluates M good c false xs)
    (hd : Restores M good d ctx 0 X) (he : Restores M good e ctx 0 Y) :
    Restores M good (withLabel fun other => c ++ jump .jumpFalse other ++ Draft.block d
      ++ withLabel fun done => jump .jump done ++ place other ++ Draft.block e ++ place done) ctx 0
      fun E => xs ++ X E ++ Y E := by
  intro E walls labels b hx hctx
  obtain ⟨hx, hY⟩ := List.forall_mem_append.mp hx
  obtain ⟨hx, hX⟩ := List.forall_mem_append.mp hx
  refine .withLabel ⟨walls.flatten, E.pending⟩ fun known₁ other hk₁ hother => ?_
  have hctx₁ := hctx.mono hk₁
  refine (((hc hx hctx₁.coherent false_terminal).append (.jumpFalse hother)).append
    (.block (hd hX hctx₁))).append ?_
  refine .withLabel ⟨walls.flatten, E.pending⟩ fun known₂ done hk₂ hdone => ?_
  have hctx₂ := hctx₁.mono hk₂
  exact (((Takes.leap hdone (law.refl _) hctx₂.coherent (Nat.le_refl _)).append
    (.place (getElem?_of_initial hk₂ hother))).append (.block (he hY hctx₂))).append (.place hdone)

/-- The body of a loop, whose labels have the frame of the loop. -/
theorem inLoop {body : Draft} {breakTo continueTo : Label} {E : Enclosure}
    {walls : List (List Guard)} {labels : List Frame} {b : Bool}
    (hb : Restores M good body (ctx.inLoop breakTo (some continueTo)) 0 X)
    (hX : ∀ x ∈ X (E.inLoop true), good x) (hctx : Fits M good labels ctx E walls)
    (h₁ : labels[breakTo]? = some ⟨walls.flatten, E.pending⟩)
    (h₂ : labels[continueTo]? = some ⟨walls.flatten, E.pending⟩) :
    Takes M labels (Draft.block body) ⟨walls.flatten, E.pending⟩ b ⟨walls.flatten, E.pending⟩
      false := by
  refine .block (hb (E := E.inLoop true) hX (hctx.inLoop h₁ fun c hc => ?_))
  rw [← Option.some.inj hc]
  exact h₂

theorem whileDo {body : Label → Label → Draft} (law : Lawful M good)
    (hd : Evaluates M good d false xs)
    (hb : ∀ top done, Restores M good (body top done) (ctx.inLoop done (some top)) 0 X) :
    Restores M good (withLabel fun top => withLabel fun done => place top ++ d
      ++ jump .jumpFalse done ++ Draft.block (body top done) ++ jump .jump top ++ place done) ctx 0
      fun E => xs ++ X (E.inLoop true) := by
  intro E walls labels b hx hctx
  obtain ⟨hx, hX⟩ := List.forall_mem_append.mp hx
  refine .withLabel ⟨walls.flatten, E.pending⟩ fun known₁ top hk₁ htop => ?_
  refine .withLabel ⟨walls.flatten, E.pending⟩ fun known₂ done hk₂ hdone => ?_
  have hctx := hctx.mono (hk₁.trans hk₂)
  have htop := getElem?_of_initial hk₂ htop
  exact ((((((Takes.place htop).append (hd hx hctx.coherent false_terminal)).append
    (.jumpFalse hdone)).append (inLoop (hb top done) hX hctx hdone htop)).append
    (.leap htop (law.refl _) hctx.coherent (Nat.le_refl _))).append (.place hdone)).forget

theorem forLoop {init after : Draft} {cond : Label → Draft} {body : Label → Label → Draft}
    (law : Lawful M good) (hi : Restores M good init ctx 0 X)
    (hc : ∀ done, Tests M good (cond done) done 1 xs)
    (hb : ∀ next done, Restores M good (body next done) (ctx.inLoop done (some next)) 0 Y)
    (ha : Pushes M good after 0 ys) :
    Restores M good (Draft.block (init ++ withLabel fun top => withLabel fun next =>
      withLabel fun done => place top ++ cond done ++ Draft.block (body next done) ++ place next
        ++ after ++ jump .jump top ++ place done)) ctx 0
      fun E => X E ++ xs ++ Y (E.inLoop true) ++ ys := by
  intro E walls labels b hx hctx
  obtain ⟨hx, hy⟩ := List.forall_mem_append.mp hx
  obtain ⟨hx, hY⟩ := List.forall_mem_append.mp hx
  obtain ⟨hX, hx⟩ := List.forall_mem_append.mp hx
  refine .block ((hi hX hctx).append ?_)
  refine .withLabel ⟨walls.flatten, E.pending⟩ fun known₁ top hk₁ htop => ?_
  refine .withLabel ⟨walls.flatten, E.pending⟩ fun known₂ next hk₂ hnext => ?_
  refine .withLabel ⟨walls.flatten, E.pending⟩ fun known₃ done hk₃ hdone => ?_
  have hctx := hctx.mono ((hk₁.trans hk₂).trans hk₃)
  have htop := getElem?_of_initial (hk₂.trans hk₃) htop
  have hnext := getElem?_of_initial hk₃ hnext
  have hcond : Takes M known₃ (cond done) ⟨walls.flatten, E.pending⟩ false
      ⟨walls.flatten, E.pending⟩ false := by
    refine hc done hx hctx.coherent fun k hk => ?_
    obtain rfl : k = 0 := by omega
    exact hdone
  exact (((((((Takes.place htop).append hcond).append
    (inLoop (hb next done) hY hctx hdone hnext)).append (.place hnext)).append
    (ha hy hctx.coherent)).append (.leap htop (law.refl _) hctx.coherent (Nat.le_refl _))).append
    (.place hdone)).forget

theorem forIn {x : String} {body : Label → Label → Draft} (law : Lawful M good)
    (hd : Evaluates M good d false xs)
    (hb : ∀ next done, Restores M good (body next done) (ctx.inLoop done (some next)) 0 X) :
    Restores M good (Draft.block (d ++ plain .iter ++ withHidden "iter" fun it =>
      declareAndStore it ++ withLabel fun next => withLabel fun done => place next
        ++ step (.slot .loadLocal it) ++ jump .forIter done ++ declareAndStore x
        ++ Draft.block (body next done) ++ jump .jump next ++ place done)) ctx 0
      fun E => xs ++ X (E.inLoop true) := by
  intro E walls labels b hx hctx
  obtain ⟨hx, hX⟩ := List.forall_mem_append.mp hx
  have hiter : Takes M labels (plain .iter) ⟨walls.flatten, E.pending + 1⟩ true
      ⟨walls.flatten, E.pending + 1⟩ true := .plain 1 1 rfl rfl
  refine .block (((hd hx hctx.coherent false_terminal).append hiter).append
    (.withHidden fun it => Takes.declareAndStore.append ?_))
  refine .withLabel ⟨walls.flatten, E.pending⟩ fun known₁ next hk₁ hnext => ?_
  refine .withLabel ⟨walls.flatten, E.pending⟩ fun known₂ done hk₂ hdone => ?_
  have hctx := hctx.mono (hk₁.trans hk₂)
  have hnext := getElem?_of_initial hk₂ hnext
  exact (((((((Takes.place hnext).append .loadSlot).append (.forIter hdone)).append
    .declareAndStore).append (inLoop (hb next done) hX hctx hdone hnext)).append
    (.leap hnext (law.refl _) hctx.coherent (Nat.le_refl _))).append (.place hdone)).forget

/-- A value is returned, which runs the cleanups of all regions. -/
theorem ret (hd : Evaluates M good d ctx.isTerminal xs) :
    Restores M good (d ++ ctx.returnTop) ctx 0 fun E => xs ++ E.returnExits := by
  intro E walls labels b hx hctx
  obtain ⟨hx, hE⟩ := List.forall_mem_append.mp hx
  have hterminal : ctx.isTerminal = true → walls.flatten = [] := by
    intro ht
    have hlen := hctx.regions.length_eq.1
    rw [List.isEmpty_iff.mp ht] at hlen
    rw [List.length_eq_zero_iff.mp hlen.symm]
    rfl
  exact (hd hx hctx.coherent hterminal).append (.returnTop hctx hE)

/-- A tail call is returned at once. -/
theorem retTail (ht : ctx.isTerminal = true) (hd : Escapes M good d xs) :
    Restores M good (d ++ Draft.nil) ctx 0 fun E => xs ++ E.returnExits := by
  intro E walls labels b hx hctx
  obtain ⟨hx, -⟩ := List.forall_mem_append.mp hx
  have hwalls : walls = [] := by
    have hlen := hctx.regions.length_eq.1
    rw [List.isEmpty_iff.mp ht] at hlen
    exact List.length_eq_zero_iff.mp hlen.symm
  subst hwalls
  have htail : Takes M labels d ⟨[], E.pending⟩ b ⟨[], E.pending⟩ true :=
    hd hx hctx.coherent (Nat.le_add_right _ 1)
  exact (htail.append .nil).forget

end Restores

/-! ### Clauses that may be missing -/

/-- A clause leads back to where it starts from, whatever loops there are. -/
def Recovers (M : Frame → Frame → Prop) (good : Exit → Prop) (clause : Option (List Loop → Draft))
    (ctx : Context) (note : Enclosure → Option CleanupNote) : Prop :=
  ∀ c, clause = some c → ∃ X : Enclosure → List Exit,
    (∀ E, note E = some fun loops pending => X { E with loops, pending })
      ∧ ∀ loops, Restores M good (c loops) { ctx with loops } 0 X

namespace Recovers

variable {clause : Option (List Loop → Draft)} {note : Enclosure → Option CleanupNote}

/-- The clause as it stands where it is written. -/
theorem restores {c : List Loop → Draft} (h : Recovers M good clause ctx note)
    (hc : clause = some c) :
    Restores M good (c ctx.loops) ctx 0 fun E => (note E).elim [] (· E.loops E.pending) := by
  intro E walls labels b hx hctx
  obtain ⟨X, hn, hr⟩ := h c hc
  simp only [hn, Option.elim_some] at hx
  exact hr ctx.loops hx hctx

/-- A region with the clause as its cleanup fits. -/
theorem regionFits {catchInstalled : Bool} {E : Enclosure} {walls : List (List Guard)}
    {labels : List Frame} {w : List Guard} (h : Recovers M good clause ctx note)
    (hctx : Fits M good labels ctx E walls)
    (hw : w.length = (if catchInstalled then 1 else 0) + (if clause.isSome then 1 else 0)) :
    RegionFits M good labels ⟨catchInstalled, clause⟩ (note E) w walls := by
  refine ⟨hw, fun c hc => ?_⟩
  obtain ⟨X, hn, hr⟩ := h c hc
  refine ⟨_, hn E, fun known loops notes p b hk hl hx => ?_⟩
  exact hr loops (E := { E with loops := notes, pending := p }) hx
    ⟨hctx.regions.mono hk, hl, hctx.coherent.mono hk⟩

end Recovers

/-- The bodies of the cases of a switch, each of which jumps to `done`. -/
def Selects (M : Frame → Frame → Prop) (good : Exit → Prop) (d : Draft) (ctx : Context)
    (first done : Label) (count : Nat) (X : Enclosure → List Exit) : Prop :=
  ∀ ⦃E : Enclosure⦄ ⦃walls : List (List Guard)⦄ ⦃labels : List Frame⦄ ⦃b : Bool⦄,
    (∀ x ∈ X E, good x) → Fits M good labels ctx E walls →
    (∀ k < count, labels[first + k]? = some ⟨walls.flatten, E.pending⟩) →
    labels[done]? = some ⟨walls.flatten, E.pending⟩ →
    Takes M labels d ⟨walls.flatten, E.pending⟩ b ⟨walls.flatten, E.pending⟩ false

theorem Selects.nil {first done : Label} {X : Enclosure → List Exit} :
    Selects M good nil ctx first done 0 X :=
  fun _ _ _ _ _ _ _ _ => Takes.nil.forget

theorem Selects.cons {first done : Label} {count : Nat} {X Y : Enclosure → List Exit}
    (law : Lawful M good) (hd : Restores M good d ctx 0 X)
    (he : Selects M good e ctx (first + 1) done count Y) :
    Selects M good (place first ++ block d ++ jump .jump done ++ e) ctx first done (count + 1)
      fun E => xs ++ X E ++ Y E := by
  intro E walls labels b hx hctx hl hdone
  obtain ⟨hx, hY⟩ := List.forall_mem_append.mp hx
  obtain ⟨-, hX⟩ := List.forall_mem_append.mp hx
  exact (((Takes.place (hl 0 (Nat.zero_lt_succ _))).append (.block (hd hX hctx))).append
    (.leap hdone (law.refl _) hctx.coherent (Nat.le_refl _))).append
    (he hY hctx (fun k hk => getElem?_next hl hk) hdone)

namespace Restores

variable {X Y Z : Enclosure → List Exit}

theorem tryCatch {body : Draft} {clause : Option (List Loop → Draft)} {handler : Option Draft}
    {note : Enclosure → Option CleanupNote} (law : Lawful M good)
    (hc : Recovers M good clause ctx note)
    (hh : ∀ d, handler = some d → Restores M good d (ctx.inRegion false clause) 1 Y)
    (hb : Restores M good body (ctx.inRegion handler.isSome clause) 0 X) :
    Restores M good (step .protect ++ cleaned (clause.map (· ctx.loops))
      (guarded handler (Draft.block body))) ctx 0
      fun E => X (E.inRegion (note E)) ++ Y (E.inRegion (note E))
        ++ (note E).elim [] (· E.loops E.pending) := by
  intro E walls labels b hx hctx
  obtain ⟨hx, hZ⟩ := List.forall_mem_append.mp hx
  obtain ⟨hX, hY⟩ := List.forall_mem_append.mp hx
  refine (Takes.quiet rfl).append (.cleaned hctx.coherent ?_ ?_)
  · intro known w b hk hw hco
    have hw : w.length = if clause.isSome then 1 else 0 := by
      rw [hw, Option.isSome_map]
    have hctx := hctx.mono hk
    refine .guarded law.refl hco ?_ ?_
    · -- the body, under both handlers
      intro known' w' b' hk' hw' hco'
      have hctx := hctx.mono hk'
      have hfits : Fits M good known' (ctx.inRegion handler.isSome clause) (E.inRegion (note E))
          ((w' ++ w) :: walls) := by
        refine hctx.inRegion (hc.regionFits hctx ?_) ?_
        · rw [List.length_append, hw', hw]
        · rw [List.append_assoc]
          exact hco'
      have htakes := (hb (b := b') hX hfits)
      rw [List.flatten_cons, List.append_assoc] at htakes
      exact .block htakes
    · -- the catch clause, under the handler of the cleanup
      intro d known' hd hk'
      have hctx := hctx.mono hk'
      have hfits : Fits M good known' (ctx.inRegion false clause) (E.inRegion (note E))
          (w :: walls) := by
        refine hctx.inRegion (hc.regionFits hctx ?_) (hco.mono hk')
        rw [hw, if_neg Bool.false_ne_true, Nat.zero_add]
      exact hh d hd hY hfits
  · -- the cleanup, where the body ends
    intro d known b hd hk
    obtain ⟨c, hclause, rfl⟩ := Option.map_eq_some_iff.mp hd
    exact hc.restores hclause hZ (hctx.mono hk)

theorem switch {tests : String → Label → Draft} {bodies : Label → Label → Draft}
    {fallback : Label → Draft} {count : Nat} (law : Lawful M good)
    (hd : Evaluates M good d false xs)
    (ht : ∀ E x first, Tests M good (tests x first) first count (X E))
    (hb : ∀ done first, Selects M good (bodies first done) (ctx.inLoop done none) first done count X)
    (hf : ∀ done, Restores M good (fallback done) (ctx.inLoop done none) 0 Y) :
    Restores M good (Draft.block (d ++ withHidden "switch" fun x => declareAndStore x
      ++ withLabel fun done => withLabels count fun first => tests x first
        ++ withLabel fun other => jump .jump other ++ bodies first done ++ place other
          ++ fallback done ++ place done)) ctx 0
      fun E => xs ++ X (E.inLoop false) ++ Y (E.inLoop false) := by
  intro E walls labels b hx hctx
  obtain ⟨hx, hY⟩ := List.forall_mem_append.mp hx
  obtain ⟨hx, hX⟩ := List.forall_mem_append.mp hx
  refine .block ((hd hx hctx.coherent false_terminal).append (.withHidden fun x => ?_))
  refine Takes.declareAndStore.append
    (.withLabel ⟨walls.flatten, E.pending⟩ fun known₁ done hk₁ hdone => ?_)
  refine .withLabels ⟨walls.flatten, E.pending⟩ fun known₂ first hk₂ hfirst => ?_
  have hctx := hctx.mono (hk₁.trans hk₂)
  refine (ht (E.inLoop false) x first hX hctx.coherent hfirst).append ?_
  refine .withLabel ⟨walls.flatten, E.pending⟩ fun known₃ other hk₃ hother => ?_
  have hdone := getElem?_of_initial (hk₂.trans hk₃) hdone
  have hctx := hctx.mono hk₃
  have hinner : Fits M good known₃ (ctx.inLoop done none) (E.inLoop false) walls :=
    hctx.inLoop hdone fun c hc => by cases hc
  have hbodies : Takes M known₃ (bodies first done) ⟨walls.flatten, E.pending⟩ true
      ⟨walls.flatten, E.pending⟩ false :=
    hb done first (E := E.inLoop false) hX hinner (fun k hk => getElem?_of_initial hk₃ (hfirst k hk)) hdone
  exact ((((Takes.leap hother (law.refl _) hctx.coherent (Nat.le_refl _)).append hbodies).append
    (.place hother)).append (hf done (E := E.inLoop false) hY hinner)).append (.place hdone)

/-- The unit of a class or a namespace. -/
theorem object {inner : Context} (hr : inner.regions = []) (hl : inner.loops = [])
    (hd : Restores M good d inner 0 X) (hX : ∀ x ∈ X {}, good x) :
    Takes M [] (d ++ returnNil) .start false .start true :=
  (hd hX (fits_start hr hl)).append .returnNil

theorem classDef {x : String} {inner : Context} (hd : Evaluates M good d false xs)
    (he : Restores M good e inner 0 X) (hr : inner.regions = []) (hl : inner.loops = []) :
    Restores M good (predeclare ctx x ++ d ++ unit .makeClass .object {} (e ++ returnNil)
      ++ bindDeclared ctx x) ctx 0 fun _ => xs ++ X {} := by
  intro E walls labels b hx hctx
  obtain ⟨hx, hX⟩ := List.forall_mem_append.mp hx
  have hunit : Takes M labels (unit .makeClass .object {} (e ++ returnNil))
      ⟨walls.flatten, E.pending + 1⟩ true ⟨walls.flatten, E.pending + 1⟩ true :=
    .unit (.inr (.inl rfl)) (fun _ => .of_falls rfl rfl (by decide) (Nat.le_add_left 1 _))
      (object hr hl he hX)
  exact (((Takes.predeclare.append (hd hx hctx.coherent false_terminal)).append hunit).append
    .bindDeclared).forget

theorem namespaceDef {x : String} {inner : Context} (he : Restores M good e inner 0 X)
    (hr : inner.regions = []) (hl : inner.loops = []) :
    Restores M good (predeclare ctx x ++ unit .makeNamespace .object {} (e ++ returnNil)
      ++ bindDeclared ctx x) ctx 0 fun _ => X {} := by
  intro E walls labels b hX hctx
  have hunit : Takes M labels (unit .makeNamespace .object {} (e ++ returnNil))
      ⟨walls.flatten, E.pending⟩ b ⟨walls.flatten, E.pending + 1⟩ true :=
    .unit (.inr (.inr rfl)) (fun _ => .of_falls rfl rfl (by decide) (Nat.zero_le _))
      (object hr hl he hX)
  exact ((Takes.predeclare.append hunit).append .bindDeclared).forget

end Restores

namespace Completes

variable {line : Nat}

/-- An expression that ends a body is returned. -/
theorem expr (hd : Evaluates M good d true xs) :
    Completes M good (markLine ctx line ++ d ++ plain .ret) ctx (xs ++ ys) := by
  intro hx labels b _
  obtain ⟨hx, -⟩ := List.forall_mem_append.mp hx
  have hnil : Coherent labels [] := trivial
  exact ((Takes.markLine.append (hd hx hnil fun _ => rfl)).append
    (.ret hnil (Nat.le_refl 0))).forget

/-- A tail call that ends a body is returned at once. -/
theorem tail (hd : Escapes M good d xs) :
    Completes M good (markLine ctx line ++ d ++ Draft.nil) ctx (xs ++ ys) := by
  intro hx labels b _
  obtain ⟨hx, -⟩ := List.forall_mem_append.mp hx
  have hnil : Coherent labels [] := trivial
  have htail : Takes M labels d ⟨[], 0⟩ b ⟨[], 0⟩ true := hd hx hnil (Nat.zero_le 1)
  exact ((Takes.markLine.append htail).append .nil).forget

/-- A statement and then the rest of the body. -/
theorem cons {X : Enclosure → List Exit} (hd : Restores M good d ctx 0 X)
    (he : Completes M good e ctx xs) : Completes M good (d ++ e) ctx (X {} ++ xs) := by
  intro hx labels b hctx
  obtain ⟨hX, hx⟩ := List.forall_mem_append.mp hx
  exact (hd hX hctx).append (he hx hctx)

theorem returnNil : Completes M good returnNil ctx xs := fun _ _ _ _ => Takes.returnNil.forget

/-- A body that needs no more than its last statement. -/
theorem last {X : Enclosure → List Exit} (hd : Restores M good d ctx 0 X) :
    Completes M good d ctx (X {} ++ []) :=
  fun hx _ _ hctx => hd (List.forall_mem_append.mp hx).1 hctx

end Completes

/-! ### The recursion -/

/-- An expression is evaluated by its draft, and a tail call escapes. -/
def Expr.Follows (M : Frame → Frame → Prop) (good : Exit → Prop) (e : Expr) (ctx : Context)
    (terminal : Bool) : Prop :=
  Evaluates M good (e.lower ctx terminal) terminal e.exits
    ∧ (ctx.isTail terminal e = true → Escapes M good (e.lower ctx terminal) e.exits)

/-- Only calls are tail calls. -/
theorem Expr.Follows.of_evaluates {e : Expr} (he : ∀ name, e.isCallOf name = false)
    (h : Evaluates M good (e.lower ctx terminal) terminal e.exits) : e.Follows M good ctx terminal := by
  refine ⟨h, fun ht => ?_⟩
  obtain ⟨-, hself⟩ := Bool.and_eq_true_iff.mp ht
  obtain ⟨name, -, hcall⟩ := (Option.any_eq_true _ _).mp hself
  exact absurd ((he name).symm.trans hcall) Bool.false_ne_true

section Width

variable (x : String) (e : Expr) (rest : List Arg)

/-- How many values the arguments of a call leave: a named one has its name below it. -/
theorem Arg.width_positional :
    (Arg.positional e :: rest).length + (Arg.positional e :: rest).countP Arg.isNamed
      = rest.length + rest.countP Arg.isNamed + 1 := by
  rw [List.countP_cons_of_neg Bool.false_ne_true, List.length_cons]
  omega

theorem Arg.width_spread :
    (Arg.spread e :: rest).length + (Arg.spread e :: rest).countP Arg.isNamed
      = rest.length + rest.countP Arg.isNamed + 1 := by
  rw [List.countP_cons_of_neg Bool.false_ne_true, List.length_cons]
  omega

theorem Arg.width_named :
    (Arg.named x e :: rest).length + (Arg.named x e :: rest).countP Arg.isNamed
      = rest.length + rest.countP Arg.isNamed + 2 := by
  rw [List.countP_cons_of_pos rfl, List.length_cons]
  omega

end Width

/-- What the drafts of all statements do; the other parts of the lowering are followed on the way. -/
theorem Stmt.restores_lowerAll (law : Lawful M good) (program : List Stmt) (ctx : Context) :
    Restores M good (Stmt.lowerAll program ctx) ctx 0 (Stmt.exitsAll program) := by
  refine (Expr.lower.mutual_induct
    (fun e ctx terminal => e.Follows M good ctx terminal)
    (fun arms ctx terminal first done => Yields M good
      (Arm.lowerResults arms ctx terminal first done) terminal first done arms.length
      (Arm.exits arms))
    (fun e ctx terminal => Evaluates M good (Expr.lowerOr e ctx terminal) terminal
      (Expr.exitsOptional e))
    (fun arms ctx x first => Tests M good (Arm.lowerTests arms ctx x first) first arms.length
      (Arm.exits arms))
    (fun values ctx x l => Tests M good (Expr.lowerTests values ctx x l) l 1
      (Expr.exitsAll values))
    (fun entries ctx => Pushes M good (Entry.lower entries ctx) (2 * entries.length)
      (Entry.exits entries))
    (fun items ctx => Pushes M good (Expr.lowerAll items ctx) items.length (Expr.exitsAll items))
    (fun args ctx call line names => Pushes M good (Arg.lower args ctx call line names)
      (args.length + args.countP Arg.isNamed) (Arg.exits args))
    (fun f ctx binding line => Evaluates M good (f.lower ctx binding line) false f.exits)
    (fun body ctx => Completes M good (Stmt.lowerBody body ctx) ctx (Stmt.exitsAll body {}))
    (fun s ctx => Restores M good (s.lower ctx) ctx 0 s.exits)
    (fun form ctx line => Restores M good (form.lower ctx line) ctx 0 form.exits)
    (fun cases ctx first done => Selects M good (Case.lowerBodies cases ctx first done) ctx first
      done cases.length (Case.exits cases))
    (fun body ctx => Restores M good (Stmt.lowerAll body ctx) ctx 0 (Stmt.exitsAll body))
    (fun cases ctx x first => ∀ E, Tests M good (Case.lowerTests cases ctx x first) first
      cases.length (Case.exits cases E))
    (fun handler ctx => ∀ d, Catch.lower handler ctx = some d →
      Restores M good d ctx 1 (Catch.exits handler))
    (fun body ctx => Recovers M good (Stmt.lowerBlock? body ctx) ctx (Stmt.exitsCleanup body))
    (fun e ctx => Pushes M good (Expr.lowerEffect e ctx) 0 (Expr.exitsOptional e))
    (fun e ctx done => Tests M good (Expr.lowerCondition e ctx done) done 1
      (Expr.exitsOptional e))
    (fun s ctx => Restores M good (Stmt.lowerOptional s ctx) ctx 0 (Stmt.exitsOptional s))
    (fun params ctx i => Pushes M good (Param.lower params ctx i) 0 (Param.exits params))
    ?_ ?_ ?_ ?_ ?_ ?_ ?_ ?_ ?_ ?_ ?_ ?_ ?_ ?_ ?_ ?_ ?_ ?_ ?_ ?_ ?_ ?_ ?_ ?_ ?_ ?_ ?_ ?_ ?_ ?_
    ?_ ?_ ?_ ?_ ?_ ?_ ?_ ?_ ?_ ?_ ?_ ?_ ?_ ?_ ?_ ?_ ?_ ?_ ?_ ?_ ?_ ?_ ?_ ?_ ?_ ?_ ?_ ?_ ?_ ?_
    ?_ ?_ ?_ ?_ ?_ ?_ ?_ ?_ ?_ ?_ ?_ ?_ ?_ ?_ ?_ ?_ ?_ ?_ ?_ ?_ ?_ ?_ ?_ ?_ ?_ ?_ ?_ ?_ ?_ ?_
    ?_ ?_).2.2.2.2.2.2.2.2.2.2.2.2.2.1 program ctx
  -- expressions
  · intro v ctx terminal
    exact .of_evaluates (fun _ => rfl) fun _ _ _ _ _ _ _ => .value v
  · intro x ctx terminal
    exact .of_evaluates (fun _ => rfl) fun _ _ _ _ _ _ _ => .loadName
  · intro ctx terminal
    exact .of_evaluates (fun _ => rfl) fun _ _ _ _ _ _ _ => .push (.inr (.inr (.inr rfl)))
  · intro line x line' f ctx terminal hf
    exact .of_evaluates (fun _ => rfl) (.store hf)
  · intro line x value ctx terminal hne hv
    refine .of_evaluates (fun _ => rfl) ?_
    rw [Expr.lower]
    · exact .store hv.1
    · exact hne
  · intro line object x value ctx terminal ho hv
    exact .of_evaluates (fun _ => rfl) (.setMember ho.1 hv.1)
  · intro line object index value ctx terminal ho hi hv
    exact .of_evaluates (fun _ => rfl) (.setIndex ho.1 hi.1 hv.1)
  · intro line target value ctx terminal h₁ h₂ h₃ h₄
    refine .of_evaluates (fun _ => rfl) ?_
    rw [Expr.lower]
    · exact .refuse
    · exact h₁
    · exact h₂
    · exact h₃
    · exact h₄
  · intro op lhs rhs ctx terminal hl hr
    exact .of_evaluates (fun _ => rfl) (.binary hl.1 hr.1)
  · intro op lhs rhs ctx terminal hl hr
    exact .of_evaluates (fun _ => rfl) (.logical hl.1 hr.1)
  · intro op operand ctx terminal ho
    exact .of_evaluates (fun _ => rfl) (.unary ho.1)
  · intro line callee args ctx terminal hc ha
    refine ⟨.call (fun ht => (Bool.and_eq_true_iff.mp ht).1) hc.1 ha, fun ht => ?_⟩
    rw [Expr.lower, ht]
    exact .call hc.1 ha
  · intro line object x args ctx terminal ho ha
    exact .of_evaluates (fun _ => rfl) (.methodCall ho.1 ha)
  · intro object x ctx terminal ho
    exact .of_evaluates (fun _ => rfl) (.getMember ho.1)
  · intro object index ctx terminal ho hi
    exact .of_evaluates (fun _ => rfl) (.getIndex ho.1 hi.1)
  · intro items ctx terminal hi
    exact .of_evaluates (fun _ => rfl) (.array hi)
  · intro entries ctx terminal he
    exact .of_evaluates (fun _ => rfl) (.map he)
  · intro line f ctx terminal hf
    exact .of_evaluates (fun _ => rfl) fun hx _ _ _ _ hH _ => hf hx hH false_terminal
  · intro cond thenE elseE ctx terminal hc ht he
    exact .of_evaluates (fun _ => rfl) (.conditional law hc.1 ht.1 he.1)
  · intro subject arms default ctx terminal hs ht hd hr
    exact .of_evaluates (fun _ => rfl)
      (.case law hs.1 (fun x first _ => ht x first) hd fun _ first done => hr done first)
  · intro line value ctx terminal hg hv
    refine .of_evaluates (fun _ => rfl) ?_
    rw [Expr.lower, if_pos hg]
    exact .yield hv
  · intro line value ctx terminal hg
    refine .of_evaluates (fun _ => rfl) ?_
    rw [Expr.lower, if_neg hg]
    exact .refuse
  -- functions
  · intro params variadic generator body ctx binding line x hx
    rw [Function.lower]
    simp only [hx]
    exact .refuse
  · intro params variadic generator body ctx binding line f hn inner hp hb
    rw [Function.lower]
    simp only [hn]
    exact .closure rfl rfl hp hb
  -- statements
  · intro line form ctx hf
    exact .markLine hf
  · intro e ctx line he
    exact .effect he.1
  · intro x ctx line
    exact .var fun _ _ _ _ _ _ _ => .push (.inl rfl)
  · intro x line f ctx line' hf
    exact .varFunction hf
  · intro x e ctx line hne he
    rw [StmtForm.lower]
    · exact .var he.1
    · exact hne
  · intro body ctx line hb
    exact .block hb
  · intro cond thenS ctx line hc ht
    exact .ifThen hc.1 ht
  · intro cond thenS elseS ctx line hc ht he
    exact .ifElse law hc.1 ht he
  · intro cond body ctx line hc hb
    rw [StmtForm.lower]
    exact .whileDo law hc.1 hb
  · intro init cond afterwards body ctx line hi hc hb ha
    exact .forLoop law hi hc hb ha
  · intro x iterable body ctx line hi hb
    exact .forIn law hi.1 hb
  · intro ctx line
    exact fun _ _ _ _ hx hctx => .lowerBreak law hctx hx
  · intro ctx line
    exact fun _ _ _ _ hx hctx => .lowerContinue law hctx hx
  · intro ctx line hk
    rw [StmtForm.lower, if_pos hk]
    exact .ret fun _ _ _ _ _ _ _ => .push (.inl rfl)
  · intro ctx line hk
    rw [StmtForm.lower, if_neg hk]
    exact .refuse
  · intro e ctx line hk he
    rw [StmtForm.lower, if_pos hk]
    split
    · next ht => exact .retTail (Bool.and_eq_true_iff.mp ht).1 (he.2 ht)
    · exact .ret he.1
  · intro e ctx line hk
    rw [StmtForm.lower, if_neg hk]
    exact .refuse
  · intro e ctx line he
    exact .throw he.1
  · intro body handler cleanup ctx line hn
    rw [StmtForm.lower, if_pos hn]
    exact .refuse
  · intro body handler cleanup ctx line hn clause hc hh hb
    rw [StmtForm.lower, if_neg hn]
    refine .tryCatch law hc hh ?_
    cases handler with
    | none => exact hb
    | some c =>
      cases c with
      | mk x body => exact hb
  · intro subject cases default ctx line hs ht hb hd
    rw [StmtForm.lower]
    refine .switch law hs.1 (fun E x first => ht x first E) (fun done first => hb done first)
      (Y := fun E => (Stmt.exitsCleanup default E).elim [] (· E.loops E.pending)) fun done => ?_
    cases default with
    | none => exact .nil
    | some body => exact (hd done).restores rfl
  · intro x f ctx line hf
    exact .declared hf
  · intro x parent body ctx line hp hb
    exact .classDef hp hb rfl rfl
  · intro x body ctx line hb
    exact .namespaceDef hb rfl rfl
  -- arguments
  · intro ctx call line names
    exact .nil
  · intro e rest ctx call line names hn he hr
    rw [Arg.lower, if_pos hn, Arg.width_positional]
    exact .cons he.1 hr
  · intro e rest ctx call line names hn
    rw [Arg.lower, if_neg hn]
    exact .refuse
  · intro e rest ctx call line names hn he hr
    rw [Arg.lower, if_pos hn, Arg.width_spread]
    exact .cons (.spread he.1) hr
  · intro e rest ctx call line names hn
    rw [Arg.lower, if_neg hn]
    exact .refuse
  · intro x e rest ctx call line names hn
    rw [Arg.lower, if_pos hn]
    exact .refuse
  · intro x e rest ctx call line names hn he hr
    rw [Arg.lower, if_neg hn, Arg.width_named]
    exact .named he.1 hr
  -- several expressions
  · intro ctx x l
    exact .nil
  · intro e rest ctx x l he hr
    exact .value he.1 hr
  · intro ctx
    exact .nil
  · intro e rest ctx he hr
    exact .cons he.1 hr
  · intro ctx
    exact .nil
  · intro x v rest ctx hv hr
    exact .named hv.1 hr
  · intro k v rest ctx hk hv hr
    exact .pair hk.1 hv.1 hr
  · intro ctx terminal first done
    exact .nil
  · intro values result rest ctx terminal l done hv hr
    exact .cons law hv.1 hr
  · intro ctx x l
    exact .nil
  · intro values result rest ctx x l hv hr
    exact .cons hv hr
  · intro ctx terminal
    exact fun _ _ _ _ _ _ _ => .push (.inl rfl)
  · intro e ctx terminal he
    exact he.1
  · intro ctx
    exact .nil
  · intro e ctx he
    exact .effect he.1
  · intro ctx done
    exact .nil
  · intro e ctx done he
    exact .condition he.1
  · intro ctx i
    exact .nil
  · intro name rest ctx i hr
    exact hr
  · intro x e rest ctx i he hr
    exact .default he.1 hr
  -- bodies and clauses
  · intro ctx
    exact .returnNil
  · intro line e ctx he
    rw [Stmt.lowerBody]
    split
    · next ht => exact .tail (he.2 ht)
    · exact .expr he.1
  · intro line value ctx hv
    exact .last (.markLine hv)
  · intro line form ctx h₁ h₂ hf
    rw [Stmt.lowerBody]
    · exact .cons (.markLine hf) .returnNil
    · exact h₁
    · exact h₂
  · intro s rest ctx h₁ h₂ h₃ hs hr
    rw [Stmt.lowerBody]
    · exact .cons hs hr
    · exact h₁
    · exact h₂
    · exact h₃
  · intro ctx
    exact .nil
  · intro s rest ctx hs hr
    exact .append hs hr
  · intro ctx
    exact .nil
  · intro s ctx hs
    exact hs
  · intro ctx d hd
    cases hd
  · rintro x body ctx hb d ⟨⟩
    exact .caught hb
  · intro ctx c hc
    cases hc
  · rintro body ctx hb c ⟨⟩
    exact ⟨Stmt.exitsAll body, fun _ => rfl, fun loops => .block (hb loops)⟩
  · intro ctx first done
    exact .nil
  · intro values body rest ctx l done hb hr
    exact .cons law hb hr
  · intro ctx x l E
    exact .nil
  · intro values body rest ctx x l hv hr E
    exact .cons hv (hr E)

/-- The draft of a program flows, if its exits are good. -/
theorem Program.flows (law : Lawful M good) (config : Config) {program : List Stmt}
    (hx : ∀ x ∈ Program.exits program, good x) :
    ∃ o, Flows M ((Program.draft config program).steps {}) .start o := by
  have hctx : Fits M good [] { config } {} [] := fits_start rfl rfl
  have htakes : Takes M [] (Stmt.lowerAll program { config } ++ returnNil) .start false .start
      true := (Stmt.restores_lowerAll law program { config } hx hctx).append .returnNil
  have hflow := htakes {} [] false (List.prefix_refl _) rfl fun h => absurd h Bool.false_ne_true
  unfold Program.draft
  split at hflow
  · exact hflow
  · obtain ⟨more, fresh, -, -, hflow⟩ := hflow
    exact ⟨_, hflow⟩

end StackCode
