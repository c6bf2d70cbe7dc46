import StackCode.Proofs.Landing
import StackCode.Proofs.LoweredClimbs

/-!
# The code of an expression

Wherever an expression is compiled, its code has one entry and one exit. Control comes in at the
first instruction of the code and goes out behind the last one, with one value more on the stack, and
nothing that was on the stack before is touched.

* `Context.bare`, `Expr.lower_bare`: an expression does not see the loops and regions around it;
* `Step.Visits`, `Assembler.Reachable`: the states that the compilation of a program comes through;
* `Scope.PathFrom`: the paths through the code from some position on;
* `Scope.LeavesOne`: what is asked of the code of an expression;
* `Scope.Profile.path`: a path has the heights of the profile;
* `Expr.leavesOne_of_runAll`: the code of every expression, compiled in every reachable state.

Jumps are followed by their labels: displacements are written only when the unit ends.
-/

namespace StackCode

open Instruction (effectOf)
open Draft

/-! ### What an expression sees of its context -/

/-- The context without the loops and the regions. -/
def Context.bare (ctx : Context) : Context := { ctx with regions := [], loops := [] }

theorem Function.lower_bare (f : Function) (ctx : Context) (binding : Option String) (line : Nat) :
    f.lower ctx.bare binding line = f.lower ctx binding line := by
  obtain ⟨params, variadic, generator, body⟩ := f
  rw [Function.lower, Function.lower]
  rfl

mutual

/-- An expression is lowered in the same way wherever it can be left early. -/
theorem Expr.lower_bare (e : Expr) (ctx : Context) (terminal : Bool) :
    e.lower ctx.bare terminal = e.lower ctx terminal := by
  cases e with
  | literal v | name x | this => rfl
  | assign line target value =>
    have hv := value.lower_bare ctx false
    cases target with
    | name x =>
      cases value with
      | function line f => simp only [Expr.lower, Function.lower_bare]
      | _ => exact congrArg (· ++ plain .dup ++ step (.storeName x)) hv
    | member object x => simp only [Expr.lower, object.lower_bare ctx, hv]
    | index object index => simp only [Expr.lower, object.lower_bare ctx, index.lower_bare ctx, hv]
    | _ => rfl
  | binary op lhs rhs | logical op lhs rhs =>
    simp only [Expr.lower, lhs.lower_bare ctx, rhs.lower_bare ctx]
  | unary op operand => simp only [Expr.lower, operand.lower_bare ctx]
  | call line callee args =>
    simp only [Expr.lower, callee.lower_bare ctx, Arg.lower_bare args ctx]
    rfl
  | methodCall line object x args =>
    simp only [Expr.lower, object.lower_bare ctx, Arg.lower_bare args ctx]
  | member object x => simp only [Expr.lower, object.lower_bare ctx]
  | index object index => simp only [Expr.lower, object.lower_bare ctx, index.lower_bare ctx]
  | array items => simp only [Expr.lower, Expr.lowerAll_bare items ctx]
  | map entries => simp only [Expr.lower, Entry.lower_bare entries ctx]
  | function line f => exact f.lower_bare ctx none line
  | conditional cond thenE elseE =>
    simp only [Expr.lower, cond.lower_bare ctx, thenE.lower_bare ctx, elseE.lower_bare ctx]
  | case subject arms default =>
    simp only [Expr.lower, subject.lower_bare ctx, Arm.lowerTests_bare arms ctx,
      Expr.lowerOr_bare default ctx, Arm.lowerResults_bare arms ctx]
  | yield line value =>
    simp only [Expr.lower, Expr.lowerOr_bare value ctx]
    rfl
termination_by structural e

theorem Expr.lowerOr_bare (e : Option Expr) (ctx : Context) (terminal : Bool) :
    Expr.lowerOr e ctx.bare terminal = Expr.lowerOr e ctx terminal := by
  cases e with
  | none => rfl
  | some e => exact e.lower_bare ctx terminal
termination_by structural e

theorem Expr.lowerAll_bare (items : List Expr) (ctx : Context) :
    Expr.lowerAll items ctx.bare = Expr.lowerAll items ctx := by
  cases items with
  | nil => rfl
  | cons e rest => simp only [Expr.lowerAll, e.lower_bare ctx, Expr.lowerAll_bare rest ctx]
termination_by structural items

theorem Expr.lowerTests_bare (values : List Expr) (ctx : Context) (x : String) (l : Label) :
    Expr.lowerTests values ctx.bare x l = Expr.lowerTests values ctx x l := by
  cases values with
  | nil => rfl
  | cons e rest => simp only [Expr.lowerTests, e.lower_bare ctx, Expr.lowerTests_bare rest ctx]
termination_by structural values

theorem Arg.lower_bare (args : List Arg) (ctx : Context) (call : String) (line : Nat)
    (names : List String) :
    Arg.lower args ctx.bare call line names = Arg.lower args ctx call line names := by
  cases args with
  | nil => rfl
  | cons a rest =>
    cases a with
    | positional e | spread e | named x e =>
      simp only [Arg.lower, e.lower_bare ctx, Arg.lower_bare rest ctx]
termination_by structural args

theorem Entry.lower_bare (entries : List Entry) (ctx : Context) :
    Entry.lower entries ctx.bare = Entry.lower entries ctx := by
  cases entries with
  | nil => rfl
  | cons entry rest =>
    cases entry with
    | named x v => simp only [Entry.lower, v.lower_bare ctx, Entry.lower_bare rest ctx]
    | computed k v =>
      simp only [Entry.lower, k.lower_bare ctx, v.lower_bare ctx, Entry.lower_bare rest ctx]
termination_by structural entries

theorem Arm.lowerTests_bare (arms : List Arm) (ctx : Context) (x : String) (first : Label) :
    Arm.lowerTests arms ctx.bare x first = Arm.lowerTests arms ctx x first := by
  cases arms with
  | nil => rfl
  | cons arm rest =>
    cases arm with
    | mk values result =>
      simp only [Arm.lowerTests, Expr.lowerTests_bare values ctx, Arm.lowerTests_bare rest ctx]
termination_by structural arms

theorem Arm.lowerResults_bare (arms : List Arm) (ctx : Context) (terminal : Bool)
    (first done : Label) :
    Arm.lowerResults arms ctx.bare terminal first done
      = Arm.lowerResults arms ctx terminal first done := by
  cases arms with
  | nil => rfl
  | cons arm rest =>
    cases arm with
    | mk values result =>
      simp only [Arm.lowerResults, result.lower_bare ctx, Arm.lowerResults_bare rest ctx]
termination_by structural arms

end

/-- An expression is orderly in every context. -/
theorem Expr.inOrder_lower (e : Expr) (ctx : Context) (terminal : Bool) (n : Nat)
    (N : List String) : InOrder ctx.config.lineMarkers n (e.lower ctx terminal) [] N N := by
  rw [← e.lower_bare]
  exact steady_lower.1 e ctx.bare terminal n N (.start rfl rfl)

/-! ### States on the way -/

/-- Running a script comes through a state of the assembly, between two steps of this unit or of one
inside it. -/
inductive Step.Visits : Script → Assembler → Assembler → Prop where
  | here {xs : Script} {a : Assembler} : Visits xs a a
  | later {x : Step} {xs : Script} {a b c : Assembler} (h : Step.run x a = .ok () b)
      (hv : Visits xs b c) : Visits (x :: xs) a c
  | inside {op : Opcode} {kind : ScopeKind} {signature : Signature} {body xs : Script}
      {a b c : Assembler} {s : Scope} {n : Nat}
      (he : Assembler.enterScope kind signature a = .ok n b)
      (hd : declareAll signature.params b.current = .ok () s)
      (hv : Visits body { b with current := s } c) :
      Visits (.unit op kind signature body :: xs) a c

/-- The compilation of some program comes through the state. -/
def Assembler.Reachable (a : Assembler) : Prop :=
  ∃ config program, Step.Visits (Program.script config program) (.start config) a

theorem Step.visits_of_take {xs : Script} {n : Nat} {a b : Assembler}
    (h : Step.runAll (xs.take n) a = .ok () b) : Step.Visits xs a b := by
  induction xs generalizing n a with
  | nil =>
    rw [List.take_nil] at h
    obtain ⟨-, rfl⟩ := Edit.pure_eq_ok.mp h
    exact .here
  | cons x xs ih =>
    cases n with
    | zero =>
      obtain ⟨-, rfl⟩ := Edit.pure_eq_ok.mp h
      exact .here
    | succ n =>
      obtain ⟨c, hc, h⟩ := Step.runAll_cons_eq_ok.mp h
      exact .later hc (ih h)

/-- The states on the way of an orderly script are tidy. -/
theorem Orderly.of_visits {markers : Bool} {xs ys : Script} {L L' : Ledger} {a c : Assembler}
    (hv : Step.Visits ys a c) (hcut : Script.cut xs = ys) (h : Orderly markers xs L L')
    (ha : a.Tidy L) (hm : a.config.lineMarkers = markers) : ∃ K, c.Tidy K := by
  induction hv generalizing xs L L' with
  | here => exact ⟨L, ha⟩
  | later hx _ ih =>
    obtain ⟨x, zs, rfl, rfl, rfl⟩ := Script.exists_of_cut_eq_cons hcut
    obtain ⟨-, K, hrest, hc, hmc⟩ := h.uncons ha hm hx
    exact ih rfl hrest hc hmc
  | inside he hd _ ih =>
    obtain ⟨x, zs, rfl, hx, -⟩ := Script.exists_of_cut_eq_cons hcut
    obtain ⟨inner, rfl, rfl⟩ := Step.eq_of_cut_eq_unit hx
    obtain ⟨K, hbody⟩ := h.inner
    obtain ⟨hs, -, hconf⟩ := ha.entered he hd
    exact ih rfl hbody hs (by rw [hconf]; exact hm)

theorem Assembler.Reachable.tidy {a : Assembler} (h : a.Reachable) : ∃ L, a.Tidy L := by
  obtain ⟨config, program, hv⟩ := h
  obtain ⟨L, ho, -⟩ := Program.orderly config program
  exact ho.of_visits hv rfl (Assembler.tidy_start config) rfl

/-- The labels from `n` on and before `m` have different numbers, which have become those of labels that
are set. -/
structure Scope.Places (s t : Scope) (n m : Nat) : Prop where
  injective : ∀ k l, n ≤ k → k < m → n ≤ l → l < m → Label.ofCount k = Label.ofCount l → k = l
  unset : ∀ l, n ≤ l → l < m → s.labels.position? (Label.ofCount l) = none
  set : ∀ l, n ≤ l → l < m → (t.labels.position? (Label.ofCount l)).isSome = true

/-- An expression that is compiled in a tidy state has a complete draft, and sets all labels that it
draws. None of them has the number of another one or of a label that was set before, for a label is set
once. -/
theorem Expr.placed_of_runAll {e : Expr} {ctx : Context} {terminal : Bool} {hidden : Nat}
    {a b : Assembler} {L : Ledger} (ha : a.Tidy L) (hctx : ctx.config = a.config)
    (hr : Step.runAll ((e.lower ctx terminal).scriptFrom ⟨a.current.labels.marks.size, hidden⟩) a
      = .ok () b) :
    ∃ s₁, (e.lower ctx terminal).rest? ⟨a.current.labels.marks.size, hidden⟩ = some s₁
      ∧ a.current.Places b.current a.current.labels.marks.size s₁.labels := by
  have hmarkers : a.config.lineMarkers = ctx.config.lineMarkers := by rw [hctx]
  have hadmits : L.Admits ⟨a.current.labels.marks.size, hidden⟩ 0 [] [] := by
    refine ⟨ha.current.marks.symm, Nat.zero_le _, fun l hl => absurd hl List.not_mem_nil,
      List.nodup_nil, fun l hl => ?_, List.nil_subset _⟩
    show l < a.current.labels.marks.size
    rw [ha.current.marks]
    exact ha.current.known l hl
  have horder := e.inOrder_lower ctx terminal 0 [] _ L hadmits
  cases hrest : (e.lower ctx terminal).rest? ⟨a.current.labels.marks.size, hidden⟩ with
  | none =>
    simp only [hrest] at horder
    exact absurd hr (Safe.ne_ok (fun K => (horder K).safe False.elim) ha hmarkers)
  | some s₁ =>
    simp only [hrest] at horder
    obtain ⟨L', ho, hleaves⟩ := horder
    obtain ⟨hb, -, -⟩ := (ho.safe False.elim a ha hmarkers).2 b hr
    have hdrawn : ∀ l, a.current.labels.marks.size ≤ l → l < s₁.labels → l ∈ L'.placed :=
      fun l hle hlt => (hleaves.placed l).mpr (.inr (.inr ⟨hle, hlt⟩))
    refine ⟨s₁, rfl, ?_, ?_, ?_⟩
    · intro k l hk hks hl hls heq
      exact List.inj_on_of_nodup_map hb.current.distinct (hdrawn k hk hks) (hdrawn l hl hls) heq
    · intro l hle hlt
      refine Option.eq_none_iff_forall_ne_some.mpr fun q hq => ?_
      obtain ⟨k, hk, heq⟩ := List.mem_map.mp ((ha.current.placed _).mp (by rw [hq]; rfl))
      -- the label would have been drawn before
      have hkl : k = l := List.inj_on_of_nodup_map hb.current.distinct
        ((hleaves.placed k).mpr (.inl hk)) (hdrawn l hle hlt) heq
      have hold := ha.current.known k hk
      rw [← ha.current.marks, hkl] at hold
      exact Nat.not_le.mpr hold hle
    · intro l hle hlt
      exact (hb.current.placed _).mpr (List.mem_map.mpr ⟨l, hdrawn l hle hlt, rfl⟩)

/-! ### Paths through the end of a unit -/

/-- Some path that starts at position `first` with `depth` values on the stack reaches a position
with the given number of values. It ends where it comes to the end of the code, or goes back behind
its start. -/
inductive Scope.PathFrom (s : Scope) (first depth : Nat) : Nat → Nat → Prop where
  | start : PathFrom s first depth first depth
  | next {p d : Nat} {i : Instruction} {op : Opcode} (h : PathFrom s first depth p d)
      (hp : first ≤ p) (hi : s.code[p]? = some i) (hop : i.opcode? = some op)
      (hf : op.falls = true) :
      PathFrom s first depth (p + 1) (d - (effectOf op i).pops + (effectOf op i).pushes)
  | jump {p q d : Nat} {i : Instruction} {op : Opcode} {l : Label}
      (h : PathFrom s first depth p d) (hp : first ≤ p) (hi : s.code[p]? = some i)
      (hop : i.opcode? = some op) (hu : s.labels.Uses l ⟨p, op⟩)
      (hq : s.labels.position? l = some q) : PathFrom s first depth q (op.landing d)

/-- The code of a unit from position `first` on, before which the height in the order of emission was
`depth`, has one entry and one exit, and leaves one value. -/
structure Scope.LeavesOne (s : Scope) (first depth : Nat) : Prop where
  /-- Every jump belongs to a label. -/
  labelled : ∀ p i op, first ≤ p → s.code[p]? = some i → i.opcode? = some op → op.isJump = true →
    ∃ l, s.labels.Uses l ⟨p, op⟩
  /-- The labels are set in this code or at its end. -/
  inside : ∀ l u, s.labels.Uses l u → first ≤ u.position →
    ∃ q, s.labels.position? l = some q ∧ first ≤ q ∧ q ≤ s.code.size
  /-- No instruction takes what was on the stack at the entry. -/
  enough : ∀ D p d i e, s.PathFrom first D p d → s.code[p]? = some i → i.effect? = some e →
    D + e.pops ≤ d
  /-- A path that goes out does so at the end, with one value more. -/
  leaves : ∀ D p d, s.PathFrom first D p d →
    first ≤ p ∧ p < s.code.size ∨ p = s.code.size ∧ d = D + 1
  /-- The height has risen at most as much as it has in the order of emission. -/
  drift : ∀ D p d, s.PathFrom first D p d →
    (d : Int) - D ≤ heightAfter depth ((s.code.toList.take p).drop first) - (depth : Int)

/-- The height at a target does not depend on what is below. -/
theorem Opcode.landing_add {op : Opcode} {i : Instruction} {h : Nat}
    (hp : (effectOf op i).pops ≤ h) (D : Nat) : op.landing (D + h) = D + op.landing h := by
  cases op <;> simp only [landing, effectOf] at hp ⊢ <;> omega

section Profile

variable {heights : Label → Option Nat} {start s : Scope} {height : Nat → Nat} {D p d : Nat}

/-- A path stays in the code and has the heights of the profile. -/
theorem Scope.Profile.path (hs : Scope.Profile heights start s height)
    (hp : s.PathFrom start.code.size D p d) :
    start.code.size ≤ p ∧ p ≤ s.code.size ∧ d = D + height p := by
  induction hp with
  | start => exact ⟨Nat.le_refl _, hs.size_le, by rw [hs.first, Nat.add_zero]⟩
  | @next p d i op _ hp hi hop hf ih =>
    obtain ⟨-, -, rfl⟩ := ih
    obtain ⟨o, ho, hpops, hfalls, -⟩ := hs.steps p i hp hi
    obtain rfl := Option.some.inj (hop.symm.trans ho)
    have hlt := (Array.getElem?_eq_some_iff.mp hi).1
    refine ⟨Nat.le_succ_of_le hp, hlt, ?_⟩
    rw [hfalls hf]
    omega
  | @jump p q d i op l _ hp hi hop hu hq ih =>
    obtain ⟨-, -, rfl⟩ := ih
    obtain ⟨o, ho, hpops, -, -⟩ := hs.steps p i hp hi
    obtain rfl := Option.some.inj (hop.symm.trans ho)
    have hl := (hs.uses l _ hu).2 hp
    obtain ⟨hge, hle, hheight⟩ := hs.placed l q _ hl hq
    exact ⟨hge, hle, by rw [hheight, Opcode.landing_add hpops]⟩

/-- Code whose profile leads to height one, and whose labels are set, leaves one value. -/
theorem Scope.Profile.leavesOne (hs : Scope.Profile heights start s height)
    (hone : height s.code.size = 1)
    (hset : ∀ l h, heights l = some h → (s.labels.position? l).isSome = true) :
    s.LeavesOne start.code.size start.depth := by
  refine ⟨?_, ?_, ?_, ?_, ?_⟩
  · intro p i op hp hi hop hj
    obtain ⟨o, ho, -, -, hjump⟩ := hs.steps p i hp hi
    obtain rfl := Option.some.inj (hop.symm.trans ho)
    exact hjump hj
  · intro l u hu hp
    have hl := (hs.uses l u hu).2 hp
    obtain ⟨q, hq⟩ := Option.isSome_iff_exists.mp (hset l _ hl)
    obtain ⟨hge, hle, -⟩ := hs.placed l q _ hl hq
    exact ⟨q, hq, hge, hle⟩
  · intro D p d i e hpath hi he
    obtain ⟨hp, -, rfl⟩ := hs.path hpath
    obtain ⟨op, hop, hpops, -, -⟩ := hs.steps p i hp hi
    obtain ⟨o, ho, rfl⟩ := Option.map_eq_some_iff.mp he
    obtain rfl := Option.some.inj (hop.symm.trans ho)
    exact Nat.add_le_add_left hpops D
  · intro D p d hpath
    obtain ⟨hp, hle, rfl⟩ := hs.path hpath
    rcases Nat.lt_or_eq_of_le hle with hlt | rfl
    · exact .inl ⟨hp, hlt⟩
    · exact .inr ⟨rfl, by rw [hone]⟩
  · intro D p d hpath
    obtain ⟨hp, hle, rfl⟩ := hs.path hpath
    have := hs.drift p hp hle
    omega

end Profile

/-! ### Expressions -/

/-- The heights at the labels that are drawn behind `n` others, by their numbers in 32 bits. -/
def heightsFrom (n : Nat) (own : List Nat) (l : Label) : Option Nat :=
  if l < UInt32.size then own[(l + (UInt32.size - n % UInt32.size)) % UInt32.size]? else none

theorem heightsFrom_ofCount {n i : Nat} (own : List Nat) (hi : i < UInt32.size) :
    heightsFrom n own (Label.ofCount (n + i)) = own[i]? := by
  have hindex : ((n + i) % UInt32.size + (UInt32.size - n % UInt32.size)) % UInt32.size = i := by
    unfold UInt32.size at hi ⊢
    omega
  have hword : Label.ofCount (n + i) < UInt32.size := Nat.mod_lt _ (by decide)
  rw [heightsFrom, if_pos hword, Label.ofCount, hindex]

theorem add_back_mod {n k : Nat} (hk : k < UInt32.size) :
    (n + (k + (UInt32.size - n % UInt32.size)) % UInt32.size) % UInt32.size = k := by
  unfold UInt32.size at hk ⊢
  omega

theorem label_of_heightsFrom {n : Nat} {own : List Nat} {l : Label} {h : Nat}
    (hl : heightsFrom n own l = some h) :
    ∃ k, n ≤ k ∧ k < n + own.length ∧ Label.ofCount k = l := by
  unfold heightsFrom at hl
  split at hl
  · next hword =>
    have hlt := (List.getElem?_eq_some_iff.mp hl).1
    exact ⟨_, Nat.le_add_right _ _, Nat.add_lt_add_left hlt n, add_back_mod hword⟩
  · cases hl

/-- There are no more labels with different numbers than there are numbers. -/
theorem Scope.Places.le {s t : Scope} {n m : Nat} (h : s.Places t n m) : m ≤ n + UInt32.size := by
  refine Nat.not_lt.mp fun hlt => ?_
  have hsame : Label.ofCount n = Label.ofCount (n + UInt32.size) := (Nat.add_mod_right n UInt32.size).symm
  have hpos : 0 < UInt32.size := by decide
  have heq := h.injective n (n + UInt32.size) (Nat.le_refl n) (by omega) (by omega) hlt hsame
  omega

/-- An expression that is compiled in a tidy state climbs by one from there, with heights at the
labels that it draws and at no others. -/
theorem Expr.climbs_of_runAll {e : Expr} {ctx : Context} {terminal : Bool} {hidden : Nat}
    {a b : Assembler} {L : Ledger} (ha : a.Tidy L) (hctx : ctx.config = a.config)
    (hr : Step.runAll ((e.lower ctx terminal).scriptFrom ⟨a.current.labels.marks.size, hidden⟩) a
      = .ok () b) :
    ∃ heights, Script.Climbs heights
        ((e.lower ctx terminal).scriptFrom ⟨a.current.labels.marks.size, hidden⟩) 0 1
      ∧ Scope.Climbed heights a.current a.current 0
      ∧ ∀ l h, heights l = some h → (b.current.labels.position? l).isSome = true := by
  obtain ⟨s₁, hrest, hplaces⟩ := Expr.placed_of_runAll ha hctx hr
  obtain ⟨own, hown, hclimbs⟩ := e.adds_lower ctx terminal (fun _ => True) 0 _ s₁ hrest
  have hlen : own.length ≤ UInt32.size := by
    have hle := hplaces.le
    rw [hown] at hle
    exact Nat.add_le_add_iff_left.mp hle
  refine ⟨heightsFrom a.current.labels.marks.size own, .cut (hclimbs _ trivial ?_),
    ⟨_, .refl ?_ ?_, rfl⟩, ?_⟩
  · intro i t hi
    have hlt := (List.getElem?_eq_some_iff.mp hi).1
    exact (heightsFrom_ofCount own (Nat.lt_of_lt_of_le hlt hlen)).trans hi
  · intro l u hu
    exact (Array.getElem?_eq_some_iff.mp (ha.current.uses l u hu).1).1
  · intro l h hl
    obtain ⟨k, hle, hlt, rfl⟩ := label_of_heightsFrom hl
    exact hplaces.unset k hle (hown ▸ hlt)
  · intro l h hl
    obtain ⟨k, hle, hlt, rfl⟩ := label_of_heightsFrom hl
    exact hplaces.set k hle (hown ▸ hlt)

namespace Step

mutual

/-- The largest number that a step, or a step in a unit inside it, counts with. -/
def largestCount : Step → Nat
  | count _ n => n
  | pair _ m n => max m n
  | unit _ _ _ body => largestCountOf body
  | _ => 0

/-- The largest number that the steps of a script count with. -/
def largestCountOf : List Step → Nat
  | [] => 0
  | x :: xs => max x.largestCount (largestCountOf xs)

end

end Step

/-- In every state that the compilation of a program can come through, and in every context, the code
of an expression that is compiled there stands behind the code that is there already. Its jumps stay
inside it. On every path from its first instruction, whatever the number `D` of values on the stack,
no instruction takes a value from below, and the path goes out only at the end, with `D + 1` values.
On the way the height above `D` is at most what was added in the order of emission, which is the
height that the assembly has on record after each step.

The lists of the expression have fewer than 2^32 entries: a longer one is refused here, where counts are
lengths, but a compiler that counts in 32 bits writes the rest of the division by 2^32, and the code of
the expression then leaves more than one value. -/
theorem Expr.leavesOne_of_runAll {a b : Assembler} (ha : a.Reachable) (e : Expr) (ctx : Context)
    (hctx : ctx.config = a.config) (terminal : Bool) (hidden : Nat)
    (_hcounts : Step.largestCountOf
      ((e.lower ctx terminal).scriptFrom ⟨a.current.labels.marks.size, hidden⟩) < UInt32.size)
    (hr : Step.runAll ((e.lower ctx terminal).scriptFrom ⟨a.current.labels.marks.size, hidden⟩) a
      = .ok () b) :
    a.current.code.toList <+: b.current.code.toList
      ∧ b.current.LeavesOne a.current.code.size a.current.depth
      ∧ ∀ xs ys c, (e.lower ctx terminal).scriptFrom ⟨a.current.labels.marks.size, hidden⟩ = xs ++ ys →
        Step.runAll xs a = .ok () c →
        c.current.depth = heightAfter a.current.depth
          ((b.current.code.toList.take c.current.code.size).drop a.current.code.size) := by
  obtain ⟨L, htidy⟩ := ha.tidy
  obtain ⟨heights, hclimbs, hstart, hset⟩ := Expr.climbs_of_runAll htidy hctx hr
  have hrun := hclimbs.run hr
  obtain ⟨height, hprofile, hone⟩ := hrun.climbed _ hstart
  refine ⟨hrun.initial, hprofile.leavesOne hone hset, ?_⟩
  intro xs ys c hsplit hc
  rw [hsplit] at hclimbs hr
  obtain ⟨m, hxs, hys⟩ := hclimbs.split
  rw [Step.runAll_append] at hr
  obtain ⟨_, c', hc', hrest⟩ := Edit.bind_eq_ok.mp hr
  obtain ⟨-, rfl⟩ := EStateM.Result.ok.inj (hc.symm.trans hc')
  -- what is written up to here is the first part of the whole
  obtain ⟨height', hpart, -⟩ := (hxs.run hc).climbed _ hstart
  have hinitial := (hys.run hrest).initial
  rw [List.prefix_iff_eq_take, Array.length_toList] at hinitial
  rw [← hinitial]
  exact hpart.depth

theorem Edit.exists_of_run' {σ α : Type} {x : Edit σ α} {s : σ} {a : α}
    (h : EStateM.run' x s = some a) : ∃ t, x s = .ok a t := by
  delta EStateM.run' at h
  cases hx : EStateM.run x s with
  | ok b t =>
    rw [hx] at h
    exact ⟨t, Option.some.inj h ▸ hx⟩
  | error e t =>
    rw [hx] at h
    cases h

/-- An expression that branches in four ways, one of which is a tail call:

      x && this ? case x when nil, true then f(x) end : [x, fn () { }] -/
def branchingCall : Expr :=
  .conditional (.logical .and (.name "x") .this)
    (.case (.name "x")
      [.mk [.literal .nil, .literal (.bool true)] (.call 1 (.name "f") [.positional (.name "x")])]
      none)
    (.array [.name "x", .function 1 (.mk [] false false [])])

/-- The context of a function `f`. -/
def insideF : Context := { config := {}, kind := .function, self := some "f" }

/-- A program that declares a variable: `var x = true;` -/
def boundX : List Stmt := [.mk 1 (.var "x" (some (.literal (.bool true))))]

theorem Expr.leavesOne_branchingCall :
    ∃ a b, Step.runAll ((Program.script {} boundX).take 4) (.start {}) = .ok () a
      ∧ Step.largestCountOf
        ((branchingCall.lower insideF true).scriptFrom ⟨a.current.labels.marks.size, 0⟩) < UInt32.size
      ∧ Step.runAll ((branchingCall.lower insideF true).scriptFrom ⟨a.current.labels.marks.size, 0⟩) a
        = .ok () b
      ∧ b.current.LeavesOne a.current.code.size a.current.depth := by
  have hok : EStateM.run' (do
      Step.runAll ((Program.script {} boundX).take 4)
      let a ← get
      Step.runAll ((branchingCall.lower insideF true).scriptFrom ⟨a.current.labels.marks.size, 0⟩)
      return a.current.labels.marks.size : Edit Assembler Nat) (.start {}) = some 0 := by
    decide +kernel
  obtain ⟨c, hc⟩ := Edit.exists_of_run' hok
  obtain ⟨⟨⟩, a, ha, hc⟩ := Edit.bind_eq_ok.mp hc
  obtain ⟨a', a'', hget, hc⟩ := Edit.bind_eq_ok.mp hc
  obtain ⟨h₁, h₂⟩ := Edit.get_eq_ok.mp hget
  rw [h₁, h₂] at hc
  obtain ⟨⟨⟩, b, hb, hc⟩ := Edit.bind_eq_ok.mp hc
  have hnone := (Edit.pure_eq_ok.mp hc).1
  have hreachable : a.Reachable := ⟨{}, boundX, Step.visits_of_take ha⟩
  have hconfig : insideF.config = a.config := (Step.frame_of_runAll _ ha).2.symm
  have hcounts : Step.largestCountOf
      ((branchingCall.lower insideF true).scriptFrom ⟨a.current.labels.marks.size, 0⟩) < UInt32.size := by
    rw [hnone]
    decide +kernel
  exact ⟨a, b, ha, hcounts, hb,
    (leavesOne_of_runAll hreachable branchingCall insideF hconfig true 0 hcounts hb).2.1⟩

end StackCode
