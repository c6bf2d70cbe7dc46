import Mathlib.Data.List.Nodup
import StackCode.Proofs.Failures
import StackCode.Proofs.Tracking

/-!
# Orderly scripts

The assembler relies on being driven in a certain order: a label is made before it is used and is set
once, a block that is left was entered, a slot is asked for only where its variable lives, and a unit
ends with all its labels set and all its blocks left. Whether a script keeps to that order can be read
off the script, with a *ledger* of what it has done so far in the unit.

* `Ledger`, `Ledger.declared`, `Ledger.entry`, `Ledger.Settled`;
* `Orderly`: a script leads from one ledger to another;
* `Scope.Tidy`, `Assembler.Tidy`: the state of the assembly is what the ledger says, and every
  descriptor of an outer variable refers to a scope that is there;
* `Script.Narrow`: no unit makes more labels than there are numbers of 32 bits;
* `Orderly.safe`: an orderly script raises no fault as long as there are few enough labels, and leaves the
  assembly as its ledger says;
* `Orderly.cut_eq`: an orderly script that succeeds had few enough labels.

A step that cannot succeed ends all obligations: behind it a script is orderly whatever it holds, and
leads to any ledger.
-/

namespace StackCode

/-! ### Ledgers -/

/-- What a script has done so far in one unit. -/
structure Ledger where
  /-- How many labels were made. -/
  made : Nat := 0
  /-- The labels that are set. -/
  placed : List Label := []
  /-- The living variables, in the order of their slots. -/
  names : List String := []
  /-- The number of variables at the start of each open block, the innermost first. -/
  blocks : List Nat := []

namespace Ledger

/-- The ledger after a variable was declared. -/
def declared (L : Ledger) (x : String) : Ledger :=
  if x ∈ L.names then L else { L with names := L.names ++ [x] }

/-- The ledger at the start of a unit with the given parameters. -/
def entry (params : List String) : Ledger := params.foldl declared {}

/-- A unit may end here: no block is open and every label is set. -/
structure Settled (L : Ledger) : Prop where
  blocks : L.blocks = []
  placed : ∀ l < L.made, l ∈ L.placed

variable (L : Ledger) (x : String)

theorem made_declared : (L.declared x).made = L.made := by
  unfold declared
  split <;> rfl

theorem placed_declared : (L.declared x).placed = L.placed := by
  unfold declared
  split <;> rfl

theorem blocks_declared : (L.declared x).blocks = L.blocks := by
  unfold declared
  split <;> rfl

/-- Variables that live go on living, in their slots. -/
theorem names_initial_declared : L.names <+: (L.declared x).names := by
  unfold declared
  split
  · exact List.prefix_refl _
  · exact List.prefix_append _ _

theorem mem_names_declared : x ∈ (L.declared x).names := by
  unfold declared
  split
  · next h => exact h
  · exact List.mem_append_right _ List.mem_cons_self

variable {L} in
theorem foldl_declared (params : List String) :
    (params.foldl declared L).made = L.made ∧ (params.foldl declared L).placed = L.placed
      ∧ (params.foldl declared L).blocks = L.blocks
      ∧ L.names <+: (params.foldl declared L).names := by
  induction params generalizing L with
  | nil => exact ⟨rfl, rfl, rfl, List.prefix_refl _⟩
  | cons y params ih =>
    obtain ⟨hm, hp, hb, hn⟩ := @ih (L.declared y)
    rw [List.foldl_cons, hm, hp, hb]
    exact ⟨made_declared L y, placed_declared L y, blocks_declared L y,
      (names_initial_declared L y).trans hn⟩

/-- The parameters of a unit live at its start. -/
theorem mem_names_foldl {params : List String} (hx : x ∈ params) :
    x ∈ (params.foldl declared L).names := by
  induction params generalizing L with
  | nil => cases hx
  | cons y params ih =>
    rcases List.mem_cons.mp hx with rfl | hx
    · exact (foldl_declared params).2.2.2.subset (mem_names_declared L x)
    · exact ih (L.declared y) hx

end Ledger

/-! ### The order of steps -/

/-- Whether an operation only takes part in the instantiation before it. -/
def Opcode.isCapture : Opcode → Bool
  | captureLocal | captureOuter => true
  | _ => false

/-- Whether an operation stands for itself: it needs no label, and no instantiation before it. -/
def Opcode.isProper (op : Opcode) : Bool := !op.isCapture && !op.isJump

namespace Step

/-- A step that the ledger has nothing to say about. -/
def isPlain : Step → Bool
  | op o | count o _ | pair o _ _ | named o _ => o.isProper
  | markLine _ | receive | discard | loadConst _ | loadName _ | storeName _ | protect => true
  | _ => false

/-- A step that cannot succeed, whatever the state; `markers` tells whether lines are marked. -/
inductive Stuck (markers : Bool) : Step → Prop where
  | fail {line : Nat} {cause : Misuse} : Stuck markers (.fail (.misuse line cause))
  | markLine {line : Nat} (hm : markers = true) (hl : Instruction.maxUnsigned < line) :
      Stuck markers (.markLine line)
  | pair {op : Opcode} {a b : Nat} (h : Instruction.maxPair < a ∨ Instruction.maxPair < b) :
      Stuck markers (.pair op a b)

/-- A step behind which the machine never goes on to the next instruction of the unit. -/
def IsExit (x : Step) : Prop := x = .op .ret ∨ ∃ n, x = .count .tailCall n

end Step

/-- The last step of a script leaves the unit. -/
def Script.Exits (xs : Script) : Prop := ∃ before x, xs = before ++ [x] ∧ x.IsExit

/-- A script leads from one ledger to another. -/
inductive Orderly (markers : Bool) : Script → Ledger → Ledger → Prop where
  | done {L : Ledger} : Orderly markers [] L L
  | stuck {x : Step} {xs : Script} {L L' : Ledger} (hx : x.Stuck markers) :
      Orderly markers (x :: xs) L L'
  | plain {x : Step} {xs : Script} {L L' : Ledger} (hx : x.isPlain = true)
      (h : Orderly markers xs L L') : Orderly markers (x :: xs) L L'
  | newLabel {xs : Script} {L L' : Ledger}
      (h : Orderly markers xs { L with made := L.made + 1 } L') :
      Orderly markers (.newLabel :: xs) L L'
  | jump {op : Opcode} {l : Label} {xs : Script} {L L' : Ledger} (hop : op.isJump = true)
      (hl : l < L.made) (h : Orderly markers xs L L') : Orderly markers (.jump op l :: xs) L L'
  | place {l : Label} {xs : Script} {L L' : Ledger} (hl : l < L.made) (hp : l ∉ L.placed)
      (h : Orderly markers xs { L with placed := l :: L.placed } L') :
      Orderly markers (.place l :: xs) L L'
  | declare {x : String} {xs : Script} {L L' : Ledger} (h : Orderly markers xs (L.declared x) L') :
      Orderly markers (.declare x :: xs) L L'
  | slot {op : Opcode} {x : String} {xs : Script} {L L' : Ledger} (hop : op.isProper = true)
      (hx : x ∈ L.names) (h : Orderly markers xs L L') : Orderly markers (.slot op x :: xs) L L'
  | enterBlock {xs : Script} {L L' : Ledger}
      (h : Orderly markers xs { L with blocks := L.names.length :: L.blocks } L') :
      Orderly markers (.enterBlock :: xs) L L'
  | leaveBlock {n : Nat} {blocks : List Nat} {xs : Script} {L L' : Ledger}
      (hb : L.blocks = n :: blocks)
      (h : Orderly markers xs { L with names := L.names.take n, blocks } L') :
      Orderly markers (.leaveBlock :: xs) L L'
  | unit {op : Opcode} {kind : ScopeKind} {signature : Signature} {body xs : Script}
      {L L' K : Ledger} (hop : op.isProper = true)
      (hb : Orderly markers body (.entry signature.params) K) (hK : K.Settled)
      (he : Script.Exits body) (h : Orderly markers xs L L') :
      Orderly markers (.unit op kind signature body :: xs) L L'
  | unitStuck {op : Opcode} {kind : ScopeKind} {signature : Signature} {body xs : Script}
      {L L' : Ledger} (hb : ∀ K, Orderly markers body (.entry signature.params) K) :
      Orderly markers (.unit op kind signature body :: xs) L L'

theorem Orderly.append {markers : Bool} {xs ys : Script} {L L' L'' : Ledger}
    (h : Orderly markers xs L L') (h' : Orderly markers ys L' L'') :
    Orderly markers (xs ++ ys) L L'' := by
  induction h with
  | done => exact h'
  | stuck hx => exact .stuck hx
  | plain hx _ ih => exact .plain hx (ih h')
  | newLabel _ ih => exact .newLabel (ih h')
  | jump hop hl _ ih => exact .jump hop hl (ih h')
  | place hl hp _ ih => exact .place hl hp (ih h')
  | declare _ ih => exact .declare (ih h')
  | slot hop hx _ ih => exact .slot hop hx (ih h')
  | enterBlock _ ih => exact .enterBlock (ih h')
  | leaveBlock hb _ ih => exact .leaveBlock hb (ih h')
  | unit hop hb hK he _ _ ih => exact .unit hop hb hK he (ih h')
  | unitStuck hb => exact .unitStuck hb

/-! ### Numbers of labels -/

/-- How many labels a step makes in its unit. -/
def Step.makes : Step → Nat
  | newLabel => 1
  | _ => 0

/-- How many labels a script makes in its unit. -/
def Script.makes : Script → Nat
  | [] => 0
  | x :: xs => x.makes + Script.makes xs

namespace Step

mutual

/-- The most labels that one unit inside a step makes. -/
def widest : Step → Nat
  | unit _ _ _ body => max (Script.makes body) (widestOf body)
  | _ => 0

/-- The most labels that one unit inside a script makes. -/
def widestOf : List Step → Nat
  | [] => 0
  | x :: xs => max x.widest (widestOf xs)

end

end Step

/-- No unit of a script, the script itself among them, makes more labels than there are numbers of 32
bits. -/
def Script.Narrow (xs : Script) : Prop :=
  Script.makes xs ≤ UInt32.size ∧ Step.widestOf xs ≤ UInt32.size

instance (xs : Script) : Decidable (Script.Narrow xs) := inferInstanceAs (Decidable (_ ∧ _))

theorem Script.makes_cons (x : Step) (xs : Script) :
    Script.makes (x :: xs) = x.makes + Script.makes xs := rfl

theorem Step.widestOf_append (xs ys : Script) :
    widestOf (xs ++ ys) = max (widestOf xs) (widestOf ys) := by
  induction xs with
  | nil => exact (Nat.zero_max _).symm
  | cons x xs ih => rw [List.cons_append, widestOf, widestOf, ih, Nat.max_assoc]

theorem Step.makes_cut (x : Step) : x.cut.makes = x.makes := by
  cases x <;> rfl

theorem Script.makes_cut (xs : Script) : Script.makes (Script.cut xs) = Script.makes xs := by
  induction xs with
  | nil => rfl
  | cons x xs ih => rw [Script.cut_cons, makes_cons, makes_cons, x.makes_cut, ih]

mutual

theorem Step.widest_cut (x : Step) : x.cut.widest = x.widest := by
  cases x with
  | unit op kind signature body =>
    rw [Step.cut_unit, Step.widest, Step.widest, Script.makes_cut, Step.widestOf_cut body]
  | _ => rfl
termination_by structural x

theorem Step.widestOf_cut (xs : List Step) : Step.widestOf (Script.cut xs) = Step.widestOf xs := by
  cases xs with
  | nil => rfl
  | cons x xs => rw [Script.cut_cons, Step.widestOf, Step.widestOf, x.widest_cut, Step.widestOf_cut xs]
termination_by structural xs

end

/-- Cutting the numbers of labels does not change how many there are. -/
theorem Script.narrow_cut {xs : Script} : Script.Narrow (Script.cut xs) ↔ Script.Narrow xs := by
  rw [Script.Narrow, Script.Narrow, Script.makes_cut, Step.widestOf_cut]

/-- Among the first labels of a unit no two have the same number. -/
theorem Label.ofCount_injective {k l : Nat} (hk : k < UInt32.size) (hl : l < UInt32.size)
    (h : Label.ofCount k = Label.ofCount l) : k = l := by
  rwa [Label.ofCount, Label.ofCount, Nat.mod_eq_of_lt hk, Nat.mod_eq_of_lt hl] at h

/-! ### Tidy states -/

/-- A scope, `around` scopes deep, is what the ledger says. The assembler keeps the numbers of labels in
32 bits, and no two of the labels that are set have the same. -/
structure Scope.Tidy (s : Scope) (L : Ledger) (around : Nat) : Prop where
  alive : s.ended = false
  marks : s.labels.marks.size = L.made
  known : ∀ l ∈ L.placed, l < L.made
  placed : ∀ l, (s.labels.position? l).isSome = true ↔ l ∈ L.placed.map Label.ofCount
  distinct : (L.placed.map Label.ofCount).Nodup
  names : s.locals.active = L.names
  blocks : s.blocks = L.blocks
  uses : ∀ l u, s.labels.Uses l u → s.code[u.position]? = some (.plain u.op) ∧ u.op.isJump = true
  line : ∀ k, s.lastLine = some k → k ≤ Instruction.maxUnsigned
  outers : ∀ o ∈ s.outers.descriptors, 1 ≤ o.up ∧ o.up ≤ around

/-- The current scope is what the ledger says, and those around it can still be written. -/
structure Assembler.Tidy (a : Assembler) (L : Ledger) : Prop where
  current : a.current.Tidy L a.enclosing.length
  around : ∀ s ∈ a.enclosing, s.ended = false

namespace Scope.Tidy

variable {s s' : Scope} {L : Ledger} {n : Nat}

/-- A new scope has an empty ledger. -/
theorem new {number : Nat} {kind : ScopeKind} {signature : Signature} {record : Bool} :
    (Scope.new number kind signature record).Tidy {} n := by
  refine ⟨rfl, rfl, fun l hl => absurd hl List.not_mem_nil, ?_, List.nodup_nil, rfl, rfl, ?_, ?_, ?_⟩
  · intro l
    simp [Scope.new, Labels.position?]
  · rintro l u ⟨m, hm, -⟩
    simp [Scope.new] at hm
  · intro k hk
    cases hk
  · intro o ho
    cases ho

/-- The ledger does not concern the constants, the height, the record of lifetimes and the
children. -/
theorem congr (h : s.Tidy L n) (hended : s'.ended = s.ended) (hlabels : s'.labels = s.labels)
    (hlocals : s'.locals = s.locals) (hblocks : s'.blocks = s.blocks) (hcode : s'.code = s.code)
    (hline : s'.lastLine = s.lastLine) (houters : s'.outers = s.outers) : s'.Tidy L n := by
  refine ⟨?_, ?_, h.known, ?_, h.distinct, ?_, ?_, ?_, ?_, ?_⟩
  · rw [hended]; exact h.alive
  · rw [hlabels]; exact h.marks
  · rw [hlabels]; exact h.placed
  · rw [hlocals]; exact h.names
  · rw [hblocks]; exact h.blocks
  · rw [hlabels, hcode]; exact h.uses
  · rw [hline]; exact h.line
  · rw [houters]; exact h.outers

/-- Placeholders stay where they are when the code gets longer. -/
theorem appended (h : s.Tidy L n) (i : Instruction) : (s.appended i).Tidy L n := by
  refine { h with uses := ?_ }
  intro l u hu
  obtain ⟨hcode, hjump⟩ := h.uses l u hu
  have hlt := (Array.getElem?_eq_some_iff.mp hcode).1
  refine ⟨?_, hjump⟩
  show (s.code.push i)[u.position]? = _
  rw [Array.getElem?_push_lt hlt, ← Array.getElem?_eq_getElem]
  exact hcode

theorem appendedAll (h : s.Tidy L n) (is : List Instruction) : (s.appendedAll is).Tidy L n := by
  induction is generalizing s with
  | nil => exact h
  | cons i is ih => exact ih (h.appended i)

/-- The duplication that is taken back and the store behind it are no placeholders. -/
theorem withoutSpareDup (h : s.Tidy L n) (hd : s.endsInSpareDup = true) :
    s.withoutSpareDup.Tidy L n := by
  obtain ⟨hn, ⟨i, op, hi, hop, hst⟩, ⟨j, hj, hdup⟩, -⟩ := Scope.endsInSpareDup_iff.mp hd
  refine { h with uses := ?_ }
  intro l u hu
  obtain ⟨hcode, hjump⟩ := h.uses l u hu
  refine ⟨?_, hjump⟩
  have hlt := (Array.getElem?_eq_some_iff.mp hcode).1
  have hopc := Instruction.opcode?_plain u.op
  have hne₁ : u.position ≠ s.code.size - 1 := by
    intro hp
    rw [hp] at hcode
    rw [Option.some.inj (hi.symm.trans hcode), hopc] at hop
    rw [Option.some.inj hop, (Instruction.effectOf_store hst i).2.2.1] at hjump
    cases hjump
  have hne₂ : u.position ≠ s.code.size - 2 := by
    intro hp
    rw [hp] at hcode
    rw [Option.some.inj (hj.symm.trans hcode), hopc] at hdup
    rw [Option.some.inj hdup] at hjump
    cases hjump
  rw [Scope.getElem?_withoutSpareDup hn, if_pos (by omega)]
  exact hcode

theorem newLabel (h : s.Tidy L n) :
    Scope.Tidy { s with labels := ⟨s.labels.marks.push {}⟩ } { L with made := L.made + 1 } n := by
  refine { h with marks := ?_, known := ?_, placed := ?_, uses := ?_ }
  · simp only [Array.size_push, h.marks]
  · exact fun l hl => Nat.lt_succ_of_lt (h.known l hl)
  · intro l
    simp only [Labels.position?_push]
    exact h.placed l
  · intro l u hu
    exact h.uses l u (Labels.uses_push.mp hu)

theorem jump {op : Opcode} {l : Label} (h : s.Tidy L n) (hop : op.isJump = true)
    (hl : l < s.labels.marks.size) :
    Scope.Tidy { s.appended (.plain op) with
      labels := ⟨s.labels.marks.modify l (·.used ⟨s.code.size, op⟩)⟩ } L n := by
  have ha := h.appended (.plain op)
  refine { ha with marks := ?_, placed := ?_, uses := ?_ }
  · simp only [Array.size_modify, h.marks]
  · intro k
    simp only [Labels.position?_used]
    exact h.placed k
  · intro k u hu
    rcases (Labels.uses_used hl).mp hu with hu | ⟨-, rfl⟩
    · exact ha.uses k u hu
    · exact ⟨Array.getElem?_push_size, hop⟩

theorem place {l : Nat} (h : s.Tidy L n) (hl : l < L.made)
    (hlt : Label.ofCount l < s.labels.marks.size)
    (hnew : s.labels.position? (Label.ofCount l) = none) :
    Scope.Tidy { s with labels :=
        ⟨s.labels.marks.modify (Label.ofCount l) (·.placed s.code.size)⟩ }
      { L with placed := l :: L.placed } n := by
  refine { h with marks := ?_, known := ?_, placed := ?_, distinct := ?_, uses := ?_ }
  · simp only [Array.size_modify, h.marks]
  · exact List.forall_mem_cons.mpr ⟨hl, h.known⟩
  · intro k
    simp only [Labels.position?_placed hlt, List.map_cons, List.mem_cons]
    by_cases hk : k = Label.ofCount l
    · simp [hk]
    · rw [if_neg hk, h.placed k]
      exact ⟨.inr, fun hm => hm.resolve_left hk⟩
  · refine List.nodup_cons.mpr ⟨fun hm => ?_, h.distinct⟩
    have hset := (h.placed _).mpr hm
    rw [hnew] at hset
    cases hset
  · intro k u hu
    exact h.uses k u (Labels.uses_placed.mp hu)

theorem declare {x : String} {slot : Nat} (h : s.Tidy L n)
    (hd : Scope.declare x s = .ok slot s') : s'.Tidy (L.declared x) n := by
  obtain ⟨fresh, locals, hl, rfl⟩ := Scope.declare_eq_ok.mp hd
  have hnames : locals.active = (L.declared x).names := by
    unfold Slots.declare at hl
    cases hx : s.locals.lookup? x with
    | some k =>
      simp only [hx, Except.ok.injEq, Prod.mk.injEq] at hl
      have hmem := List.mem_of_getElem? (Slots.getElem?_of_lookup? hx)
      rw [h.names] at hmem
      rw [← hl.2, h.names, Ledger.declared, if_pos hmem]
    | none =>
      simp only [hx] at hl
      split at hl
      · cases hl
      · simp only [Except.ok.injEq, Prod.mk.injEq] at hl
        have hmem := List.idxOf?_eq_none_iff.mp hx
        rw [h.names] at hmem
        rw [← hl.2, Ledger.declared, if_neg hmem, h.names]
  refine { h with
    marks := ?_, known := ?_, placed := ?_, distinct := ?_, names := hnames, blocks := ?_ }
  · rw [Ledger.made_declared]
    exact h.marks
  · rw [Ledger.made_declared, Ledger.placed_declared]
    exact h.known
  · rw [Ledger.placed_declared]
    exact h.placed
  · rw [Ledger.placed_declared]
    exact h.distinct
  · rw [Ledger.blocks_declared]
    exact h.blocks

theorem declareAll {params : List String} {x : Unit} (h : s.Tidy L n)
    (hd : StackCode.declareAll params s = .ok x s') :
    s'.Tidy (params.foldl Ledger.declared L) n := by
  induction params generalizing s L with
  | nil =>
    obtain ⟨-, rfl⟩ := Edit.pure_eq_ok.mp hd
    exact h
  | cons y params ih =>
    obtain ⟨slot, t, hy, hd⟩ := Edit.bind_eq_ok.mp hd
    exact ih (h.declare hy) hd

theorem markLine {line : Nat} {x : Unit} (h : s.Tidy L n)
    (hm : Scope.markLine line s = .ok x s') : s'.Tidy L n := by
  rcases Scope.markLine_eq_ok.mp hm with ⟨-, rfl⟩ | ⟨-, hn, -, rfl⟩
  · exact h
  · have ht : Scope.Tidy { s with lastLine := some line } L n := by
      refine { h with line := ?_ }
      intro k hk
      rw [← Option.some.inj hk]
      exact hn
    exact ht.appended _

theorem discard {x : Unit} (h : s.Tidy L n) (hd : Scope.discard s = .ok x s') : s'.Tidy L n := by
  rcases Scope.discard_eq_ok.mp hd with ⟨hspare, rfl⟩ | ⟨-, -, rfl⟩
  · exact h.withoutSpareDup hspare
  · exact h.appended _

/-- A unit that is settled has not made too many labels: two of them would have the same number. -/
theorem made_le (h : s.Tidy L n) (hL : L.Settled) : L.made ≤ UInt32.size := by
  refine Nat.not_lt.mp fun hlt => ?_
  have hfirst := hL.placed 0 (Nat.zero_lt_of_lt hlt)
  have hagain := hL.placed UInt32.size hlt
  exact absurd (List.inj_on_of_nodup_map h.distinct hfirst hagain rfl) (by decide)

end Scope.Tidy

/-! ### Steps without faults -/

/-- The error is no fault, unless some unit makes too many labels and one of them is found to be set
already. -/
def Error.Faultless (narrow : Prop) (e : Error) : Prop :=
  e.isFault = true → ¬ narrow ∧ ∃ l, e = .fault (.labelSetTwice l)

theorem overflows_faultless {narrow : Prop} : Overflows (Error.Faultless narrow) :=
  fun _ _ _ h => absurd h Bool.false_ne_true

/-- From every state that is what the first ledger says, the edit raises no fault, unless some unit makes
too many labels; if it succeeds, the state is what the second ledger says, in the same unit. -/
def Safe (narrow : Prop) (markers : Bool) (edit : Edit Assembler Unit) (L L' : Ledger) : Prop :=
  ∀ a, a.Tidy L → a.config.lineMarkers = markers → Edit.Raises (Error.Faultless narrow) edit a
    ∧ ∀ b, edit a = .ok () b → b.Tidy L' ∧ b.enclosing = a.enclosing ∧ b.config = a.config

namespace Safe

open Edit Assembler

variable {narrow : Prop} {markers : Bool} {L L' L'' : Ledger}

theorem bind {x y : Edit Assembler Unit} (hx : Safe narrow markers x L L')
    (hy : Safe narrow markers y L' L'') : Safe narrow markers (x >>= fun _ => y) L L'' := by
  intro a ha hm
  obtain ⟨hraise, hrun⟩ := hx a ha hm
  refine ⟨raises_bind hraise ?_, ?_⟩
  · intro u b hb
    obtain ⟨ht, -, hc⟩ := hrun b hb
    exact (hy b ht (by rw [hc]; exact hm)).1
  · intro c hc
    obtain ⟨u, b, hb, hc⟩ := bind_eq_ok.mp hc
    obtain ⟨ht, he, hconf⟩ := hrun b hb
    obtain ⟨ht', he', hconf'⟩ := (hy b ht (by rw [hconf]; exact hm)).2 c hc
    exact ⟨ht', he'.trans he, hconf'.trans hconf⟩

/-- An edit of the current scope alone. -/
theorem onCurrent (edit : Edit Scope Unit)
    (h : ∀ s n, s.Tidy L n → Raises (Error.Faultless narrow) edit s
      ∧ ∀ s', edit s = .ok () s' → s'.Tidy L' n) :
    Safe narrow markers (Assembler.onCurrent edit) L L' := by
  intro a ha hm
  obtain ⟨hraise, hrun⟩ := h a.current _ ha.current
  refine ⟨raises_onCurrent hraise, ?_⟩
  intro b hb
  obtain ⟨s, hs, rfl⟩ := onCurrent_eq_ok.mp hb
  exact ⟨⟨hrun s hs, ha.around⟩, rfl, rfl⟩

/-- An edit of the current scope whose answer is not needed. -/
theorem ignore {α : Type} {edit : Edit Scope α}
    (h : ∀ s n, s.Tidy L n → Raises (Error.Faultless narrow) edit s
      ∧ ∀ x s', edit s = .ok x s' → s'.Tidy L' n) :
    Safe narrow markers (Edit.ignore (Assembler.onCurrent edit)) L L' := by
  intro a ha hm
  obtain ⟨hraise, hrun⟩ := h a.current _ ha.current
  refine ⟨raises_ignore (raises_onCurrent hraise), ?_⟩
  intro b hb
  obtain ⟨x, hb⟩ := ignore_eq_ok.mp hb
  obtain ⟨s, hs, rfl⟩ := onCurrent_eq_ok.mp hb
  exact ⟨⟨hrun x s hs, ha.around⟩, rfl, rfl⟩

/-- An edit that could lead to any ledger never succeeds: a state has one number of labels. -/
theorem ne_ok {edit : Edit Assembler Unit} (h : ∀ K, Safe narrow markers edit L K) {a b : Assembler}
    (ha : a.Tidy L) (hm : a.config.lineMarkers = markers) : edit a ≠ .ok () b := by
  intro hb
  have hzero := ((h { made := 0 } a ha hm).2 b hb).1.current.marks
  have hone := ((h { made := 1 } a ha hm).2 b hb).1.current.marks
  exact absurd (hzero.symm.trans hone) Nat.zero_ne_one

/-- Nothing is asked of what follows an edit that never succeeds. -/
theorem stop {x y : Edit Assembler Unit} (hx : ∀ K, Safe narrow markers x L K) :
    Safe narrow markers (x >>= fun _ => y) L L' := by
  intro a ha hm
  refine ⟨raises_bind (hx L a ha hm).1 fun u b hb => absurd hb (ne_ok hx ha hm), fun c hc => ?_⟩
  obtain ⟨u, b, hb, -⟩ := bind_eq_ok.mp hc
  exact absurd hb (ne_ok hx ha hm)

end Safe

section Steps

open Edit Assembler Step

variable {narrow : Prop} {markers : Bool} {L L' : Ledger}

theorem Scope.Tidy.not_ended {s : Scope} {n : Nat} (h : s.Tidy L n) {P : Prop} :
    s.ended = true → P := by
  intro he
  rw [h.alive] at he
  cases he

/-- What is found is in one of the scopes around. -/
theorem Assembler.up_lt_of_findOuter {name : String} {up : Nat} {scopes : List Scope} {o : Outer}
    (h : findOuter name up scopes = .ok (some o)) : o.up < up + scopes.length := by
  induction scopes generalizing up with
  | nil => cases h
  | cons s rest ih =>
    rw [List.length_cons]
    unfold findOuter at h
    split at h
    · cases h
    · split at h
      · obtain rfl := Option.some.inj (Except.ok.inj h)
        show up < up + (rest.length + 1)
        omega
      · have := ih h
        omega

/-- Resolving a name may add a descriptor of a scope that is there. -/
theorem Assembler.Tidy.resolve {a b : Assembler} {name : String} {place : Place}
    (h : a.Tidy L) (hr : Assembler.resolve name a = .ok place b) :
    b.Tidy L ∧ b.enclosing = a.enclosing ∧ b.config = a.config := by
  rcases resolve_eq_ok.mp hr with ⟨-, -, -, rfl⟩ | ⟨-, o, index, outers, hf, hadd, -, rfl⟩ |
    ⟨-, -, -, constants, -, -, rfl⟩
  · exact ⟨h, rfl, rfl⟩
  · refine ⟨⟨{ h.current with outers := ?_ }, h.around⟩, rfl, rfl⟩
    have ho : 1 ≤ o.up ∧ o.up ≤ a.enclosing.length := 
      ⟨up_of_findOuter hf, by have := up_lt_of_findOuter hf; omega⟩
    rcases Outers.add_eq_ok hadd with rfl | ⟨-, hd⟩
    · exact h.current.outers
    · intro x hx
      rw [hd] at hx
      rcases List.mem_append.mp hx with hx | hx
      · exact h.current.outers x hx
      · rw [List.mem_singleton.mp hx]
        exact ho
  · exact ⟨⟨h.current.congr rfl rfl rfl rfl rfl rfl rfl, h.around⟩, rfl, rfl⟩

/-- A step that the ledger has nothing to say about leaves it as it is. -/
theorem Step.safe_plain {x : Step} (hx : x.isPlain = true) : Safe narrow markers (run x) L L := by
  cases x with
  | op o =>
    refine .ignore fun s n h => ⟨Scope.raises_emit h.not_ended, fun p s' hs => ?_⟩
    obtain ⟨-, -, rfl⟩ := Scope.emitOp_eq_ok.mp hs
    exact h.appended _
  | count o k =>
    refine .ignore fun s n h =>
      ⟨Scope.raises_emitUnsigned overflows_faultless h.not_ended, fun p s' hs => ?_⟩
    obtain ⟨-, -, -, rfl⟩ := Scope.emitUnsigned_eq_ok.mp hs
    exact h.appended _
  | pair o i j =>
    refine .ignore fun s n h =>
      ⟨Scope.raises_emitPair overflows_faultless h.not_ended, fun p s' hs => ?_⟩
    obtain ⟨-, -, -, rfl⟩ := Scope.emitPair_eq_ok.mp hs
    exact h.appended _
  | markLine line =>
    intro a ha hm
    refine ⟨Assembler.raises_markLine overflows_faultless ha.current.not_ended, fun b hb => ?_⟩
    rcases Assembler.markLine_eq_ok.mp hb with ⟨-, rfl⟩ | ⟨-, s, hs, rfl⟩
    · exact ⟨ha, rfl, rfl⟩
    · exact ⟨⟨ha.current.markLine hs, ha.around⟩, rfl, rfl⟩
  | receive =>
    refine .onCurrent Scope.receive fun s n h => ⟨raises_modify, fun s' hs => ?_⟩
    obtain rfl := Scope.receive_eq_ok.mp hs
    exact h.congr rfl rfl rfl rfl rfl rfl rfl
  | discard =>
    exact .onCurrent _ fun s n h => ⟨Scope.raises_discard h.not_ended, fun s' hs => h.discard hs⟩
  | loadConst v =>
    refine .onCurrent _ fun s n h =>
      ⟨Scope.raises_loadConst overflows_faultless h.not_ended, fun s' hs => ?_⟩
    obtain ⟨index, constants, -, -, -, rfl⟩ := Scope.loadConst_eq_ok.mp hs
    have hpool : Scope.Tidy { s with constants } L n := h.congr rfl rfl rfl rfl rfl rfl rfl
    exact hpool.appended _
  | named o name =>
    refine .onCurrent _ fun s n h =>
      ⟨Scope.raises_emitNamed overflows_faultless h.not_ended, fun s' hs => ?_⟩
    obtain ⟨index, constants, -, -, -, rfl⟩ := Scope.emitNamed_eq_ok.mp hs
    have hpool : Scope.Tidy { s with constants } L n := h.congr rfl rfl rfl rfl rfl rfl rfl
    exact hpool.appended _
  | loadName name =>
    intro a ha hm
    refine ⟨raises_loadName overflows_faultless ha.current.not_ended ?_, fun b hb => ?_⟩
    · intro s hs he
      exact absurd ((ha.around s hs).symm.trans he) Bool.false_ne_true
    · obtain ⟨place, c, hr, -, -, rfl⟩ := loadName_eq_ok.mp hb
      obtain ⟨hc, he, hconf⟩ := ha.resolve hr
      exact ⟨⟨hc.current.appended _, hc.around⟩, he, hconf⟩
  | storeName name =>
    intro a ha hm
    refine ⟨raises_storeName overflows_faultless ha.current.not_ended ?_, fun b hb => ?_⟩
    · intro s hs he
      exact absurd ((ha.around s hs).symm.trans he) Bool.false_ne_true
    · obtain ⟨place, c, hr, -, -, rfl⟩ := storeName_eq_ok.mp hb
      obtain ⟨hc, he, hconf⟩ := ha.resolve hr
      exact ⟨⟨hc.current.appended _, hc.around⟩, he, hconf⟩
  | protect =>
    refine .onCurrent Scope.protect fun s n h => ⟨raises_modify, fun s' hs => ?_⟩
    obtain rfl := Scope.protect_eq_ok.mp hs
    exact h.congr rfl rfl rfl rfl rfl rfl rfl
  | _ => exact absurd hx Bool.false_ne_true

theorem Step.safe_newLabel : Safe narrow markers (run .newLabel) L { L with made := L.made + 1 } := by
  refine .ignore fun s n h => ⟨Scope.raises_newLabel, fun l s' hs => ?_⟩
  obtain ⟨-, rfl⟩ := Scope.newLabel_eq_ok.mp hs
  exact h.newLabel

/-- A number in 32 bits is that of a label that was made. -/
theorem Scope.Tidy.ofCount_lt {s : Scope} {n l : Nat} (h : s.Tidy L n) (hl : l < L.made) :
    Label.ofCount l < s.labels.marks.size := by
  rw [h.marks]
  exact Nat.lt_of_le_of_lt (Nat.mod_le l _) hl

theorem Step.safe_jump {op : Opcode} {l : Nat} (hop : op.isJump = true) (hl : l < L.made) :
    Safe narrow markers (run (.jump op (Label.ofCount l))) L L := by
  refine .ignore fun s n h => ?_
  have hlt := h.ofCount_lt hl
  refine ⟨Scope.raises_emitJump h.not_ended fun hn => absurd hlt (Nat.not_lt.mpr hn), ?_⟩
  intro p s' hs
  obtain ⟨-, -, -, rfl⟩ := Scope.emitJump_eq_ok.mp hs
  exact h.jump hop hlt

/-- A label is set once. In a unit with too many labels it may be found to be set already, as another
label with the same number is. -/
theorem Step.safe_place {l : Nat} (hl : l < L.made) (hp : l ∉ L.placed)
    (hmade : narrow → L.made ≤ UInt32.size) :
    Safe narrow markers (run (.place (Label.ofCount l))) L { L with placed := l :: L.placed } := by
  refine .onCurrent _ fun s n h => ?_
  have hlt := h.ofCount_lt hl
  refine ⟨Scope.raises_placeLabel (fun hn => absurd hlt (Nat.not_lt.mpr hn)) ?_, ?_⟩
  · refine fun hs _ => ⟨fun hnarrow => ?_, _, rfl⟩
    obtain ⟨k, hk, heq⟩ := List.mem_map.mp ((h.placed _).mp hs)
    have hle := hmade hnarrow
    have hkl := Label.ofCount_injective (Nat.lt_of_lt_of_le (h.known k hk) hle)
      (Nat.lt_of_lt_of_le hl hle) heq
    exact absurd (hkl ▸ hk) hp
  · intro s' hs
    obtain ⟨-, hnew, rfl⟩ := Scope.placeLabel_eq_ok.mp hs
    exact h.place hl hlt hnew

theorem Step.safe_declare {x : String} : Safe narrow markers (run (.declare x)) L (L.declared x) :=
  .ignore fun _ _ h =>
    ⟨Scope.raises_declare overflows_faultless, fun _ _ hs => h.declare hs⟩

theorem Step.safe_slot {op : Opcode} {x : String} (hx : x ∈ L.names) :
    Safe narrow markers (run (.slot op x)) L L := by
  refine .onCurrent _ fun s n h => ⟨Scope.raises_emitSlot overflows_faultless h.not_ended ?_, ?_⟩
  · intro hn
    rw [← h.names] at hx
    exact absurd hx (List.idxOf?_eq_none_iff.mp hn)
  · intro s' hs
    obtain ⟨slot, -, -, -, rfl⟩ := Scope.emitSlot_eq_ok.mp hs
    exact h.appended _

theorem Step.safe_enterBlock :
    Safe narrow markers (run .enterBlock) L { L with blocks := L.names.length :: L.blocks } := by
  refine .onCurrent Scope.enterBlock fun s n h => ⟨raises_modify, fun s' hs => ?_⟩
  obtain rfl := Scope.enterBlock_eq_ok.mp hs
  refine { h with blocks := ?_ }
  simp only [Slots.mark, h.names, h.blocks]

theorem Step.safe_leaveBlock {k : Nat} {blocks : List Nat} (hb : L.blocks = k :: blocks) :
    Safe narrow markers (run .leaveBlock) L { L with names := L.names.take k, blocks } := by
  refine .onCurrent _ fun s n h => ?_
  have hs : s.blocks = k :: blocks := h.blocks.trans hb
  refine ⟨Scope.raises_leaveBlock fun hn => ?_, fun s' hs' => ?_⟩
  · rw [hs] at hn
    cases hn
  · obtain ⟨marker, rest, hm, rfl⟩ := Scope.leaveBlock_eq_ok.mp hs'
    obtain ⟨rfl, rfl⟩ := List.cons.inj (hs.symm.trans hm)
    refine { h with names := ?_, blocks := rfl }
    simp only [Slots.rollback, h.names]

/-- A stuck step fails, but not with a fault. -/
theorem Step.safe_stuck {x : Step} (hx : x.Stuck markers) : Safe narrow markers (run x) L L' := by
  intro a ha hm
  cases hx with
  | fail => exact ⟨raises_throw fun h => absurd h Bool.false_ne_true, fun b hb => absurd hb throw_ne_ok⟩
  | @markLine line hmarkers hl =>
    refine ⟨(safe_plain rfl a ha hm).1, fun b hb => ?_⟩
    rcases Assembler.markLine_eq_ok.mp hb with ⟨hoff, -⟩ | ⟨-, s, hs, -⟩
    · exact absurd (hoff.symm.trans (hm.trans hmarkers)) Bool.false_ne_true
    · rcases Scope.markLine_eq_ok.mp hs with ⟨hlast, -⟩ | ⟨-, hn, -⟩
      · exact absurd (ha.current.line line hlast) (Nat.not_le.mpr hl)
      · exact absurd hn (Nat.not_le.mpr hl)
  | pair h =>
    refine ⟨raises_ignore (raises_onCurrent
      (Scope.raises_emitPair overflows_faultless ha.current.not_ended)), fun b hb => ?_⟩
    obtain ⟨p, hb⟩ := ignore_eq_ok.mp hb
    obtain ⟨s, hs, -⟩ := onCurrent_eq_ok.mp hb
    obtain ⟨⟨hi, hj⟩, -⟩ := Scope.emitPair_eq_ok.mp hs
    omega

/-! ### Units without faults -/

/-- A unit that is settled can be ended. -/
theorem Scope.Tidy.raises_reconcile {s : Scope} {n : Nat} (h : s.Tidy L n) (hL : L.Settled) :
    Raises (Error.Faultless narrow) Scope.reconcile s := by
  refine Scope.raises_reconcile overflows_faultless ?_ ?_ ?_
  · intro hb
    exact absurd (h.blocks.trans hL.blocks) hb
  · rintro l u ⟨m, hm, -⟩ hn
    have hl : l < L.made := by
      rw [← h.marks]
      exact (Array.getElem?_eq_some_iff.mp hm).1
    have hword : Label.ofCount l = l := Nat.mod_eq_of_lt (Nat.lt_of_lt_of_le hl (h.made_le hL))
    have hp := (h.placed l).mpr (List.mem_map.mpr ⟨l, hL.placed l hl, hword⟩)
    rw [hn] at hp
    cases hp
  · intro l u hu hle
    have hlt := (Array.getElem?_eq_some_iff.mp (h.uses l u hu).1).1
    exact absurd hlt (Nat.not_lt.mpr hle)

/-- Descriptors that a child passes on are of scopes around its parent. -/
theorem Outers.up_of_relay {parent : Outers} {os : List Outer} {r : Relay} {n : Nat}
    (h : parent.relay os = .ok r) (hp : ∀ o ∈ parent.descriptors, 1 ≤ o.up ∧ o.up ≤ n)
    (hos : ∀ o ∈ os, 1 ≤ o.up ∧ o.up ≤ n + 1) :
    ∀ o ∈ r.parent.descriptors, 1 ≤ o.up ∧ o.up ≤ n := by
  intro o ho
  obtain hold | ⟨x, hx, hup, rfl⟩ := mem_of_relay h ho
  · exact hp o hold
  · have hx := hos x hx
    show 1 ≤ x.up - 1 ∧ x.up - 1 ≤ n
    omega

/-- The state in which the body of a unit begins. -/
theorem Assembler.Tidy.entered {a b : Assembler} {kind : ScopeKind} {signature : Signature}
    {n : Nat} {s : Scope} (h : a.Tidy L) (he : enterScope kind signature a = .ok n b)
    (hd : declareAll signature.params b.current = .ok () s) :
    Assembler.Tidy { b with current := s } (.entry signature.params)
      ∧ b.enclosing = a.current :: a.enclosing ∧ b.config = a.config := by
  obtain ⟨-, rfl⟩ := enterScope_eq_ok.mp he
  refine ⟨⟨Scope.Tidy.new.declareAll hd, ?_⟩, rfl, rfl⟩
  exact List.forall_mem_cons.mpr ⟨h.current.alive, h.around⟩

variable (narrow) in
/-- A settled unit is left and instantiated. -/
theorem Assembler.Tidy.left {a c : Assembler} {op : Opcode} {K : Ledger} (h : a.Tidy L)
    (hc : c.Tidy K) (hK : K.Settled) (henc : c.enclosing = a.current :: a.enclosing) :
    Raises (Error.Faultless narrow) (leaveScope >>= fun child => emitChild op child) c
      ∧ ∀ b, (leaveScope >>= fun child => emitChild op child) c = .ok () b →
        b.Tidy L ∧ b.enclosing = a.enclosing ∧ b.config = c.config := by
  -- the parent is as it was, but for its descriptors and the new child
  have hparent : ∀ child d, leaveScope c = .ok child d → d.Tidy L ∧ d.enclosing = a.enclosing
      ∧ d.config = c.config := by
    intro child d hl
    obtain ⟨parent, rest, s, relay, hpar, -, hrec, hrelay, -, rfl⟩ := leaveScope_eq_ok.mp hl
    obtain ⟨rfl, rfl⟩ := List.cons.inj (henc.symm.trans hpar)
    obtain ⟨-, code, -, rfl⟩ := Scope.reconcile_eq_ok.mp hrec
    have hlen : c.enclosing.length = a.enclosing.length + 1 := by rw [henc, List.length_cons]
    have hout := Outers.up_of_relay hrelay h.current.outers (by
      rw [← hlen]
      exact hc.current.outers)
    exact ⟨⟨{ h.current with outers := hout }, h.around⟩, rfl, rfl⟩
  refine ⟨raises_bind (raises_leaveScope overflows_faultless ?_ ?_ ?_) ?_, ?_⟩
  · intro hn
    rw [henc] at hn
    cases hn
  · intro s hs hend
    exact absurd ((hc.around s hs).symm.trans hend) Bool.false_ne_true
  · exact hc.current.raises_reconcile hK
  · intro child d hl
    obtain ⟨hd, -, -⟩ := hparent child d hl
    exact raises_emitChild overflows_faultless hd.current.not_ended
  · intro b hb
    obtain ⟨child, d, hl, hb⟩ := bind_eq_ok.mp hb
    obtain ⟨hd, he, hconf⟩ := hparent child d hl
    obtain ⟨-, -, rfl⟩ := eq_of_emitChild hb
    exact ⟨⟨hd.current.appendedAll _, hd.around⟩, he, hconf⟩

/-- A unit is entered, and its body is run from the ledger of its parameters. -/
theorem Assembler.Tidy.raises_unit {a : Assembler} {op : Opcode} {kind : ScopeKind}
    {signature : Signature} {body : Script} {K : Ledger} (h : a.Tidy L)
    (hm : a.config.lineMarkers = markers)
    (hb : Safe narrow markers (runAll body) (.entry signature.params) K)
    (hleft : ∀ c, c.Tidy K → c.enclosing = a.current :: a.enclosing →
      Raises (Error.Faultless narrow) (leaveScope >>= fun child => emitChild op child) c) :
    Raises (Error.Faultless narrow) (run (.unit op kind signature body)) a := by
  refine raises_bind raises_enterScope fun n b he => ?_
  refine raises_bind (raises_onCurrent (Scope.raises_declareAll overflows_faultless)) ?_
  intro u b' hcur
  obtain ⟨s, hd, rfl⟩ := onCurrent_eq_ok.mp hcur
  obtain ⟨hs, henc, hconf⟩ := h.entered he hd
  obtain ⟨hraise, hrun⟩ := hb _ hs (by rw [← hm, ← hconf])
  refine raises_bind hraise fun u c hc => ?_
  obtain ⟨hc, henc', -⟩ := hrun c hc
  exact hleft c hc (henc'.trans henc)

/-- A unit whose body is safe and settled leaves the ledger of the unit around it as it is. -/
theorem Step.safe_unit {op : Opcode} {kind : ScopeKind} {signature : Signature} {body : Script}
    {K : Ledger} (hb : Safe narrow markers (runAll body) (.entry signature.params) K) (hK : K.Settled) :
    Safe narrow markers (run (.unit op kind signature body)) L L := by
  intro a ha hm
  refine ⟨ha.raises_unit hm hb fun c hc henc => (ha.left narrow hc hK henc).1, ?_⟩
  intro b' h
  obtain ⟨n, b, s, c, child, d, he, hd, hrun, hl, h⟩ := run_unit_eq_ok.mp h
  obtain ⟨hs, henc, hconf⟩ := ha.entered he hd
  obtain ⟨hc, henc', hconf'⟩ := (hb _ hs (by rw [← hm, ← hconf])).2 c hrun
  obtain ⟨ht, hencl, hconfl⟩ :=
    (ha.left narrow hc hK (henc'.trans henc)).2 b' (bind_eq_ok.mpr ⟨child, d, hl, h⟩)
  exact ⟨ht, hencl, hconfl.trans (hconf'.trans hconf)⟩

/-- A unit whose body never succeeds does not succeed. -/
theorem Step.safe_unitStuck {op : Opcode} {kind : ScopeKind} {signature : Signature}
    {body : Script} (hb : ∀ K, Safe narrow markers (runAll body) (.entry signature.params) K) :
    Safe narrow markers (run (.unit op kind signature body)) L L' := by
  intro a ha hm
  have hsettled : Ledger.Settled {} := ⟨rfl, fun l hl => absurd hl (Nat.not_lt_zero l)⟩
  refine ⟨ha.raises_unit hm (hb {}) fun c hc henc => (ha.left narrow hc hsettled henc).1, ?_⟩
  intro b' h
  obtain ⟨n, b, s, c, child, d, he, hd, hrun, -, -⟩ := run_unit_eq_ok.mp h
  obtain ⟨hs, -, hconf⟩ := ha.entered he hd
  exact absurd hrun (Safe.ne_ok hb hs (by rw [← hm, ← hconf]))

end Steps

/-! ### Whole scripts -/

theorem Step.cut_of_isPlain {x : Step} (hx : x.isPlain = true) : x.cut = x := by
  cases x <;> first | rfl | exact absurd hx Bool.false_ne_true

theorem Step.makes_of_isPlain {x : Step} (hx : x.isPlain = true) : x.makes = 0 := by
  cases x <;> first | rfl | exact absurd hx Bool.false_ne_true

theorem Step.Stuck.cut_eq {markers : Bool} {x : Step} (hx : x.Stuck markers) : x.cut = x := by
  cases hx <;> rfl

/-- How many labels there are when the rest of a script, and the units inside it, have made theirs. -/
def Ledger.Narrow (L : Ledger) (xs : Script) : Prop :=
  L.made + Script.makes xs ≤ UInt32.size ∧ Step.widestOf xs ≤ UInt32.size

namespace Ledger.Narrow

variable {L : Ledger} {x : Step} {xs : Script}

theorem made_le (h : L.Narrow xs) : L.made ≤ UInt32.size := Nat.le_trans (Nat.le_add_right _ _) h.1

theorem tail (h : L.Narrow (x :: xs)) {L' : Ledger} (hmade : L'.made = L.made + x.makes) :
    L'.Narrow xs := by
  obtain ⟨hcount, hinside⟩ := h
  rw [Script.makes_cons, ← Nat.add_assoc, ← hmade] at hcount
  exact ⟨hcount, Nat.le_trans (Nat.le_max_right _ _) hinside⟩

/-- A unit begins without labels. -/
theorem body {op : Opcode} {kind : ScopeKind} {signature : Signature} {body : Script}
    (h : L.Narrow (.unit op kind signature body :: xs)) :
    (entry signature.params).Narrow body := by
  have hinside := Nat.le_trans (Nat.le_max_left _ _) h.2
  rw [Step.widest] at hinside
  refine ⟨?_, Nat.le_trans (Nat.le_max_right _ _) hinside⟩
  rw [entry, (foldl_declared signature.params).1, Nat.zero_add]
  exact Nat.le_trans (Nat.le_max_left _ _) hinside

end Ledger.Narrow

/-- An orderly script is safe when it is run with its labels in 32 bits. -/
theorem Orderly.safe {narrow : Prop} {markers : Bool} {xs : Script} {L L' : Ledger}
    (h : Orderly markers xs L L') (hn : narrow → L.Narrow xs) :
    Safe narrow markers (Step.runAll (Script.cut xs)) L L' := by
  induction h with
  | done =>
    intro a ha hm
    refine ⟨Edit.raises_pure, fun b hb => ?_⟩
    obtain ⟨-, rfl⟩ := Edit.pure_eq_ok.mp hb
    exact ⟨ha, rfl, rfl⟩
  | stuck hx =>
    rw [Script.cut_cons, hx.cut_eq]
    exact .stop fun K => Step.safe_stuck hx
  | plain hx _ ih =>
    rw [Script.cut_cons, Step.cut_of_isPlain hx]
    exact (Step.safe_plain hx).bind
      (ih fun hnarrow => (hn hnarrow).tail (by rw [Step.makes_of_isPlain hx, Nat.add_zero]))
  | newLabel _ ih =>
    rw [Script.cut_cons]
    exact Step.safe_newLabel.bind (ih fun hnarrow => (hn hnarrow).tail rfl)
  | jump hop hl _ ih =>
    rw [Script.cut_cons]
    exact (Step.safe_jump hop hl).bind (ih fun hnarrow => (hn hnarrow).tail rfl)
  | place hl hp _ ih =>
    rw [Script.cut_cons]
    exact (Step.safe_place hl hp fun hnarrow => (hn hnarrow).made_le).bind
      (ih fun hnarrow => (hn hnarrow).tail rfl)
  | declare _ ih =>
    rw [Script.cut_cons]
    exact Step.safe_declare.bind
      (ih fun hnarrow => (hn hnarrow).tail (Ledger.made_declared _ _))
  | slot _ hx _ ih =>
    rw [Script.cut_cons]
    exact (Step.safe_slot hx).bind (ih fun hnarrow => (hn hnarrow).tail rfl)
  | enterBlock _ ih =>
    rw [Script.cut_cons]
    exact Step.safe_enterBlock.bind (ih fun hnarrow => (hn hnarrow).tail rfl)
  | leaveBlock hb _ ih =>
    rw [Script.cut_cons]
    exact (Step.safe_leaveBlock hb).bind (ih fun hnarrow => (hn hnarrow).tail rfl)
  | unit _ _ hK _ _ ihb ih =>
    rw [Script.cut_cons, Step.cut_unit]
    exact (Step.safe_unit (ihb fun hnarrow => (hn hnarrow).body) hK).bind
      (ih fun hnarrow => (hn hnarrow).tail rfl)
  | unitStuck _ ihb =>
    rw [Script.cut_cons, Step.cut_unit]
    exact .stop fun K => Step.safe_unitStuck fun K' => ihb K' fun hnarrow => (hn hnarrow).body

/-! ### Scripts that succeed -/

/-- No script succeeds whose first step does not. -/
theorem Safe.not_next {markers : Bool} {x : Step} {xs : Script} {L : Ledger} {a b : Assembler}
    (hx : ∀ K, Safe False markers (Step.run x.cut) L K) (ha : a.Tidy L)
    (hm : a.config.lineMarkers = markers) : Step.runAll (Script.cut (x :: xs)) a ≠ .ok () b := by
  intro hr
  rw [Script.cut_cons] at hr
  obtain ⟨c, hc, -⟩ := Step.runAll_cons_eq_ok.mp hr
  exact ne_ok hx ha hm hc

theorem Step.widest_of_isPlain {x : Step} (hx : x.isPlain = true) : x.widest = 0 := by
  cases x <;> first | rfl | exact absurd hx Bool.false_ne_true

theorem Label.ofCount_of_narrow {L : Ledger} {xs : Script} {l : Nat} (h : L.Narrow xs)
    (hl : l < L.made) : Label.ofCount l = l :=
  Nat.mod_eq_of_lt (Nat.lt_of_lt_of_le hl h.made_le)

/-- The first step of a script that succeeds leads to the next ledger. Its labels are few enough, and keep
their numbers, if those of the rest are and do. -/
theorem Safe.cut_eq {markers : Bool} {x : Step} {xs : Script} {L L' : Ledger} {a b : Assembler}
    (hx : Safe False markers (Step.run x.cut) L L') (ha : a.Tidy L)
    (hm : a.config.lineMarkers = markers) (hr : Step.runAll (Script.cut (x :: xs)) a = .ok () b)
    (hmade : L'.made = L.made + x.makes)
    (hown : ∀ c, Step.run x.cut a = .ok () c →
      x.widest ≤ UInt32.size ∧ (L.Narrow (x :: xs) → x.cut = x))
    (hrest : ∀ c, c.Tidy L' → c.config.lineMarkers = markers →
      Step.runAll (Script.cut xs) c = .ok () b → L'.Narrow xs ∧ Script.cut xs = xs) :
    L.Narrow (x :: xs) ∧ Script.cut (x :: xs) = x :: xs := by
  rw [Script.cut_cons] at hr ⊢
  obtain ⟨c, hc, hr⟩ := Step.runAll_cons_eq_ok.mp hr
  obtain ⟨ht, -, hconf⟩ := (hx a ha hm).2 c hc
  obtain ⟨⟨hcount, hinside⟩, hxs⟩ := hrest c ht (by rw [hconf]; exact hm) hr
  rw [hmade, Nat.add_assoc, ← Script.makes_cons] at hcount
  obtain ⟨hwidest, hcut⟩ := hown c hc
  have hnarrow : L.Narrow (x :: xs) := ⟨hcount, Nat.max_le.mpr ⟨hwidest, hinside⟩⟩
  exact ⟨hnarrow, congrArg₂ List.cons (hcut hnarrow) hxs⟩

/-- An orderly script that succeeds has few enough labels for the numbers that it gives to them, and so
have the units inside it: each label that is made gets set, and two with the same number cannot both
be. -/
theorem Orderly.cut_eq {markers : Bool} {xs : Script} {L L' : Ledger} {a b : Assembler}
    (h : Orderly markers xs L L') (hmade : L'.made ≤ UInt32.size) (ha : a.Tidy L)
    (hm : a.config.lineMarkers = markers) (hr : Step.runAll (Script.cut xs) a = .ok () b) :
    L.Narrow xs ∧ Script.cut xs = xs := by
  induction h generalizing a b with
  | done => exact ⟨⟨hmade, Nat.zero_le _⟩, rfl⟩
  | stuck hx =>
    refine absurd hr (Safe.not_next (fun K => ?_) ha hm)
    rw [hx.cut_eq]
    exact Step.safe_stuck hx
  | plain hx _ ih =>
    have hcut := Step.cut_of_isPlain hx
    refine Safe.cut_eq (by rw [hcut]; exact Step.safe_plain hx) ha hm hr ?_
      (fun _ _ => ⟨?_, fun _ => hcut⟩) fun _ => ih hmade
    · rw [Step.makes_of_isPlain hx, Nat.add_zero]
    · rw [Step.widest_of_isPlain hx]
      exact Nat.zero_le _
  | newLabel _ ih =>
    exact Safe.cut_eq Step.safe_newLabel ha hm hr rfl (fun _ _ => ⟨Nat.zero_le _, fun _ => rfl⟩)
      fun _ => ih hmade
  | jump hop hl _ ih =>
    refine Safe.cut_eq (Step.safe_jump hop hl) ha hm hr rfl (fun _ _ => ⟨Nat.zero_le _, fun hn => ?_⟩)
      fun _ => ih hmade
    rw [Step.cut, Label.ofCount_of_narrow hn hl]
  | place hl hp _ ih =>
    refine Safe.cut_eq (Step.safe_place hl hp False.elim) ha hm hr rfl
      (fun _ _ => ⟨Nat.zero_le _, fun hn => ?_⟩) fun _ => ih hmade
    rw [Step.cut, Label.ofCount_of_narrow hn hl]
  | @declare x _ L _ _ ih =>
    exact Safe.cut_eq Step.safe_declare ha hm hr (Ledger.made_declared L x)
      (fun _ _ => ⟨Nat.zero_le _, fun _ => rfl⟩) fun _ => ih hmade
  | slot _ hx _ ih =>
    exact Safe.cut_eq (Step.safe_slot hx) ha hm hr rfl (fun _ _ => ⟨Nat.zero_le _, fun _ => rfl⟩)
      fun _ => ih hmade
  | enterBlock _ ih =>
    exact Safe.cut_eq Step.safe_enterBlock ha hm hr rfl (fun _ _ => ⟨Nat.zero_le _, fun _ => rfl⟩)
      fun _ => ih hmade
  | leaveBlock hb _ ih =>
    exact Safe.cut_eq (Step.safe_leaveBlock hb) ha hm hr rfl (fun _ _ => ⟨Nat.zero_le _, fun _ => rfl⟩)
      fun _ => ih hmade
  | @unit op kind signature body xs L L' K _ hb hK _ _ ihb ih =>
    have hbody : Safe False markers (Step.runAll (Script.cut body)) (.entry signature.params) K :=
      hb.safe False.elim
    have hunit : Safe False markers (Step.run (Step.cut (.unit op kind signature body))) L L := by
      rw [Step.cut_unit]
      exact Step.safe_unit hbody hK
    refine Safe.cut_eq hunit ha hm hr rfl (fun d hd => ?_) fun _ => ih hmade
    -- the body has succeeded, too
    rw [Step.cut_unit] at hd ⊢
    obtain ⟨_, e, s, c, _, _, he, hs, hc, -, -⟩ := Step.run_unit_eq_ok.mp hd
    obtain ⟨hstidy, -, hconfs⟩ := ha.entered he hs
    have hms : e.config.lineMarkers = markers := by rw [hconfs]; exact hm
    obtain ⟨hctidy, -, -⟩ := (hbody _ hstidy hms).2 c hc
    obtain ⟨⟨hcount, hinside⟩, hcut⟩ := ihb (hctidy.current.made_le hK) hstidy hms hc
    rw [Ledger.entry, (Ledger.foldl_declared signature.params).1, Nat.zero_add] at hcount
    exact ⟨Nat.max_le.mpr ⟨hcount, hinside⟩, fun _ => congrArg (Step.unit op kind signature) hcut⟩
  | unitStuck hb _ =>
    refine absurd hr (Safe.not_next (fun K => ?_) ha hm)
    rw [Step.cut_unit]
    exact Step.safe_unitStuck fun K' => (hb K').safe False.elim

end StackCode
