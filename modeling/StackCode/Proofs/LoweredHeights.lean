import StackCode.Proofs.ExpressionCode
import StackCode.Proofs.RecordedHeights
import StackCode.Proofs.TreeWalk

/-!
# Lower bounds of the height for every program

The walk of the tree shows what each call adds to the height at least, whatever the height is where
it starts. A jump out of a region runs its cleanup, and a cleanup adds nothing that is counted on.

* `Draft.Rises`: a draft whose script has lower bounds of the height;
* `Draft.Rises.append`, `plain`, `guarded`, …: one rule for each way of making a draft;
* `Draft.Gains`, `Task.gain`: a draft that adds some values at least, and how many a task adds;
* `Draft.Gains.conditional`, `whileDo`, …: one rule for each construct with labels;
* `gains_visitExpr`, `gains_visitForm`, `gains_visitBelow`: what a call adds, given what the calls add
  that it makes;
* `Task.gains_lowered`: what the lowering of a task adds;
* `recordedHeight_uncut`: no run takes more values than there are.
-/

namespace StackCode

open Instruction (effectOf)
open Draft

/-! ### Drafts that rise -/

/-- From height `h` on a draft never takes more than there is. If it is complete, it ends no lower than
`k`. -/
def Draft.Rises (d : Draft) (h k : Nat) : Prop :=
  ∀ s, ∃ m, Script.Rises (d.steps s) h m ∧ ∀ s₁, d.rest? s = some s₁ → k ≤ m

namespace Draft.Rises

variable {c d e : Draft} {h m n k : Nat} {l : Label} {x : String}

theorem weaken (hd : d.Rises h m) (hk : k ≤ m) : d.Rises h k := by
  intro s
  obtain ⟨t, hs, ht⟩ := hd s
  exact ⟨t, hs, fun s₁ h₁ => Nat.le_trans hk (ht s₁ h₁)⟩

theorem nil : Draft.nil.Rises h h := fun _ => ⟨h, .done (Nat.le_refl h), fun _ _ => Nat.le_refl h⟩

theorem step {x : Step} (hx : x.Rises h k) : (Draft.step x).Rises h k :=
  fun _ => ⟨k, .step hx (.done (Nat.le_refl k)), fun _ _ => Nat.le_refl k⟩

/-- Nothing is said of the height behind a step that cannot succeed. -/
theorem final {x : Step} (hx : x.Rises h m) : (Draft.final x).Rises h k := by
  intro s
  refine ⟨m, .step hx (.done (Nat.le_refl m)), ?_⟩
  intro s₁ h₁
  cases h₁

theorem refuse {line : Nat} {cause : Misuse} : (refuse line cause).Rises h k :=
  final (m := 0) .fail

theorem quiet {x : Step} (hx : x.isQuiet = true) : (Draft.step x).Rises h h :=
  step (.quiet hx (Nat.le_refl h))

theorem append (hd : d.Rises h m) (he : e.Rises m k) : (d ++ e).Rises h k := by
  intro s
  obtain ⟨t, hs, ht⟩ := hd s
  cases hr : d.rest? s with
  | none =>
    refine ⟨t, by rw [steps_append_of_none e hr]; exact hs, ?_⟩
    intro s₁ h₁
    rw [rest?_append_of_none e hr] at h₁
    cases h₁
  | some s₁ =>
    obtain ⟨u, hs', hu⟩ := he s₁
    refine ⟨u, ?_, ?_⟩
    · rw [steps_append_of_some e hr]
      exact hs.append (hs'.mono (ht s₁ hr))
    · rw [rest?_append_of_some e hr]
      exact hu

theorem withLabels {F : Label → Draft} (hF : ∀ l, (F l).Rises h k) :
    (Draft.withLabels n F).Rises h k := by
  intro s
  obtain ⟨t, hs, ht⟩ := hF s.labels { s with labels := s.labels + n }
  rw [steps_withLabels, rest?_withLabels]
  exact ⟨t, hs.newLabels n, ht⟩

theorem withLabel {F : Label → Draft} (hF : ∀ l, (F l).Rises h k) :
    (Draft.withLabel F).Rises h k := by
  intro s
  obtain ⟨t, hs, ht⟩ := hF s.labels { s with labels := s.labels + 1 }
  rw [steps_withLabel, rest?_withLabel]
  exact ⟨t, .step (.newLabel (Nat.le_refl h)) hs, ht⟩

theorem withHidden {what : String} {F : String → Draft} (hF : ∀ x, (F x).Rises h k) :
    (Draft.withHidden what F).Rises h k := by
  intro s
  rw [steps_withHidden, rest?_withHidden]
  exact hF _ _

theorem block (hd : d.Rises h k) : (Draft.block d).Rises h k :=
  ((quiet rfl).append hd).append (quiet rfl)

/-- A unit starts with a stack of its own. -/
theorem unit {op : Opcode} {kind : ScopeKind} {signature : Signature} (n m : Nat)
    (heff : ∀ i, effectOf op i = ⟨n, m⟩) (hd : d.Rises 0 k) :
    (Draft.unit op kind signature d).Rises (h + n) (h + m) := by
  intro s
  obtain ⟨t, hs, -⟩ := hd { s with labels := 0 }
  refine ⟨h + m, .unit ?_ hs (.done (Nat.le_refl _)), fun _ _ => Nat.le_refl _⟩
  intro i
  rw [heff]
  exact ⟨Nat.le_add_left n h, Nat.le_of_eq (by rw [Nat.add_sub_cancel])⟩

/-! ### Instructions -/

theorem place : (place l).Rises h h := step (.place (Nat.le_refl h))

theorem jump {op : Opcode} (n m : Nat) (heff : effectOf op (.plain op) = ⟨n, m⟩) :
    (jump op l).Rises (h + n) (h + m) := by
  apply step
  apply Step.Rises.jump
  rw [heff]
  exact ⟨Nat.le_add_left n h, Nat.le_of_eq (by rw [Nat.add_sub_cancel])⟩

theorem leap : (StackCode.jump .jump l).Rises h h := jump 0 0 rfl

theorem jumpFalse : (StackCode.jump .jumpFalse l).Rises (h + 1) h := jump 1 0 rfl

theorem jumpTrue : (StackCode.jump .jumpTrue l).Rises (h + 1) h := jump 1 0 rfl

theorem jumpLogical {op : LogicalOp} : (StackCode.jump op.opcode l).Rises (h + 1) h := by
  cases op <;> exact jump 1 0 rfl

/-- A step that takes `n` values and leaves `m`, whatever instruction it writes. -/
theorem ordinary {x : Step} (n m : Nat) (hx : x.isWrite = true)
    (hi : ∀ i, x.Writes i → ∃ op, i.opcode? = some op ∧ effectOf op i = ⟨n, m⟩) :
    (Draft.step x).Rises (h + n) (h + m) := by
  apply step
  apply Step.Rises.write hx
  intro i hw
  obtain ⟨op, hop, heff⟩ := hi i hw
  refine ⟨op, hop, ?_⟩
  rw [heff]
  exact ⟨Nat.le_add_left n h, Nat.le_of_eq (by rw [Nat.add_sub_cancel])⟩

theorem plain {op : Opcode} (n m : Nat) (heff : effectOf op (.plain op) = ⟨n, m⟩) :
    (plain op).Rises (h + n) (h + m) := by
  apply ordinary n m rfl
  intro i hi
  obtain rfl : i = .plain op := hi
  exact ⟨op, Instruction.opcode?_plain op, heff⟩

/-- An instruction whose operand is a count. -/
theorem count {op : Opcode} {a : Nat} (n m : Nat)
    (heff : a ≤ Instruction.maxUnsigned → effectOf op (.pack op a) = ⟨n, m⟩) :
    (Draft.step (.count op a)).Rises (h + n) (h + m) := by
  apply ordinary n m rfl
  rintro i ⟨ha, rfl⟩
  exact ⟨op, Instruction.opcode?_pack (Nat.lt_succ_of_le ha), heff ha⟩

/-- An instruction whose operand the assembler finds in a table. -/
theorem indexed {x : Step} (op : Opcode) (n m : Nat) (hx : x.isWrite = true)
    (hw : ∀ i, x.Writes i → ∃ a, a ≤ Instruction.maxUnsigned ∧ i = .pack op a)
    (heff : ∀ i, effectOf op i = ⟨n, m⟩) : (Draft.step x).Rises (h + n) (h + m) := by
  apply ordinary n m hx
  intro i hi
  obtain ⟨a, ha, rfl⟩ := hw i hi
  exact ⟨op, Instruction.opcode?_pack (Nat.lt_succ_of_le ha), heff _⟩

theorem named {op : Opcode} (n m : Nat) (heff : ∀ i, effectOf op i = ⟨n, m⟩) :
    (Draft.step (.named op x)).Rises (h + n) (h + m) :=
  indexed op n m rfl (fun _ hi => hi) heff

theorem loadConst {v : Value} : (Draft.step (.loadConst v)).Rises h (h + 1) :=
  indexed .loadConst 0 1 rfl (fun _ hi => hi) fun _ => rfl

theorem loadSlot : (Draft.step (.slot .loadLocal x)).Rises h (h + 1) :=
  indexed .loadLocal 0 1 rfl (fun _ hi => hi) fun _ => rfl

theorem storeSlot : (Draft.step (.slot .storeLocal x)).Rises (h + 1) h :=
  indexed .storeLocal 1 0 rfl (fun _ hi => hi) fun _ => rfl

theorem loadName : (Draft.step (.loadName x)).Rises h (h + 1) := by
  apply ordinary 0 1 rfl
  rintro i ⟨place, hp, rfl⟩
  refine ⟨place.loadOp, Instruction.opcode?_pack (Nat.lt_succ_of_le hp), ?_⟩
  cases place <;> rfl

theorem storeName : (Draft.step (.storeName x)).Rises (h + 1) h := by
  apply ordinary 1 0 rfl
  rintro i ⟨place, hp, rfl⟩
  refine ⟨place.storeOp, Instruction.opcode?_pack (Nat.lt_succ_of_le hp), ?_⟩
  cases place <;> rfl

theorem discard : (Draft.step .discard).Rises (h + 1) h :=
  step (.discard ⟨Nat.le_add_left 1 h, Nat.le_refl h⟩)

theorem receive : (Draft.step .receive).Rises h (h + 1) := step (.receive (Nat.le_refl _))

theorem markLine {ctx : Context} {line : Nat} : (markLine ctx line).Rises h h := by
  unfold StackCode.markLine
  split
  · exact final (.quiet rfl (Nat.le_refl h))
  · exact quiet rfl

theorem value (v : Value) : v.lower.Rises h (h + 1) := by
  unfold Value.lower
  split
  · exact plain 0 1 rfl
  · exact plain 0 1 rfl
  · exact plain 0 1 rfl
  · exact loadConst

theorem binary (op : BinaryOp) : (StackCode.plain op.opcode).Rises (h + 2) (h + 1) := by
  cases op <;> exact plain 2 1 rfl

theorem unary (op : UnaryOp) : (StackCode.plain op.opcode).Rises (h + 1) (h + 1) := by
  cases op <;> exact plain 1 1 rfl

/-! ### Pieces of scripts -/

theorem returnNil : returnNil.Rises h h := append (m := h + 1) (plain 0 1 rfl) (plain 1 0 rfl)

theorem declareAndStore : (declareAndStore x).Rises (h + 1) h := append (quiet rfl) storeSlot

theorem predeclare {ctx : Context} : (predeclare ctx x).Rises h h := by
  unfold StackCode.predeclare
  split
  · exact quiet rfl
  · exact nil
  · exact nil

theorem bindDeclared {ctx : Context} : (bindDeclared ctx x).Rises (h + 1) h := by
  unfold StackCode.bindDeclared
  split
  · exact named 1 0 fun _ => rfl
  · exact named 1 0 fun _ => rfl
  · exact storeSlot

/-- A call of some kind, which may leave values below what comes back. -/
theorem called {op : Opcode} {a : Nat} (n : Nat) {below : Nat}
    (heff : a ≤ Instruction.maxUnsigned → effectOf op (.pack op a) = ⟨n, 1⟩) :
    (Draft.step (.count op a)).Rises (h + below + n) (h + 1) :=
  weaken (count n 1 heff) (Nat.succ_le_succ (Nat.le_add_right h below))

/-- A call finds its arguments above the callee. A tail call takes the plain ones only. -/
theorem callOp (args : List Arg) (tail : Bool) :
    (callOp args tail).Rises (h + 1 + (args.length + args.countP Arg.isNamed)) (h + 1) := by
  have hle : args.countP Arg.isNamed ≤ args.length := List.countP_le_length
  have hplain : h + 1 + (args.length + args.countP Arg.isNamed)
      = h + 2 * args.countP Arg.isNamed + (args.length - args.countP Arg.isNamed + 1) := by
    omega
  have hnamed : h + 1 + (args.length + args.countP Arg.isNamed)
      = h + (1 + (args.length - args.countP Arg.isNamed) + 2 * args.countP Arg.isNamed) := by
    omega
  unfold StackCode.callOp
  simp only
  split
  · rw [hplain]
    apply called
    intro ha
    simp only [effectOf, Instruction.unsigned_pack (Nat.lt_succ_of_le ha)]
  · split
    · unfold callNamedOp
      split
      · next hlarge =>
        -- nothing is written
        refine final (m := 0) (.write rfl fun i hi => ?_)
        obtain ⟨⟨hp, hq⟩, -⟩ := hi
        simp only [Bool.or_eq_true, decide_eq_true_eq] at hlarge
        omega
      · rw [hnamed]
        apply ordinary _ 1 rfl
        rintro i ⟨⟨hp, hq⟩, rfl⟩
        refine ⟨.callNamed, Instruction.opcode?_pack ?_, ?_⟩
        · simp only [Instruction.maxPair] at hp hq
          omega
        · simp only [effectOf, Instruction.pair_pack hp hq]
    · rw [hplain]
      apply called
      intro ha
      simp only [effectOf, Instruction.unsigned_pack (Nat.lt_succ_of_le ha)]

/-- A call of a method finds its arguments above the method and the object. -/
theorem methodOp (args : List Arg) (line : Nat) :
    (methodOp args line).Rises (h + 2 + (args.length + args.countP Arg.isNamed)) (h + 1) := by
  unfold StackCode.methodOp
  split
  · exact refuse
  · have hn : h + 2 + (args.length + args.countP Arg.isNamed)
        = h + args.countP Arg.isNamed + (args.length + 2) := by
      omega
    rw [hn]
    apply called
    intro ha
    simp only [effectOf, Instruction.unsigned_pack (Nat.lt_succ_of_le ha)]

theorem unmixed {args : List Arg} {call : String} {line : Nat} (hd : d.Rises h k) :
    (unmixed args call line d).Rises h k := by
  unfold StackCode.unmixed
  split
  · exact refuse
  · exact hd

/-- A catch clause starts with the exception above what there was. -/
theorem guarded (hc : c.Rises (h + 1) h) (hd : d.Rises h h) :
    (guarded (some c) d).Rises h h := by
  rw [StackCode.guarded]
  apply withLabel
  intro l
  have hbody : (StackCode.jump .tryCatch l ++ d ++ StackCode.plain .endTry).Rises h h :=
    ((jump 0 0 rfl).append hd).append (plain 0 0 rfl)
  apply hbody.append
  apply withLabel
  intro done
  have hentry : (StackCode.jump .jump done ++ StackCode.place l).Rises h h :=
    leap.append place
  exact ((hentry.append receive).append hc).append place

theorem cleaned (hc : c.Rises h h) (hd : d.Rises h h) : (cleaned (some c) d).Rises h h := by
  rw [StackCode.cleaned]
  apply withLabel
  intro l
  have hbody : (StackCode.jump .tryFinally l ++ d ++ StackCode.plain .endTry).Rises h h :=
    ((jump 0 0 rfl).append hd).append (plain 0 0 rfl)
  exact ((hbody.append place).append hc).append (plain 0 0 rfl)

end Draft.Rises

/-! ### What a task adds -/

/-- The draft adds `n` values at least. -/
def Draft.Gains (d : Draft) (n : Nat) : Prop := ∀ h, d.Rises h (h + n)

/-- How many values a task adds at least. A named argument has its name below it. -/
def Task.gain : Task → Nat
  | .expr _ _ | .exprOr _ _ | .function _ _ _ => 1
  | .exprs items => items.length
  | .args items _ _ _ => items.length + items.countP Arg.isNamed
  | .entries items => 2 * items.length
  | _ => 0

namespace Draft.Gains

variable {c d e : Draft} {n : Nat}

theorem refuse {line : Nat} {cause : Misuse} : (refuse line cause).Gains n := fun _ => .refuse

theorem nil : Draft.nil.Gains 0 := fun _ => .nil

/-- One value and then more. -/
theorem cons (hd : d.Gains 1) (he : e.Gains n) : (d ++ e).Gains (n + 1) := by
  intro h
  rw [Nat.add_comm n, ← Nat.add_assoc]
  exact (hd h).append (he (h + 1))

/-- Two values and then more. -/
theorem pair (hc : c.Gains 1) (hd : d.Gains 1) (he : e.Gains n) : (c ++ d ++ e).Gains (n + 2) := by
  intro h
  rw [Nat.add_comm n, ← Nat.add_assoc]
  exact ((hc h).append (hd (h + 1))).append (he (h + 2))

/-- A value is assigned to a variable, and kept. -/
theorem store {x : String} (hd : d.Gains 1) : (d ++ plain .dup ++ step (.storeName x)).Gains 1 :=
  fun h => ((hd h).append (.plain 1 2 rfl)).append .storeName

theorem logical {op : LogicalOp} (hd : d.Gains 1) (he : e.Gains 1) :
    (withLabel fun done => d ++ jump op.opcode done ++ e ++ place done).Gains 1 :=
  fun h => .withLabel fun _ => (((hd h).append .jumpLogical).append (he h)).append .place

/-- The branches are one behind the other, so there is one value more than either leaves. -/
theorem conditional (hc : c.Gains 1) (hd : d.Gains 1) (he : e.Gains 1) :
    (withLabel fun other => withLabel fun done => c ++ jump .jumpFalse other ++ d
      ++ jump .jump done ++ place other ++ e ++ place done).Gains 1 := by
  intro h
  refine .withLabel fun other => .withLabel fun done => .weaken ?_ (Nat.le_succ (h + 1))
  exact ((((((hc h).append .jumpFalse).append (hd h)).append .leap).append .place).append
    (he (h + 1))).append .place

/-- A value is kept in a hidden variable while it is compared, with `count` labels to jump to. -/
theorem selection {what : String} {count : Nat} {F : String → Label → Label → Draft}
    (hd : d.Gains 1) (hF : ∀ x done first, (F x done first).Gains n) :
    (block (d ++ withHidden what fun x => declareAndStore x ++ withLabel fun done =>
      withLabels count fun first => F x done first)).Gains n := by
  intro h
  refine .block ((hd h).append (.withHidden fun x => .append .declareAndStore ?_))
  exact .withLabel fun done => .withLabels fun first => hF x done first h

/-- Nothing is lost by one draft after another. -/
theorem seq (hd : d.Gains 0) (he : e.Gains n) : (d ++ e).Gains n := fun h => (hd h).append (he h)

theorem block (hd : d.Gains 0) : (Draft.block d).Gains 0 := fun h => .block (hd h)

theorem ifThen (hc : c.Gains 1) (hd : d.Gains 0) :
    (withLabel fun other => c ++ jump .jumpFalse other ++ Draft.block d ++ place other).Gains 0 :=
  fun h => .withLabel fun _ => (((hc h).append .jumpFalse).append (hd.block h)).append .place

theorem ifElse (hc : c.Gains 1) (hd : d.Gains 0) (he : e.Gains 0) :
    (withLabel fun other => c ++ jump .jumpFalse other ++ Draft.block d ++ withLabel fun done =>
      jump .jump done ++ place other ++ Draft.block e ++ place done).Gains 0 := by
  intro h
  refine .withLabel fun _ => .append (((hc h).append .jumpFalse).append (hd.block h)) ?_
  exact .withLabel fun _ => ((Draft.Rises.leap.append .place).append (he.block h)).append .place

/-- A loop with its condition at the top. -/
theorem whileDo {F : Label → Label → Draft} (hc : c.Gains 1) (hF : ∀ top done, (F top done).Gains 0) :
    (withLabel fun top => withLabel fun done => place top ++ c ++ jump .jumpFalse done
      ++ Draft.block (F top done) ++ jump .jump top ++ place done).Gains 0 := by
  intro h
  refine .withLabel fun top => .withLabel fun done => ?_
  exact ((((Draft.Rises.place.append (hc h)).append .jumpFalse).append
    ((hF top done).block h)).append .leap).append .place

theorem forLoop {C : Label → Draft} {F : Label → Label → Draft} (hd : d.Gains 0)
    (hC : ∀ done, (C done).Gains 0) (hF : ∀ next done, (F next done).Gains 0) (he : e.Gains 0) :
    (Draft.block (d ++ withLabel fun top => withLabel fun next => withLabel fun done =>
      place top ++ C done ++ Draft.block (F next done) ++ place next ++ e ++ jump .jump top
        ++ place done)).Gains 0 := by
  intro h
  refine .block ((hd h).append (.withLabel fun top => .withLabel fun next => .withLabel fun done => ?_))
  exact (((((Draft.Rises.place.append (hC done h)).append ((hF next done).block h)).append
    .place).append (he h)).append .leap).append .place

/-- The iterator stays in a hidden variable; each round of the loop starts with the next item. -/
theorem forIn {x : String} {F : Label → Label → Draft} (hd : d.Gains 1)
    (hF : ∀ next done, (F next done).Gains 0) :
    (Draft.block (d ++ plain .iter ++ withHidden "iter" fun it => declareAndStore it
      ++ withLabel fun next => withLabel fun done => place next ++ step (.slot .loadLocal it)
        ++ jump .forIter done ++ declareAndStore x ++ Draft.block (F next done) ++ jump .jump next
        ++ place done)).Gains 0 := by
  intro h
  have hiter : (plain .iter).Rises (h + 1) (h + 1) := .plain 1 1 rfl
  refine .block (((hd h).append hiter).append (.withHidden fun it => .append .declareAndStore ?_))
  refine .withLabel fun next => .withLabel fun done => ?_
  have hnext : (jump .forIter done).Rises (h + 1) (h + 1) := .jump 1 1 rfl
  exact (((((Draft.Rises.place.append .loadSlot).append hnext).append .declareAndStore).append
    ((hF next done).block h)).append .leap).append .place

/-- One result behind the other. -/
theorem result {l done : Label} (hd : d.Gains 1) (he : e.Gains 0) :
    (place l ++ d ++ jump .jump done ++ e).Gains 0 := by
  intro h
  refine .weaken ?_ (Nat.le_succ h)
  exact ((Draft.Rises.place.append (hd h)).append .leap).append (he (h + 1))

/-- A default is stored where the argument is missing. -/
theorem default {i : Nat} {x : String} (hd : d.Gains 1) :
    (withLabel fun skip => step (.count .hasArg i) ++ jump .jumpTrue skip ++ d
      ++ step (.slot .storeLocal x) ++ place skip ++ step (.count .paramEnd i)).Gains 0 := by
  intro h
  refine .withLabel fun skip => ?_
  have hgiven : (step (.count .hasArg i)).Rises h (h + 1) := .count 0 1 fun _ => rfl
  exact ((((hgiven.append .jumpTrue).append (hd h)).append .storeSlot).append .place).append
    (.count 0 0 fun _ => rfl)

/-- A value is returned, once the regions around the exit are left. -/
theorem ret (hd : d.Gains 0) (h : Nat) : (d ++ plain .ret).Rises (h + 1) h :=
  (hd (h + 1)).append (.plain 1 0 rfl)

theorem guarded {x : String} (hc : c.Gains 0) (hd : d.Gains 0) :
    (guarded (some (Draft.block (declareAndStore x ++ c))) (Draft.block d)).Gains 0 :=
  fun h => .guarded (.block (.append .declareAndStore (hc h))) (hd.block h)

theorem cleaned (hc : c.Gains 0) (hd : d.Gains 0) :
    (cleaned (some (Draft.block c)) d).Gains 0 :=
  fun h => .cleaned (hc.block h) (hd h)

/-- The body of a class or a namespace returns nil. -/
theorem object (hd : d.Gains 0) : (d ++ returnNil).Gains 0 := fun h => (hd h).append .returnNil

end Draft.Gains

/-- What a call for an expression adds. -/
theorem gains_visitExpr (e : Expr) (terminal : Bool) (s : Setting)
    {call : Answers (sizeOf e + Setting.weight s.regions)}
    (hcall : ∀ t s' hlt, (call t s' hlt).Gains t.gain) :
    (visitExpr e terminal s fun t s h => call t s h).Gains 1 := by
  have expr : ∀ e t s' hlt, (call (.expr e t) s' hlt).Gains 1 := fun e t => hcall (.expr e t)
  cases e with
  | literal v => exact fun _ => .value v
  | name x => exact fun _ => .loadName
  | this => exact fun _ => .plain 0 1 rfl
  | assign line target value =>
    cases target with
    | name x =>
      cases value with
      | function line f => exact .store (hcall (.function f (some x) line) s _)
      | _ => exact .store (expr _ false s _)
    | member object x =>
      intro h
      have hset : (step (.named .setMember x)).Rises (h + 2) (h + 1) := .named 2 1 fun _ => rfl
      exact ((expr object false s _ h).append (expr value false s _ (h + 1))).append hset
    | index object index =>
      intro h
      have hset : (plain .setIndex).Rises (h + 3) (h + 1) := .plain 3 1 rfl
      exact (((expr object false s _ h).append (expr index false s _ (h + 1))).append
        (expr value false s _ (h + 2))).append hset
    | _ => exact .refuse
  | binary op lhs rhs =>
    exact fun h => ((expr lhs false s _ h).append (expr rhs false s _ (h + 1))).append (.binary op)
  | logical op lhs rhs => exact .logical (expr lhs false s _) (expr rhs false s _)
  | unary op operand => exact fun h => (expr operand false s _ h).append (.unary op)
  | call line callee args =>
    have hargs := hcall (.args args "call" line [])
    exact fun h => ((expr callee false s _ h).append (.unmixed (hargs s _ (h + 1)))).append
      (.callOp args _)
  | methodCall line object x args =>
    intro h
    have hmethod : (step (.named .getMethod x)).Rises (h + 1) (h + 2) := .named 1 2 fun _ => rfl
    have hargs := hcall (.args args "method call" line [])
    exact (((expr object false s _ h).append hmethod).append (.unmixed (hargs s _ (h + 2)))).append
      (.methodOp args line)
  | member object x =>
    intro h
    have hget : (step (.named .getMember x)).Rises (h + 1) (h + 1) := .named 1 1 fun _ => rfl
    exact (expr object false s _ h).append hget
  | index object index =>
    intro h
    have hget : (plain .getIndex).Rises (h + 2) (h + 1) := .plain 2 1 rfl
    exact ((expr object false s _ h).append (expr index false s _ (h + 1))).append hget
  | array items =>
    refine fun h => (hcall (.exprs items) s _ h).append (.count _ 1 fun ha => ?_)
    simp only [effectOf, Instruction.unsigned_pack (Nat.lt_succ_of_le ha), Task.gain]
  | map entries =>
    refine fun h => (hcall (.entries entries) s _ h).append (.count _ 1 fun ha => ?_)
    simp only [effectOf, Instruction.unsigned_pack (Nat.lt_succ_of_le ha), Task.gain]
  | function line f => exact hcall (.function f none line) s _
  | conditional cond thenE elseE =>
    exact .conditional (expr cond false s _) (expr thenE terminal s _) (expr elseE terminal s _)
  | case subject arms default =>
    refine .selection (expr subject false s _) fun x done first h => ?_
    have hdefault := hcall (.exprOr default terminal)
    have hresults := hcall (.armResults arms terminal first done)
    exact ((((hcall (.armTests arms x first) s _ h).append (hdefault s _ h)).append .leap).append
      (hresults s _ (h + 1))).append .place
  | yield line value =>
    rw [visitExpr]
    split
    · intro h
      have hyield : (plain .yield).Rises (h + 1) (h + 1) := .plain 1 1 rfl
      exact (hcall (.exprOr value false) s _ h).append hyield
    · exact .refuse

/-- What a call for a statement adds. -/
theorem gains_visitForm (form : StmtForm) (line : Nat) (s : Setting)
    {call : Answers (sizeOf form + Setting.weight s.regions)}
    (hcall : ∀ t s' hlt, (call t s' hlt).Gains t.gain) :
    (visitForm form line s fun t s h => call t s h).Gains 0 := by
  have expr : ∀ e t s' hlt, (call (.expr e t) s' hlt).Gains 1 := fun e t => hcall (.expr e t)
  have stmt : ∀ b s' hlt, (call (.stmt b) s' hlt).Gains 0 := fun b => hcall (.stmt b)
  have stmts : ∀ body s' hlt, (call (.stmts body) s' hlt).Gains 0 := fun body => hcall (.stmts body)
  have unwind : ∀ n s' hlt, (call (.unwind n) s' hlt).Gains 0 := fun n => hcall (.unwind n)
  cases form with
  | expr e => exact fun h => (expr e false s _ h).append .discard
  | var x init =>
    cases init with
    | none => exact fun h => .append (m := h + 1) (.plain 0 1 rfl) .declareAndStore
    | some e =>
      cases e with
      | function line f =>
        exact fun h => ((Draft.Rises.quiet rfl).append
          (hcall (.function f (some x) line) s _ h)).append .storeSlot
      | _ => exact fun h => (expr _ false s _ h).append .declareAndStore
  | block body => exact .block (stmts body s _)
  | ifElse cond thenS elseS =>
    cases elseS with
    | none => exact .ifThen (expr cond false s _) (stmt thenS s _)
    | some elseS => exact .ifElse (expr cond false s _) (stmt thenS s _) (stmt elseS s _)
  | whileDo cond body =>
    rw [visitForm]
    exact .whileDo (expr cond false s _) fun top done => stmt body (s.inLoop done (some top)) _
  | forLoop init cond afterwards body =>
    rw [visitForm]
    exact .forLoop (hcall (.optional init) s _) (fun done => hcall (.condition cond done) s _)
      (fun next done => stmt body (s.inLoop done (some next)) _) (hcall (.effect afterwards) s _)
  | forIn x iterable body =>
    rw [visitForm]
    exact .forIn (expr iterable false s _) fun next done => stmt body (s.inLoop done (some next)) _
  | breakLoop =>
    rw [visitForm]
    cases s.loops.head? with
    | none => exact .refuse
    | some l => exact fun h => (unwind _ s _ h).append .leap
  | continueLoop =>
    rw [visitForm]
    cases continuable? s.loops with
    | none => exact .refuse
    | some target => exact fun h => (unwind _ s _ h).append .leap
  | ret value =>
    cases value with
    | none =>
      rw [visitForm]
      split
      · exact fun h => .append (m := h + 1) (.plain 0 1 rfl) ((unwind _ s _).ret h)
      · exact .refuse
    | some e =>
      rw [visitForm]
      split
      · intro h
        apply (expr e _ s _ h).append
        split
        · exact Draft.Rises.nil.weaken (Nat.le_succ h)
        · exact (unwind _ s _).ret h
      · exact .refuse
  | throw e =>
    intro h
    have hthrow : (plain .throw).Rises (h + 1) h := .plain 1 0 rfl
    exact (expr e false s _ h).append hthrow
  | tryCatch body handler cleanup =>
    have hprotect : (step .protect).Gains 0 := fun _ => .quiet rfl
    obtain _ | ⟨x, clause⟩ := handler
    · cases cleanup with
      | none => exact .refuse
      | some cleanup => exact hprotect.seq (.cleaned (stmts cleanup s _) (.block (stmts body _ _)))
    · cases cleanup with
      | none => exact hprotect.seq (.guarded (stmts clause _ _) (stmts body _ _))
      | some cleanup =>
        exact hprotect.seq (.cleaned (stmts cleanup s _) (.guarded (stmts clause _ _) (stmts body _ _)))
  | switch subject cases default =>
    refine .selection (expr subject false s _) fun x done first h => ?_
    refine (hcall (.caseTests cases x first) s _ h).append (.withLabel fun other => ?_)
    have hbodies := hcall (.caseBodies cases first done)
    have hdefault := hcall (.fallback default)
    exact (((Draft.Rises.leap.append (hbodies _ _ h)).append .place).append
      (hdefault _ _ h)).append .place
  | function x f =>
    exact fun h => (Draft.Rises.predeclare.append (hcall (.function f _ line) s _ h)).append
      .bindDeclared
  | classDef x parent body =>
    intro h
    exact ((Draft.Rises.predeclare.append (hcall (.exprOr parent false) s _ h)).append
      (.unit 1 1 (fun _ => rfl) ((stmts body s.inObject _).object 0))).append .bindDeclared
  | namespaceDef x body =>
    exact fun h => (Draft.Rises.predeclare.append
      (.unit 0 1 (fun _ => rfl) ((stmts body s.inObject _).object 0))).append .bindDeclared

/-- What a call adds, given what the calls add that it makes. -/
theorem gains_visitBelow (t : Task) (s : Setting) {call : Answers (t.cost s)}
    (hcall : ∀ t' s' hlt, (call t' s' hlt).Gains t'.gain) :
    (visitBelow t s fun t' s' h => call t' s' h).Gains t.gain := by
  have expr : ∀ e terminal s' hlt, (call (.expr e terminal) s' hlt).Gains 1 :=
    fun e terminal => hcall (.expr e terminal)
  have stmt : ∀ b s' hlt, (call (.stmt b) s' hlt).Gains 0 := fun b => hcall (.stmt b)
  have stmts : ∀ body s' hlt, (call (.stmts body) s' hlt).Gains 0 := fun body => hcall (.stmts body)
  cases t with
  | expr e terminal => exact gains_visitExpr e terminal s hcall
  | form form line => exact gains_visitForm form line s hcall
  | exprOr e terminal =>
    cases e with
    | none => exact fun _ => .plain 0 1 rfl
    | some e => exact expr e terminal s _
  | exprs items =>
    cases items with
    | nil => exact .nil
    | cons e rest => exact .cons (expr e false s _) (hcall (.exprs rest) s _)
  | tests values x l =>
    cases values with
    | nil => exact .nil
    | cons e rest =>
      intro h
      have heq : (plain .eq).Rises (h + 2) (h + 1) := .plain 2 1 rfl
      exact (((Draft.Rises.loadSlot.append (expr e false s _ (h + 1))).append heq).append
        .jumpTrue).append (hcall (.tests rest x l) s _ h)
  | args items name line names =>
    cases items with
    | nil => exact .nil
    | cons a rest =>
      have hrest := hcall (.args rest name line names)
      cases a with
      | positional e =>
        rw [visitBelow, Task.gain, Arg.width_positional]
        split
        · exact .cons (expr e false s _) (hrest s _)
        · exact .refuse
      | spread e =>
        rw [visitBelow, Task.gain, Arg.width_spread]
        split
        · exact .cons (fun h => (expr e false s _ h).append (.plain 1 1 rfl)) (hrest s _)
        · exact .refuse
      | named x e =>
        rw [visitBelow, Task.gain, Arg.width_named]
        split
        · exact .refuse
        · exact .pair (fun _ => .loadConst) (expr e false s _)
            (hcall (.args rest name line (x :: names)) s _)
  | entries items =>
    cases items with
    | nil => exact .nil
    | cons entry rest =>
      cases entry with
      | named x v =>
        exact .pair (fun _ => .loadConst) (expr v false s _) (hcall (.entries rest) s _)
      | computed k v =>
        exact .pair (expr k false s _) (expr v false s _) (hcall (.entries rest) s _)
  | armTests arms x first =>
    cases arms with
    | nil => exact .nil
    | cons arm rest =>
      cases arm with
      | mk values result =>
        exact .seq (hcall (.tests values x first) s _) (hcall (.armTests rest x (first + 1)) s _)
  | armResults arms terminal first done =>
    cases arms with
    | nil => exact .nil
    | cons arm rest =>
      cases arm with
      | mk values result =>
        exact .result (expr result terminal s _)
          (hcall (.armResults rest terminal (first + 1) done) s _)
  | function f binding line =>
    obtain ⟨params, variadic, generator, body⟩ := f
    rw [visitBelow]
    cases firstRepeated? [] (params.map Param.name) with
    | some x => exact .refuse
    | none =>
      exact fun _ => .unit 0 1 (fun _ => rfl) ((Draft.Gains.seq (hcall (.params params 0) _ _)
        (hcall (.body body) _ _)) 0)
  | params items i =>
    cases items with
    | nil => exact .nil
    | cons param rest =>
      obtain ⟨x, default⟩ := param
      cases default with
      | none => exact hcall (.params rest (i + 1)) s _
      | some e => exact .seq (.default (expr e false s _)) (hcall (.params rest (i + 1)) s _)
  | body items =>
    cases items with
    | nil => exact fun _ => .returnNil
    | cons b rest =>
      obtain ⟨line, form⟩ := b
      cases rest with
      | cons next rest => cases form <;> exact .seq (stmt _ s _) (hcall (.body (next :: rest)) s _)
      | nil =>
        cases form with
        | expr e =>
          rw [visitBelow]
          intro h
          apply (Draft.Rises.markLine.append (expr e true s _ h)).append
          split
          · exact Draft.Rises.nil.weaken (Nat.le_succ h)
          · exact .plain 1 0 rfl
        | ret value =>
          exact fun h => Draft.Rises.markLine.append (hcall (.form (.ret value) line) s _ h)
        | _ =>
          exact fun h => (Draft.Rises.markLine.append (hcall (.form _ line) s _ h)).append .returnNil
  | stmt b =>
    obtain ⟨line, form⟩ := b
    exact fun h => Draft.Rises.markLine.append (hcall (.form form line) s _ h)
  | stmts items =>
    cases items with
    | nil => exact .nil
    | cons b rest => exact .seq (stmt b s _) (hcall (.stmts rest) s _)
  | optional b =>
    cases b with
    | none => exact .nil
    | some b => exact stmt b s _
  | fallback items =>
    cases items with
    | none => exact .nil
    | some body => exact .block (stmts body s _)
  | condition e done =>
    cases e with
    | none => exact .nil
    | some e => exact fun h => (expr e false s _ h).append .jumpFalse
  | effect e =>
    cases e with
    | none => exact .nil
    | some e => exact fun h => (expr e false s _ h).append .discard
  | caseTests items x first =>
    cases items with
    | nil => exact .nil
    | cons item rest =>
      cases item with
      | mk values body =>
        exact .seq (hcall (.tests values x first) s _) (hcall (.caseTests rest x (first + 1)) s _)
  | caseBodies items first done =>
    cases items with
    | nil => exact .nil
    | cons item rest =>
      cases item with
      | mk values body =>
        exact fun h => ((Draft.Rises.place.append ((stmts body s _).block h)).append .leap).append
          (hcall (.caseBodies rest (first + 1) done) s _ h)
  | unwind n =>
    obtain ⟨config, kind, generator, self, regions, loops⟩ := s
    have handler : ∀ caught : Bool, (if caught then plain .endTry else nil).Gains 0 := by
      intro caught h
      cases caught with
      | false => exact .nil
      | true => exact .plain 0 0 rfl
    cases n with
    | zero => exact .nil
    | succ n =>
      cases regions with
      | nil => exact .nil
      | cons r rest =>
        obtain ⟨caught, cleanup⟩ := r
        have hrest := hcall (.unwind n) ⟨config, kind, generator, self, rest, loops⟩
        cases cleanup with
        | none => exact .seq (.seq (handler caught) .nil) (hrest _)
        | some clause =>
          have hclause : ∀ d : Draft, d.Gains 0 → (plain .endTry ++ delay fun _ => d).Gains 0 :=
            fun d hd h => .append (m := h) (.plain 0 0 rfl) (hd h)
          exact .seq (.seq (handler caught) (hclause _ (.block (stmts clause _ _)))) (hrest _)

/-! ### The lowering -/

/-- What the lowering of a task adds. Each call costs more than the calls that it makes. -/
theorem Task.gains_lowered (t : Task) (s : Setting) : (t.lowered s).Gains t.gain := by
  rw [← visitBelow_lowered t s]
  exact gains_visitBelow t s fun t' s' _ => gains_lowered t' s'
termination_by t.cost s

theorem Expr.gains_lower (e : Expr) (ctx : Context) (terminal : Bool) :
    (e.lower ctx terminal).Gains 1 := by
  rw [← Expr.lower_bare]
  exact (Task.expr e terminal).gains_lowered
    { config := ctx.config, kind := ctx.kind, generator := ctx.generator, self := ctx.self }

theorem Program.rises_script (config : Config) (program : List Stmt) :
    ∃ k, (Program.script config program).Rises 0 k := by
  have hbody : (Stmt.lowerAll program { config }).Gains 0 :=
    (Task.stmts program).gains_lowered { config }
  obtain ⟨k, hk, -⟩ := hbody.object 0 {}
  exact ⟨k, hk.cut⟩

/-- The draft is complete, and the assembler does all that it asks for. -/
def Draft.Succeeds (d : Draft) (supply : Supply) (a b : Assembler) : Prop :=
  (d.rest? supply).isSome = true ∧ Step.runAll (d.scriptFrom supply) a = .ok () b

theorem Draft.Gains.le_depth {d : Draft} {n : Nat} {supply : Supply} {a b : Assembler}
    (hd : d.Gains n) (h : d.Succeeds supply a b) : a.current.depth + n ≤ b.current.depth := by
  obtain ⟨hrest, hr⟩ := h
  obtain ⟨s₁, hrest⟩ := Option.isSome_iff_exists.mp hrest
  obtain ⟨m, hs, hm⟩ := hd a.current.depth supply
  exact Nat.le_trans (hm s₁ hrest) (hs.cut.le_depth (Nat.le_refl _) hr)

/-- The recorded height is never cut, whether the compilation of a program succeeds or not: each
instruction finds the values that it takes at the height that is recorded when it is appended, and a
duplication that is taken back has left its value. An expression that is compiled raises the recorded
height of its unit by one at least, and a statement does not lower it, whatever regions and loops
there are around it. -/
theorem recordedHeight_uncut :
    (∀ (config : Config) (program : List Stmt) (x : Step) (a : Assembler),
        Step.Attempts (Program.script config program) (.start config) x a → x.Covered a)
      ∧ (∀ (e : Expr) (ctx : Context) (terminal : Bool) (supply : Supply) (a b : Assembler),
        (e.lower ctx terminal).Succeeds supply a b → a.current.depth + 1 ≤ b.current.depth)
      ∧ ∀ (stmt : Stmt) (s : Setting) (supply : Supply) (a b : Assembler),
        (stmt.lower s.context).Succeeds supply a b → a.current.depth ≤ b.current.depth := by
  refine ⟨?_, ?_, ?_⟩
  · intro config program x a hx
    obtain ⟨k, hk⟩ := Program.rises_script config program
    exact hk.covered (Nat.zero_le _) hx
  · intro e ctx terminal supply a b h
    exact (e.gains_lower ctx terminal).le_depth h
  · intro stmt s supply a b h
    exact ((Task.stmt stmt).gains_lowered s).le_depth h

/-- An assignment: `x = true` -/
def assignedTrue : Expr := .assign 1 (.name "x") (.literal (.bool true))

/-- The value of the assignment is not needed, and its duplication is taken back. -/
theorem recordedHeight_uncut_assignedTrue :
    ∃ a b c, Step.Attempts (Program.script .plain [.mk 1 (.expr assignedTrue)]) (.start .plain)
        .discard b
      ∧ b.current.endsInSpareDup = true ∧ 1 ≤ b.current.depth
      ∧ (assignedTrue.lower { config := .plain } false).Succeeds {} a b
      ∧ a.current.depth + 1 ≤ b.current.depth
      ∧ ((Stmt.mk 1 (.expr assignedTrue)).lower (Setting.context { config := .plain })).Succeeds {}
        (.start .plain) c
      ∧ (Assembler.start .plain).current.depth ≤ c.current.depth := by
  have hok : EStateM.run' (do
      Step.run (.markLine 1)
      Step.runAll [.op .pushTrue, .op .dup, .storeName "x"]
      let b ← get
      Step.run .discard
      pure b.current.endsInSpareDup : Edit Assembler Bool) (.start .plain) = some true := by
    decide +kernel
  obtain ⟨c, hc⟩ := Edit.exists_of_run' hok
  obtain ⟨⟨⟩, a, ha, hc⟩ := Edit.bind_eq_ok.mp hc
  obtain ⟨⟨⟩, b, hb, hc⟩ := Edit.bind_eq_ok.mp hc
  obtain ⟨b', b'', hget, hc⟩ := Edit.bind_eq_ok.mp hc
  obtain ⟨h₁, h₂⟩ := Edit.get_eq_ok.mp hget
  rw [h₁, h₂] at hc
  obtain ⟨⟨⟩, c, hdiscard, hc⟩ := Edit.bind_eq_ok.mp hc
  obtain ⟨hdup, -⟩ := Edit.pure_eq_ok.mp hc
  have hbefore : Step.runAll [.markLine 1, .op .pushTrue, .op .dup, .storeName "x"] (.start .plain)
      = .ok () b := Step.runAll_cons_eq_ok.mpr ⟨a, ha, hb⟩
  have hattempted : Step.Attempts (Program.script .plain [.mk 1 (.expr assignedTrue)])
      (.start .plain) .discard b := Step.Attempts.of_runAll hbefore .here
  have hexpr : (assignedTrue.lower { config := .plain } false).Succeeds {} a b := ⟨rfl, hb⟩
  have hstmt : ((Stmt.mk 1 (.expr assignedTrue)).lower
      (Setting.context { config := .plain })).Succeeds {} (.start .plain) c :=
    ⟨rfl, Step.runAll_append_eq_ok.mpr ⟨b, hbefore, Step.runAll_cons_eq_ok.mpr ⟨c, hdiscard, rfl⟩⟩⟩
  obtain ⟨hcovered, hraised, hkept⟩ := recordedHeight_uncut
  exact ⟨a, b, c, hattempted, hdup, (hcovered _ _ _ _ hattempted).spare rfl hdup, hexpr,
    hraised _ _ _ _ _ _ hexpr, hstmt, hkept _ _ _ _ _ hstmt⟩

end StackCode
