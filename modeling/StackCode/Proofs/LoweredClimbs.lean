import StackCode.Proofs.Climbs
import StackCode.Proofs.DraftPairs
import StackCode.Proofs.LoweredFrames

/-!
# Expressions climb by one

The draft of an expression leads from any height to the next one. It agrees with itself on the
heights at the labels that it draws, and jumps to no others.

* `Draft.Climbs`: a draft leads from one height to another;
* `Draft.Climbs.append`, `withLabel`, `block`, …: one rule for each way of making a draft;
* `Draft.Adds`: a draft that leaves some values, from any height;
* `Draft.Adds.conditional`, `Draft.Adds.case`, …: one rule for each construct with labels;
* `Expr.adds_lower`: every expression leaves one value.

The bodies of closures are not followed: they have code of their own.
-/

namespace StackCode

open Instruction (effectOf)
open Draft

/-! ### Drafts that climb -/

/-- A draft that is complete leads from one height to another, for all heights at the labels of
which `known` is true and which agree with the heights `own` at the labels that it draws. -/
def Draft.Climbs (known : (Label → Option Nat) → Prop) (d : Draft) (h k : Nat) : Prop :=
  ∀ s s₁, d.rest? s = some s₁ → ∃ own : List Nat, s₁.labels = s.labels + own.length
    ∧ ∀ heights, known heights → (∀ i t, own[i]? = some t → heights (s.labels + i) = some t) →
      Script.Climbs heights (d.steps s) h k

namespace Draft.Climbs

variable {known : (Label → Option Nat) → Prop} {d e : Draft} {h m k n : Nat} {l : Label}

theorem of_none (hd : ∀ s, d.rest? s = none) : d.Climbs known h k := by
  intro s s₁ hs
  rw [hd s] at hs
  cases hs

theorem refuse {line : Nat} {cause : Misuse} : (refuse line cause).Climbs known h k :=
  of_none fun _ => rfl

theorem nil : Draft.nil.Climbs known h h := by
  rintro s s₁ ⟨⟩
  exact ⟨[], rfl, fun _ _ _ => .done⟩

/-- One step, which draws no label. -/
theorem step {x : Step} (hx : ∀ heights, known heights → Script.Climbs heights [x] h k) :
    (Draft.step x).Climbs known h k := by
  rintro s s₁ ⟨⟩
  exact ⟨[], rfl, fun heights hk _ => hx heights hk⟩

theorem quiet {x : Step} (hx : x.isQuiet = true) : (Draft.step x).Climbs known h h :=
  step fun _ _ => .quiet hx .done

theorem append (hd : d.Climbs known h m) (he : e.Climbs known m k) :
    (d ++ e).Climbs known h k := by
  intro s s₂ hs
  obtain ⟨s₁, hs₁, hs₂⟩ := exists_of_append hs
  obtain ⟨own, hl, hd⟩ := hd s s₁ hs₁
  obtain ⟨own', hl', he⟩ := he s₁ s₂ hs₂
  refine ⟨own ++ own', by rw [List.length_append, hl', hl, Nat.add_assoc], ?_⟩
  intro heights hk hown
  rw [steps_append_of_some e hs₁]
  refine (hd heights hk fun i t hi => hown i t ?_).append (he heights hk fun i t hi => ?_)
  · rw [List.getElem?_append_left (List.getElem?_eq_some_iff.mp hi).1]
    exact hi
  · rw [hl, Nat.add_assoc]
    refine hown (own.length + i) t ?_
    rw [List.getElem?_append_right (Nat.le_add_right _ _), Nat.add_sub_cancel_left]
    exact hi

/-- Labels are drawn at which the height is going to be `t`. -/
theorem withLabels {F : Label → Draft} (t : Nat)
    (hF : ∀ l, (F l).Climbs
      (fun heights => known heights ∧ ∀ i < n, heights (l + i) = some t) h k) :
    (Draft.withLabels n F).Climbs known h k := by
  intro s s₁ hs
  rw [rest?_withLabels] at hs
  obtain ⟨own, hl, hF⟩ := hF s.labels _ s₁ hs
  refine ⟨List.replicate n t ++ own, ?_, ?_⟩
  · rw [hl, List.length_append, List.length_replicate, Nat.add_assoc]
  · intro heights hk hown
    have hnew : ∀ i < n, heights (s.labels + i) = some t := by
      intro i hi
      refine hown i t ?_
      rw [List.getElem?_append_left (by rw [List.length_replicate]; exact hi),
        List.getElem?_replicate, if_pos hi]
    have hrest := hF heights ⟨hk, hnew⟩ fun i t hi => by
      simp only [Nat.add_assoc]
      refine hown (n + i) t ?_
      rw [List.getElem?_append_right (by rw [List.length_replicate]; omega), List.length_replicate,
        Nat.add_sub_cancel_left]
      exact hi
    rw [steps_withLabels]
    exact hrest.newLabels n

theorem withLabel {F : Label → Draft} (t : Nat)
    (hF : ∀ l, (F l).Climbs (fun heights => known heights ∧ heights l = some t) h k) :
    (Draft.withLabel F).Climbs known h k := by
  intro s s₁ hs
  rw [rest?_withLabel] at hs
  obtain ⟨own, hl, hF⟩ := hF s.labels _ s₁ hs
  refine ⟨t :: own, ?_, ?_⟩
  · rw [hl, List.length_cons, Nat.add_assoc, Nat.add_comm 1]
  · intro heights hk hown
    rw [steps_withLabel]
    refine .newLabel (hF heights ⟨hk, hown 0 t rfl⟩ fun i u hi => ?_)
    simp only [Nat.add_assoc, Nat.add_comm 1]
    exact hown (i + 1) u hi

theorem withHidden {what : String} {F : String → Draft} (hF : ∀ x, (F x).Climbs known h k) :
    (Draft.withHidden what F).Climbs known h k := by
  intro s s₁ hs
  rw [rest?_withHidden] at hs
  obtain ⟨own, hl, hF⟩ := hF _ _ s₁ hs
  refine ⟨own, hl, fun heights hk hown => ?_⟩
  rw [steps_withHidden]
  exact hF heights hk hown

theorem block (hd : d.Climbs known h k) : (Draft.block d).Climbs known h k :=
  ((quiet rfl).append hd).append (quiet rfl)

/-- A closure, whatever its body. -/
theorem closure {kind : ScopeKind} {signature : Signature} {body : Draft} :
    (Draft.unit .makeClosure kind signature body).Climbs known h (h + 1) := by
  intro s s₁ hs
  rw [rest?_unit] at hs
  obtain ⟨s₂, -, rfl⟩ := Option.map_eq_some_iff.mp hs
  exact ⟨[], rfl, fun _ _ _ => .unit .done⟩

/-! ### Jumps and labels -/

theorem place (hl : ∀ heights, known heights → heights l = some h) :
    (place l).Climbs known h h :=
  step fun heights hk => .place (hl heights hk) .done

theorem jump {op : Opcode} (hl : ∀ heights, known heights → heights l = some (op.landing h))
    (hm : op.Lifts (effectOf op (.plain op)) h m) : (jump op l).Climbs known h m :=
  step fun heights hk => .jump (hl heights hk) hm .done

theorem jumpFalse (hl : ∀ heights, known heights → heights l = some h) :
    (StackCode.jump .jumpFalse l).Climbs known (h + 1) h :=
  jump hl (.of_eq (Nat.le_add_left 1 h) rfl)

theorem jumpTrue (hl : ∀ heights, known heights → heights l = some h) :
    (StackCode.jump .jumpTrue l).Climbs known (h + 1) h :=
  jump hl (.of_eq (Nat.le_add_left 1 h) rfl)

/-- The value is kept where the jump is taken. -/
theorem jumpLogical {op : LogicalOp} (hl : ∀ heights, known heights → heights l = some (h + 1)) :
    (StackCode.jump op.opcode l).Climbs known (h + 1) h := by
  cases op with
  | and => exact jump hl (.of_eq (Nat.le_add_left 1 h) rfl)
  | or => exact jump hl (.of_eq (Nat.le_add_left 1 h) rfl)

/-- Behind a jump that is always taken the height is any other that is no higher. -/
theorem leap (hl : ∀ heights, known heights → heights l = some h) (hm : m ≤ h) :
    (StackCode.jump .jump l).Climbs known h m :=
  jump hl ⟨Nat.zero_le _, hm, fun hf => absurd hf Bool.false_ne_true⟩

/-! ### Instructions -/

/-- A step that takes `n` values and leaves `m`, whatever instruction it writes. -/
theorem ordinary {x : Step} (n m : Nat) (hx : x.isWrite = true)
    (hi : ∀ i, x.Writes i → ∃ op, i.opcode? = some op ∧ op.isJump = false
      ∧ effectOf op i = ⟨n, m⟩) : (Draft.step x).Climbs known (h + n) (h + m) := by
  refine step fun _ _ => .write hx (fun i hw => ?_) .done
  obtain ⟨op, hop, hj, heff⟩ := hi i hw
  refine ⟨op, hop, hj, ?_⟩
  rw [heff]
  exact .of_eq (Nat.le_add_left n h) (by rw [Nat.add_sub_cancel])

theorem plain {op : Opcode} (n m : Nat) (hj : op.isJump = false)
    (heff : effectOf op (.plain op) = ⟨n, m⟩) : (plain op).Climbs known (h + n) (h + m) := by
  refine ordinary n m rfl fun i hi => ⟨op, ?_, hj, ?_⟩
  · rw [hi]
    exact Instruction.opcode?_plain op
  · rw [hi]
    exact heff

/-- An instruction whose operand is a count. -/
theorem count {op : Opcode} {a : Nat} (n m : Nat) (hj : op.isJump = false)
    (heff : a ≤ Instruction.maxUnsigned → effectOf op (.pack op a) = ⟨n, m⟩) :
    (Draft.step (.count op a)).Climbs known (h + n) (h + m) := by
  refine ordinary n m rfl fun i hi => ⟨op, ?_, hj, ?_⟩
  · rw [hi.2]
    exact Instruction.opcode?_pack (Nat.lt_succ_of_le hi.1)
  · rw [hi.2]
    exact heff hi.1

/-- An instruction whose operand the assembler finds in a table. -/
theorem indexed {x : Step} (op : Opcode) (n m : Nat) (hx : x.isWrite = true)
    (hw : ∀ i, x.Writes i → ∃ a, a ≤ Instruction.maxUnsigned ∧ i = .pack op a)
    (hj : op.isJump = false) (heff : ∀ i, effectOf op i = ⟨n, m⟩) :
    (Draft.step x).Climbs known (h + n) (h + m) := by
  refine ordinary n m hx fun i hi => ?_
  obtain ⟨a, ha, rfl⟩ := hw i hi
  exact ⟨op, Instruction.opcode?_pack (Nat.lt_succ_of_le ha), hj, heff _⟩

theorem named {op : Opcode} {name : String} (n m : Nat) (hj : op.isJump = false)
    (heff : ∀ i, effectOf op i = ⟨n, m⟩) :
    (Draft.step (.named op name)).Climbs known (h + n) (h + m) :=
  indexed op n m rfl (fun _ hi => hi) hj heff

theorem loadConst {v : Value} : (Draft.step (.loadConst v)).Climbs known h (h + 1) :=
  indexed .loadConst 0 1 rfl (fun _ hi => hi) rfl fun _ => rfl

theorem loadSlot {x : String} : (Draft.step (.slot .loadLocal x)).Climbs known h (h + 1) :=
  indexed .loadLocal 0 1 rfl (fun _ hi => hi) rfl fun _ => rfl

theorem storeSlot {x : String} : (Draft.step (.slot .storeLocal x)).Climbs known (h + 1) h :=
  indexed .storeLocal 1 0 rfl (fun _ hi => hi) rfl fun _ => rfl

theorem loadName {x : String} : (Draft.step (.loadName x)).Climbs known h (h + 1) := by
  refine ordinary 0 1 rfl fun i hi => ?_
  obtain ⟨place, hp, rfl⟩ := hi
  refine ⟨place.loadOp, Instruction.opcode?_pack (Nat.lt_succ_of_le hp), ?_⟩
  cases place <;> exact ⟨rfl, rfl⟩

theorem storeName {x : String} : (Draft.step (.storeName x)).Climbs known (h + 1) h := by
  refine ordinary 1 0 rfl fun i hi => ?_
  obtain ⟨place, hp, rfl⟩ := hi
  refine ⟨place.storeOp, Instruction.opcode?_pack (Nat.lt_succ_of_le hp), ?_⟩
  cases place <;> exact ⟨rfl, rfl⟩

theorem declareAndStore {x : String} : (declareAndStore x).Climbs known (h + 1) h :=
  (quiet rfl).append storeSlot

theorem value (v : Value) : v.lower.Climbs known h (h + 1) := by
  unfold Value.lower
  split
  · exact plain 0 1 rfl rfl
  · exact plain 0 1 rfl rfl
  · exact plain 0 1 rfl rfl
  · exact loadConst

theorem binary (op : BinaryOp) : (StackCode.plain op.opcode).Climbs known (h + 2) (h + 1) := by
  cases op <;> exact plain 2 1 rfl rfl

theorem unary (op : UnaryOp) : (StackCode.plain op.opcode).Climbs known (h + 1) (h + 1) := by
  cases op <;> exact plain 1 1 rfl rfl

/-- A call finds its arguments above the callee: a named one has its name below it. Behind a tail
call there is one value as well. -/
theorem callOp (args : List Arg) (tail : Bool) :
    (callOp args tail).Climbs known (h + 1 + (args.length + args.countP Arg.isNamed)) (h + 1) := by
  have hle : args.countP Arg.isNamed ≤ args.length := List.countP_le_length
  unfold StackCode.callOp
  simp only
  split
  · -- the machine does not come back from a tail call
    refine step fun _ _ => .write rfl (fun i hw => ?_) .done
    obtain ⟨ha, rfl⟩ := hw
    have hlt := Nat.lt_succ_of_le ha
    refine ⟨.tailCall, Instruction.opcode?_pack hlt, rfl, ?_⟩
    simp only [effectOf, Instruction.unsigned_pack hlt]
    exact ⟨by simp only; omega, by simp only; omega, fun hf => absurd hf Bool.false_ne_true⟩
  · split
    · unfold callNamedOp
      have hn : h + 1 + (args.length + args.countP Arg.isNamed)
          = h + (1 + (args.length - args.countP Arg.isNamed) + 2 * args.countP Arg.isNamed) := by
        omega
      split
      · exact of_none fun _ => rfl
      · rw [hn]
        refine ordinary _ 1 rfl fun i hi => ?_
        obtain ⟨⟨h₁, h₂⟩, rfl⟩ := hi
        refine ⟨.callNamed, Instruction.opcode?_pack ?_, rfl, ?_⟩
        · simp only [Instruction.maxPair] at h₁ h₂
          omega
        · simp only [effectOf, Instruction.pair_pack h₁ h₂]
    · have hn : h + 1 + (args.length + args.countP Arg.isNamed)
          = h + (args.length - args.countP Arg.isNamed + 1) := by
        omega
      rw [hn]
      refine count _ 1 rfl fun ha => ?_
      simp only [effectOf, Instruction.unsigned_pack (Nat.lt_succ_of_le ha)]

/-- A call of a method finds its arguments above the method and the object. -/
theorem methodOp (args : List Arg) (line : Nat) :
    (methodOp args line).Climbs known (h + 2 + (args.length + args.countP Arg.isNamed))
      (h + 1) := by
  unfold StackCode.methodOp
  split
  · exact refuse
  · next hnone =>
    have hzero : args.countP Arg.isNamed = 0 := by
      rw [List.countP_eq_zero]
      intro a ha hn
      exact hnone (List.any_eq_true.mpr ⟨a, ha, hn⟩)
    rw [hzero, Nat.add_zero, Nat.add_assoc, Nat.add_comm 2]
    refine count _ 1 rfl fun ha => ?_
    simp only [effectOf, Instruction.unsigned_pack (Nat.lt_succ_of_le ha)]

theorem unmixed {args : List Arg} {call : String} {line : Nat} (hd : d.Climbs known h k) :
    (unmixed args call line d).Climbs known h k := by
  unfold StackCode.unmixed
  split
  · exact refuse
  · exact hd

end Draft.Climbs

/-! ### Values that are left -/

/-- The draft leaves `n` values. -/
def Draft.Adds (d : Draft) (n : Nat) : Prop := ∀ known h, d.Climbs known h (h + n)

/-- The draft leaves nothing, and may jump to one of `count` labels. -/
def Draft.Selects (d : Draft) (first : Label) (count : Nat) : Prop :=
  ∀ (known : (Label → Option Nat) → Prop) h,
    (∀ heights, known heights → ∀ i < count, heights (first + i) = some h) → d.Climbs known h h

/-- The draft of several results, each of which jumps to `done`. Without any they start where they
end. -/
def Draft.Results (d : Draft) (first done : Label) (count : Nat) : Prop :=
  ∀ (known : (Label → Option Nat) → Prop) h,
    (∀ heights, known heights → ∀ i < count, heights (first + i) = some h) →
    (∀ heights, known heights → heights done = some (h + 1)) →
    d.Climbs known (if count = 0 then h + 1 else h) (h + 1)

namespace Draft.Adds

variable {c d e : Draft} {n : Nat}

theorem refuse {line : Nat} {cause : Misuse} : (refuse line cause).Adds n :=
  fun _ _ => .refuse

theorem nil : Draft.nil.Adds 0 := fun _ _ => .nil

/-- One value and then more. -/
theorem cons (hd : d.Adds 1) (he : e.Adds n) : (d ++ e).Adds (n + 1) := by
  intro known h
  rw [Nat.add_comm n, ← Nat.add_assoc]
  exact (hd known h).append (he known (h + 1))

/-- Two values and then more. -/
theorem pair (hc : c.Adds 1) (hd : d.Adds 1) (he : e.Adds n) : (c ++ d ++ e).Adds (n + 2) := by
  intro known h
  rw [Nat.add_comm n, ← Nat.add_assoc]
  exact ((hc known h).append (hd known (h + 1))).append (he known (h + 2))

/-- A value is assigned to a variable, and kept. -/
theorem store {x : String} (hd : d.Adds 1) :
    (d ++ plain .dup ++ step (.storeName x)).Adds 1 :=
  fun known h => ((hd known h).append (.plain 1 2 rfl rfl)).append .storeName

theorem logical {op : LogicalOp} (hd : d.Adds 1) (he : e.Adds 1) :
    (withLabel fun done => d ++ jump op.opcode done ++ e ++ place done).Adds 1 := by
  intro known h
  refine .withLabel (h + 1) fun done => ?_
  exact (((hd _ h).append (.jumpLogical fun _ => And.right)).append (he _ h)).append
    (.place fun _ => And.right)

theorem conditional (hc : c.Adds 1) (hd : d.Adds 1) (he : e.Adds 1) :
    (withLabel fun other => withLabel fun done => c ++ jump .jumpFalse other ++ d
      ++ jump .jump done ++ place other ++ e ++ place done).Adds 1 := by
  intro known h
  refine .withLabel h fun other => .withLabel (h + 1) fun done => ?_
  exact ((((((hc _ h).append (.jumpFalse fun _ hk => hk.1.2)).append (hd _ h)).append
    (.leap (fun _ => And.right) (Nat.le_add_right h 1))).append (.place fun _ hk => hk.1.2)).append
    (he _ h)).append (.place fun _ => And.right)

theorem case {count : Nat} {tests : String → Label → Draft} {results : Label → Label → Draft}
    (hd : d.Adds 1) (ht : ∀ x first, (tests x first).Selects first count) (he : e.Adds 1)
    (hr : ∀ first done, (results first done).Results first done count) :
    (block (d ++ withHidden "case" fun x => declareAndStore x ++ withLabel fun done =>
      withLabels count fun first => tests x first ++ e ++ jump .jump done ++ results first done
        ++ place done)).Adds 1 := by
  intro known h
  refine .block ((hd known h).append (.withHidden fun x => .append .declareAndStore ?_))
  refine .withLabel (h + 1) fun done => .withLabels h fun first => ?_
  refine ((((ht x first _ h fun _ hk => hk.2).append (he _ h)).append
    (.leap (fun _ hk => hk.1.2) ?_)).append (hr first done _ h (fun _ hk => hk.2)
    fun _ hk => hk.1.2)).append (.place fun _ hk => hk.1.2)
  split
  · exact Nat.le_refl _
  · exact Nat.le_add_right _ _

theorem function (f : Function) (ctx : Context) (binding : Option String) (line : Nat) :
    (f.lower ctx binding line).Adds 1 := by
  obtain ⟨params, variadic, generator, body⟩ := f
  rw [Function.lower]
  simp only
  split
  · exact refuse
  · exact fun _ _ => .closure

end Draft.Adds

namespace Draft.Selects

variable {d e : Draft} {first : Label} {count : Nat}

theorem nil : Draft.nil.Selects first count := fun _ _ _ => .nil

/-- One more value to compare with. -/
theorem value {x : String} (hd : d.Adds 1) (he : e.Selects first 1) :
    (step (.slot .loadLocal x) ++ d ++ plain .eq ++ jump .jumpTrue first ++ e).Selects first 1 := by
  intro known h hl
  have heq : (plain .eq).Climbs known (h + 2) (h + 1) := .plain 2 1 rfl rfl
  exact (((Climbs.loadSlot.append (hd known (h + 1))).append heq).append
    (.jumpTrue fun heights hk => hl heights hk 0 Nat.zero_lt_one)).append (he known h hl)

/-- The tests of one arm and then those of the others. -/
theorem cons (hd : d.Selects first 1) (he : e.Selects (first + 1) count) :
    (d ++ e).Selects first (count + 1) := by
  intro known h hl
  refine (hd known h fun heights hk i hi => hl heights hk i (by omega)).append (he known h ?_)
  intro heights hk i hi
  rw [Nat.add_assoc, Nat.add_comm 1]
  exact hl heights hk (i + 1) (Nat.succ_lt_succ hi)

end Draft.Selects

namespace Draft.Results

variable {d e : Draft} {first done : Label} {count : Nat}

theorem nil : Draft.nil.Results first done 0 := fun _ _ _ _ => .nil

/-- One result and then the others. -/
theorem cons (hd : d.Adds 1) (he : e.Results (first + 1) done count) :
    (place first ++ d ++ jump .jump done ++ e).Results first done (count + 1) := by
  intro known h hl hdone
  rw [if_neg (Nat.succ_ne_zero count)]
  refine (((Climbs.place fun heights hk => hl heights hk 0 (Nat.zero_lt_succ _)).append
    (hd known h)).append (.leap hdone ?_)).append (he known h ?_ hdone)
  · split
    · exact Nat.le_refl _
    · exact Nat.le_add_right _ _
  · intro heights hk i hi
    rw [Nat.add_assoc, Nat.add_comm 1]
    exact hl heights hk (i + 1) (Nat.succ_lt_succ hi)

end Draft.Results

/-! ### The recursion -/

mutual

/-- Every expression leaves one value. -/
theorem Expr.adds_lower (e : Expr) (ctx : Context) (terminal : Bool) :
    (e.lower ctx terminal).Adds 1 := by
  cases e with
  | literal v => exact fun _ _ => .value v
  | name x => exact fun _ _ => .loadName
  | this => exact fun _ _ => .plain 0 1 rfl rfl
  | assign line target value =>
    have hv := value.adds_lower ctx false
    cases target with
    | name x =>
      cases value with
      | function line f => exact .store (.function f ctx (some x) line)
      | _ => exact .store hv
    | member object x =>
      have ho := object.adds_lower ctx false
      exact fun known h => ((ho known h).append (hv known (h + 1))).append
        (.named 2 1 rfl fun _ => rfl)
    | index object index =>
      have ho := object.adds_lower ctx false
      have hi := index.adds_lower ctx false
      exact fun known h => (((ho known h).append (hi known (h + 1))).append
        (hv known (h + 2))).append (.plain 3 1 rfl rfl)
    | _ => exact .refuse
  | binary op lhs rhs =>
    have hl := lhs.adds_lower ctx false
    have hr := rhs.adds_lower ctx false
    exact fun known h => ((hl known h).append (hr known (h + 1))).append (.binary op)
  | logical op lhs rhs => exact .logical (lhs.adds_lower ctx false) (rhs.adds_lower ctx false)
  | unary op operand =>
    exact fun known h => (operand.adds_lower ctx false known h).append (.unary op)
  | call line callee args =>
    have hc := callee.adds_lower ctx false
    have ha := Arg.adds_lower args ctx "call" line []
    exact fun known h => ((hc known h).append (.unmixed (ha known (h + 1)))).append (.callOp args _)
  | methodCall line object x args =>
    have ho := object.adds_lower ctx false
    have ha := Arg.adds_lower args ctx "method call" line []
    exact fun known h => (((ho known h).append (.named 1 2 rfl fun _ => rfl)).append
      (.unmixed (ha known (h + 2)))).append (.methodOp args line)
  | member object x =>
    exact fun known h => (object.adds_lower ctx false known h).append (.named 1 1 rfl fun _ => rfl)
  | index object index =>
    have ho := object.adds_lower ctx false
    have hi := index.adds_lower ctx false
    exact fun known h => ((ho known h).append (hi known (h + 1))).append (.plain 2 1 rfl rfl)
  | array items =>
    refine fun known h =>
      (Expr.adds_lowerAll items ctx known h).append (.count _ 1 rfl fun ha => ?_)
    simp only [effectOf, Instruction.unsigned_pack (Nat.lt_succ_of_le ha)]
  | map entries =>
    refine fun known h =>
      (Entry.adds_lower entries ctx known h).append (.count _ 1 rfl fun ha => ?_)
    simp only [effectOf, Instruction.unsigned_pack (Nat.lt_succ_of_le ha)]
  | function line f => exact .function f ctx none line
  | conditional cond thenE elseE =>
    exact .conditional (cond.adds_lower ctx false) (thenE.adds_lower ctx terminal)
      (elseE.adds_lower ctx terminal)
  | case subject arms default =>
    exact .case (subject.adds_lower ctx false) (Arm.selects_lowerTests arms ctx)
      (Expr.adds_lowerOr default ctx terminal) (Arm.results_lowerResults arms ctx terminal)
  | yield line value =>
    have hv := Expr.adds_lowerOr value ctx false
    show (if ctx.generator then _ else _ : Draft).Adds 1
    split
    · exact fun known h => (hv known h).append (.plain 1 1 rfl rfl)
    · exact .refuse
termination_by structural e

theorem Expr.adds_lowerOr (e : Option Expr) (ctx : Context) (terminal : Bool) :
    (Expr.lowerOr e ctx terminal).Adds 1 := by
  cases e with
  | none => exact fun _ _ => .plain 0 1 rfl rfl
  | some e => exact e.adds_lower ctx terminal
termination_by structural e

theorem Expr.adds_lowerAll (items : List Expr) (ctx : Context) :
    (Expr.lowerAll items ctx).Adds items.length := by
  cases items with
  | nil => exact .nil
  | cons e rest => exact .cons (e.adds_lower ctx false) (Expr.adds_lowerAll rest ctx)
termination_by structural items

theorem Expr.selects_lowerTests (values : List Expr) (ctx : Context) (x : String) (l : Label) :
    (Expr.lowerTests values ctx x l).Selects l 1 := by
  cases values with
  | nil => exact .nil
  | cons e rest => exact .value (e.adds_lower ctx false) (Expr.selects_lowerTests rest ctx x l)
termination_by structural values

/-- A named argument has its name below it. -/
theorem Arg.adds_lower (args : List Arg) (ctx : Context) (call : String) (line : Nat)
    (names : List String) :
    (Arg.lower args ctx call line names).Adds (args.length + args.countP Arg.isNamed) := by
  cases args with
  | nil => exact .nil
  | cons a rest =>
    cases a with
    | positional e =>
      have he := e.adds_lower ctx false
      have hrest := Arg.adds_lower rest ctx call line names
      rw [Arg.lower, Arg.width_positional]
      split
      · exact .cons he hrest
      · exact .refuse
    | spread e =>
      have he := e.adds_lower ctx false
      have hrest := Arg.adds_lower rest ctx call line names
      rw [Arg.lower, Arg.width_spread]
      split
      · exact .cons (fun known h => (he known h).append (.plain 1 1 rfl rfl)) hrest
      · exact .refuse
    | named x e =>
      have he := e.adds_lower ctx false
      have hrest := Arg.adds_lower rest ctx call line (x :: names)
      rw [Arg.lower, Arg.width_named]
      split
      · exact .refuse
      · exact .pair (fun _ _ => .loadConst) he hrest
termination_by structural args

/-- A key and a value for each entry. -/
theorem Entry.adds_lower (entries : List Entry) (ctx : Context) :
    (Entry.lower entries ctx).Adds (2 * entries.length) := by
  cases entries with
  | nil => exact .nil
  | cons entry rest =>
    have hrest := Entry.adds_lower rest ctx
    cases entry with
    | named x v => exact .pair (fun _ _ => .loadConst) (v.adds_lower ctx false) hrest
    | computed k v => exact .pair (k.adds_lower ctx false) (v.adds_lower ctx false) hrest
termination_by structural entries

theorem Arm.selects_lowerTests (arms : List Arm) (ctx : Context) (x : String) (first : Label) :
    (Arm.lowerTests arms ctx x first).Selects first arms.length := by
  cases arms with
  | nil => exact .nil
  | cons arm rest =>
    cases arm with
    | mk values result =>
      exact .cons (Expr.selects_lowerTests values ctx x first)
        (Arm.selects_lowerTests rest ctx x (first + 1))
termination_by structural arms

theorem Arm.results_lowerResults (arms : List Arm) (ctx : Context) (terminal : Bool)
    (first done : Label) :
    (Arm.lowerResults arms ctx terminal first done).Results first done arms.length := by
  cases arms with
  | nil => exact .nil
  | cons arm rest =>
    cases arm with
    | mk values result =>
      exact .cons (result.adds_lower ctx terminal)
        (Arm.results_lowerResults rest ctx terminal (first + 1) done)
termination_by structural arms

end

end StackCode
