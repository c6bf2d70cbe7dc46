import StackCode.Proofs.Charts

/-!
# Paths through charted code

A chart says what every path finds at a position. When jumps agree with their labels in the
handlers, the code is balanced; when they agree in the height, the heights are bounded.

* `Frame.SameGuards`, `Frame.SameHeight`: the two ways in which a jump can agree with its label;
* `Chart.handlerPath`, `Chart.heightPath`: a path arrives with the frame of the chart;
* `handlersBalanced_of_charted`, `heightsBounded_of_charted`.
-/

namespace StackCode

open Instruction (effectOf)

/-- Two frames with the same handlers. -/
def Frame.SameGuards (f g : Frame) : Prop := f.guards = g.guards

/-- Two frames of the same height. -/
def Frame.SameHeight (f g : Frame) : Prop := f.height = g.height

section Chart

variable {M : Frame → Frame → Prop} {c : CodeObject} {trail labels : List Frame}
  {position : Label → Option Nat} {p : Nat} {i : Instruction} {op : Opcode}

/-- An instruction that is no jump passes. -/
theorem Chart.passes (h : Chart M c trail labels position) (hi : c.code[p]? = some i)
    (hop : i.opcode? = some op) (hj : op.isJump = false) :
    ∃ f g, trail[p]? = some f ∧ trail[p + 1]? = some g ∧ Passes labels op (effectOf op i) f g := by
  obtain ⟨_, f, g, hop', hf, hg, hfg⟩ := h.steps p i hi
  obtain rfl := Option.some.inj (hop.symm.trans hop')
  obtain hp | ⟨_, _, _, -, -, -, -, hb⟩ := hfg
  · exact ⟨f, g, hf, hg, hp⟩
  · exact absurd (hj.symm.trans hb.jump) Bool.false_ne_true

/-- A jump branches, and the frame of its label stands where it leads to. -/
theorem Chart.branches (h : Chart M c trail labels position) (hi : c.code[p]? = some i)
    (hop : i.opcode? = some op) (hj : op.isJump = true) :
    ∃ f g t l q, trail[p]? = some f ∧ trail[p + 1]? = some g ∧ position l = some q
      ∧ i.jumpTarget? p = some q ∧ trail[q]? = some t
      ∧ effectOf op i = effectOf op (.plain op) ∧ Branches M labels op l f t g := by
  obtain ⟨_, f, g, hop', hf, hg, hfg⟩ := h.steps p i hi
  obtain rfl := Option.some.inj (hop.symm.trans hop')
  obtain hp | ⟨l, t, q, hq, ht, hl, he, hb⟩ := hfg
  · exact absurd (hp.plain.symm.trans hj) Bool.false_ne_true
  · exact ⟨f, g, t, l, q, hf, hg, hq, ht, (h.placed l q hq).trans hl, he, hb⟩

end Chart

/-! ### Handlers -/

/-- The handlers on a path are the ones that a frame knows by their labels. -/
def Installed (position : Label → Option Nat) : List Handler → List Guard → Prop
  | [], [] => True
  | x :: hs, g :: gs => x.op = g.op ∧ position g.label = some x.target ∧ Installed position hs gs
  | _, _ => False

theorem Installed.unique {position : Label → Option Nat} {hs hs' : List Handler} {gs : List Guard}
    (h : Installed position hs gs) (h' : Installed position hs' gs) : hs = hs' := by
  induction gs generalizing hs hs' with
  | nil =>
    cases hs with
    | nil =>
      cases hs' with
      | nil => rfl
      | cons _ _ => exact h'.elim
    | cons _ _ => exact h.elim
  | cons g gs ih =>
    cases hs with
    | nil => exact h.elim
    | cons x hs =>
      cases hs' with
      | nil => exact h'.elim
      | cons x' hs' =>
        obtain ⟨ho, hp, h⟩ := h
        obtain ⟨ho', hp', h'⟩ := h'
        obtain ⟨op, target⟩ := x
        obtain ⟨op', target'⟩ := x'
        simp only at ho ho' hp hp'
        rw [ih h h', ho, ho', Option.some.inj (hp.symm.trans hp')]

theorem Installed.nil_iff {position : Label → Option Nat} {hs : List Handler} {gs : List Guard}
    (h : Installed position hs gs) : hs = [] ↔ gs = [] := by
  cases hs with
  | nil =>
    cases gs with
    | nil => exact ⟨fun _ => rfl, fun _ => rfl⟩
    | cons _ _ => exact h.elim
  | cons _ _ =>
    cases gs with
    | nil => exact h.elim
    | cons _ _ => simp

variable {c : CodeObject} {trail labels : List Frame} {position : Label → Option Nat}

/-- Whatever path leads to a position, the handlers are those of the chart. -/
theorem Chart.handlerPath (h : Chart Frame.SameGuards c trail labels position) {p : Nat}
    {hs : List Handler} (hp : HandlerPath c.code p hs) :
    ∃ f, trail[p]? = some f ∧ Installed position hs f.guards := by
  induction hp with
  | start => exact ⟨.start, h.first, trivial⟩
  | @next p hs i op _ hi hop hf hn he ih =>
    obtain ⟨f, hf', hin⟩ := ih
    cases hj : op.isJump with
    | false =>
      obtain ⟨f', g, hf'', hg, hp⟩ := h.passes hi hop hj
      obtain rfl := Option.some.inj (hf'.symm.trans hf'')
      exact ⟨g, hg, by rw [hp.keeps hf he]; exact hin⟩
    | true =>
      obtain ⟨f', g, t, l, q, hf'', hg, -, -, -, -, hb⟩ := h.branches hi hop hj
      obtain rfl := Option.some.inj (hf'.symm.trans hf'')
      have hne : op ≠ .jump := by
        rintro rfl
        exact absurd hf (by decide)
      exact ⟨g, hg, by rw [hb.keeps hne hn]; exact hin⟩
  | @install p t hs i op _ hi hop hn ht ih =>
    obtain ⟨f, hf, hin⟩ := ih
    have hj : op.isJump = true := by
      cases op <;> first | rfl | exact absurd hn Bool.false_ne_true
    obtain ⟨f', g, t', l, q, hf', hg, hq, ht', -, -, hb⟩ := h.branches hi hop hj
    obtain rfl := Option.some.inj (hf.symm.trans hf')
    obtain rfl := Option.some.inj (ht.symm.trans ht')
    exact ⟨g, hg, by rw [hb.installs hn]; exact ⟨rfl, hq, hin⟩⟩
  | @remove p x hs i _ hi hop ih =>
    obtain ⟨f, hf, hin⟩ := ih
    obtain ⟨f', g, hf', hg, hp⟩ := h.passes hi hop rfl
    obtain rfl := Option.some.inj (hf.symm.trans hf')
    obtain ⟨y, hy⟩ := hp.removes rfl
    rw [hy] at hin
    exact ⟨g, hg, hin.2.2⟩
  | @jump p t hs i op _ hi hop hb ht ih =>
    obtain ⟨f, hf, hin⟩ := ih
    have hj : op.isJump = true := by
      cases op <;> first | rfl | exact absurd hb Bool.false_ne_true
    obtain ⟨f', g, t', l, q, hf', -, -, ht', htrail, -, hbr⟩ := h.branches hi hop hj
    obtain rfl := Option.some.inj (hf.symm.trans hf')
    obtain rfl := Option.some.inj (ht.symm.trans ht')
    refine ⟨t', htrail, ?_⟩
    by_cases hne : op = .jump
    · have hsame : f.guards = t'.guards := hbr.meets hne
      rw [← hsame]
      exact hin
    · rw [hbr.lands hne]
      exact hin
  | @raise p x hs i _ hi ih =>
    obtain ⟨f, hf, hin⟩ := ih
    have hco := h.coherent f (List.mem_of_getElem? hf)
    cases hg : f.guards with
    | nil =>
      rw [hg] at hin
      exact hin.elim
    | cons y gs =>
      rw [hg] at hin hco
      obtain ⟨⟨t, ht, rfl⟩, -⟩ := hco
      exact ⟨t, (h.placed _ _ hin.2.1).trans ht, hin.2.2⟩

/-- Charted code is balanced, if jumps find the handlers of their labels. -/
theorem handlersBalanced_of_charted (h : Charted Frame.SameGuards c) : HandlersBalanced c.code := by
  obtain ⟨trail, labels, position, h⟩ := h
  refine ⟨?_, ?_, ?_⟩
  · intro p hs hs' hp hp'
    obtain ⟨f, hf, hin⟩ := h.handlerPath hp
    obtain ⟨f', hf', hin'⟩ := h.handlerPath hp'
    obtain rfl := Option.some.inj (hf.symm.trans hf')
    exact hin.unique hin'
  · intro p hs i hp hi hop
    obtain ⟨f, hf, hin⟩ := h.handlerPath hp
    obtain ⟨f', g, hf', -, hpass⟩ := h.passes hi hop rfl
    obtain rfl := Option.some.inj (hf.symm.trans hf')
    obtain ⟨x, hx⟩ := hpass.removes rfl
    rw [ne_eq, hin.nil_iff, hx]
    exact List.cons_ne_nil _ _
  · intro p hs i hp hi hop
    obtain ⟨f, hf, hin⟩ := h.handlerPath hp
    have hexit : ∃ op, i.opcode? = some op ∧ op.isJump = false ∧ (op = .ret ∨ op = .tailCall) := by
      obtain hop | hop := hop
      · exact ⟨.ret, hop, rfl, .inl rfl⟩
      · exact ⟨.tailCall, hop, rfl, .inr rfl⟩
    obtain ⟨op, hop, hj, he⟩ := hexit
    obtain ⟨f', g, hf', -, hpass⟩ := h.passes hi hop hj
    obtain rfl := Option.some.inj (hf.symm.trans hf')
    rw [hin.nil_iff]
    exact hpass.exit he

/-! ### Heights -/

/-- Whatever path leads to a position, the height is that of the chart. -/
theorem Chart.heightPath (h : Chart Frame.SameHeight c trail labels position) {p d : Nat}
    (hp : HeightPath c.code p d) : ∃ f, trail[p]? = some f ∧ f.height = d := by
  induction hp with
  | start => exact ⟨.start, h.first, rfl⟩
  | @next p d i op _ hi hop hf ih =>
    obtain ⟨f, hf', rfl⟩ := ih
    cases hj : op.isJump with
    | false =>
      obtain ⟨f', g, hf'', hg, hp⟩ := h.passes hi hop hj
      obtain rfl := Option.some.inj (hf'.symm.trans hf'')
      exact ⟨g, hg, hp.height_eq hf⟩
    | true =>
      obtain ⟨f', g, t, l, q, hf'', hg, -, -, -, he, hb⟩ := h.branches hi hop hj
      obtain rfl := Option.some.inj (hf'.symm.trans hf'')
      have hne : op ≠ .jump := by
        rintro rfl
        exact absurd hf (by decide)
      exact ⟨g, hg, by rw [hb.height_eq hne, he]; rfl⟩
  | @land p t d i op _ hi hop ht ih =>
    obtain ⟨f, hf, rfl⟩ := ih
    have hj : op.isJump = true := by
      cases hj : op.isJump with
      | true => rfl
      | false =>
        simp only [Instruction.jumpTarget?, hop, hj] at ht
        cases ht
    obtain ⟨f', g, t', l, q, hf', -, -, ht', htrail, -, hb⟩ := h.branches hi hop hj
    obtain rfl := Option.some.inj (hf.symm.trans hf')
    obtain rfl := Option.some.inj (ht.symm.trans ht')
    refine ⟨t', htrail, ?_⟩
    by_cases hne : op = .jump
    · have hsame : f.height = t'.height := hb.meets hne
      rw [← hsame, hne]
      rfl
    · rw [hb.lands hne]

/-- Charted code has bounded heights, if jumps find the height of their labels. -/
theorem heightsBounded_of_charted (h : Charted Frame.SameHeight c) : HeightsBounded c := by
  obtain ⟨trail, labels, position, h⟩ := h
  refine ⟨?_, ?_⟩
  · intro p d i e hp hi he
    obtain ⟨f, hf, rfl⟩ := h.heightPath hp
    obtain ⟨op, hop, rfl⟩ := Option.map_eq_some_iff.mp he
    cases hj : op.isJump with
    | false =>
      obtain ⟨f', g, hf', -, hpass⟩ := h.passes hi hop hj
      obtain rfl := Option.some.inj (hf.symm.trans hf')
      exact hpass.enough
    | true =>
      obtain ⟨f', g, t, l, q, hf', -, -, -, -, heff, hb⟩ := h.branches hi hop hj
      obtain rfl := Option.some.inj (hf.symm.trans hf')
      rw [heff]
      exact hb.enough
  · intro p d hp hroom
    obtain ⟨f, hf, rfl⟩ := h.heightPath hp
    obtain ⟨high, hle, hhigh, hmax⟩ := h.high
    have := hle f (List.mem_of_getElem? hf)
    rw [hmax, Nat.mod_eq_of_lt (by omega)]
    omega

end StackCode
