import StackCode.Proofs.Charts

/-!
# Drafts with frames

A draft is known by the frames it leads from and to. It is written for any supply of labels, so what
is known of a label is a fact about the frames of all labels made so far, and it stays a fact when
more labels are made.

* `Takes`: a draft takes one frame to another, given the frames of the labels made before it;
* `Takes.append`, `Takes.withLabel`, `Takes.unit`, …: one rule for each way of making a draft;
* `Takes.jumpFalse`, `Takes.protect`, `Takes.handler`, …: one rule for each way of leading on.

A draft that ends the script leads anywhere: nothing behind it is ever reached.
-/

namespace StackCode

open Instruction (effectOf)
open Draft

/-! ### More on the steps of a draft -/

namespace Draft

theorem steps_withLabels (n : Nat) (f : Label → Draft) (s : Supply) :
    (withLabels n f).steps s
      = List.replicate n .newLabel ++ (f s.labels).steps { s with labels := s.labels + n } := by
  show ((f s.labels).draw _ (List.replicate n Step.newLabel ++ [])).1.reverse = _
  rw [draw_eq_steps]
  simp

theorem rest?_withLabels (n : Nat) (f : Label → Draft) (s : Supply) :
    (withLabels n f).rest? s = (f s.labels).rest? { s with labels := s.labels + n } := by
  show ((f s.labels).draw _ (List.replicate n Step.newLabel ++ [])).2 = _
  rw [draw_eq_steps]

theorem steps_withHidden (what : String) (f : String → Draft) (s : Supply) :
    (withHidden what f).steps s
      = (f (hiddenName what (s.hidden + 1))).steps { s with hidden := s.hidden + 1 } := by
  simp only [steps, withHidden]

theorem rest?_withHidden (what : String) (f : String → Draft) (s : Supply) :
    (withHidden what f).rest? s
      = (f (hiddenName what (s.hidden + 1))).rest? { s with hidden := s.hidden + 1 } := by
  simp only [rest?, withHidden]

theorem rest?_unit (op : Opcode) (kind : ScopeKind) (signature : Signature) (body : Draft)
    (s : Supply) :
    (unit op kind signature body).rest? s
      = (body.rest? { s with labels := 0 }).map fun s₁ => { s₁ with labels := s.labels } := rfl

end Draft

/-- Several labels with the same frame are made. -/
theorem Flows.newLabels {M : Frame → Frame → Prop} {xs : Script} {labels : List Frame}
    {f t : Frame} {b : Bool} {o : Outlook} {n : Nat}
    (h : Flows M xs ⟨labels ++ List.replicate n t, f, b⟩ o) :
    Flows M (List.replicate n .newLabel ++ xs) ⟨labels, f, b⟩ o := by
  induction n generalizing labels with
  | zero =>
    rw [List.replicate_zero, List.append_nil] at h
    exact h
  | succ n ih =>
    have hn : Flows M xs ⟨labels ++ [t] ++ List.replicate n t, f, b⟩ o := by
      rw [List.append_assoc]
      exact h
    exact .newLabel (ih hn)

/-! ### From frame to frame -/

/-- Given the frames of the labels made before, a draft takes the frame `f` to the frame `g`. Where
`b` is true it has to follow an instruction, and where `c` is true it ends in one. -/
def Takes (M : Frame → Frame → Prop) (labels : List Frame) (d : Draft) (f : Frame) (b : Bool)
    (g : Frame) (c : Bool) : Prop :=
  ∀ (s : Supply) (known : List Frame) (fresh : Bool), labels <+: known →
    s.labels = known.length → (b = true → fresh = true) →
    match d.rest? s with
    | none => ∃ o, Flows M (d.steps s) ⟨known, f, fresh⟩ o
    | some s' => ∃ more fresh', s'.labels = (known ++ more).length ∧ (c = true → fresh' = true)
      ∧ Flows M (d.steps s) ⟨known, f, fresh⟩ ⟨known ++ more, g, fresh'⟩

namespace Takes

variable {M : Frame → Frame → Prop} {labels : List Frame} {d e : Draft} {f g h : Frame}
  {b c c' : Bool}

/-- One can forget that a draft ended in an instruction. -/
theorem forget (hd : Takes M labels d f b g c) : Takes M labels d f b g false := by
  intro s known fresh hk hs hb
  have := hd s known fresh hk hs hb
  split at this
  · exact this
  · obtain ⟨more, fresh', hl, -, hf⟩ := this
    exact ⟨more, fresh', hl, fun hn => absurd hn Bool.false_ne_true, hf⟩

theorem nil : Takes M labels nil f b f b := by
  intro s known fresh hk hs hb
  exact ⟨[], fresh, by rw [List.append_nil]; exact hs, hb, by rw [List.append_nil]; exact .done⟩

theorem append (hd : Takes M labels d f b g c) (he : Takes M labels e g c h c') :
    Takes M labels (d ++ e) f b h c' := by
  intro s known fresh hk hs hb
  have hflow := hd s known fresh hk hs hb
  cases hr : d.rest? s with
  | none =>
    simp only [hr] at hflow
    simp only [rest?_append_of_none e hr, steps_append_of_none e hr]
    exact hflow
  | some s₁ =>
    simp only [hr] at hflow
    obtain ⟨more, fresh₁, hl, hf₁, hflow⟩ := hflow
    have hrest := he s₁ (known ++ more) fresh₁ (hk.trans (List.prefix_append _ _)) hl hf₁
    simp only [rest?_append_of_some e hr, steps_append_of_some e hr]
    cases hr' : e.rest? s₁ with
    | none =>
      simp only [hr'] at hrest
      obtain ⟨o, hrest⟩ := hrest
      exact ⟨o, hflow.append hrest⟩
    | some s₂ =>
      simp only [hr'] at hrest
      obtain ⟨more', fresh₂, hl', hf₂, hrest⟩ := hrest
      refine ⟨more ++ more', fresh₂, ?_, hf₂, ?_⟩
      · rw [← List.append_assoc]
        exact hl'
      · rw [← List.append_assoc]
        exact hflow.append hrest

/-- One step after which as many labels are known as before. -/
theorem step {x : Step} (hx : ∀ known fresh, labels <+: known → (b = true → fresh = true) →
      ∃ fresh', (c = true → fresh' = true) ∧ Flows M [x] ⟨known, f, fresh⟩ ⟨known, g, fresh'⟩) :
    Takes M labels (Draft.step x) f b g c := by
  intro s known fresh hk hs hb
  obtain ⟨fresh', hf, hflow⟩ := hx known fresh hk hb
  refine ⟨[], fresh', ?_, hf, ?_⟩
  · rw [List.append_nil]
    exact hs
  · rw [List.append_nil]
    exact hflow

/-- A step that cannot succeed. -/
theorem final {x : Step} (hx : ∀ known fresh, labels <+: known →
      ∃ o, Flows M [x] ⟨known, f, fresh⟩ o) : Takes M labels (Draft.final x) f b g c :=
  fun _ known fresh hk _ _ => hx known fresh hk

theorem refuse {line : Nat} {cause : Misuse} : Takes M labels (refuse line cause) f b g c :=
  final fun _ _ _ => ⟨⟨[], .start, true⟩, .fail⟩

theorem quiet {x : Step} (hx : x.isQuiet = true) : Takes M labels (Draft.step x) f b f b :=
  step fun _ fresh _ hb => ⟨fresh, hb, .quiet hx .done⟩

theorem markLine {ctx : Context} {line : Nat} : Takes M labels (markLine ctx line) f b f b := by
  unfold StackCode.markLine
  split
  · exact final fun known fresh _ => ⟨⟨known, f, fresh⟩, .quiet rfl .done⟩
  · exact quiet rfl

theorem write {x : Step} (hx : x.isWrite = true)
    (hi : ∀ known i, labels <+: known → x.Writes i →
      ∃ op, i.opcode? = some op ∧ op.instantiates = false
        ∧ Passes known op (effectOf op i) f g) :
    Takes M labels (Draft.step x) f b g true :=
  step fun known _ hk _ => ⟨true, fun _ => rfl, .write hx (fun i hw => hi known i hk hw) .done⟩

/-! ### Labels, names and units -/

theorem withLabel {F : Label → Draft} (t : Frame)
    (hF : ∀ known l, labels <+: known → known[l]? = some t → Takes M known (F l) f b g c) :
    Takes M labels (Draft.withLabel F) f b g c := by
  intro s known fresh hk hs hb
  have hl : (known ++ [t])[s.labels]? = some t := by
    rw [hs, List.getElem?_append_right (Nat.le_refl _), Nat.sub_self]
    rfl
  have hflow := hF (known ++ [t]) s.labels (hk.trans (List.prefix_append _ _)) hl
    { s with labels := s.labels + 1 } (known ++ [t]) fresh (List.prefix_refl _)
    (by simp [hs]) hb
  rw [rest?_withLabel, steps_withLabel]
  split
  · next hr =>
    simp only [hr] at hflow
    obtain ⟨o, hflow⟩ := hflow
    exact ⟨o, .newLabel hflow⟩
  · next hr =>
    simp only [hr] at hflow
    obtain ⟨more, fresh', hl, hf, hflow⟩ := hflow
    rw [List.append_assoc] at hl hflow
    exact ⟨_, fresh', hl, hf, .newLabel hflow⟩

theorem withLabels {n : Nat} {F : Label → Draft} (t : Frame)
    (hF : ∀ known l, labels <+: known → (∀ k < n, known[l + k]? = some t) →
      Takes M known (F l) f b g c) :
    Takes M labels (Draft.withLabels n F) f b g c := by
  intro s known fresh hk hs hb
  have hl : ∀ k < n, (known ++ List.replicate n t)[s.labels + k]? = some t := by
    intro k hk
    rw [hs, List.getElem?_append_right (Nat.le_add_right _ _), Nat.add_sub_cancel_left,
      List.getElem?_replicate, if_pos hk]
  have hflow := hF (known ++ List.replicate n t) s.labels (hk.trans (List.prefix_append _ _)) hl
    { s with labels := s.labels + n } (known ++ List.replicate n t) fresh (List.prefix_refl _)
    (by simp [hs]) hb
  rw [rest?_withLabels, steps_withLabels]
  split
  · next hr =>
    simp only [hr] at hflow
    obtain ⟨o, hflow⟩ := hflow
    exact ⟨o, hflow.newLabels⟩
  · next hr =>
    simp only [hr] at hflow
    obtain ⟨more, fresh', hl, hf, hflow⟩ := hflow
    rw [List.append_assoc] at hl hflow
    exact ⟨_, fresh', hl, hf, hflow.newLabels⟩

theorem withHidden {what : String} {F : String → Draft}
    (hF : ∀ x, Takes M labels (F x) f b g c) :
    Takes M labels (Draft.withHidden what F) f b g c := by
  intro s known fresh hk hs hb
  have hflow := hF (hiddenName what (s.hidden + 1)) { s with hidden := s.hidden + 1 } known fresh hk
    hs hb
  rw [rest?_withHidden, steps_withHidden]
  exact hflow

theorem block (hd : Takes M labels d f b g c) : Takes M labels (Draft.block d) f b g c :=
  ((quiet rfl).append hd).append (quiet rfl)

/-- A unit is followed on its own. -/
theorem unit {op : Opcode} {kind : ScopeKind} {signature : Signature}
    (hop : op = .makeClosure ∨ op = .makeClass ∨ op = .makeNamespace)
    (hp : ∀ known, Passes known op (effectOf op (.plain op)) f g)
    (hd : Takes M [] d .start false h c) :
    Takes M labels (Draft.unit op kind signature d) f b g true := by
  intro s known fresh hk hs hb
  have hbody := hd { s with labels := 0 } [] false (List.prefix_refl _) rfl
    fun hn => absurd hn Bool.false_ne_true
  rw [steps_unit]
  cases hr : d.rest? { s with labels := 0 } with
  | none =>
    simp only [hr] at hbody
    simp only [rest?_unit, hr, Option.map_none]
    obtain ⟨o, hbody⟩ := hbody
    exact ⟨_, .unit hop (hp known) hbody .done⟩
  | some s' =>
    simp only [hr] at hbody
    simp only [rest?_unit, hr, Option.map_some]
    obtain ⟨more, fresh', -, -, hbody⟩ := hbody
    refine ⟨[], true, ?_, fun _ => rfl, ?_⟩
    · rw [List.append_nil]
      exact hs
    · rw [List.append_nil]
      exact .unit hop (hp known) hbody .done

/-! ### Jumps and labels -/

variable {l : Label} {t : Frame} {H : List Guard} {n : Nat}

theorem place (hl : labels[l]? = some f) : Takes M labels (place l) f b f b :=
  step fun _ fresh hk hb => ⟨fresh, hb, .place (getElem?_of_initial hk hl) .done⟩

theorem jump {op : Opcode} (hl : labels[l]? = some t)
    (hb : ∀ known, labels <+: known → Branches M known op l f t g)
    (hh : g.height ≤ (f.after (effectOf op (.plain op))).height) :
    Takes M labels (jump op l) f b g true :=
  step fun known _ hk _ =>
    ⟨true, fun _ => rfl, .jump (getElem?_of_initial hk hl) (hb known hk) hh .done⟩

/-- A jump that can also go on, and installs no handler. -/
theorem branch {op : Opcode} (hj : op.isJump = true) (hf : op.falls = true)
    (hn : op.installs = false) (henough : (effectOf op (.plain op)).pops ≤ f.height)
    (hl : labels[l]? = some { f with height := op.landing f.height }) :
    Takes M labels (StackCode.jump op l) f b (f.after (effectOf op (.plain op))) true := by
  refine jump hl (fun known _ => ?_) (Nat.le_refl _)
  have hne : op ≠ .jump := by
    rintro rfl
    exact absurd hf (by decide)
  exact ⟨hj, henough, fun he => absurd he hne, fun _ => rfl, fun _ => rfl, fun _ _ => rfl,
    fun hi => absurd (hn.symm.trans hi) Bool.false_ne_true, fun he => absurd he hne⟩

theorem jumpFalse (hl : labels[l]? = some ⟨H, n⟩) :
    Takes M labels (StackCode.jump .jumpFalse l) ⟨H, n + 1⟩ b ⟨H, n⟩ true :=
  branch rfl rfl rfl (Nat.le_add_left 1 n) hl

theorem jumpTrue (hl : labels[l]? = some ⟨H, n⟩) :
    Takes M labels (StackCode.jump .jumpTrue l) ⟨H, n + 1⟩ b ⟨H, n⟩ true :=
  branch rfl rfl rfl (Nat.le_add_left 1 n) hl

theorem jumpLogical {op : LogicalOp} (hl : labels[l]? = some ⟨H, n + 1⟩) :
    Takes M labels (StackCode.jump op.opcode l) ⟨H, n + 1⟩ b ⟨H, n⟩ true := by
  cases op with
  | and => exact branch rfl rfl rfl (Nat.le_add_left 1 n) hl
  | or => exact branch rfl rfl rfl (Nat.le_add_left 1 n) hl

theorem forIter (hl : labels[l]? = some ⟨H, n⟩) :
    Takes M labels (StackCode.jump .forIter l) ⟨H, n + 1⟩ b ⟨H, n + 1⟩ true :=
  branch rfl rfl rfl (Nat.le_add_left 1 n) hl

/-- A jump that meets its label. Behind it the frame is any other that is no higher. -/
theorem leap (hl : labels[l]? = some t) (hm : M f t) (hg : Coherent labels g.guards)
    (hh : g.height ≤ f.height) : Takes M labels (StackCode.jump .jump l) f b g true := by
  refine jump hl (fun known hk => ?_) hh
  obtain ⟨more, rfl⟩ := hk
  exact ⟨rfl, Nat.zero_le _, fun _ => hm, fun he => absurd rfl he, fun he => absurd rfl he,
    fun he => absurd rfl he, fun hi => absurd hi Bool.false_ne_true, fun _ => hg.append more⟩

/-- A handler is installed. -/
theorem install {op : Opcode} (hi : op.installs = true)
    (hl : labels[l]? = some { f with height := op.landing f.height }) :
    Takes M labels (StackCode.jump op l) f b { f with guards := ⟨op, l⟩ :: f.guards } true := by
  have hop : op = .tryCatch ∨ op = .tryFinally := by
    cases op <;> first | exact absurd hi Bool.false_ne_true | simp
  have heff : effectOf op (.plain op) = ⟨0, 0⟩ := by
    obtain rfl | rfl := hop
    · rfl
    · rfl
  have hne : op ≠ .jump := by
    obtain rfl | rfl := hop
    · decide
    · decide
  have hj : op.isJump = true := by
    obtain rfl | rfl := hop
    · rfl
    · rfl
  refine jump hl (fun known _ => ?_) ?_
  · refine ⟨hj, ?_, fun he => absurd he hne, fun _ => rfl, fun _ => ?_, fun _ hn => ?_, fun _ => rfl,
      fun he => absurd he hne⟩
    · rw [heff]
      exact Nat.zero_le _
    · rw [heff]
      rfl
    · exact absurd (hn.symm.trans hi) Bool.false_ne_true
  · rw [heff]
    exact Nat.le_refl _

/-- A handler is removed. -/
theorem endTry {x : Guard} :
    Takes M labels (plain .endTry) ⟨x :: H, n⟩ b ⟨H, n⟩ true := by
  refine write rfl fun known i _ hi => ⟨.endTry, ?_, rfl, ?_⟩
  · rw [hi]
    exact Instruction.opcode?_plain _
  · refine ⟨rfl, Nat.zero_le _, Nat.le_refl _, fun _ => rfl, fun _ he => absurd rfl he,
      fun _ => ⟨x, rfl⟩, fun hn => absurd hn (by decide), ?_⟩
    rintro (he | he)
    · cases he
    · cases he

/-- A catch clause begins. -/
theorem handler {done : Label} (hd : labels[done]? = some t) (hm : M f t)
    (hl : labels[l]? = some g) (hg : Coherent labels g.guards) (hh : g.height ≤ f.height + 1) :
    Takes M labels (StackCode.jump .jump done ++ StackCode.place l ++ Draft.step .receive) f b g
      false := by
  intro s known fresh hk hs _
  obtain ⟨more, rfl⟩ := hk
  have hp : labels <+: labels ++ more := List.prefix_append _ _
  refine ⟨[], false, ?_, fun hn => absurd hn Bool.false_ne_true, ?_⟩
  · rw [List.append_nil]
    exact hs
  · rw [List.append_nil]
    exact .handler (getElem?_of_initial hp hd) hm (getElem?_of_initial hp hl) (hg.append more) hh .done

/-- The value on top of the stack is dropped. -/
theorem discard : Takes M labels (Draft.step .discard) ⟨H, n + 1⟩ true ⟨H, n⟩ false := by
  refine step fun known fresh _ hb => ⟨false, fun hn => absurd hn Bool.false_ne_true, ?_⟩
  rw [hb rfl]
  exact .discard (Nat.le_add_left 1 n) .done

/-! ### Instructions -/

/-- A step that takes `k` values and leaves `m`, whatever instruction it writes. -/
theorem ordinary {x : Step} (k m : Nat) (hx : x.isWrite = true)
    (hi : ∀ i, x.Writes i → ∃ op, i.opcode? = some op ∧ op.isOrdinary = true
      ∧ effectOf op i = ⟨k, m⟩) :
    Takes M labels (Draft.step x) ⟨H, n + k⟩ b ⟨H, n + m⟩ true := by
  refine write hx fun known i _ hw => ?_
  obtain ⟨op, hop, ho, heff⟩ := hi i hw
  obtain ⟨hj, hf, he, hn⟩ := Opcode.isOrdinary_iff.mp ho
  refine ⟨op, hop, hn, ?_⟩
  have hpass : Passes known op ⟨k, m⟩ ⟨H, n + k⟩ (Frame.after ⟨H, n + k⟩ ⟨k, m⟩) :=
    .of_falls hj hf he (Nat.le_add_left k n)
  have hafter : Frame.after ⟨H, n + k⟩ ⟨k, m⟩ = ⟨H, n + m⟩ := by
    simp only [Frame.after, Nat.add_sub_cancel]
  rw [heff, ← hafter]
  exact hpass

theorem plain {op : Opcode} (k m : Nat) (ho : op.isOrdinary = true)
    (heff : effectOf op (.plain op) = ⟨k, m⟩) :
    Takes M labels (plain op) ⟨H, n + k⟩ b ⟨H, n + m⟩ true := by
  refine ordinary k m rfl fun i hi => ⟨op, ?_, ho, ?_⟩
  · rw [hi]
    exact Instruction.opcode?_plain op
  · rw [hi]
    exact heff

/-- A value is pushed. -/
theorem push {op : Opcode} (hop : op = .pushNil ∨ op = .pushTrue ∨ op = .pushFalse ∨ op = .pushThis) :
    Takes M labels (StackCode.plain op) ⟨H, n⟩ b ⟨H, n + 1⟩ true := by
  obtain rfl | rfl | rfl | rfl := hop
  all_goals exact plain 0 1 rfl rfl

/-- An instruction whose operand is a count. -/
theorem count {op : Opcode} {a : Nat} (k m : Nat) (ho : op.isOrdinary = true)
    (heff : a ≤ Instruction.maxUnsigned → effectOf op (.pack op a) = ⟨k, m⟩) :
    Takes M labels (Draft.step (.count op a)) ⟨H, n + k⟩ b ⟨H, n + m⟩ true := by
  refine ordinary k m rfl fun i hi => ⟨op, ?_, ho, ?_⟩
  · rw [hi.2]
    exact Instruction.opcode?_pack (Nat.lt_succ_of_le hi.1)
  · rw [hi.2]
    exact heff hi.1

/-- An instruction whose operand the assembler finds in a table. -/
theorem indexed {x : Step} (op : Opcode) (k m : Nat) (hx : x.isWrite = true)
    (hw : ∀ i, x.Writes i → ∃ a, a ≤ Instruction.maxUnsigned ∧ i = .pack op a)
    (ho : op.isOrdinary = true) (heff : ∀ i, effectOf op i = ⟨k, m⟩) :
    Takes M labels (Draft.step x) ⟨H, n + k⟩ b ⟨H, n + m⟩ true := by
  refine ordinary k m hx fun i hi => ?_
  obtain ⟨a, ha, rfl⟩ := hw i hi
  exact ⟨op, Instruction.opcode?_pack (Nat.lt_succ_of_le ha), ho, heff _⟩

theorem named {op : Opcode} {name : String} (k m : Nat) (ho : op.isOrdinary = true)
    (heff : ∀ i, effectOf op i = ⟨k, m⟩) :
    Takes M labels (Draft.step (.named op name)) ⟨H, n + k⟩ b ⟨H, n + m⟩ true :=
  indexed op k m rfl (fun _ hi => hi) ho heff

theorem loadConst {v : Value} :
    Takes M labels (Draft.step (.loadConst v)) ⟨H, n⟩ b ⟨H, n + 1⟩ true :=
  indexed .loadConst 0 1 rfl (fun _ hi => hi) rfl fun _ => rfl

theorem loadSlot {name : String} :
    Takes M labels (Draft.step (.slot .loadLocal name)) ⟨H, n⟩ b ⟨H, n + 1⟩ true :=
  indexed .loadLocal 0 1 rfl (fun _ hi => hi) rfl fun _ => rfl

theorem storeSlot {name : String} :
    Takes M labels (Draft.step (.slot .storeLocal name)) ⟨H, n + 1⟩ b ⟨H, n⟩ true :=
  indexed .storeLocal 1 0 rfl (fun _ hi => hi) rfl fun _ => rfl

theorem loadName {name : String} :
    Takes M labels (Draft.step (.loadName name)) ⟨H, n⟩ b ⟨H, n + 1⟩ true := by
  refine ordinary 0 1 rfl fun i hi => ?_
  obtain ⟨place, hp, rfl⟩ := hi
  refine ⟨place.loadOp, Instruction.opcode?_pack (Nat.lt_succ_of_le hp), ?_⟩
  cases place <;> exact ⟨rfl, rfl⟩

theorem storeName {name : String} :
    Takes M labels (Draft.step (.storeName name)) ⟨H, n + 1⟩ b ⟨H, n⟩ true := by
  refine ordinary 1 0 rfl fun i hi => ?_
  obtain ⟨place, hp, rfl⟩ := hi
  refine ⟨place.storeOp, Instruction.opcode?_pack (Nat.lt_succ_of_le hp), ?_⟩
  cases place <;> exact ⟨rfl, rfl⟩

theorem declareAndStore {name : String} :
    Takes M labels (declareAndStore name) ⟨H, n + 1⟩ b ⟨H, n⟩ true :=
  (quiet rfl).append storeSlot

/-- An instruction that never goes on. Behind it the frame is any other that is no higher. -/
theorem exit {x : Step} (op : Opcode) (e : Instruction.Effect) (hx : x.isWrite = true)
    (hi : ∀ i, x.Writes i → i.opcode? = some op ∧ effectOf op i = e) (hf : op.falls = false)
    (hj : op.isJump = false) (hp : e.pops ≤ f.height)
    (hh : g.height ≤ f.height - e.pops + e.pushes) (hg : Coherent labels g.guards)
    (ho : op = .ret ∨ op = .tailCall → f.guards = []) :
    Takes M labels (Draft.step x) f b g true := by
  refine write hx fun known i hk hw => ?_
  obtain ⟨hop, rfl⟩ := hi i hw
  obtain ⟨more, rfl⟩ := hk
  have hn : op.instantiates = false := by
    refine Bool.eq_false_iff.mpr fun hi => ?_
    obtain rfl | rfl | rfl := Opcode.instantiates_iff.mp hi
    all_goals exact absurd hf (by decide)
  refine ⟨op, hop, hn, hj, hp, hh, fun hn => ?_, fun hn => ?_, ?_, fun _ => hg.append more, ho⟩
  · exact absurd (hf.symm.trans hn) (by decide)
  · exact absurd (hf.symm.trans hn) (by decide)
  · rintro rfl
    exact absurd hf (by decide)

/-- The value on top of the stack is returned, which needs all handlers to be removed. -/
theorem ret (hg : Coherent labels g.guards) (hh : g.height ≤ n) :
    Takes M labels (StackCode.plain .ret) ⟨[], n + 1⟩ b g true := by
  refine exit .ret ⟨1, 0⟩ rfl (fun i hi => ⟨?_, ?_⟩) rfl rfl (Nat.le_add_left 1 n) hh hg
    fun _ => rfl
  · rw [hi]
    exact Instruction.opcode?_plain .ret
  · rfl

theorem throw (hg : Coherent labels g.guards) (hh : g.height ≤ n) :
    Takes M labels (StackCode.plain .throw) ⟨H, n + 1⟩ b g true := by
  refine exit .throw ⟨1, 0⟩ rfl (fun i hi => ⟨?_, ?_⟩) rfl rfl (Nat.le_add_left 1 n) hh hg ?_
  · rw [hi]
    exact Instruction.opcode?_plain .throw
  · rfl
  · rintro (he | he)
    · cases he
    · cases he

/-- A tail call of a function with `a` arguments, all above `n` other values. -/
theorem tailCall {a : Nat} (hg : Coherent labels g.guards) (hh : g.height ≤ n + 1) :
    Takes M labels (Draft.step (.count .tailCall a)) ⟨[], n + (a + 1)⟩ b g true := by
  refine exit .tailCall ⟨a + 1, 1⟩ rfl (fun i hi => ?_) rfl rfl (Nat.le_add_left _ n) ?_ hg fun _ => rfl
  · obtain ⟨ha, rfl⟩ := hi
    have hlt := Nat.lt_succ_of_le ha
    refine ⟨Instruction.opcode?_pack hlt, ?_⟩
    simp only [effectOf, Instruction.unsigned_pack hlt]
  · simp only [Nat.add_sub_cancel]
    exact hh

theorem returnNil : Takes M labels returnNil ⟨[], n⟩ b ⟨[], n⟩ true :=
  (push (.inl rfl)).append (ret trivial (Nat.le_refl n))

end Takes

end StackCode
