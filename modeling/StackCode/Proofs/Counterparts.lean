import StackCode.Proofs.Alignment

/-!
# Two scopes side by side

The same script, tail calls apart, is run for two scopes. Their tables stay the same, and their code,
labels, records and children correspond.

* `Scope.SameTables`, `Scope.Beside`, `Assembler.Beside`: how the two sides correspond;
* `Step.isShared`, `Assembler.Beside.step`: a step that both sides take;
* `Scope.Beside.discard`: both sides drop a value;
* `Scope.Beside.tailCall`: a tail call on one side, a call on the other;
* `Aligned.untailing`, `Scope.Beside.finish`: both units end.
-/

namespace StackCode

/-- The tables of two scopes are the same. -/
structure Scope.SameTables (s s' : Scope) : Prop where
  signature : s'.signature = s.signature
  constants : s'.constants = s.constants
  locals : s'.locals = s.locals
  outers : s'.outers = s.outers
  blocks : s'.blocks = s.blocks
  protects : s'.protects = s.protects
  lastLine : s'.lastLine = s.lastLine
  ended : s'.ended = s.ended

/-- Two scopes correspond. The returned calls so far are `tails`, and no position behind `bound` is
recorded. -/
structure Scope.Beside (owes : Nat → Prop) (tails : Tails) (bound : Nat) (s s' : Scope) : Prop where
  tables : s.SameTables s'
  aligned : ∃ extra, Aligned owes extra tails.calls bound s.code.toList s'.code.toList s.labels
    s'.labels s.recorder s'.recorder
  children : UntailedAll tails.units s.children.toList s'.children.toList

/-- Two assemblies correspond; names mean the same in the scopes around the current ones. -/
structure Assembler.Beside (owes : Nat → Prop) (tails : Tails) (bound : Nat) (a a' : Assembler) :
    Prop where
  current : a.current.Beside owes tails bound a'.current
  enclosing : List.Forall₂ (fun s s' : Scope => s'.locals = s.locals ∧ s'.ended = s.ended)
    a.enclosing a'.enclosing
  lineMarkers : a'.config.lineMarkers = a.config.lineMarkers
  debugInfo : a'.config.debugInfo = a.config.debugInfo

/-- Whether a step is the same on both sides. Values are dropped, tail calls are made and units are
entered in ways of their own. -/
def Step.isShared : Step → Bool
  | op o | count o _ | pair o _ _ | named o _ | slot o _ => o.isProper && o != .tailCall
  | jump o _ => o.isJump
  | fail _ | discard | unit _ _ _ _ => false
  | _ => true

theorem Step.isProper_of_isShared {x : Step} (h : x.isShared = true) : x.isProper = true := by
  cases x with
  | op o | count o _ | pair o _ _ | named o _ | slot o _ => exact (Bool.and_eq_true_iff.mp h).1
  | jump o _ => exact h
  | unit _ _ _ _ => cases h
  | _ => rfl

/-- The bound on recorded positions after a step. -/
def Step.boundAfter (s : Scope) (bound : Nat) : Step → Nat
  | declare _ | leaveBlock => s.code.size
  | _ => bound

/-! ### Edits of both scopes -/

namespace Scope.Beside

variable {owes : Nat → Prop} {tails : Tails} {bound : Nat} {s s' t t' : Scope}

theorem new {n n' : Nat} {kind : ScopeKind} {signature : Signature} {record : Bool} :
    (Scope.new n kind signature record).Beside owes .none 0 (Scope.new n' kind signature record) :=
  ⟨⟨rfl, rfl, rfl, rfl, rfl, rfl, rfl, rfl⟩, ⟨[], .new⟩, .nil⟩

theorem size_bound (h : s.Beside owes tails bound s') : bound ≤ s.code.size := by
  obtain ⟨extra, ha⟩ := h.aligned
  rw [← Array.length_toList]
  exact ha.bounded

theorem setConstants (h : s.Beside owes tails bound s') (constants : Pool) :
    Scope.Beside owes tails bound { s with constants } { s' with constants } :=
  ⟨{ h.tables with constants := rfl }, h.aligned, h.children⟩

theorem setOuters (h : s.Beside owes tails bound s') (outers : Outers) :
    Scope.Beside owes tails bound { s with outers } { s' with outers } :=
  ⟨{ h.tables with outers := rfl }, h.aligned, h.children⟩

/-- Both sides emit the same instruction. -/
theorem appended (h : s.Beside owes tails bound s') {i : Instruction} {op : Opcode}
    (hi : i.opcode? = some op) (hop : op ≠ .tailCall) :
    (s.appended i).Beside owes tails bound (s'.appended i) := by
  obtain ⟨extra, ha⟩ := h.aligned
  refine ⟨{ h.tables with }, ⟨extra ++ [false], ?_⟩, h.children⟩
  show Aligned owes _ _ _ (s.code.push i).toList (s'.code.push i).toList _ _ _ _
  rw [Array.toList_push, Array.toList_push]
  exact ha.push_same hi hop

theorem emitUnsigned (h : s.Beside owes tails bound s') {op : Opcode} {n p p' : Nat}
    (hop : op ≠ .tailCall) (ht : Scope.emitUnsigned op n s = .ok p t)
    (ht' : Scope.emitUnsigned op n s' = .ok p' t') : t.Beside owes tails bound t' := by
  obtain ⟨hn, -, -, rfl⟩ := Scope.emitUnsigned_eq_ok.mp ht
  obtain ⟨-, -, -, rfl⟩ := Scope.emitUnsigned_eq_ok.mp ht'
  exact h.appended (Instruction.opcode?_pack (Nat.lt_succ_of_le hn)) hop

theorem newLabel (h : s.Beside owes tails bound s') {l l' : Label}
    (ht : Scope.newLabel s = .ok l t) (ht' : Scope.newLabel s' = .ok l' t') :
    t.Beside owes tails bound t' := by
  obtain ⟨-, rfl⟩ := Scope.newLabel_eq_ok.mp ht
  obtain ⟨-, rfl⟩ := Scope.newLabel_eq_ok.mp ht'
  obtain ⟨extra, ha⟩ := h.aligned
  exact ⟨{ h.tables with }, ⟨extra, ha.newLabel⟩, h.children⟩

theorem emitJump (h : s.Beside owes tails bound s') {op : Opcode} {l : Label} {p p' : Nat}
    (hop : op.isJump = true) (ht : Scope.emitJump op l s = .ok p t)
    (ht' : Scope.emitJump op l s' = .ok p' t') : t.Beside owes tails bound t' := by
  obtain ⟨-, hl, -, rfl⟩ := Scope.emitJump_eq_ok.mp ht
  obtain ⟨-, -, -, rfl⟩ := Scope.emitJump_eq_ok.mp ht'
  obtain ⟨extra, ha⟩ := h.aligned
  refine ⟨{ h.tables with }, ⟨extra ++ [false], ?_⟩, h.children⟩
  have hj := ha.jump hop hl
  simp only [Array.length_toList] at hj
  show Aligned owes _ _ _ (s.code.push _).toList (s'.code.push _).toList _ _ _ _
  rw [Array.toList_push, Array.toList_push]
  exact hj

theorem placeLabel (h : s.Beside owes tails bound s') {l : Label} {u u' : Unit}
    (ht : Scope.placeLabel l s = .ok u t) (ht' : Scope.placeLabel l s' = .ok u' t') :
    t.Beside owes tails bound t' := by
  obtain ⟨hl, -, rfl⟩ := Scope.placeLabel_eq_ok.mp ht
  obtain ⟨-, -, rfl⟩ := Scope.placeLabel_eq_ok.mp ht'
  obtain ⟨extra, ha⟩ := h.aligned
  refine ⟨{ h.tables with }, ⟨extra, ?_⟩, h.children⟩
  have hp := ha.place hl
  simp only [Array.length_toList] at hp
  exact hp

theorem markLine (h : s.Beside owes tails bound s') {line : Nat} {u u' : Unit}
    (ht : Scope.markLine line s = .ok u t) (ht' : Scope.markLine line s' = .ok u' t') :
    t.Beside owes tails bound t' := by
  obtain ⟨hl, rfl⟩ | ⟨hl, hn, -, rfl⟩ := Scope.markLine_eq_ok.mp ht
  · obtain ⟨-, rfl⟩ | ⟨hl', -⟩ := Scope.markLine_eq_ok.mp ht'
    · exact h
    · rw [h.tables.lastLine] at hl'
      exact absurd hl hl'
  · obtain ⟨hl', -⟩ | ⟨-, -, -, rfl⟩ := Scope.markLine_eq_ok.mp ht'
    · rw [h.tables.lastLine] at hl'
      exact absurd hl' hl
    · have hline : Scope.Beside owes tails bound { s with lastLine := some line }
          { s' with lastLine := some line } :=
        ⟨{ h.tables with lastLine := rfl }, h.aligned, h.children⟩
      exact hline.appended (Instruction.opcode?_pack (Nat.lt_succ_of_le hn)) (by decide)

theorem loadConst (h : s.Beside owes tails bound s') {v : Value} {u u' : Unit}
    (ht : Scope.loadConst v s = .ok u t) (ht' : Scope.loadConst v s' = .ok u' t') :
    t.Beside owes tails bound t' := by
  obtain ⟨index, constants, hc, hn, -, rfl⟩ := Scope.loadConst_eq_ok.mp ht
  obtain ⟨index', constants', hc', -, -, rfl⟩ := Scope.loadConst_eq_ok.mp ht'
  rw [h.tables.constants, hc] at hc'
  obtain ⟨rfl, rfl⟩ := Prod.mk.inj (Except.ok.inj hc')
  exact (h.setConstants constants).appended (Instruction.opcode?_pack (Nat.lt_succ_of_le hn))
    (by decide)

theorem emitNamed (h : s.Beside owes tails bound s') {op : Opcode} {name : String} {u u' : Unit}
    (hop : op ≠ .tailCall) (ht : Scope.emitNamed op name s = .ok u t)
    (ht' : Scope.emitNamed op name s' = .ok u' t') : t.Beside owes tails bound t' := by
  obtain ⟨index, constants, hc, hn, -, rfl⟩ := Scope.emitNamed_eq_ok.mp ht
  obtain ⟨index', constants', hc', -, -, rfl⟩ := Scope.emitNamed_eq_ok.mp ht'
  rw [h.tables.constants, hc] at hc'
  obtain ⟨rfl, rfl⟩ := Prod.mk.inj (Except.ok.inj hc')
  exact (h.setConstants constants).appended (Instruction.opcode?_pack (Nat.lt_succ_of_le hn)) hop

theorem emitSlot (h : s.Beside owes tails bound s') {op : Opcode} {name : String} {u u' : Unit}
    (hop : op ≠ .tailCall) (ht : Scope.emitSlot op name s = .ok u t)
    (ht' : Scope.emitSlot op name s' = .ok u' t') : t.Beside owes tails bound t' := by
  obtain ⟨slot, hl, hn, -, rfl⟩ := Scope.emitSlot_eq_ok.mp ht
  obtain ⟨slot', hl', -, -, rfl⟩ := Scope.emitSlot_eq_ok.mp ht'
  rw [h.tables.locals, hl] at hl'
  obtain rfl := Option.some.inj hl'
  exact h.appended (Instruction.opcode?_pack (Nat.lt_succ_of_le hn)) hop

/-- Both sides record the position that they have reached. -/
theorem recorded (h : s.Beside owes tails bound s') (locals : Slots) (blocks : List Nat)
    (change change' : Recorder → Recorder)
    (hc : ∀ extra x x', s'.code.size = shift extra s.code.size →
      Recorder.Shifted extra s.code.size x x' →
      Recorder.Shifted extra s.code.size (change x) (change' x')) :
    Scope.Beside owes tails s.code.size
      { s with locals, blocks, recorder := s.recorder.map change }
      { s' with locals, blocks, recorder := s'.recorder.map change' } := by
  obtain ⟨extra, ha⟩ := h.aligned
  have hsize : s'.code.size = shift extra s.code.size := by
    rw [← Array.length_toList, ← Array.length_toList]
    exact ha.length'
  have hr := ha.recorded change change' (by
    rw [Array.length_toList]
    exact fun x x' => hc extra x x' hsize)
  rw [Array.length_toList] at hr
  exact ⟨{ h.tables with locals := rfl, blocks := rfl }, ⟨extra, hr⟩, h.children⟩

theorem declare (h : s.Beside owes tails bound s') {name : String} {n n' : Nat}
    (ht : Scope.declare name s = .ok n t) (ht' : Scope.declare name s' = .ok n' t') :
    t.Beside owes tails s.code.size t' := by
  obtain ⟨fresh, locals, hl, rfl⟩ := Scope.declare_eq_ok.mp ht
  obtain ⟨fresh', locals', hl', rfl⟩ := Scope.declare_eq_ok.mp ht'
  rw [h.tables.locals, hl] at hl'
  obtain ⟨hslot, rfl⟩ := Prod.mk.inj (Except.ok.inj hl')
  obtain ⟨-, rfl⟩ := Prod.mk.inj hslot
  have hblocks := h.tables.blocks
  cases fresh with
  | true =>
    have hr := h.recorded locals s.blocks (·.start name s.code.size) (·.start name s'.code.size)
      fun extra x x' hsize hx => by
        rw [hsize]
        exact hx.start (Nat.le_refl _)
    exact ⟨{ hr.tables with blocks := hblocks }, hr.aligned, hr.children⟩
  | false =>
    have hr := h.recorded locals s.blocks id id
      fun _ _ _ _ hx => hx
    simp only [Option.map_id, id] at hr
    exact ⟨{ hr.tables with blocks := hblocks }, hr.aligned, hr.children⟩

theorem enterBlock (h : s.Beside owes tails bound s') {u u' : Unit}
    (ht : Scope.enterBlock s = .ok u t) (ht' : Scope.enterBlock s' = .ok u' t') :
    t.Beside owes tails bound t' := by
  obtain rfl := Scope.enterBlock_eq_ok.mp ht
  obtain rfl := Scope.enterBlock_eq_ok.mp ht'
  refine ⟨{ h.tables with blocks := ?_ }, h.aligned, h.children⟩
  show s'.locals.mark :: s'.blocks = s.locals.mark :: s.blocks
  rw [h.tables.locals, h.tables.blocks]

theorem leaveBlock (h : s.Beside owes tails bound s') {u u' : Unit}
    (ht : Scope.leaveBlock s = .ok u t) (ht' : Scope.leaveBlock s' = .ok u' t') :
    t.Beside owes tails s.code.size t' := by
  obtain ⟨marker, blocks, hb, rfl⟩ := Scope.leaveBlock_eq_ok.mp ht
  obtain ⟨marker', blocks', hb', rfl⟩ := Scope.leaveBlock_eq_ok.mp ht'
  rw [h.tables.blocks, hb] at hb'
  obtain ⟨rfl, rfl⟩ := List.cons.inj hb'
  rw [h.tables.locals]
  exact h.recorded _ _ _ _ fun extra x x' hsize hx => by
    rw [hsize]
    exact hx.stop (Nat.le_refl _)

theorem protect (h : s.Beside owes tails bound s') {u u' : Unit}
    (ht : Scope.protect s = .ok u t) (ht' : Scope.protect s' = .ok u' t') :
    t.Beside owes tails bound t' := by
  obtain rfl := Scope.protect_eq_ok.mp ht
  obtain rfl := Scope.protect_eq_ok.mp ht'
  exact ⟨{ h.tables with protects := rfl }, h.aligned, h.children⟩

theorem receive (h : s.Beside owes tails bound s') {u u' : Unit}
    (ht : Scope.receive s = .ok u t) (ht' : Scope.receive s' = .ok u' t') :
    t.Beside owes tails bound t' := by
  obtain rfl := Scope.receive_eq_ok.mp ht
  obtain rfl := Scope.receive_eq_ok.mp ht'
  exact ⟨{ h.tables with }, h.aligned, h.children⟩

/-- Both sides drop a value, unless a position was recorded since the duplication. -/
theorem discard (h : s.Beside owes tails bound s') {u u' : Unit}
    (ht : Scope.discard s = .ok u t) (ht' : Scope.discard s' = .ok u' t')
    (hbound : s.endsInSpareDup = true → bound + 2 ≤ s.code.size) : t.Beside owes tails bound t' := by
  obtain ⟨extra, ha⟩ := h.aligned
  obtain ⟨hs, rfl⟩ | ⟨hs, -, rfl⟩ := Scope.discard_eq_ok.mp ht
  · obtain ⟨-, rfl⟩ | ⟨hs', -⟩ := Scope.discard_eq_ok.mp ht'
    · exact ⟨{ h.tables with }, ha.drop hs (hbound hs), h.children⟩
    · obtain ⟨_, _, _, _, -, -, -, -, -, hs''⟩ := ha.spare (.inl hs)
      exact absurd (hs''.symm.trans hs') (by decide)
  · obtain ⟨hs', -⟩ | ⟨-, -, rfl⟩ := Scope.discard_eq_ok.mp ht'
    · obtain ⟨_, _, _, _, -, -, -, -, hs'', -⟩ := ha.spare (.inr hs')
      exact absurd (hs''.symm.trans hs) (by decide)
    · exact h.appended (Instruction.opcode?_plain .pop) (by decide)

/-- The parameters of a unit are declared on both sides. -/
theorem declareAll {names : List String} {u u' : Unit} (h : s.Beside owes tails bound s')
    (ht : StackCode.declareAll names s = .ok u t) (ht' : StackCode.declareAll names s' = .ok u' t')
    (hbound : bound = s.code.size) : t.Beside owes tails bound t' := by
  induction names generalizing s s' with
  | nil =>
    obtain ⟨-, rfl⟩ := Edit.pure_eq_ok.mp ht
    obtain ⟨-, rfl⟩ := Edit.pure_eq_ok.mp ht'
    exact h
  | cons name names ih =>
    obtain ⟨n, r, hr, ht⟩ := Edit.bind_eq_ok.mp ht
    obtain ⟨n', r', hr', ht'⟩ := Edit.bind_eq_ok.mp ht'
    have hd := h.declare hr hr'
    rw [← hbound] at hd
    exact ih hd ht ht' (by rw [hbound, (Scope.alike_of_declare hr).code])

/-! ### Tail calls -/

/-- One side emits a tail call and the other one a call. A return follows, or it is owed. -/
theorem tailCall (h : s.Beside owes tails bound s') (b : Bool) {n : Nat}
    (hn : n ≤ Instruction.maxUnsigned) (howe : b = false → owes (s'.code.size + 1)) :
    (s.appended (.pack .tailCall n)).Beside owes (tails ++ .call b) bound
      (s'.appendedAll (.pack .call n :: if b then [.plain .ret] else [])) := by
  have hop : (Instruction.pack .tailCall n).opcode? = some .tailCall :=
    Instruction.opcode?_pack (Nat.lt_succ_of_le hn)
  have hunsigned : (Instruction.pack .tailCall n).unsigned = n :=
    Instruction.unsigned_pack (Nat.lt_succ_of_le hn)
  obtain ⟨extra, ha⟩ := h.aligned
  have hpush := ha.push (b := b) hop (fun _ => rfl)
    (fun _ hb => by rw [Array.length_toList]; exact howe hb)
  rw [show tailMarks [b] [.pack .tailCall n] = [b] by simp [tailMarks, hop],
    show untailed [b] [.pack .tailCall n] = .pack .call n :: if b then [.plain .ret] else [] by
      simp [untailed, Instruction.untailed, hop, hunsigned]] at hpush
  have hcode : (s'.appendedAll (.pack .call n :: if b then [.plain .ret] else [])).code.toList
      = s'.code.toList ++ (.pack .call n :: if b then [.plain .ret] else []) :=
    Scope.code_appendedAll _ _
  have hrecorder : (s'.appendedAll (.pack .call n :: if b then [.plain .ret] else [])).recorder
      = s'.recorder := by
    cases b <;> rfl
  refine ⟨by cases b <;> exact { h.tables with }, ⟨extra ++ [b], ?_⟩, ?_⟩
  · rw [hcode, Scope.labels_appendedAll, hrecorder]
    show Aligned owes _ _ _ (s.code.push _).toList _ _ _ _ _
    rw [Array.toList_push]
    exact hpush
  · rw [Scope.children_appendedAll, Tails.units_append, show (Tails.call b).units = [] from rfl,
      List.append_nil]
    exact h.children

/-- Both sides emit the same instructions. -/
theorem appendedAll (h : s.Beside owes tails bound s') {is : List Instruction}
    (his : ∀ i ∈ is, ∃ op, i.opcode? = some op ∧ op ≠ .tailCall) :
    (s.appendedAll is).Beside owes tails bound (s'.appendedAll is) := by
  induction is generalizing s s' with
  | nil => exact h
  | cons i is ih =>
    obtain ⟨⟨op, hi, hop⟩, his⟩ := List.forall_mem_cons.mp his
    exact ih (h.appended hi hop) his

end Scope.Beside

/-! ### A step that both sides take -/

/-- Names that are found in corresponding scopes are found at the same place. -/
theorem found_eq {scopes scopes' : List Scope} {name : String} {up : Nat} {o o' : Option Outer}
    (h : List.Forall₂ (fun s s' : Scope => s'.locals = s.locals ∧ s'.ended = s.ended) scopes scopes')
    (ho : Assembler.findOuter name up scopes = .ok o)
    (ho' : Assembler.findOuter name up scopes' = .ok o') : o' = o := by
  induction h generalizing up with
  | nil => exact (Except.ok.inj ho').symm.trans (Except.ok.inj ho)
  | @cons s s' scopes scopes' hs _ ih =>
    obtain ⟨hlocals, hended⟩ := hs
    simp only [Assembler.findOuter, hlocals, hended] at ho ho'
    split at ho
    · cases ho
    · next he =>
      rw [if_neg he] at ho'
      cases hl : s.locals.lookup? name with
      | some slot =>
        rw [hl] at ho ho'
        exact (Except.ok.inj ho').symm.trans (Except.ok.inj ho)
      | none =>
        rw [hl] at ho ho'
        exact ih ho ho'

namespace Assembler.Beside

variable {owes : Nat → Prop} {tails tails' : Tails} {bound bound' : Nat} {a a' b b' : Assembler}

/-- Only the current scopes change. -/
theorem withCurrent (h : a.Beside owes tails bound a') {s s' : Scope}
    (hs : s.Beside owes tails' bound' s') :
    Assembler.Beside owes tails' bound' { a with current := s } { a' with current := s' } :=
  ⟨hs, h.enclosing, h.lineMarkers, h.debugInfo⟩

theorem onCurrent {α : Type} {x x' : α} (h : a.Beside owes tails bound a') (edit : Edit Scope α)
    (hb : Assembler.onCurrent edit a = .ok x b) (hb' : Assembler.onCurrent edit a' = .ok x' b')
    (hs : ∀ s s', edit a.current = .ok x s → edit a'.current = .ok x' s' →
      s.Beside owes tails bound' s') : b.Beside owes tails bound' b' := by
  obtain ⟨s, he, rfl⟩ := Assembler.onCurrent_eq_ok.mp hb
  obtain ⟨s', he', rfl⟩ := Assembler.onCurrent_eq_ok.mp hb'
  exact h.withCurrent (hs s s' he he')

/-- A name lives at the same place on both sides. -/
theorem resolve (h : a.Beside owes tails bound a') {name : String} {place place' : Place}
    (hb : Assembler.resolve name a = .ok place b) (hb' : Assembler.resolve name a' = .ok place' b') :
    place' = place ∧ b.Beside owes tails bound b' := by
  have hlocals := h.current.tables.locals
  obtain ⟨slot, hl, rfl, rfl⟩ | ⟨hl, o, index, outers, hf, ho, rfl, rfl⟩ |
      ⟨hl, hf, index, constants, hc, rfl, rfl⟩ := Assembler.resolve_eq_ok.mp hb
  · obtain ⟨slot', hl', rfl, rfl⟩ | ⟨hl', -⟩ | ⟨hl', -⟩ := Assembler.resolve_eq_ok.mp hb'
    all_goals rw [hlocals, hl] at hl'
    · obtain rfl := Option.some.inj hl'
      exact ⟨rfl, h⟩
    · cases hl'
    · cases hl'
  · obtain ⟨slot', hl', -⟩ | ⟨-, o', index', outers', hf', ho', rfl, rfl⟩ | ⟨-, hf', -⟩ :=
      Assembler.resolve_eq_ok.mp hb'
    · rw [hlocals, hl] at hl'
      cases hl'
    · obtain rfl := Option.some.inj (found_eq h.enclosing hf hf')
      rw [h.current.tables.outers, ho] at ho'
      obtain ⟨rfl, rfl⟩ := Prod.mk.inj (Except.ok.inj ho')
      exact ⟨rfl, h.withCurrent (h.current.setOuters outers)⟩
    · cases found_eq h.enclosing hf hf'
  · obtain ⟨slot', hl', -⟩ | ⟨-, o', index', outers', hf', -⟩ |
        ⟨-, -, index', constants', hc', rfl, rfl⟩ := Assembler.resolve_eq_ok.mp hb'
    · rw [hlocals, hl] at hl'
      cases hl'
    · cases found_eq h.enclosing hf hf'
    · rw [h.current.tables.constants, hc] at hc'
      obtain ⟨rfl, rfl⟩ := Prod.mk.inj (Except.ok.inj hc')
      exact ⟨rfl, h.withCurrent (h.current.setConstants constants)⟩

theorem emitPlace (h : a.Beside owes tails bound a') {name : String} {place place' : Place}
    (op : Place → Opcode) (hb : Assembler.resolve name a = .ok place b)
    (hb' : Assembler.resolve name a' = .ok place' b')
    (hn : place.operand ≤ Instruction.maxUnsigned) (hop : op place ≠ .tailCall) :
    Assembler.Beside owes tails bound
      { b with current := b.current.appended (.pack (op place) place.operand) }
      { b' with current := b'.current.appended (.pack (op place') place'.operand) } := by
  obtain ⟨rfl, hbeside⟩ := h.resolve hb hb'
  exact hbeside.withCurrent
    (hbeside.current.appended (Instruction.opcode?_pack (Nat.lt_succ_of_le hn)) hop)

/-- Both sides take the same step. -/
theorem step {x : Step} (h : a.Beside owes tails bound a') (hx : x.isShared = true)
    (hb : Step.run x a = .ok () b) (hb' : Step.run x a' = .ok () b') :
    b.Beside owes tails (x.boundAfter a.current bound) b' := by
  have hne : ∀ {o : Opcode}, (o.isProper && o != .tailCall) = true → o ≠ .tailCall := by
    intro o ho
    simpa using (Bool.and_eq_true_iff.mp ho).2
  cases x with
  | fail _ | discard | unit _ _ _ _ => cases hx
  | markLine line =>
    obtain ⟨hm, rfl⟩ | ⟨hm, s, hs, rfl⟩ := Assembler.markLine_eq_ok.mp hb
    · obtain ⟨-, rfl⟩ | ⟨hm', -⟩ := Assembler.markLine_eq_ok.mp hb'
      · exact h
      · rw [h.lineMarkers, hm] at hm'
        cases hm'
    · obtain ⟨hm', -⟩ | ⟨-, s', hs', rfl⟩ := Assembler.markLine_eq_ok.mp hb'
      · rw [h.lineMarkers, hm] at hm'
        cases hm'
      · exact h.withCurrent (h.current.markLine hs hs')
  | op o =>
    obtain ⟨p, hb⟩ := Edit.ignore_eq_ok.mp hb
    obtain ⟨p', hb'⟩ := Edit.ignore_eq_ok.mp hb'
    refine h.onCurrent _ hb hb' fun s s' hs hs' => ?_
    obtain ⟨-, -, rfl⟩ := Scope.emitOp_eq_ok.mp hs
    obtain ⟨-, -, rfl⟩ := Scope.emitOp_eq_ok.mp hs'
    exact h.current.appended (Instruction.opcode?_plain o) (hne hx)
  | count o n =>
    obtain ⟨p, hb⟩ := Edit.ignore_eq_ok.mp hb
    obtain ⟨p', hb'⟩ := Edit.ignore_eq_ok.mp hb'
    exact h.onCurrent _ hb hb' fun s s' hs hs' => h.current.emitUnsigned (hne hx) hs hs'
  | pair o m n =>
    obtain ⟨p, hb⟩ := Edit.ignore_eq_ok.mp hb
    obtain ⟨p', hb'⟩ := Edit.ignore_eq_ok.mp hb'
    refine h.onCurrent _ hb hb' fun s s' hs hs' => ?_
    obtain ⟨⟨hm, hn⟩, -, -, rfl⟩ := Scope.emitPair_eq_ok.mp hs
    obtain ⟨-, -, -, rfl⟩ := Scope.emitPair_eq_ok.mp hs'
    unfold Instruction.maxPair at hm hn
    exact h.current.appended (Instruction.opcode?_pack (by omega)) (hne hx)
  | newLabel =>
    obtain ⟨p, hb⟩ := Edit.ignore_eq_ok.mp hb
    obtain ⟨p', hb'⟩ := Edit.ignore_eq_ok.mp hb'
    exact h.onCurrent _ hb hb' fun s s' hs hs' => h.current.newLabel hs hs'
  | jump o l =>
    obtain ⟨p, hb⟩ := Edit.ignore_eq_ok.mp hb
    obtain ⟨p', hb'⟩ := Edit.ignore_eq_ok.mp hb'
    exact h.onCurrent _ hb hb' fun s s' hs hs' => h.current.emitJump hx hs hs'
  | declare name =>
    obtain ⟨p, hb⟩ := Edit.ignore_eq_ok.mp hb
    obtain ⟨p', hb'⟩ := Edit.ignore_eq_ok.mp hb'
    exact h.onCurrent _ hb hb' fun s s' hs hs' => h.current.declare hs hs'
  | place l => exact h.onCurrent _ hb hb' fun s s' hs hs' => h.current.placeLabel hs hs'
  | receive =>
    exact h.onCurrent Scope.receive hb hb' fun s s' hs hs' => h.current.receive hs hs'
  | loadConst v => exact h.onCurrent _ hb hb' fun s s' hs hs' => h.current.loadConst hs hs'
  | named o name => exact h.onCurrent _ hb hb' fun s s' hs hs' => h.current.emitNamed (hne hx) hs hs'
  | slot o name => exact h.onCurrent _ hb hb' fun s s' hs hs' => h.current.emitSlot (hne hx) hs hs'
  | enterBlock =>
    exact h.onCurrent Scope.enterBlock hb hb' fun s s' hs hs' => h.current.enterBlock hs hs'
  | leaveBlock => exact h.onCurrent _ hb hb' fun s s' hs hs' => h.current.leaveBlock hs hs'
  | protect =>
    exact h.onCurrent Scope.protect hb hb' fun s s' hs hs' => h.current.protect hs hs'
  | loadName name =>
    obtain ⟨place, c, hr, hn, -, rfl⟩ := Assembler.loadName_eq_ok.mp hb
    obtain ⟨place', c', hr', -, -, rfl⟩ := Assembler.loadName_eq_ok.mp hb'
    exact h.emitPlace Place.loadOp hr hr' hn (by cases place <;> simp [Place.loadOp])
  | storeName name =>
    obtain ⟨place, c, hr, hn, -, rfl⟩ := Assembler.storeName_eq_ok.mp hb
    obtain ⟨place', c', hr', -, -, rfl⟩ := Assembler.storeName_eq_ok.mp hb'
    exact h.emitPlace Place.storeOp hr hr' hn (by cases place <;> simp [Place.storeOp])

end Assembler.Beside

/-! ### The end of both units -/

namespace Logged

variable {h : History} {begins : Step → Nat → Prop} {s : Scope} {code : Buffer} {p : Nat}
  {i : Instruction} {op : Opcode}

/-- What is no jump is not overwritten. -/
theorem stays (hs : Logged h begins s) (hcode : s.labels.reconcile s.code = .ok () code)
    (hi : s.code.toList[p]? = some i) (hop : i.opcode? = some op) (hj : op.isJump = false) :
    code.toList[p]? = some i := by
  have hne : ∀ l u, s.labels.Uses l u → u.position ≠ p := by
    rintro l u hu rfl
    obtain ⟨hi', hj'⟩ := hs.uses l u hu
    rw [Option.some.inj (hi.symm.trans hi'), Instruction.opcode?_plain] at hop
    rw [Option.some.inj hop, hj] at hj'
    cases hj'
  rw [Array.getElem?_toList] at hi ⊢
  rw [Labels.getElem?_of_reconcile_of_ne hcode hne]
  exact hi

/-- The instruction that an instruction was before the placeholders were overwritten. -/
theorem exists_before (hs : Logged h begins s) (hcode : s.labels.reconcile s.code = .ok () code)
    (hi : code.toList[p]? = some i) : ∃ j, s.code.toList[p]? = some j ∧ i.opcode? = j.opcode? := by
  have hlt : p < s.code.toList.length := by
    rw [Array.length_toList, ← Labels.size_of_reconcile hcode, ← Array.length_toList]
    exact (List.getElem?_eq_some_iff.mp hi).1
  obtain ⟨j, hj, hsame⟩ := hs.getElem?_of_reconcile hcode (List.getElem?_eq_getElem hlt)
  obtain rfl := Option.some.inj (hi.symm.trans hj)
  exact ⟨_, List.getElem?_eq_getElem hlt, hsame⟩

/-- What is no jump was there before. -/
theorem stayed (hs : Logged h begins s) (hcode : s.labels.reconcile s.code = .ok () code)
    (hi : code.toList[p]? = some i) (hop : i.opcode? = some op) (hj : op.isJump = false) :
    s.code.toList[p]? = some i := by
  obtain ⟨j, hj', hsame⟩ := hs.exists_before hcode hi
  have hstay := hs.stays hcode hj' (hsame.symm.trans hop) hj
  rw [hj', Option.some.inj (hi.symm.trans hstay)]

end Logged

/-- The marks depend on the operations alone. -/
theorem tailMarks_congr {extra : List Bool} {code code' : List Instruction}
    (h : code'.map Instruction.opcode? = code.map Instruction.opcode?) :
    tailMarks extra code' = tailMarks extra code := by
  have hmarks : ∀ c : List Instruction, tailMarks extra c
      = (((c.map Instruction.opcode?).zip extra).filter (·.1 == some .tailCall)).map Prod.snd := by
    intro c
    rw [List.zip_map_left, List.filter_map, List.map_map]
    rfl
  rw [hmarks, hmarks, h]

section Finish

variable {owes : Nat → Prop} {extra calls : List Bool} {tails : Tails} {bound : Nat}
  {s s' t t' : Scope} {r r' : Option Recorder} {h h' : History}
  {begins begins' : Step → Nat → Prop} {code code' : Buffer}

/-- The codes correspond when their placeholders are overwritten. -/
theorem Aligned.untailing
    (ha : Aligned owes extra calls bound s.code.toList s'.code.toList s.labels s'.labels r r')
    (hs : Logged h begins s) (hs' : Logged h' begins' s')
    (hcode : s.labels.reconcile s.code = .ok () code)
    (hcode' : s'.labels.reconcile s'.code = .ok () code')
    (howes : ∀ k, owes k → ReachesReturn code'.toList k) :
    Untailing extra calls code.toList code'.toList := by
  have hsize : code.toList.length = s.code.toList.length := by
    rw [Array.length_toList, Array.length_toList, Labels.size_of_reconcile hcode]
  have hsize' : code'.toList.length = s'.code.toList.length := by
    rw [Array.length_toList, Array.length_toList, Labels.size_of_reconcile hcode']
  have hcall : ∀ (p : Nat) i, s.code.toList[p]? = some i →
      s'.code.toList[shift extra p]? = some i.untailed := by
    intro p i hi
    rw [ha.coded]
    exact getElem?_untailed ha.length hi
  have hret : ∀ p : Nat, extra[p]? = some true →
      code'.toList[shift extra p + 1]? = some (.plain .ret) := by
    intro p hp
    refine hs'.stays hcode' ?_ (Instruction.opcode?_plain .ret) rfl
    rw [ha.coded]
    exact getElem?_untailed_ret ha.length hp
  refine ⟨?_, ?_, ?_, ?_, ?_, hret, ?_, ?_, ?_, ?_⟩
  · rw [hsize, ha.length]
  · rw [← ha.marked]
    refine tailMarks_congr (List.ext_getElem? fun p => ?_)
    rw [List.getElem?_map, List.getElem?_map]
    cases hi : s.code.toList[p]? with
    | none =>
      rw [List.getElem?_eq_none (by rw [hsize]; exact List.getElem?_eq_none_iff.mp hi)]
    | some i =>
      obtain ⟨j, hj, hop⟩ := hs.getElem?_of_reconcile hcode hi
      rw [hj, Option.map_some, Option.map_some, hop]
  · intro p hp
    obtain ⟨i, hi, hop⟩ := ha.only p hp
    exact ⟨i, hs.stays hcode hi hop rfl, hop⟩
  · rw [hsize', hsize, ha.length']
  · intro p i hi hop
    have hbefore := hcall p i (hs.stayed hcode hi hop rfl)
    rw [Instruction.untailed, if_pos hop] at hbefore
    exact hs'.stays hcode' hbefore (Instruction.opcode?_pack i.unsigned_lt) rfl
  · intro p i op hi hop hj
    obtain ⟨l, q, hu, hq, htarget⟩ := hs.use_of_reconcile hcode hi hop hj
    have hu' : s'.labels.Uses l ⟨shift extra p, op⟩ := (ha.uses l _).mpr ⟨_, hu, rfl⟩
    obtain ⟨q', hq', hlo, hhi, hj'⟩ :=
      Labels.getElem?_of_reconcile hcode' hs'.single (fun _ _ => hs'.position_le) hu'
    rw [ha.position l, hq, Option.map_some] at hq'
    obtain rfl := Option.some.inj hq'
    refine ⟨_, q, by rw [Array.getElem?_toList]; exact hj', ?_, htarget, ?_⟩
    · exact Instruction.opcode?_pack (Instruction.signedField_lt _)
    · exact Instruction.jumpTarget?_distance hj hlo hhi
  · intro p i op hi hop hne hj
    have hbefore := hcall p i (hs.stayed hcode hi hop hj)
    rw [Instruction.untailed, if_neg (by rw [hop]; exact fun heq => hne (Option.some.inj heq))]
      at hbefore
    exact hs'.stays hcode' hbefore hop hj
  · intro p i hi
    obtain ⟨j, hj, hsame⟩ := hs.exists_before hcode hi
    obtain ⟨op, hop⟩ := ha.known p j hj
    exact ⟨op, hsame.trans hop⟩
  · intro p i hi hop
    have hbefore := hs.stayed hcode hi hop rfl
    have hlt := (List.getElem?_eq_some_iff.mp hbefore).1
    rw [← ha.length] at hlt
    cases hb : extra[p] with
    | true =>
      exact .ret (hret p (List.getElem?_eq_some_iff.mpr ⟨hlt, hb⟩)) (Instruction.opcode?_plain .ret)
    | false =>
      exact howes _ (ha.owed p i hbefore hop (List.getElem?_eq_some_iff.mpr ⟨hlt, hb⟩))

/-- The units that two scopes become. -/
theorem Scope.Beside.finish (hb : s.Beside owes tails bound s') (hs : Logged h begins s)
    (hs' : Logged h' begins' s') (ht : Scope.reconcile s = .ok () t)
    (ht' : Scope.reconcile s' = .ok () t')
    (howes : ∀ k, owes k → ReachesReturn t'.code.toList k) (outers : Outers) :
    Untailed tails { t with outers }.toCodeObject { t' with outers }.toCodeObject := by
  obtain ⟨-, code, hcode, rfl⟩ := Scope.reconcile_eq_ok.mp ht
  obtain ⟨-, code', hcode', rfl⟩ := Scope.reconcile_eq_ok.mp ht'
  obtain ⟨extra, ha⟩ := hb.aligned
  have huntailing := ha.untailing hs hs' hcode hcode' howes
  have hsize : code.size = extra.length := by
    rw [huntailing.length, Array.length_toList]
  have hsize' : code'.size = shift extra extra.length := by
    rw [huntailing.length, ← huntailing.length', Array.length_toList]
  refine .intro ⟨?_, ?_, ?_, rfl, ?_, ?_, extra, huntailing, ?_⟩ hb.children
  · show s'.constants.values.toList = s.constants.values.toList
    rw [hb.tables.constants]
  · simp only [Scope.toCodeObject, Scope.flags, ha.recorder.isSome_eq, hb.tables.protects, hb.tables.signature]
  · show s'.signature.params.length = s.signature.params.length
    rw [hb.tables.signature]
  · show s'.locals.count = s.locals.count
    rw [hb.tables.locals]
  · show s'.signature.params.map some = s.signature.params.map some
    rw [hb.tables.signature]
  · show Option.Rel _ (s.recorder.map (·.finish code.size)) (s'.recorder.map (·.finish code'.size))
    have hbounded := ha.bounded
    rw [← ha.length] at hbounded
    rw [hsize, hsize']
    exact ha.recorder.map fun _ _ hr => hr.finish hbounded

end Finish

end StackCode
