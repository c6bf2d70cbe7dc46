import StackCode.Compile

/-!
# What an edit does when it succeeds

An edit of the assembler is known by the state it leaves when it does not fail. This file says it
once for every edit, as an equation between the two states, so that no later proof has to open one.

* `Edit.bind_eq_ok`, `pure_eq_ok`, …: the combinators;
* `Scope.emit_eq_ok`, `emitJump_eq_ok`, `discard_eq_ok`, …: one statement for each edit of a scope;
* `Assembler.resolve_eq_ok`, `leaveScope_eq_ok`, …: one for each edit of the whole assembly;
* `compile_eq_ok`, `assemble_eq_ok`: a whole compilation.

Instructions are written as packed words; a successful `withUnsigned` or `withPair` is such a word
with an operand in range.
-/

namespace StackCode

/-! ### Combinators -/

namespace Edit

variable {σ τ α β : Type} {s s' : σ}

theorem bind_eq_ok {x : Edit σ α} {f : α → Edit σ β} {b : β} :
    (x >>= f) s = .ok b s' ↔ ∃ a t, x s = .ok a t ∧ f a t = .ok b s' := by
  show EStateM.bind x f s = _ ↔ _
  unfold EStateM.bind
  cases x s with
  | ok a t =>
    constructor
    · intro h
      exact ⟨a, t, rfl, h⟩
    · rintro ⟨_, _, ⟨⟩, h⟩
      exact h
  | error e t => simp

theorem map_eq_ok {x : Edit σ α} {f : α → β} {b : β} :
    (f <$> x) s = .ok b s' ↔ ∃ a, x s = .ok a s' ∧ f a = b := by
  show EStateM.map f x s = _ ↔ _
  unfold EStateM.map
  cases x s with
  | ok a t =>
    simp only [EStateM.Result.ok.injEq]
    constructor
    · rintro ⟨rfl, rfl⟩
      exact ⟨a, ⟨rfl, rfl⟩, rfl⟩
    · rintro ⟨_, ⟨rfl, rfl⟩, rfl⟩
      exact ⟨rfl, rfl⟩
  | error e t => simp

theorem pure_eq_ok {a b : α} : (pure a : Edit σ α) s = .ok b s' ↔ a = b ∧ s = s' := by
  show EStateM.Result.ok a s = _ ↔ _
  simp

theorem get_eq_ok {t : σ} : (get : Edit σ σ) s = .ok t s' ↔ t = s ∧ s' = s := by
  show EStateM.Result.ok s s = _ ↔ _
  simp [eq_comm]

theorem set_eq_ok {t : σ} {u : PUnit} : (set t : Edit σ PUnit) s = .ok u s' ↔ s' = t := by
  show EStateM.Result.ok PUnit.unit t = _ ↔ _
  simp [eq_comm]

theorem modify_eq_ok {f : σ → σ} {u : PUnit} :
    (modify f : Edit σ PUnit) s = .ok u s' ↔ s' = f s := by
  show EStateM.Result.ok PUnit.unit (f s) = _ ↔ _
  simp [eq_comm]

theorem throw_ne_ok {e : Error} {a : α} : (throw e : Edit σ α) s ≠ .ok a s' := by
  show EStateM.Result.error e s ≠ _
  simp

theorem ofExcept_eq_ok {x : Except Error α} {a : α} :
    (ofExcept x : Edit σ α) s = .ok a s' ↔ x = .ok a ∧ s' = s := by
  cases x with
  | ok b => simp [ofExcept, pure_eq_ok, eq_comm]
  | error e => simp [ofExcept, throw_ne_ok]

theorem ignore_eq_ok {x : Edit σ α} {u : Unit} :
    ignore x s = .ok u s' ↔ ∃ a, x s = .ok a s' := by
  unfold ignore
  simp only [bind_eq_ok, pure_eq_ok]
  constructor
  · rintro ⟨a, _, h, -, rfl⟩
    exact ⟨a, h⟩
  · rintro ⟨a, h⟩
    exact ⟨a, s', h, trivial, rfl⟩

theorem within_eq_ok {focus : σ → τ × (τ → σ)} {edit : Edit τ α} {a : α} :
    within focus edit s = .ok a s' ↔
      ∃ t, edit (focus s).1 = .ok a t ∧ s' = (focus s).2 t := by
  simp only [within]
  cases edit (focus s).1 with
  | ok b t =>
    simp only [EStateM.Result.ok.injEq]
    constructor
    · rintro ⟨rfl, rfl⟩
      exact ⟨t, ⟨rfl, rfl⟩, rfl⟩
    · rintro ⟨_, ⟨rfl, rfl⟩, rfl⟩
      exact ⟨rfl, rfl⟩
  | error e t => simp

end Edit

/-- A successful step of an `Except` computation. -/
theorem except_bind_eq_ok {α β : Type} {x : Except Error α} {f : α → Except Error β} {b : β} :
    (x >>= f) = .ok b ↔ ∃ a, x = .ok a ∧ f a = .ok b := by
  cases x with
  | ok a => simp [bind, Except.bind]
  | error e => simp [bind, Except.bind]

namespace Instruction

theorem withPair_eq_ok_iff {op : Opcode} {a b : Nat} {i : Instruction} :
    withPair op a b = .ok i ↔ (a ≤ maxPair ∧ b ≤ maxPair) ∧ i = pack op (a + 0x1000 * b) := by
  unfold withPair
  split
  · next h => simp [Nat.not_le.mpr h]
  · next ha =>
    split
    · next h => simp [Nat.not_le.mpr h]
    · next hb => simp [Nat.not_lt.mp ha, Nat.not_lt.mp hb, eq_comm]

end Instruction

/-! ### Edits of a scope -/

namespace Scope

open Edit

variable {s s' : Scope}

theorem emit_eq_ok {i : Instruction} {p : Nat} :
    emit i s = .ok p s' ↔ s.ended = false ∧ p = s.code.size ∧ s' = s.appended i := by
  simp only [emit, bind_eq_ok, get_eq_ok]
  constructor
  · rintro ⟨_, _, ⟨rfl, rfl⟩, h⟩
    split at h
    · obtain ⟨_, _, h, -⟩ := bind_eq_ok.mp h
      exact absurd h throw_ne_ok
    · next he =>
      simp only [bind_eq_ok, set_eq_ok, pure_eq_ok] at h
      obtain ⟨_, _, rfl, rfl, rfl⟩ := h
      exact ⟨Bool.eq_false_iff.mpr he, rfl, rfl⟩
  · rintro ⟨he, rfl, rfl⟩
    refine ⟨_, _, ⟨rfl, rfl⟩, ?_⟩
    simp only [he, Bool.false_eq_true, if_false, bind_eq_ok, set_eq_ok, pure_eq_ok]
    exact ⟨⟨⟩, _, rfl, trivial, rfl⟩

theorem emitOp_eq_ok {op : Opcode} {p : Nat} :
    emitOp op s = .ok p s' ↔ s.ended = false ∧ p = s.code.size ∧ s' = s.appended (.plain op) :=
  emit_eq_ok

theorem emitUnsigned_eq_ok {op : Opcode} {n p : Nat} :
    emitUnsigned op n s = .ok p s' ↔
      n ≤ Instruction.maxUnsigned ∧ s.ended = false ∧ p = s.code.size
        ∧ s' = s.appended (.pack op n) := by
  simp only [emitUnsigned, bind_eq_ok, ofExcept_eq_ok, Instruction.withUnsigned_eq_ok_iff,
    emit_eq_ok]
  constructor
  · rintro ⟨i, t, ⟨⟨hn, rfl⟩, rfl⟩, h⟩
    exact ⟨hn, h⟩
  · rintro ⟨hn, h⟩
    exact ⟨_, s, ⟨⟨hn, rfl⟩, rfl⟩, h⟩

theorem emitPair_eq_ok {op : Opcode} {a b p : Nat} :
    emitPair op a b s = .ok p s' ↔
      (a ≤ Instruction.maxPair ∧ b ≤ Instruction.maxPair) ∧ s.ended = false ∧ p = s.code.size
        ∧ s' = s.appended (.pack op (a + 0x1000 * b)) := by
  simp only [emitPair, bind_eq_ok, ofExcept_eq_ok, Instruction.withPair_eq_ok_iff, emit_eq_ok]
  constructor
  · rintro ⟨i, t, ⟨⟨hn, rfl⟩, rfl⟩, h⟩
    exact ⟨hn, h⟩
  · rintro ⟨hn, h⟩
    exact ⟨_, s, ⟨⟨hn, rfl⟩, rfl⟩, h⟩

theorem onLabels_eq_ok {α : Type} {edit : Edit Labels α} {a : α} :
    onLabels edit s = .ok a s' ↔
      ∃ labels, edit s.labels = .ok a labels ∧ s' = { s with labels } :=
  within_eq_ok

theorem newLabel_eq_ok {l : Label} :
    newLabel s = .ok l s' ↔
      l = Label.ofCount s.labels.marks.size ∧ s' = { s with labels := ⟨s.labels.marks.push {}⟩ } := by
  simp only [newLabel, onLabels_eq_ok, Labels.fresh, EStateM.Result.ok.injEq]
  constructor
  · rintro ⟨_, ⟨rfl, rfl⟩, rfl⟩
    exact ⟨rfl, rfl⟩
  · rintro ⟨rfl, rfl⟩
    exact ⟨_, ⟨rfl, rfl⟩, rfl⟩

theorem emitJump_eq_ok {op : Opcode} {l : Label} {p : Nat} :
    emitJump op l s = .ok p s' ↔
      s.ended = false ∧ l < s.labels.marks.size ∧ p = s.code.size
        ∧ s' = { s.appended (.plain op) with
            labels := ⟨s.labels.marks.modify l (·.used ⟨s.code.size, op⟩)⟩ } := by
  simp only [emitJump, bind_eq_ok, emitOp_eq_ok, onLabels_eq_ok, Labels.use, pure_eq_ok]
  constructor
  · rintro ⟨_, _, ⟨he, rfl, rfl⟩, _, _, ⟨labels, h, rfl⟩, rfl, rfl⟩
    split at h
    · next hl =>
      simp only [EStateM.Result.ok.injEq, true_and] at h
      exact ⟨he, hl, rfl, by rw [← h]; rfl⟩
    · simp at h
  · rintro ⟨he, hl, rfl, rfl⟩
    refine ⟨_, _, ⟨he, rfl, rfl⟩, ⟨⟩, _, ⟨_, ?_, rfl⟩, rfl, rfl⟩
    have hl' : l < (s.appended (.plain op)).labels.marks.size := hl
    rw [if_pos hl']
    rfl

theorem placeLabel_eq_ok {l : Label} {u : Unit} :
    placeLabel l s = .ok u s' ↔
      l < s.labels.marks.size ∧ s.labels.position? l = none
        ∧ s' = { s with labels := ⟨s.labels.marks.modify l (·.placed s.code.size)⟩ } := by
  simp only [placeLabel, bind_eq_ok, get_eq_ok, onLabels_eq_ok, Labels.place]
  constructor
  · rintro ⟨_, _, ⟨rfl, rfl⟩, labels, h, rfl⟩
    split at h
    · next hl =>
      split at h
      · simp at h
      · next hp =>
        simp only [EStateM.Result.ok.injEq, true_and] at h
        exact ⟨hl, by simpa using hp, by rw [← h]⟩
    · simp at h
  · rintro ⟨hl, hp, rfl⟩
    refine ⟨s, s, ⟨rfl, rfl⟩, _, ?_, rfl⟩
    rw [if_pos hl, hp]
    rfl

theorem receive_eq_ok {u : Unit} : receive s = .ok u s' ↔ s' = s.raised 1 := modify_eq_ok

theorem markLine_eq_ok {line : Nat} {u : Unit} :
    markLine line s = .ok u s' ↔
      (s.lastLine = some line ∧ s' = s)
        ∨ (s.lastLine ≠ some line ∧ line ≤ Instruction.maxUnsigned ∧ s.ended = false
          ∧ s' = { s with lastLine := some line }.appended (.pack .line line)) := by
  simp only [markLine, bind_eq_ok, get_eq_ok]
  constructor
  · rintro ⟨_, _, ⟨rfl, rfl⟩, h⟩
    split at h
    · next hl => exact .inl ⟨hl, (pure_eq_ok.mp h).2.symm⟩
    · next hl =>
      simp only [bind_eq_ok, set_eq_ok, emitUnsigned_eq_ok, pure_eq_ok] at h
      obtain ⟨_, _, rfl, _, _, ⟨hn, he, -, rfl⟩, -, rfl⟩ := h
      exact .inr ⟨hl, hn, he, rfl⟩
  · rintro (⟨hl, rfl⟩ | ⟨hl, hn, he, rfl⟩)
    · exact ⟨_, _, ⟨rfl, rfl⟩, by simp [hl, pure_eq_ok]⟩
    · refine ⟨_, _, ⟨rfl, rfl⟩, ?_⟩
      simp only [hl, if_false, bind_eq_ok, set_eq_ok, emitUnsigned_eq_ok, pure_eq_ok]
      exact ⟨⟨⟩, _, rfl, _, _, ⟨hn, he, rfl, rfl⟩, trivial, rfl⟩

theorem discard_eq_ok {u : Unit} :
    discard s = .ok u s' ↔
      (s.endsInSpareDup = true ∧ s' = s.withoutSpareDup)
        ∨ (s.endsInSpareDup = false ∧ s.ended = false ∧ s' = s.appended (.plain .pop)) := by
  simp only [discard, bind_eq_ok, get_eq_ok]
  constructor
  · rintro ⟨_, _, ⟨rfl, rfl⟩, h⟩
    split at h
    · next hd => exact .inl ⟨hd, set_eq_ok.mp h⟩
    · next hd =>
      simp only [bind_eq_ok, emitOp_eq_ok, pure_eq_ok] at h
      obtain ⟨_, _, ⟨he, -, rfl⟩, -, rfl⟩ := h
      exact .inr ⟨Bool.eq_false_iff.mpr hd, he, rfl⟩
  · rintro (⟨hd, rfl⟩ | ⟨hd, he, rfl⟩)
    · exact ⟨_, _, ⟨rfl, rfl⟩, by simp [hd, set_eq_ok]⟩
    · refine ⟨_, _, ⟨rfl, rfl⟩, ?_⟩
      simp only [hd, Bool.false_eq_true, if_false, bind_eq_ok, emitOp_eq_ok, pure_eq_ok]
      exact ⟨_, _, ⟨he, rfl, rfl⟩, trivial, rfl⟩

theorem constant_eq_ok {v : Value} {index : Nat} :
    constant v s = .ok index s' ↔
      ∃ constants, s.constants.add v = .ok (index, constants) ∧ s' = { s with constants } := by
  simp only [constant, bind_eq_ok, get_eq_ok, ofExcept_eq_ok, set_eq_ok, pure_eq_ok]
  constructor
  · rintro ⟨_, _, ⟨rfl, rfl⟩, ⟨_, constants⟩, _, ⟨h, rfl⟩, _, _, rfl, rfl, rfl⟩
    exact ⟨constants, h, rfl⟩
  · rintro ⟨constants, h, rfl⟩
    exact ⟨_, _, ⟨rfl, rfl⟩, (index, constants), _, ⟨h, rfl⟩, ⟨⟩, _, rfl, rfl, rfl⟩

theorem nameConstant_eq_ok {name : String} {index : Nat} :
    nameConstant name s = .ok index s' ↔
      ∃ constants, s.constants.addName name = .ok (index, constants)
        ∧ s' = { s with constants } := by
  simp only [nameConstant, bind_eq_ok, get_eq_ok, ofExcept_eq_ok, set_eq_ok, pure_eq_ok]
  constructor
  · rintro ⟨_, _, ⟨rfl, rfl⟩, ⟨_, constants⟩, _, ⟨h, rfl⟩, _, _, rfl, rfl, rfl⟩
    exact ⟨constants, h, rfl⟩
  · rintro ⟨constants, h, rfl⟩
    exact ⟨_, _, ⟨rfl, rfl⟩, (index, constants), _, ⟨h, rfl⟩, ⟨⟩, _, rfl, rfl, rfl⟩

theorem loadConst_eq_ok {v : Value} {u : Unit} :
    loadConst v s = .ok u s' ↔
      ∃ index constants, s.constants.add v = .ok (index, constants)
        ∧ index ≤ Instruction.maxUnsigned ∧ s.ended = false
        ∧ s' = { s with constants }.appended (.pack .loadConst index) := by
  simp only [loadConst, bind_eq_ok, constant_eq_ok, emitUnsigned_eq_ok, pure_eq_ok]
  constructor
  · rintro ⟨index, _, ⟨constants, h, rfl⟩, _, _, ⟨hn, he, -, rfl⟩, -, rfl⟩
    exact ⟨index, constants, h, hn, he, rfl⟩
  · rintro ⟨index, constants, h, hn, he, rfl⟩
    exact ⟨index, _, ⟨constants, h, rfl⟩, _, _, ⟨hn, he, rfl, rfl⟩, trivial, rfl⟩

theorem emitNamed_eq_ok {op : Opcode} {name : String} {u : Unit} :
    emitNamed op name s = .ok u s' ↔
      ∃ index constants, s.constants.addName name = .ok (index, constants)
        ∧ index ≤ Instruction.maxUnsigned ∧ s.ended = false
        ∧ s' = { s with constants }.appended (.pack op index) := by
  simp only [emitNamed, bind_eq_ok, nameConstant_eq_ok, emitUnsigned_eq_ok, pure_eq_ok]
  constructor
  · rintro ⟨index, _, ⟨constants, h, rfl⟩, _, _, ⟨hn, he, -, rfl⟩, -, rfl⟩
    exact ⟨index, constants, h, hn, he, rfl⟩
  · rintro ⟨index, constants, h, hn, he, rfl⟩
    exact ⟨index, _, ⟨constants, h, rfl⟩, _, _, ⟨hn, he, rfl, rfl⟩, trivial, rfl⟩

theorem record_eq_ok {change : Recorder → Recorder} {u : Unit} :
    record change s = .ok u s' ↔ s' = { s with recorder := s.recorder.map change } := by
  simp only [record, within_eq_ok, modify_eq_ok, exists_eq_left]

theorem declare_eq_ok {name : String} {slot : Nat} :
    declare name s = .ok slot s' ↔
      ∃ fresh locals, s.locals.declare name = .ok ((slot, fresh), locals)
        ∧ s' = { s with
            locals
            recorder :=
              if fresh then s.recorder.map (·.start name s.code.size) else s.recorder } := by
  simp only [declare, bind_eq_ok, get_eq_ok, ofExcept_eq_ok]
  constructor
  · rintro ⟨_, _, ⟨rfl, rfl⟩, ⟨⟨_, fresh⟩, locals⟩, _, ⟨h, rfl⟩, _, _, hs, h'⟩
    obtain rfl := set_eq_ok.mp hs
    cases fresh with
    | true =>
      simp only [if_true, bind_eq_ok, record_eq_ok, pure_eq_ok] at h'
      obtain ⟨_, _, rfl, rfl, rfl⟩ := h'
      exact ⟨true, locals, h, rfl⟩
    | false =>
      simp only [Bool.false_eq_true, if_false, pure_eq_ok] at h'
      obtain ⟨rfl, rfl⟩ := h'
      exact ⟨false, locals, h, rfl⟩
  · rintro ⟨fresh, locals, h, rfl⟩
    refine ⟨_, _, ⟨rfl, rfl⟩, ((slot, fresh), locals), _, ⟨h, rfl⟩, ⟨⟩, _, set_eq_ok.mpr rfl, ?_⟩
    cases fresh with
    | true =>
      simp only [if_true, bind_eq_ok, record_eq_ok, pure_eq_ok]
      exact ⟨⟨⟩, _, rfl, trivial, rfl⟩
    | false =>
      exact pure_eq_ok.mpr ⟨rfl, rfl⟩

theorem emitSlot_eq_ok {op : Opcode} {name : String} {u : Unit} :
    emitSlot op name s = .ok u s' ↔
      ∃ slot, s.locals.lookup? name = some slot ∧ slot ≤ Instruction.maxUnsigned
        ∧ s.ended = false ∧ s' = s.appended (.pack op slot) := by
  simp only [emitSlot, bind_eq_ok, get_eq_ok]
  constructor
  · rintro ⟨_, t, ⟨rfl, rfl⟩, h⟩
    cases hl : t.locals.lookup? name with
    | some slot =>
      simp only [hl, bind_eq_ok, emitUnsigned_eq_ok, pure_eq_ok] at h
      obtain ⟨_, _, ⟨hn, he, -, rfl⟩, -, rfl⟩ := h
      exact ⟨slot, rfl, hn, he, rfl⟩
    | none =>
      simp only [hl] at h
      exact absurd h throw_ne_ok
  · rintro ⟨slot, hl, hn, he, rfl⟩
    refine ⟨_, _, ⟨rfl, rfl⟩, ?_⟩
    simp only [hl, bind_eq_ok, emitUnsigned_eq_ok, pure_eq_ok]
    exact ⟨_, _, ⟨hn, he, rfl, rfl⟩, trivial, rfl⟩

theorem enterBlock_eq_ok {u : Unit} :
    enterBlock s = .ok u s' ↔ s' = { s with blocks := s.locals.mark :: s.blocks } :=
  modify_eq_ok

theorem leaveBlock_eq_ok {u : Unit} :
    leaveBlock s = .ok u s' ↔
      ∃ marker blocks, s.blocks = marker :: blocks
        ∧ s' = { s with
            blocks
            locals := (s.locals.rollback marker).2
            recorder :=
              s.recorder.map (·.stop (s.locals.rollback marker).1 s.code.size) } := by
  simp only [leaveBlock, bind_eq_ok, get_eq_ok]
  constructor
  · rintro ⟨_, t, ⟨rfl, rfl⟩, h⟩
    cases hb : t.blocks with
    | nil =>
      simp only [hb] at h
      exact absurd h throw_ne_ok
    | cons marker blocks =>
      simp only [hb, bind_eq_ok, set_eq_ok, record_eq_ok] at h
      obtain ⟨_, _, rfl, rfl⟩ := h
      exact ⟨marker, blocks, rfl, rfl⟩
  · rintro ⟨marker, blocks, hb, rfl⟩
    refine ⟨_, _, ⟨rfl, rfl⟩, ?_⟩
    simp only [hb, bind_eq_ok, set_eq_ok, record_eq_ok]
    exact ⟨⟨⟩, _, rfl, rfl⟩

theorem protect_eq_ok {u : Unit} :
    protect s = .ok u s' ↔ s' = { s with protects := true } :=
  modify_eq_ok

theorem reconcile_eq_ok {u : Unit} :
    reconcile s = .ok u s' ↔
      s.blocks = [] ∧ ∃ code, s.labels.reconcile s.code = .ok () code ∧ s' = { s with code } := by
  simp only [reconcile, bind_eq_ok, get_eq_ok]
  constructor
  · rintro ⟨_, _, ⟨rfl, rfl⟩, h⟩
    split at h
    · next hb => exact ⟨List.isEmpty_iff.mp hb, within_eq_ok.mp h⟩
    · obtain ⟨_, _, h, -⟩ := bind_eq_ok.mp h
      exact absurd h throw_ne_ok
  · rintro ⟨hb, h⟩
    refine ⟨_, _, ⟨rfl, rfl⟩, ?_⟩
    rw [if_pos (List.isEmpty_iff.mpr hb)]
    exact within_eq_ok.mpr h

theorem lower_eq_ok {c : CodeObject} :
    lower s = .ok c s' ↔ c = s.toCodeObject ∧ s' = s.emptied := by
  simp only [lower, bind_eq_ok, get_eq_ok, set_eq_ok, pure_eq_ok]
  constructor
  · rintro ⟨_, _, ⟨rfl, rfl⟩, _, _, rfl, rfl, rfl⟩
    exact ⟨rfl, rfl⟩
  · rintro ⟨rfl, rfl⟩
    exact ⟨_, _, ⟨rfl, rfl⟩, ⟨⟩, _, rfl, rfl, rfl⟩

end Scope

/-! ### Edits of an assembly -/

namespace Assembler

open Edit

variable {a a' : Assembler}

theorem onCurrent_eq_ok {α : Type} {edit : Edit Scope α} {x : α} :
    onCurrent edit a = .ok x a' ↔
      ∃ s, edit a.current = .ok x s ∧ a' = { a with current := s } := by
  obtain ⟨config, current, enclosing, left, entered⟩ := a
  simp only [onCurrent]
  cases edit current with
  | ok y t =>
    simp only [EStateM.Result.ok.injEq]
    constructor
    · rintro ⟨rfl, rfl⟩
      exact ⟨t, ⟨rfl, rfl⟩, rfl⟩
    · rintro ⟨_, ⟨rfl, rfl⟩, rfl⟩
      exact ⟨rfl, rfl⟩
  | error e t => simp

theorem enterScope_eq_ok {kind : ScopeKind} {signature : Signature} {n : Nat} :
    enterScope kind signature a = .ok n a' ↔
      n = a.entered
        ∧ a' = { a with
            current := Scope.new a.entered kind signature a.config.debugInfo
            enclosing := a.current :: a.enclosing
            entered := a.entered + 1 } := by
  simp only [enterScope, bind_eq_ok, get_eq_ok, set_eq_ok, pure_eq_ok]
  constructor
  · rintro ⟨_, _, ⟨rfl, rfl⟩, _, _, rfl, rfl, rfl⟩
    exact ⟨rfl, rfl⟩
  · rintro ⟨rfl, rfl⟩
    exact ⟨_, _, ⟨rfl, rfl⟩, ⟨⟩, _, rfl, rfl, rfl⟩

theorem leaveScope_eq_ok {child : Child} :
    leaveScope a = .ok child a' ↔
      ∃ parent rest s relay, a.enclosing = parent :: rest ∧ parent.ended = false
        ∧ Scope.reconcile a.current = .ok () s
        ∧ parent.outers.relay s.outers.descriptors = .ok relay
        ∧ child = ⟨parent.children.size, relay.captures⟩
        ∧ a' = { a with
            current :=
              { parent with
                outers := relay.parent
                children :=
                  parent.children.push { s with outers := ⟨relay.settled⟩ }.toCodeObject }
            enclosing := rest
            left := ⟨parent.number, { s with outers := ⟨relay.settled⟩ }.emptied⟩ :: a.left } := by
  simp only [leaveScope, bind_eq_ok, get_eq_ok]
  constructor
  · rintro ⟨_, t, ⟨rfl, rfl⟩, h⟩
    cases hp : t.enclosing with
    | nil =>
      simp only [hp] at h
      exact absurd h throw_ne_ok
    | cons parent rest =>
      simp only [hp] at h
      split at h
      · obtain ⟨_, _, h, -⟩ := bind_eq_ok.mp h
        exact absurd h throw_ne_ok
      · next he =>
        simp only [bind_eq_ok, onCurrent_eq_ok, get_eq_ok, ofExcept_eq_ok, modify_eq_ok,
          pure_eq_ok] at h
        obtain ⟨_, _, ⟨s, hs, rfl⟩, _, _, ⟨rfl, rfl⟩, relay, _, ⟨hr, rfl⟩, _, _, rfl, rfl, rfl⟩ := h
        refine ⟨parent, rest, s, relay, rfl, Bool.eq_false_iff.mpr he, hs, hr, rfl, ?_⟩
        rw [hp, attached]
  · rintro ⟨parent, rest, s, relay, hp, he, hs, hr, rfl, rfl⟩
    refine ⟨_, _, ⟨rfl, rfl⟩, ?_⟩
    simp only [hp]
    rw [if_neg (Bool.eq_false_iff.mp he)]
    simp only [bind_eq_ok, onCurrent_eq_ok, get_eq_ok, ofExcept_eq_ok, modify_eq_ok, pure_eq_ok]
    refine ⟨⟨⟩, _, ⟨s, hs, rfl⟩, _, _, ⟨rfl, rfl⟩, relay, _, ⟨hr, rfl⟩, ⟨⟩, _, rfl, rfl, ?_⟩
    rw [hp, attached]

theorem finish_eq_ok {c : CodeObject} :
    finish a = .ok c a' ↔
      ∃ s, a.enclosing = [] ∧ Scope.reconcile a.current = .ok () s ∧ s.outers.descriptors = []
        ∧ c = s.toCodeObject ∧ a' = { a with current := s.emptied } := by
  simp only [finish, bind_eq_ok, get_eq_ok]
  constructor
  · rintro ⟨_, _, ⟨rfl, rfl⟩, h⟩
    split at h
    · next hn =>
      simp only [bind_eq_ok, onCurrent_eq_ok, get_eq_ok] at h
      obtain ⟨_, _, ⟨s, hs, rfl⟩, _, _, ⟨rfl, rfl⟩, h⟩ := h
      split at h
      · next ho =>
        simp only [onCurrent_eq_ok, Scope.lower_eq_ok] at h
        obtain ⟨_, ⟨rfl, rfl⟩, rfl⟩ := h
        exact ⟨s, List.isEmpty_iff.mp hn, hs, List.isEmpty_iff.mp ho, rfl, rfl⟩
      · obtain ⟨_, _, h, -⟩ := bind_eq_ok.mp h
        exact absurd h throw_ne_ok
    · obtain ⟨_, _, h, -⟩ := bind_eq_ok.mp h
      exact absurd h throw_ne_ok
  · rintro ⟨s, hn, hs, ho, rfl, rfl⟩
    refine ⟨_, _, ⟨rfl, rfl⟩, ?_⟩
    rw [if_pos (List.isEmpty_iff.mpr hn)]
    simp only [bind_eq_ok, onCurrent_eq_ok, get_eq_ok]
    refine ⟨⟨⟩, _, ⟨s, hs, rfl⟩, _, _, ⟨rfl, rfl⟩, ?_⟩
    rw [if_pos (List.isEmpty_iff.mpr ho)]
    exact onCurrent_eq_ok.mpr ⟨_, Scope.lower_eq_ok.mpr ⟨rfl, rfl⟩, rfl⟩

theorem markLine_eq_ok {line : Nat} {u : Unit} :
    markLine line a = .ok u a' ↔
      (a.config.lineMarkers = false ∧ a' = a)
        ∨ (a.config.lineMarkers = true
          ∧ ∃ s, Scope.markLine line a.current = .ok () s ∧ a' = { a with current := s }) := by
  simp only [markLine, bind_eq_ok, get_eq_ok]
  constructor
  · rintro ⟨_, _, ⟨rfl, rfl⟩, h⟩
    split at h
    · next hc => exact .inr ⟨hc, onCurrent_eq_ok.mp h⟩
    · next hc => exact .inl ⟨Bool.eq_false_iff.mpr hc, (pure_eq_ok.mp h).2.symm⟩
  · rintro (⟨hc, rfl⟩ | ⟨hc, h⟩)
    · exact ⟨_, _, ⟨rfl, rfl⟩, by simp [hc, pure_eq_ok]⟩
    · refine ⟨_, _, ⟨rfl, rfl⟩, ?_⟩
      rw [if_pos hc]
      exact onCurrent_eq_ok.mpr h

/-- The three ways in which a name is resolved. -/
theorem resolve_eq_ok {name : String} {place : Place} :
    resolve name a = .ok place a' ↔
      (∃ slot, a.current.locals.lookup? name = some slot ∧ place = .slot slot ∧ a' = a)
        ∨ (a.current.locals.lookup? name = none
          ∧ ∃ o index outers, findOuter name 1 a.enclosing = .ok (some o)
            ∧ a.current.outers.add o = .ok (index, outers) ∧ place = .outer index
            ∧ a' = { a with current := { a.current with outers } })
        ∨ (a.current.locals.lookup? name = none ∧ findOuter name 1 a.enclosing = .ok none
          ∧ ∃ index constants, a.current.constants.addName name = .ok (index, constants)
            ∧ place = .global index
            ∧ a' = { a with current := { a.current with constants } }) := by
  simp only [resolve, bind_eq_ok, get_eq_ok]
  constructor
  · rintro ⟨_, t, ⟨rfl, rfl⟩, h⟩
    cases hl : t.current.locals.lookup? name with
    | some slot =>
      simp only [hl, pure_eq_ok] at h
      exact .inl ⟨slot, rfl, h.1.symm, h.2.symm⟩
    | none =>
      simp only [hl, bind_eq_ok, ofExcept_eq_ok] at h
      obtain ⟨found, _, ⟨hf, rfl⟩, h⟩ := h
      cases found with
      | some o =>
        simp only [bind_eq_ok, ofExcept_eq_ok, set_eq_ok, pure_eq_ok] at h
        obtain ⟨⟨index, outers⟩, _, ⟨ho, rfl⟩, _, _, rfl, rfl, rfl⟩ := h
        exact .inr (.inl ⟨rfl, o, index, outers, hf, ho, rfl, rfl⟩)
      | none =>
        simp only [map_eq_ok, onCurrent_eq_ok, Scope.nameConstant_eq_ok] at h
        obtain ⟨index, ⟨_, ⟨constants, hc, rfl⟩, rfl⟩, rfl⟩ := h
        exact .inr (.inr ⟨rfl, hf, index, constants, hc, rfl, rfl⟩)
  · rintro (⟨slot, hl, rfl, rfl⟩ | ⟨hl, o, index, outers, hf, ho, rfl, rfl⟩ |
      ⟨hl, hf, index, constants, hc, rfl, rfl⟩)
    · exact ⟨_, _, ⟨rfl, rfl⟩, by simp only [hl, pure_eq_ok]; exact ⟨trivial, trivial⟩⟩
    · refine ⟨_, _, ⟨rfl, rfl⟩, ?_⟩
      simp only [hl, bind_eq_ok, ofExcept_eq_ok]
      refine ⟨some o, _, ⟨hf, rfl⟩, ?_⟩
      simp only [bind_eq_ok, ofExcept_eq_ok, set_eq_ok, pure_eq_ok]
      exact ⟨(index, outers), _, ⟨ho, rfl⟩, ⟨⟩, _, rfl, rfl, rfl⟩
    · refine ⟨_, _, ⟨rfl, rfl⟩, ?_⟩
      simp only [hl, bind_eq_ok, ofExcept_eq_ok]
      refine ⟨none, _, ⟨hf, rfl⟩, ?_⟩
      simp only [map_eq_ok, onCurrent_eq_ok, Scope.nameConstant_eq_ok]
      exact ⟨index, ⟨_, ⟨constants, hc, rfl⟩, rfl⟩, rfl⟩

end Assembler

namespace Place

/-- The operand by which an instruction refers to a place. -/
def operand : Place → Nat
  | slot n => n
  | outer n => n
  | global n => n

/-- The operation that pushes the value of a place. -/
def loadOp : Place → Opcode
  | slot _ => .loadLocal
  | outer _ => .loadOuter
  | global _ => .loadGlobal

/-- The operation that stores into a place. -/
def storeOp : Place → Opcode
  | slot _ => .storeLocal
  | outer _ => .storeOuter
  | global _ => .storeGlobal

end Place

namespace Assembler

open Edit

variable {a a' : Assembler}

/-- Loads and stores differ in the operation alone. -/
theorem emitPlace_eq_ok {name : String} {op : Place → Opcode} {u : Unit} :
    (resolve name >>= fun place =>
        Edit.ignore (onCurrent (Scope.emitUnsigned (op place) place.operand))) a = .ok u a' ↔
      ∃ place b, resolve name a = .ok place b ∧ place.operand ≤ Instruction.maxUnsigned
        ∧ b.current.ended = false
        ∧ a' = { b with current := b.current.appended (.pack (op place) place.operand) } := by
  simp only [bind_eq_ok, ignore_eq_ok, onCurrent_eq_ok, Scope.emitUnsigned_eq_ok]
  constructor
  · rintro ⟨place, b, hr, _, _, ⟨hn, he, -, rfl⟩, rfl⟩
    exact ⟨place, b, hr, hn, he, rfl⟩
  · rintro ⟨place, b, hr, hn, he, rfl⟩
    exact ⟨place, b, hr, _, _, ⟨hn, he, rfl, rfl⟩, rfl⟩

theorem loadName_eq_ok {name : String} {u : Unit} :
    loadName name a = .ok u a' ↔
      ∃ place b, resolve name a = .ok place b ∧ place.operand ≤ Instruction.maxUnsigned
        ∧ b.current.ended = false
        ∧ a' = { b with current := b.current.appended (.pack place.loadOp place.operand) } := by
  rw [← emitPlace_eq_ok (u := u)]
  simp only [loadName, bind_eq_ok]
  refine exists_congr fun place => exists_congr fun b => and_congr_right fun _ => ?_
  cases place <;> exact Iff.rfl

theorem storeName_eq_ok {name : String} {u : Unit} :
    storeName name a = .ok u a' ↔
      ∃ place b, resolve name a = .ok place b ∧ place.operand ≤ Instruction.maxUnsigned
        ∧ b.current.ended = false
        ∧ a' = { b with current := b.current.appended (.pack place.storeOp place.operand) } := by
  rw [← emitPlace_eq_ok (u := u)]
  simp only [storeName, bind_eq_ok]
  refine exists_congr fun place => exists_congr fun b => and_congr_right fun _ => ?_
  cases place <;> exact Iff.rfl

end Assembler

/-! ### Children -/

/-- The operand of a capture. -/
def Capture.operand : Capture → Nat
  | slot n => n
  | outer n => n

/-- The operation of a capture. -/
def Capture.op : Capture → Opcode
  | slot _ => .captureLocal
  | outer _ => .captureOuter

/-- The word of a capture. -/
def Capture.word (c : Capture) : Instruction := .pack c.op c.operand

theorem Capture.instruction_eq_ok {c : Capture} {i : Instruction} :
    c.instruction = .ok i ↔ c.operand ≤ Instruction.maxUnsigned ∧ i = c.word := by
  cases c <;> exact Instruction.withUnsigned_eq_ok_iff

/-- The state after several instructions were appended. -/
def Scope.appendedAll (s : Scope) (is : List Instruction) : Scope := is.foldl Scope.appended s

namespace Assembler

open Edit

theorem eq_of_emitCaptures {captures : List Capture} {s s' : Scope} {u : Unit}
    (h : emitCaptures captures s = .ok u s') :
    (∀ c ∈ captures, c.operand ≤ Instruction.maxUnsigned)
      ∧ s' = s.appendedAll (captures.map Capture.word) := by
  induction captures generalizing s with
  | nil => exact ⟨fun c hc => absurd hc List.not_mem_nil, (pure_eq_ok.mp h).2.symm⟩
  | cons c cs ih =>
    simp only [emitCaptures, bind_eq_ok, ofExcept_eq_ok, Scope.emit_eq_ok] at h
    obtain ⟨i, _, ⟨hi, rfl⟩, _, _, ⟨-, -, rfl⟩, h⟩ := h
    obtain ⟨hc, rfl⟩ := Capture.instruction_eq_ok.mp hi
    obtain ⟨hcs, rfl⟩ := ih h
    exact ⟨List.forall_mem_cons.mpr ⟨hc, hcs⟩, rfl⟩

theorem eq_of_emitChild {op : Opcode} {child : Child} {a a' : Assembler} {u : Unit}
    (h : emitChild op child a = .ok u a') :
    child.index ≤ Instruction.maxUnsigned
      ∧ (∀ c ∈ child.captures, c.operand ≤ Instruction.maxUnsigned)
      ∧ a' = { a with
          current := a.current.appendedAll
            (.pack op child.index :: child.captures.map Capture.word) } := by
  simp only [emitChild, onCurrent_eq_ok, bind_eq_ok, Scope.emitUnsigned_eq_ok] at h
  obtain ⟨_, ⟨_, _, ⟨hn, -, -, rfl⟩, h⟩, rfl⟩ := h
  obtain ⟨hc, rfl⟩ := eq_of_emitCaptures h
  exact ⟨hn, hc, rfl⟩

end Assembler

/-! ### Steps -/

namespace Step

open Edit Assembler

/-- A unit is entered, its parameters are declared, its body is run, it is left, and it is
instantiated in the unit around it. -/
theorem run_unit_eq_ok {op : Opcode} {kind : ScopeKind} {signature : Signature} {body : Script}
    {a a' : Assembler} {u : Unit} :
    run (.unit op kind signature body) a = .ok u a' ↔
      ∃ n b s c child d, enterScope kind signature a = .ok n b
        ∧ declareAll signature.params b.current = .ok () s
        ∧ runAll body { b with current := s } = .ok () c
        ∧ leaveScope c = .ok child d ∧ emitChild op child d = .ok () a' := by
  simp only [run, bind_eq_ok, onCurrent_eq_ok]
  constructor
  · rintro ⟨n, b, he, _, _, ⟨s, hd, rfl⟩, _, c, hb, child, d, hl, h⟩
    exact ⟨n, b, s, c, child, d, he, hd, hb, hl, h⟩
  · rintro ⟨n, b, s, c, child, d, he, hd, hb, hl, h⟩
    exact ⟨n, b, he, ⟨⟩, _, ⟨s, hd, rfl⟩, ⟨⟩, c, hb, child, d, hl, h⟩

theorem runAll_cons_eq_ok {x : Step} {rest : Script} {a a' : Assembler} {u : Unit} :
    runAll (x :: rest) a = .ok u a' ↔
      ∃ b, run x a = .ok () b ∧ runAll rest b = .ok u a' := by
  simp only [runAll, bind_eq_ok]
  constructor
  · rintro ⟨_, b, hx, h⟩
    exact ⟨b, hx, h⟩
  · rintro ⟨b, hx, h⟩
    exact ⟨⟨⟩, b, hx, h⟩

/-- A script that is run in two parts. -/
theorem runAll_append_eq_ok {xs ys : Script} {a c : Assembler} :
    runAll (xs ++ ys) a = .ok () c ↔ ∃ b, runAll xs a = .ok () b ∧ runAll ys b = .ok () c := by
  rw [runAll_append, bind_eq_ok]
  exact ⟨fun ⟨_, b, h⟩ => ⟨b, h⟩, fun ⟨b, h⟩ => ⟨⟨⟩, b, h⟩⟩

end Step

/-- A compilation is an assembly whose last state does not matter. -/
theorem compile_eq_ok {config : Config} {program : List Stmt} {c : CodeObject} :
    compile config program = .ok c ↔
      ∃ final, assemble (Program.script config program) (Assembler.start config) = .ok c final := by
  unfold compile
  cases assemble (Program.script config program) (Assembler.start config) with
  | ok c' final =>
    simp only [Except.ok.injEq, EStateM.Result.ok.injEq]
    constructor
    · rintro rfl
      exact ⟨final, rfl, rfl⟩
    · rintro ⟨_, rfl, -⟩
      rfl
  | error e final => simp

/-- A script is run to its end, the placeholders are overwritten, and the outermost scope, which must
have no outer variables, becomes the code object. -/
theorem assemble_eq_ok {script : Script} {a final : Assembler} {c : CodeObject} :
    assemble script a = .ok c final ↔
      ∃ b s, Step.runAll script a = .ok () b ∧ b.enclosing = []
        ∧ Scope.reconcile b.current = .ok () s ∧ s.outers.descriptors = []
        ∧ c = s.toCodeObject ∧ final = { b with current := s.emptied } := by
  simp only [assemble, Edit.bind_eq_ok, Assembler.finish_eq_ok]
  constructor
  · rintro ⟨_, b, hb, s, h⟩
    exact ⟨b, s, hb, h⟩
  · rintro ⟨b, s, hb, h⟩
    exact ⟨⟨⟩, b, hb, s, h⟩

end StackCode
