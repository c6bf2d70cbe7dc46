import StackCode.Proofs.Lifetimes

/-!
# Code with all duplications

Where a value is dropped right behind a store that left a duplicate of it, the duplication is taken back.
Without this, the store would stand between a duplication and a pop.

* `Script.withPops`, `compileWithPops`: the same compiler, which always emits a pop;
* `offset`: where an instruction moves to, when all duplications and pops are there;
* `DupsElided`, `UnitElided`, `Elided`: how the codes, the units and the trees of units correspond;
* `spelled`: the code with duplications and pops before the displacements of its jumps are settled.
-/

namespace StackCode

/-! ### The compiler that takes nothing back -/

mutual

/-- The step that pops a value wherever the given one drops it. -/
def Step.withPops : Step → Step
  | .discard => .op .pop
  | .unit op kind signature body => .unit op kind signature (Script.withPops body)
  | x => x

/-- The script that pops a value wherever the given one drops it, in the units inside it as well. -/
def Script.withPops : Script → Script
  | [] => []
  | x :: xs => x.withPops :: Script.withPops xs

end

/-- Compiles a program without taking duplications back. -/
def compileWithPops (config : Config) (program : List Stmt) : Except Error CodeObject :=
  match assemble (Script.withPops (Program.script config program)) (Assembler.start config) with
  | .ok c _ => .ok c
  | .error e _ => .error e

theorem Scope.discard_eq_emitOp {s : Scope} (h : s.endsInSpareDup = false) :
    Scope.discard s = Edit.ignore (Scope.emitOp .pop) s := by
  show (if s.endsInSpareDup = true then _ else _ : Edit Scope Unit) s = _
  rw [if_neg (Bool.eq_false_iff.mp h)]
  rfl

/-- Where there is no duplication to take back, dropping a value and popping it are the same step. -/
theorem Step.run_discard_eq_pop {a : Assembler} (h : a.current.endsInSpareDup = false) :
    Step.run .discard a = Step.run (.op .pop) a := by
  show Assembler.onCurrent Scope.discard a = Edit.ignore (Assembler.onCurrent (Scope.emitOp .pop)) a
  simp only [Assembler.onCurrent, Scope.discard_eq_emitOp h, Edit.ignore, bind, pure, EStateM.bind,
    EStateM.pure]
  cases Scope.emitOp .pop a.current <;> rfl

/-! ### Positions -/

/-- Where the instruction at position `p` moves to, when each instruction that is marked is put between
two others. -/
def offset (marks : List Bool) (p : Nat) : Nat := p + 2 * (marks.take p).count true

section Offset

variable {marks more : List Bool} {p q : Nat}

theorem offset_append (h : p ≤ marks.length) : offset (marks ++ more) p = offset marks p := by
  rw [offset, List.take_append_of_le_length h, offset]

/-- Behind a marked instruction there are two more. -/
theorem offset_succ {b : Bool} (h : marks[p]? = some b) :
    offset marks (p + 1) = offset marks p + if b then 3 else 1 := by
  rw [offset, offset, List.take_add_one, h, List.count_append]
  cases b <;> simp <;> omega

theorem offset_le_offset (h : p ≤ q) : offset marks p ≤ offset marks q := by
  have hle : (marks.take p).count true ≤ (marks.take q).count true :=
    List.Sublist.count_le true (List.take_sublist_take_left h)
  unfold offset
  omega

/-- No instruction moves between a duplication and its pop. -/
theorem offset_ne_offset_add {k : Nat} (h : marks[p]? = some true) (hk : 0 < k) (hk' : k < 3) :
    offset marks q ≠ offset marks p + k := by
  by_cases hq : q ≤ p
  · have hle : offset marks q ≤ offset marks p := offset_le_offset hq
    omega
  · have hnext := offset_succ h
    rw [if_pos rfl] at hnext
    have hle : offset marks (p + 1) ≤ offset marks q := offset_le_offset (by omega)
    omega

end Offset

/-! ### Corresponding code -/

/-- The code `code` comes from `code'` by taking back the duplications and the pops around the stores that
are marked. -/
structure DupsElided (marks : List Bool) (code code' : List Instruction) : Prop where
  length : marks.length = code.length
  /-- Only stores are marked. -/
  only : ∀ p : Nat, marks[p]? = some true →
    ∃ i op, code[p]? = some i ∧ Instruction.opcode? i = some op ∧ op.isStore = true
  /-- Nothing else is inserted. -/
  length' : code'.length = offset marks code.length
  triple : ∀ (p : Nat) i, marks[p]? = some true → code[p]? = some i →
    code'[offset marks p]? = some (.plain .dup) ∧ code'[offset marks p + 1]? = some i
      ∧ code'[offset marks p + 2]? = some (.plain .pop)
  /-- A jump leads to what its target has become. -/
  jump : ∀ (p : Nat) i op, code[p]? = some i → i.opcode? = some op → op.isJump = true →
    ∃ j t, code'[offset marks p]? = some j ∧ j.opcode? = some op ∧ i.jumpTarget? p = some t
      ∧ j.jumpTarget? (offset marks p) = some (offset marks t)
  /-- All other instructions stay what they are. -/
  other : ∀ (p : Nat) i op, code[p]? = some i → i.opcode? = some op → op.isJump = false →
    marks[p]? = some false → code'[offset marks p]? = some i
  known : ∀ (p : Nat) i, code[p]? = some i → ∃ op, i.opcode? = some op
  /-- No jump leads to a store whose value is dropped, or to the pop behind it. -/
  apart : ∀ (q : Nat) j t, code'[q]? = some j → j.jumpTarget? q = some t →
    ∀ p : Nat, marks[p]? = some true → t ≠ offset marks p + 1 ∧ t ≠ offset marks p + 2

/-- The variable when positions have moved. -/
def Span.moved (f : Nat → Nat) (v : Span) : Span := ⟨v.name, f v.start, v.stop.map f⟩

/-- The lifetime of a variable in a code of the given size, and the one that it becomes when positions
have moved. -/
def Lifetime.Moved (f : Nat → Nat) (size : Nat) (v v' : Lifetime) : Prop :=
  ∃ w : Span, w.Bounded size ∧ w.lives = false ∧ v = w.lifetime ∧ v' = (w.moved f).lifetime

/-- The unit `c` comes from `c'` by taking duplications back. -/
structure UnitElided (c c' : CodeObject) : Prop where
  constants : c'.constants = c.constants
  maxStack : c'.maxStack = c.maxStack
  flags : c'.flags = c.flags
  argCount : c'.argCount = c.argCount
  outerCount : c'.outerCount = c.outerCount
  localCount : c'.localCount = c.localCount
  argNames : c'.argNames = c.argNames
  code : ∃ marks, DupsElided marks c.code c'.code
    ∧ Option.Rel (List.Forall₂ (Lifetime.Moved (offset marks) c.code.length)) c.lifetimes c'.lifetimes

mutual

/-- The units of the tree `c` come from those of `c'` by taking duplications back. -/
inductive Elided : CodeObject → CodeObject → Prop where
  | intro {c c' : CodeObject} (hunit : UnitElided c c')
      (hchildren : ElidedAll c.children c'.children) : Elided c c'

/-- The same of the trees of two lists, place by place. -/
inductive ElidedAll : List CodeObject → List CodeObject → Prop where
  | nil : ElidedAll [] []
  | cons {c c' : CodeObject} {cs cs' : List CodeObject} (h : Elided c c') (hrest : ElidedAll cs cs') :
      ElidedAll (c :: cs) (c' :: cs')

end

theorem ElidedAll.length_eq {cs cs' : List CodeObject} (h : ElidedAll cs cs') :
    cs'.length = cs.length := by
  induction cs generalizing cs' with
  | nil =>
    cases h
    rfl
  | cons c cs ih =>
    cases h with
    | cons _ hrest => rw [List.length_cons, List.length_cons, ih hrest]

/-- One more tree. -/
theorem ElidedAll.concat {cs cs' : List CodeObject} {c c' : CodeObject} (h : ElidedAll cs cs')
    (hc : Elided c c') : ElidedAll (cs ++ [c]) (cs' ++ [c']) := by
  induction cs generalizing cs' with
  | nil =>
    cases h
    exact .cons hc .nil
  | cons d cs ih =>
    cases h with
    | cons hd hrest => exact .cons hd (ih hrest)

/-! ### The code before its jumps are settled -/

/-- An instruction, between a duplication and a pop if it is marked. -/
def spelledOut (b : Bool) (i : Instruction) : List Instruction :=
  if b then [.plain .dup, i, .plain .pop] else [i]

/-- The code with duplications and pops where `marks` says so. -/
def spelled : List Bool → List Instruction → List Instruction
  | b :: marks, i :: code => spelledOut b i ++ spelled marks code
  | _, _ => []

section Spelled

variable {marks more : List Bool} {code rest : List Instruction}

theorem spelled_append (h : marks.length = code.length) :
    spelled (marks ++ more) (code ++ rest) = spelled marks code ++ spelled more rest := by
  induction code generalizing marks with
  | nil =>
    rw [List.length_nil, List.length_eq_zero_iff] at h
    rw [h]
    rfl
  | cons i code ih =>
    cases marks with
    | nil => cases h
    | cons b marks =>
      simp only [List.cons_append, spelled, ih (Nat.succ.inj h), List.append_assoc]

theorem spelled_concat (h : marks.length = code.length) (b : Bool) (i : Instruction) :
    spelled (marks ++ [b]) (code ++ [i]) = spelled marks code ++ spelledOut b i := by
  rw [spelled_append h]
  show spelled marks code ++ (spelledOut b i ++ []) = _
  rw [List.append_nil]

theorem length_spelled (h : marks.length = code.length) :
    (spelled marks code).length = offset marks code.length := by
  induction code generalizing marks with
  | nil =>
    rw [List.length_nil, List.length_eq_zero_iff] at h
    rw [h]
    rfl
  | cons i code ih =>
    cases marks with
    | nil => cases h
    | cons b marks =>
      rw [spelled, List.length_append, ih (Nat.succ.inj h), offset, offset, List.length_cons,
        List.take_succ_cons, List.count_cons]
      cases b <;> simp [spelledOut] <;> omega

/-- Where an instruction is, with what is around it. -/
theorem getElem?_spelled {p k : Nat} {i : Instruction} {b : Bool} (h : marks.length = code.length)
    (hi : code[p]? = some i) (hb : marks[p]? = some b) (hk : k < (spelledOut b i).length) :
    (spelled marks code)[offset marks p + k]? = (spelledOut b i)[k]? := by
  induction code generalizing marks p with
  | nil => cases hi
  | cons j code ih =>
    cases marks with
    | nil => cases hb
    | cons d marks =>
      cases p with
      | zero =>
        obtain rfl := Option.some.inj hi
        obtain rfl := Option.some.inj hb
        rw [show offset (d :: marks) 0 + k = k by simp [offset], spelled,
          List.getElem?_append_left hk]
      | succ p =>
        have hnext := ih (Nat.succ.inj h) hi hb
        have hoffset : offset (d :: marks) (p + 1) = (spelledOut d j).length + offset marks p := by
          rw [offset, offset, List.take_succ_cons, List.count_cons]
          cases d <;> simp [spelledOut] <;> omega
        rw [hoffset, spelled, List.getElem?_append_right (by omega), Nat.add_assoc,
          Nat.add_sub_cancel_left]
        exact hnext

end Spelled

end StackCode
