import Mathlib.Data.List.Forall2
import StackCode.Proofs.Landing
import StackCode.Proofs.ReturnedCalls

/-!
# Code without tail calls

What the code of a unit becomes when its tail calls are turned into calls: each tail call is a call,
behind some of them a return is inserted, and everything that refers to positions is adjusted to the
insertions.

* `shift`: where an instruction moves to;
* `ReachesReturn`: from a position on there are only jumps up to a return;
* `Untailing`: how two codes correspond;
* `Lifetime.Shifted`, `SameUnit`, `Untailed`: the same for lifetimes, units and trees of units;
* `untailed`: the code before the displacements of the jumps are settled.
-/

namespace StackCode

/-! ### Positions -/

/-- Where the instruction at position `p` moves to, when an instruction is inserted behind each
position that is marked in `extra`. -/
def shift (extra : List Bool) (p : Nat) : Nat := p + (extra.take p).count true

section Shift

variable {extra more : List Bool} {p q : Nat}

theorem shift_append (h : p ≤ extra.length) : shift (extra ++ more) p = shift extra p := by
  rw [shift, List.take_append_of_le_length h, shift]

/-- Nothing is inserted behind the last instruction. -/
theorem shift_concat_false : shift (extra ++ [false]) p = shift extra p := by
  have hlast : ∀ n, ([false].take n).count true = 0 := by
    intro n
    cases n <;> simp
  rw [shift, List.take_append, List.count_append, hlast, shift]
  rfl

/-- Instructions keep their order. -/
theorem shift_lt_shift (h : p < q) : shift extra p < shift extra q := by
  have hle : (extra.take p).count true ≤ (extra.take q).count true :=
    List.Sublist.count_le true (List.take_sublist_take_left (Nat.le_of_lt h))
  unfold shift
  omega

theorem shift_le_shift (h : p ≤ q) : shift extra p ≤ shift extra q := by
  obtain rfl | h := Nat.eq_or_lt_of_le h
  · exact Nat.le_refl _
  · exact Nat.le_of_lt (shift_lt_shift h)

theorem shift_lt_shift_iff : shift extra p < shift extra q ↔ p < q := by
  refine ⟨fun h => Nat.not_le.mp fun hle => ?_, shift_lt_shift⟩
  have hshift : shift extra q ≤ shift extra p := shift_le_shift hle
  exact Nat.not_lt.mpr hshift h

end Shift

/-! ### Corresponding code -/

/-- From position `p` on there are only unconditional jumps up to a return. -/
inductive ReachesReturn (code : List Instruction) : Nat → Prop where
  | ret {p : Nat} {i : Instruction} (hi : code[p]? = some i) (hop : i.opcode? = some .ret) :
      ReachesReturn code p
  | jump {p t : Nat} {i : Instruction} (hi : code[p]? = some i) (hop : i.opcode? = some .jump)
      (ht : i.jumpTarget? p = some t) (h : ReachesReturn code t) : ReachesReturn code p

/-- The marks of the tail calls of a code, in order. -/
def tailMarks (extra : List Bool) (code : List Instruction) : List Bool :=
  ((code.zip extra).filter fun x => x.1.opcode? == some .tailCall).map Prod.snd

/-- The code `code'` comes from `code` by turning each tail call into a call and inserting a return
behind the positions that are marked in `extra`; `calls` are the marks of the tail calls, in order. -/
structure Untailing (extra calls : List Bool) (code code' : List Instruction) : Prop where
  length : extra.length = code.length
  calls : tailMarks extra code = calls
  /-- Only tail calls are marked. -/
  only : ∀ p : Nat, extra[p]? = some true → ∃ i, code[p]? = some i ∧ Instruction.opcode? i = some .tailCall
  /-- Nothing else is inserted. -/
  length' : code'.length = shift extra code.length
  call : ∀ (p : Nat) i, code[p]? = some i → i.opcode? = some .tailCall →
    code'[shift extra p]? = some (.pack .call i.unsigned)
  ret : ∀ p : Nat, extra[p]? = some true → code'[shift extra p + 1]? = some (.plain .ret)
  /-- A jump leads to the instruction that its target has become. -/
  jump : ∀ (p : Nat) i op, code[p]? = some i → i.opcode? = some op → op.isJump = true →
    ∃ j t, code'[shift extra p]? = some j ∧ j.opcode? = some op ∧ i.jumpTarget? p = some t
      ∧ j.jumpTarget? (shift extra p) = some (shift extra t)
  /-- All other instructions stay what they are. -/
  other : ∀ (p : Nat) i op, code[p]? = some i → i.opcode? = some op → op ≠ .tailCall → op.isJump = false →
    code'[shift extra p]? = some i
  known : ∀ (p : Nat) i, code[p]? = some i → ∃ op, i.opcode? = some op
  /-- The result of a call that was a tail call is returned. -/
  returned : ∀ (p : Nat) i, code[p]? = some i → i.opcode? = some .tailCall →
    ReachesReturn code' (shift extra p + 1)

/-- A recorded position and the one that it becomes; neither is behind the end of the code. -/
def Shifted (extra : List Bool) (bound x x' : Nat) : Prop :=
  ∃ p ≤ bound, x = Recorder.cut p ∧ x' = Recorder.cut (shift extra p)

/-- A lifetime and the one that it becomes. -/
structure Lifetime.Shifted (extra : List Bool) (v v' : Lifetime) : Prop where
  name : v'.name = v.name
  start : StackCode.Shifted extra extra.length v.start v'.start
  stop : StackCode.Shifted extra extra.length v.stop v'.stop

/-- Two units differ only in their tail calls, which are marked by `calls`, and in the room that their
frames need. -/
structure SameUnit (calls : List Bool) (c c' : CodeObject) : Prop where
  constants : c'.constants = c.constants
  flags : c'.flags = c.flags
  argCount : c'.argCount = c.argCount
  outerCount : c'.outerCount = c.outerCount
  localCount : c'.localCount = c.localCount
  argNames : c'.argNames = c.argNames
  code : ∃ extra, Untailing extra calls c.code c'.code
    ∧ Option.Rel (List.Forall₂ (Lifetime.Shifted extra)) c.lifetimes c'.lifetimes

mutual

/-- Two trees of units differ only in their tail calls. -/
inductive Untailed : Tails → CodeObject → CodeObject → Prop where
  | intro {tails : Tails} {c c' : CodeObject} (hunit : SameUnit tails.calls c c')
      (hchildren : UntailedAll tails.units c.children c'.children) : Untailed tails c c'

/-- The trees of two lists differ only in their tail calls, place by place. -/
inductive UntailedAll : List Tails → List CodeObject → List CodeObject → Prop where
  | nil : UntailedAll [] [] []
  | cons {tails : Tails} {c c' : CodeObject} {units : List Tails} {cs cs' : List CodeObject}
      (h : Untailed tails c c') (hrest : UntailedAll units cs cs') :
      UntailedAll (tails :: units) (c :: cs) (c' :: cs')

end

/-! ### The code before its jumps are settled -/

/-- A tail call as a call. -/
def Instruction.untailed (i : Instruction) : Instruction :=
  if i.opcode? = some .tailCall then .pack .call i.unsigned else i

/-- The code with calls for tail calls and returns where `extra` says so. -/
def untailed : List Bool → List Instruction → List Instruction
  | b :: extra, i :: code =>
    i.untailed :: ((if b then [.plain .ret] else []) ++ untailed extra code)
  | _, _ => []

section Untailed

variable {extra more : List Bool} {code rest : List Instruction}

theorem untailed_append (h : extra.length = code.length) :
    untailed (extra ++ more) (code ++ rest) = untailed extra code ++ untailed more rest := by
  induction code generalizing extra with
  | nil =>
    rw [List.length_nil, List.length_eq_zero_iff] at h
    rw [h]
    rfl
  | cons i code ih =>
    cases extra with
    | nil => cases h
    | cons b extra =>
      simp only [List.cons_append, untailed, ih (Nat.succ.inj h), List.append_assoc]

theorem tailMarks_append (h : extra.length = code.length) :
    tailMarks (extra ++ more) (code ++ rest) = tailMarks extra code ++ tailMarks more rest := by
  unfold tailMarks
  rw [List.zip_append h.symm, List.filter_append, List.map_append]

/-- The code up to an instruction, the instruction, and what follows it. -/
theorem untailed_eq {p : Nat} {i : Instruction} {b : Bool} (h : extra.length = code.length)
    (hi : code[p]? = some i) (hb : extra[p]? = some b) :
    untailed extra code = untailed (extra.take p) (code.take p)
      ++ (i.untailed :: ((if b then [.plain .ret] else [])
        ++ untailed (extra.drop (p + 1)) (code.drop (p + 1)))) := by
  obtain ⟨hp, rfl⟩ := List.getElem?_eq_some_iff.mp hi
  obtain ⟨hp', rfl⟩ := List.getElem?_eq_some_iff.mp hb
  have hlen : (extra.take p).length = (code.take p).length := by
    rw [List.length_take, List.length_take, h]
  calc untailed extra code
      = untailed (extra.take p ++ extra.drop p) (code.take p ++ code.drop p) := by
        rw [List.take_append_drop, List.take_append_drop]
    _ = _ := by
        rw [untailed_append hlen, List.drop_eq_getElem_cons hp, List.drop_eq_getElem_cons hp']
        rfl

theorem length_untailed (h : extra.length = code.length) :
    (untailed extra code).length = shift extra code.length := by
  induction code generalizing extra with
  | nil =>
    rw [List.length_nil, List.length_eq_zero_iff] at h
    rw [h]
    rfl
  | cons i code ih =>
    cases extra with
    | nil => cases h
    | cons b extra =>
      rw [untailed, List.length_cons, List.length_append, ih (Nat.succ.inj h), shift, shift,
        List.length_cons, List.take_succ_cons, List.count_cons]
      cases b <;> simp <;> omega

theorem length_untailed_take {p : Nat} (h : extra.length = code.length) (hp : p ≤ code.length) :
    (untailed (extra.take p) (code.take p)).length = shift extra p := by
  rw [length_untailed (by rw [List.length_take, List.length_take, h]), List.length_take,
    Nat.min_eq_left hp, shift, shift, List.take_take, Nat.min_self]

/-- Where an instruction is. -/
theorem getElem?_untailed {p : Nat} {i : Instruction} (h : extra.length = code.length)
    (hi : code[p]? = some i) : (untailed extra code)[shift extra p]? = some i.untailed := by
  have hp := (List.getElem?_eq_some_iff.mp hi).1
  rw [untailed_eq h hi (List.getElem?_eq_getElem (by rw [h]; exact hp)),
    ← length_untailed_take h (Nat.le_of_lt hp), List.getElem?_append_right (Nat.le_refl _),
    Nat.sub_self]
  rfl

/-- The return behind a tail call. -/
theorem getElem?_untailed_ret {p : Nat} (h : extra.length = code.length)
    (hb : extra[p]? = some true) :
    (untailed extra code)[shift extra p + 1]? = some (.plain .ret) := by
  have hp := (List.getElem?_eq_some_iff.mp hb).1
  rw [h] at hp
  rw [untailed_eq h (List.getElem?_eq_getElem hp) hb, ← length_untailed_take h (Nat.le_of_lt hp),
    List.getElem?_append_right (Nat.le_add_right _ 1), Nat.add_sub_cancel_left]
  rfl

end Untailed

theorem UntailedAll.length_eq {units : List Tails} {cs cs' : List CodeObject}
    (h : UntailedAll units cs cs') : cs'.length = cs.length := by
  induction cs generalizing units cs' with
  | nil =>
    cases h
    rfl
  | cons c cs ih =>
    cases h with
    | cons _ hrest => rw [List.length_cons, List.length_cons, ih hrest]

/-- One more tree. -/
theorem UntailedAll.concat {units : List Tails} {cs cs' : List CodeObject} {tails : Tails}
    {c c' : CodeObject} (h : UntailedAll units cs cs') (hc : Untailed tails c c') :
    UntailedAll (units ++ [tails]) (cs ++ [c]) (cs' ++ [c']) := by
  induction cs generalizing units cs' with
  | nil =>
    cases h
    exact .cons hc .nil
  | cons d cs ih =>
    cases h with
    | cons hd hrest => exact .cons hd (ih hrest)

end StackCode
