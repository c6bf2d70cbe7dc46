import StackCode.Proofs.SpareDups

/-!
# Code without line marks

Line marks take up instructions, so everything behind them stands further on than it would without
them.

* `Instruction.isLine`, `withoutLines`: code without its line marks;
* `rank`: where an instruction moves to when the line marks are gone; a line mark moves to where the
  next instruction behind it does;
* `LinesDropped`, `UnitUnlined`, `Unlined`: how the codes, the units and the trees of units correspond.
-/

namespace StackCode

/-- Whether the instruction is a line mark. -/
def Instruction.isLine (i : Instruction) : Bool := i.opcode? == some .line

theorem Instruction.isLine_eq_false {i : Instruction} {op : Opcode} (hi : i.opcode? = some op)
    (hop : op ≠ .line) : i.isLine = false := by
  rw [isLine, hi]
  exact beq_false_of_ne fun h => hop (Option.some.inj h)

/-- The instructions of a code that are no line marks. -/
def withoutLines (code : List Instruction) : List Instruction := code.filter (!·.isLine)

/-- How many instructions before position `p` are no line marks. -/
def rank (code : List Instruction) (p : Nat) : Nat := (withoutLines (code.take p)).length

section Rank

variable {code code' more : List Instruction} {i : Instruction} {p q : Nat}

theorem withoutLines_append : withoutLines (code ++ more) = withoutLines code ++ withoutLines more :=
  List.filter_append ..

theorem withoutLines_concat (hi : i.isLine = false) :
    withoutLines (code ++ [i]) = withoutLines code ++ [i] := by
  rw [withoutLines_append]
  simp [withoutLines, hi]

theorem withoutLines_concat_line (hi : i.isLine = true) :
    withoutLines (code ++ [i]) = withoutLines code := by
  rw [withoutLines_append]
  simp [withoutLines, hi]

theorem rank_length : rank code code.length = (withoutLines code).length := by
  rw [rank, List.take_length]

theorem rank_append (h : p ≤ code.length) : rank (code ++ more) p = rank code p := by
  rw [rank, List.take_append_of_le_length h, rank]

theorem rank_le_rank (h : p ≤ q) : rank code p ≤ rank code q :=
  ((List.take_sublist_take_left h).filter _).length_le

/-- Behind an instruction that is no line mark. -/
theorem rank_succ (h : code[p]? = some i) (hi : i.isLine = false) :
    rank code (p + 1) = rank code p + 1 := by
  rw [rank, List.take_add_one, h, Option.toList_some, withoutLines_concat hi, List.length_append]
  rfl

/-- Ranks depend on the operations alone. -/
theorem rank_congr (h : code'.map Instruction.opcode? = code.map Instruction.opcode?) :
    rank code' p = rank code p := by
  have hrank : ∀ c : List Instruction, rank c p
      = (((c.map Instruction.opcode?).take p).filter fun o => !(o == some .line)).length := by
    intro c
    rw [← List.map_take, List.filter_map, List.length_map]
    rfl
  rw [hrank, hrank, h]

/-- Where an instruction stands when the line marks are gone. -/
theorem getElem?_withoutLines (h : code[p]? = some i) (hi : i.isLine = false) :
    (withoutLines code)[rank code p]? = some i := by
  have hsplit : code = code.take p ++ [i] ++ code.drop (p + 1) := by
    have htake := List.take_add_one (i := p) (l := code)
    rw [h, Option.toList_some] at htake
    rw [← htake, List.take_append_drop]
  rw [rank]
  nth_rewrite 1 [hsplit]
  rw [withoutLines_append, withoutLines_concat hi, List.getElem?_append_left (by simp),
    List.getElem?_concat_length]

end Rank

/-! ### Corresponding code -/

/-- The code `code'` comes from `code` by taking the line marks out. -/
structure LinesDropped (code code' : List Instruction) : Prop where
  gone : ∀ j ∈ code', j.isLine = false
  /-- Nothing else is taken out. -/
  length : code'.length = rank code code.length
  /-- A jump leads to what its target has become. -/
  jump : ∀ (p : Nat) i op, code[p]? = some i → i.opcode? = some op → op.isJump = true →
    ∃ j t, code'[rank code p]? = some j ∧ j.opcode? = some op ∧ i.jumpTarget? p = some t
      ∧ t ≤ code.length ∧ j.jumpTarget? (rank code p) = some (rank code t)
  /-- All other instructions stay what they are. -/
  other : ∀ (p : Nat) i op, code[p]? = some i → i.opcode? = some op → op.isJump = false →
    op ≠ .line → code'[rank code p]? = some i
  known : ∀ (p : Nat) i, code[p]? = some i → ∃ op, i.opcode? = some op

/-- The unit `c'` comes from `c` by taking the line marks out of its code. -/
structure UnitUnlined (c c' : CodeObject) : Prop where
  constants : c'.constants = c.constants
  maxStack : c'.maxStack = c.maxStack
  flags : c'.flags = c.flags
  argCount : c'.argCount = c.argCount
  outerCount : c'.outerCount = c.outerCount
  localCount : c'.localCount = c.localCount
  argNames : c'.argNames = c.argNames
  code : LinesDropped c.code c'.code
  lifetimes : Option.Rel (List.Forall₂ (Lifetime.Moved (rank c.code) c.code.length)) c.lifetimes
    c'.lifetimes

/-- The units of the tree `c'` come from those of `c` by taking the line marks out, and the children
correspond place by place. -/
inductive Unlined : CodeObject → CodeObject → Prop where
  | intro {c c' : CodeObject} (hunit : UnitUnlined c c')
      (hchildren : List.Forall₂ Unlined c.children c'.children) : Unlined c c'

end StackCode
