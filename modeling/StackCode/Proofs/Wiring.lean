import StackCode.Proofs.Charts
import StackCode.Proofs.Linked

/-!
# Captures along a script

The assembler is followed along a script once more, this time with the outer variables in mind. What
a scope refers to while it is written is what it refers to in the tree that the script is assembled
to, however many scopes are left and instantiated in the meantime.

* `Scope.Sound`: what holds of every scope that is being written;
* `Scope.Evolves`: what a step inside a unit does to its scope;
* `Lives`: what a scope referred to at some moment is found in the scope that has taken its place;
* `Traversal`, `Flows.traverse`: all of this along a script.
-/

namespace StackCode

open Step (Performs)

/-! ### Scopes -/

/-- All children of a scope and of the units inside it are linked, and its descriptors are kept
apart. -/
structure Scope.Sound (s : Scope) : Prop where
  linked : ∀ u, s.toCodeObject.Contains u → Linked u
  nodup : s.outers.descriptors.Nodup
  outside : ∀ o ∈ s.outers.descriptors, 1 ≤ o.up

/-- A later state of a scope. -/
structure Scope.Grows (s t : Scope) : Prop where
  keeps : s.toCodeObject.Keeps t.toCodeObject
  initial : s.outers.descriptors <+: t.outers.descriptors

/-- A later state of a scope in which no unit has become a child. -/
structure Scope.Evolves (s t : Scope) : Prop where
  grows : s.Grows t
  children : t.children = s.children
  known : ∀ k p, t.toCodeObject.instantiatesAt k p = true →
    s.toCodeObject.instantiatesAt k p = true
  outers : s.outers.Extends t.outers

theorem Scope.sound_new {number : Nat} {kind : ScopeKind} {signature : Signature} {record : Bool} :
    (Scope.new number kind signature record).Sound := by
  refine ⟨fun u hu => ?_, List.nodup_nil, fun o ho => absurd ho List.not_mem_nil⟩
  cases hu with
  | self =>
    refine ⟨fun k hk => absurd hk (Nat.not_lt_zero k), fun k p hp => ?_⟩
    obtain ⟨i, op, hi, -⟩ := CodeObject.instantiatesAt_iff.mp hp
    cases hi
  | child hk => cases hk

namespace Scope.Grows

variable {s t u : Scope}

theorem refl (s : Scope) : s.Grows s := ⟨.refl _, List.prefix_refl _⟩

theorem trans (h : s.Grows t) (h' : t.Grows u) : s.Grows u :=
  ⟨h.keeps.trans h'.keeps, h.initial.trans h'.initial⟩

end Scope.Grows

namespace Scope.Evolves

variable {s t u : Scope}

theorem trans (h : s.Evolves t) (h' : t.Evolves u) : s.Evolves u :=
  ⟨h.grows.trans h'.grows, h'.children.trans h.children,
    fun k p hi => h.known k p (h'.known k p hi), h.outers.trans h'.outers⟩

/-- The children are linked as before. -/
theorem sound (h : s.Evolves t) (hs : s.Sound) : t.Sound := by
  refine ⟨fun u hu => ?_, h.outers.nodup hs.nodup, h.outers.outside hs.outside⟩
  have hchildren : t.toCodeObject.children = s.toCodeObject.children := by
    show t.children.toList = s.children.toList
    rw [h.children]
  have hself := hs.linked _ (.self _)
  cases hu with
  | self =>
    refine ⟨fun k hk => ?_, fun k p hi => ?_⟩
    · rw [hchildren] at hk
      obtain ⟨captures, hl, hn⟩ := hself.links k hk
      exact ⟨captures, h.grows.keeps.links hl, hn⟩
    · rw [hchildren]
      exact hself.known k p (h.known k p hi)
  | child hk hu =>
    rw [hchildren] at hk
    exact hs.linked u (.child hk hu)

/-- What has to be known of the code. -/
theorem of_code (hc : t.children = s.children) (ho : s.outers.Extends t.outers)
    (hfixed : ∀ (p : Nat) i op, s.code[p]? = some i → i.opcode? = some op → op.isFixed = true →
      t.code[p]? = some i)
    (hknown : ∀ (p : Nat) i op, t.code[p]? = some i → i.opcode? = some op →
      op.instantiates = true → s.code[p]? = some i)
    (haccess : ∀ i op, i ∈ s.code → i.opcode? = some op → op.isOuterAccess = true →
      i ∈ t.code) :
    s.Evolves t := by
  have hknown' : ∀ k p, t.toCodeObject.instantiatesAt k p = true →
      s.toCodeObject.instantiatesAt k p = true := by
    intro k p hi
    obtain ⟨i, op, hi, hop, hn, hk⟩ := CodeObject.instantiatesAt_iff.mp hi
    refine CodeObject.instantiatesAt_iff.mpr ⟨i, op, ?_, hop, hn, hk⟩
    rw [show t.toCodeObject.code = t.code.toList from rfl, Array.getElem?_toList] at hi
    rw [show s.toCodeObject.code = s.code.toList from rfl, Array.getElem?_toList]
    exact hknown p i op hi hop hn
  refine ⟨⟨⟨?_, ?_, fun k p _ => hknown' k p, ?_⟩, ho.initial⟩, hc, hknown', ho⟩
  · show s.children.toList <+: t.children.toList
    exact ⟨[], by rw [List.append_nil, hc]⟩
  · intro p i op hi hop hf
    rw [show s.toCodeObject.code = s.code.toList from rfl, Array.getElem?_toList] at hi
    rw [show t.toCodeObject.code = t.code.toList from rfl, Array.getElem?_toList]
    exact hfixed p i op hi hop hf
  · intro i op hi hop ha
    exact Array.mem_toList_iff.mpr (haccess i op (Array.mem_toList_iff.mp hi) hop ha)

/-- Only what is not code has changed. -/
theorem of_eq (hcode : t.code = s.code) (hc : t.children = s.children)
    (ho : s.outers.Extends t.outers) : s.Evolves t := by
  refine of_code hc ho ?_ ?_ ?_
  · intro p i op hi _ _
    rw [hcode]
    exact hi
  · intro p i op hi _ _
    rw [← hcode]
    exact hi
  · intro i op hi _ _
    rw [hcode]
    exact hi

theorem alike (h : Scope.Alike s t) : s.Evolves t := of_eq h.code h.children h.outers

/-- An instruction is appended that makes no instance. -/
theorem appended {i : Instruction} {op : Opcode} (hop : i.opcode? = some op)
    (hn : op.instantiates = false) (s : Scope) : s.Evolves (s.appended i) := by
  refine of_code rfl (.refl _) ?_ ?_ ?_
  · intro p j o hj _ _
    have hlt := (Array.getElem?_eq_some_iff.mp hj).1
    show (s.code.push i)[p]? = some j
    rw [Array.getElem?_push, if_neg (by omega)]
    exact hj
  · intro p j o hj ho hi
    replace hj : (s.code.push i)[p]? = some j := hj
    rw [Array.getElem?_push] at hj
    split at hj
    · obtain rfl := Option.some.inj hj
      obtain rfl := Option.some.inj (hop.symm.trans ho)
      exact absurd (hn.symm.trans hi) Bool.false_ne_true
    · exact hj
  · intro j o hj _ _
    exact Array.mem_push_of_mem i hj

/-- A duplication is taken back. -/
theorem withoutSpareDup (h : s.endsInSpareDup = true) : s.Evolves s.withoutSpareDup := by
  obtain ⟨hn, ⟨i, op, hi, hop, hst⟩, ⟨j, hj, hdup⟩, -⟩ := Scope.endsInSpareDup_iff.mp h
  refine of_code rfl (.refl _) ?_ ?_ ?_
  · intro p x o hx ho hf
    have hlt := (Array.getElem?_eq_some_iff.mp hx).1
    -- neither the duplication nor the store is fixed
    have hne₁ : p ≠ s.code.size - 1 := by
      rintro rfl
      obtain rfl := Option.some.inj (hi.symm.trans hx)
      obtain rfl := Option.some.inj (hop.symm.trans ho)
      cases op <;> simp [Opcode.isStore] at hst <;> simp [Opcode.isFixed, Opcode.instantiates] at hf
    have hne₂ : p ≠ s.code.size - 2 := by
      rintro rfl
      obtain rfl := Option.some.inj (hj.symm.trans hx)
      obtain rfl := Option.some.inj (hdup.symm.trans ho)
      simp [Opcode.isFixed, Opcode.instantiates] at hf
    rw [Scope.getElem?_withoutSpareDup hn, if_pos (by omega)]
    exact hx
  · intro p x o hx ho hin
    rw [Scope.getElem?_withoutSpareDup hn] at hx
    split at hx
    · exact hx
    · have hlt := (Array.getElem?_eq_some_iff.mp hx).1
      obtain rfl : p = s.code.size - 2 := by omega
      rw [show s.code.size - 2 + 1 = s.code.size - 1 by omega] at hx
      obtain rfl := Option.some.inj (hi.symm.trans hx)
      obtain rfl := Option.some.inj (hop.symm.trans ho)
      cases op <;> simp [Opcode.isStore] at hst <;> simp [Opcode.instantiates] at hin
  · intro x o hx ho ha
    obtain ⟨p, hlt, rfl⟩ := Array.mem_iff_getElem.mp hx
    have hx := Array.getElem?_eq_getElem hlt
    have hne : p ≠ s.code.size - 2 := by
      rintro rfl
      rw [Option.some.inj (hx.symm.trans hj), hdup] at ho
      obtain rfl := Option.some.inj ho
      exact absurd ha (by decide)
    by_cases hp : p < s.code.size - 2
    · refine Array.mem_of_getElem? (i := p) ?_
      rw [Scope.getElem?_withoutSpareDup hn, if_pos hp]
      exact hx
    · refine Array.mem_of_getElem? (i := p - 1) ?_
      rw [Scope.getElem?_withoutSpareDup hn, if_neg (by omega), show p - 1 + 1 = p by omega]
      exact hx

theorem discard {v : Unit} (h : Scope.discard s = .ok v t) : s.Evolves t := by
  obtain ⟨hd, rfl⟩ | ⟨-, -, rfl⟩ := Scope.discard_eq_ok.mp h
  · exact withoutSpareDup hd
  · exact appended (Instruction.opcode?_plain .pop) rfl s

/-- The placeholders are overwritten, which are jumps. -/
theorem reconcile {M : Frame → Frame → Prop} {trail : List Frame} {o : Outlook}
    (ht : Traced M s trail o) (h : Scope.reconcile s = .ok () t) : s.Evolves t := by
  obtain ⟨-, code, hcode, rfl⟩ := Scope.reconcile_eq_ok.mp h
  refine of_code rfl (.refl _) ?_ ?_ ?_
  · intro p i op hi hop hf
    obtain hsame | ⟨o, n, hj, rfl, -⟩ := ht.getElem?_of_reconcile hcode hi
    · exact hsame
    · rw [Instruction.opcode?_plain] at hop
      obtain rfl := Option.some.inj hop
      exact absurd hj (Opcode.not_isJump_of_isFixed hf)
  · intro p i op hi hop hn
    have hlt : p < s.code.size := by
      rw [← Labels.size_of_reconcile hcode]
      exact (Array.getElem?_eq_some_iff.mp hi).1
    have hold := Array.getElem?_eq_getElem hlt
    obtain hsame | ⟨o, n, hj, -, hnew⟩ := ht.getElem?_of_reconcile hcode hold
    · rw [hold, ← hsame]
      exact hi
    · obtain rfl := Option.some.inj (hi.symm.trans hnew)
      rw [Instruction.opcode?_pack (Instruction.signedField_lt n)] at hop
      obtain rfl := Option.some.inj hop
      exact absurd hj (Opcode.not_isJump_of_isFixed (Opcode.isFixed_of_instantiates hn))
  · intro i op hi hop ha
    obtain ⟨p, hlt, rfl⟩ := Array.mem_iff_getElem.mp hi
    obtain hsame | ⟨o, n, hj, hp, -⟩ := ht.getElem?_of_reconcile hcode (Array.getElem?_eq_getElem hlt)
    · exact Array.mem_of_getElem? hsame
    · rw [hp, Instruction.opcode?_plain] at hop
      obtain rfl := Option.some.inj hop
      cases o <;> simp [Opcode.isOuterAccess] at ha <;> exact absurd hj (by decide)

end Scope.Evolves

/-! ### Children -/

theorem Capture.opcode?_word {c : Capture} (h : c.operand ≤ Instruction.maxUnsigned) :
    c.word.opcode? = some c.op :=
  Instruction.opcode?_pack (Nat.lt_succ_of_le h)

theorem Capture.capture?_word {c : Capture} (h : c.operand ≤ Instruction.maxUnsigned) :
    c.word.capture? = some c := by
  have hop := opcode?_word h
  have hn : c.word.unsigned = c.operand := Instruction.unsigned_pack (Nat.lt_succ_of_le h)
  unfold Instruction.capture?
  rw [hop, hn]
  cases c with
  | slot n => rfl
  | outer n => rfl

namespace Scope

theorem exists_appendedAll (s : Scope) (is : List Instruction) :
    ∃ code depth peak, s.appendedAll is = { s with code, depth, peak } := by
  induction is generalizing s with
  | nil => exact ⟨_, _, _, rfl⟩
  | cons i is ih => exact ih (s.appended i)

theorem code_appendedAll (s : Scope) (is : List Instruction) :
    (s.appendedAll is).toCodeObject.code = s.toCodeObject.code ++ is := by
  induction is generalizing s with
  | nil => exact (List.append_nil _).symm
  | cons i is ih =>
    show ((s.appended i).appendedAll is).toCodeObject.code = _
    rw [ih]
    show (s.code.push i).toList ++ is = s.code.toList ++ i :: is
    rw [Array.toList_push, List.append_assoc]
    rfl

theorem children_appendedAll (s : Scope) (is : List Instruction) :
    (s.appendedAll is).children = s.children := by
  induction is generalizing s with
  | nil => rfl
  | cons i is ih => exact ih (s.appended i)

theorem outers_appendedAll (s : Scope) (is : List Instruction) :
    (s.appendedAll is).outers = s.outers := by
  induction is generalizing s with
  | nil => rfl
  | cons i is ih => exact ih (s.appended i)

/-- The scope after a unit has become its last child and an instance of it is made. -/
def adopted (s : Scope) (op : Opcode) (v : CodeObject) (relay : Outers.Relay) : Scope :=
  { s with outers := relay.parent, children := s.children.push v }.appendedAll
    (.pack op s.children.size :: relay.captures.map Capture.word)

variable {s : Scope} {op : Opcode} {v : CodeObject} {relay : Outers.Relay}

theorem code_adopted :
    (s.adopted op v relay).toCodeObject.code
      = s.toCodeObject.code ++ .pack op s.children.size :: relay.captures.map Capture.word :=
  code_appendedAll _ _

theorem children_adopted :
    (s.adopted op v relay).toCodeObject.children = s.toCodeObject.children ++ [v] := by
  show (Scope.appendedAll _ _).children.toList = s.children.toList ++ [v]
  rw [children_appendedAll, Array.toList_push]

theorem last_adopted :
    (s.adopted op v relay).toCodeObject.children[s.children.size]? = some v := by
  have hlen : s.toCodeObject.children.length = s.children.size := Array.length_toList
  rw [children_adopted, List.getElem?_append_right (by omega), hlen, Nat.sub_self]
  rfl

theorem outers_adopted : (s.adopted op v relay).outers = relay.parent := outers_appendedAll _ _

/-- One more instance is made, of the new child. -/
theorem instantiatesAt_adopted {k q : Nat} (hop : op.instantiates = true)
    (hn : s.children.size ≤ Instruction.maxUnsigned)
    (hc : ∀ c ∈ relay.captures, c.operand ≤ Instruction.maxUnsigned) :
    (s.adopted op v relay).toCodeObject.instantiatesAt k q = true ↔
      s.toCodeObject.instantiatesAt k q = true ∨ (k = s.children.size ∧ q = s.code.size) := by
  have hlen : s.toCodeObject.code.length = s.code.size := Array.length_toList
  have hword : (Instruction.pack op s.children.size).opcode? = some op :=
    Instruction.opcode?_pack (Nat.lt_succ_of_le hn)
  have hindex : (Instruction.pack op s.children.size).unsigned = s.children.size :=
    Instruction.unsigned_pack (Nat.lt_succ_of_le hn)
  simp only [CodeObject.instantiatesAt_iff, code_adopted]
  rcases Nat.lt_trichotomy q s.code.size with hlt | rfl | hgt
  · rw [List.getElem?_append_left (by omega)]
    constructor
    · exact .inl
    · rintro (h | ⟨-, rfl⟩)
      · exact h
      · omega
  · rw [List.getElem?_append_right (by omega), hlen, Nat.sub_self, List.getElem?_cons_zero,
      List.getElem?_eq_none (by omega)]
    constructor
    · rintro ⟨i, o, hi, -, -, rfl⟩
      obtain rfl := Option.some.inj hi
      exact .inr ⟨hindex, rfl⟩
    · rintro (⟨i, o, hi, -⟩ | ⟨rfl, -⟩)
      · cases hi
      · exact ⟨_, op, rfl, hword, hop, hindex⟩
  · rw [List.getElem?_append_right (by omega), hlen,
      show q - s.code.size = q - s.code.size - 1 + 1 by omega, List.getElem?_cons_succ,
      List.getElem?_eq_none (l := s.toCodeObject.code) (by omega)]
    constructor
    · rintro ⟨i, o, hi, ho, hin, -⟩
      -- the captures make no instance
      obtain ⟨c, hmem, rfl⟩ := List.mem_map.mp (List.mem_of_getElem? hi)
      rw [Capture.opcode?_word (hc c hmem)] at ho
      obtain rfl := Option.some.inj ho
      cases c <;> cases hin
    · rintro (⟨i, o, hi, -⟩ | ⟨-, rfl⟩)
      · cases hi
      · omega

section Adopted

variable {os : List Outer} (hop : op.instantiates = true)
  (hn : s.children.size ≤ Instruction.maxUnsigned)
  (hc : ∀ c ∈ relay.captures, c.operand ≤ Instruction.maxUnsigned)
  (hr : s.outers.Relays os relay)

include hop hn hc hr

theorem grows_adopted : s.Grows (s.adopted op v relay) := by
  refine ⟨⟨?_, ?_, ?_, ?_⟩, ?_⟩
  · rw [children_adopted]
    exact List.prefix_append _ _
  · intro p i o hi _ _
    rw [code_adopted]
    exact getElem?_of_initial (List.prefix_append _ _) hi
  · intro k p hk hi
    obtain hi | ⟨rfl, -⟩ := (instantiatesAt_adopted hop hn hc).mp hi
    · exact hi
    · rw [show s.toCodeObject.children.length = s.children.size from Array.length_toList] at hk
      exact absurd hk (Nat.lt_irrefl _)
  · intro i o hi _ _
    rw [code_adopted]
    exact List.mem_append_left _ hi
  · rw [outers_adopted]
    exact hr.grown.initial

/-- The new child is linked by the captures of the relay. -/
theorem links_adopted (hs : s.Sound) (hv : v.outerCount = os.length) :
    Links (s.adopted op v relay).toCodeObject s.children.size relay.captures := by
  have hlen : s.toCodeObject.children.length = s.children.size := Array.length_toList
  have hsize : s.toCodeObject.code.length = s.code.size := Array.length_toList
  refine ⟨⟨v, last_adopted, hv.trans hr.length.symm⟩, s.code.size, fun q => ?_, ?_⟩
  · rw [instantiatesAt_adopted hop hn hc]
    constructor
    · rintro (hi | ⟨-, rfl⟩)
      · have hlt := (hs.linked _ (.self _)).known _ _ hi
        omega
      · rfl
    · rintro rfl
      exact .inr ⟨rfl, rfl⟩
  · intro i c hi
    refine Option.bind_eq_some_iff.mpr ⟨c.word, ?_, ?_⟩
    · rw [code_adopted, List.getElem?_append_right (by omega), hsize,
        show s.code.size + 1 + i - s.code.size = i + 1 by omega, List.getElem?_cons_succ,
        List.getElem?_map, hi, Option.map_some]
    · exact Capture.capture?_word (hc c (List.mem_of_getElem? hi))

theorem sound_adopted (hs : s.Sound) (hv : v.outerCount = os.length) (hos : os.Nodup)
    (hin : ∀ u, v.Contains u → Linked u) : (s.adopted op v relay).Sound := by
  have hlen : s.toCodeObject.children.length = s.children.size := Array.length_toList
  have hself := hs.linked _ (.self _)
  refine ⟨fun u hu => ?_, ?_, ?_⟩
  · cases hu with
    | self =>
      refine ⟨fun k hk => ?_, fun k p hi => ?_⟩
      · rw [children_adopted, List.length_append, List.length_singleton] at hk
        by_cases hold : k < s.toCodeObject.children.length
        · obtain ⟨captures, hl, hnodup⟩ := hself.links k hold
          exact ⟨captures, (grows_adopted hop hn hc hr).keeps.links hl, hnodup⟩
        · obtain rfl : k = s.children.size := by omega
          exact ⟨_, links_adopted hop hn hc hr hs hv, hr.nodup hos⟩
      · rw [children_adopted, List.length_append, List.length_singleton]
        obtain hi | ⟨rfl, -⟩ := (instantiatesAt_adopted hop hn hc).mp hi
        · exact Nat.lt_succ_of_lt (hself.known k p hi)
        · omega
    | child hk hu =>
      rw [children_adopted] at hk
      obtain hk | hk := List.mem_append.mp hk
      · exact hs.linked u (.child hk hu)
      · rw [List.mem_singleton.mp hk] at hu
        exact hin u hu
  · rw [outers_adopted]
    exact hr.grown.nodup hs.nodup
  · rw [outers_adopted]
    exact hr.grown.outside hs.outside

end Adopted

end Scope

/-! ### Following a script -/

/-- What the scope `s` referred to at some moment is found at a path inside the scope `t`. -/
structure Lives (t : Scope) (path : List Nat) (s : Scope) : Prop where
  leads : ∀ (i : Nat) (o : Outer), s.outers.descriptors[i]? = some o →
    Leads t.toCodeObject t.outers.descriptors path i o
  access : ∀ w op, w ∈ s.code → w.opcode? = some op → op.isOuterAccess = true →
    ∃ u, t.toCodeObject.unitAt? path = some u ∧ w ∈ u.code

namespace Lives

variable {s t t' : Scope} {path : List Nat}

theorem self (h : s.Grows t) : Lives t [] s := by
  refine ⟨fun i o hi => .own (getElem?_of_initial h.initial hi), fun w op hw hop ha => ?_⟩
  exact ⟨_, rfl, h.keeps.access w op (Array.mem_toList_iff.mpr hw) hop ha⟩

theorem grows (h : Lives t path s) (ht : t.Grows t') : Lives t' path s := by
  refine ⟨fun i o hi => (h.leads i o hi).keeps ht.keeps ht.initial, fun w op hw hop ha => ?_⟩
  obtain ⟨u, hu, hmem⟩ := h.access w op hw hop ha
  obtain ⟨y, hy, hkeep⟩ := ht.keeps.unitAt? hu
  exact ⟨y, hy, hkeep.access w op hmem hop ha⟩

/-- The scope ends and becomes a child of another one. -/
theorem enclose {p : Scope} {k : Nat} {captures : List Capture} {outers : Outers}
    (h : Lives t path s)
    (hv : p.toCodeObject.children[k]? = some { t with outers }.toCodeObject)
    (hl : Links p.toCodeObject k captures)
    (hf : ∀ (j : Nat) (x : Outer), t.outers.descriptors[j]? = some x →
      ∃ y : Capture, captures[j]? = some y ∧ y.Fills p.outers.descriptors x) :
    Lives p (path ++ [k]) s := by
  have hkeeps : t.toCodeObject.Keeps { t with outers }.toCodeObject := .of_eq rfl rfl
  refine ⟨fun i o hi => ?_, fun w op hw hop ha => ?_⟩
  · exact ((h.leads i o hi).keeps hkeeps (List.prefix_refl _)).enclose hv hl hf
  · obtain ⟨u, hu, hmem⟩ := h.access w op hw hop ha
    obtain ⟨y, hy, hkeep⟩ := hkeeps.unitAt? hu
    refine ⟨y, ?_, hkeep.access w op hmem hop ha⟩
    rw [CodeObject.unitAt?_concat, hv]
    exact hy

end Lives

/-- The scopes that were left have outer variables of their parents only. -/
def Assembler.Settled (a : Assembler) : Prop :=
  ∀ l ∈ a.left, l.scope.ended = true ∧ ∀ o ∈ l.scope.outers.descriptors, o.up = 1

/-- Running a script keeps the scope sound and leads to a later state of it, and whatever a scope
referred to on the way is found there. -/
structure Traversal (xs : Script) (a a' : Assembler) : Prop where
  enclosing : a'.enclosing = a.enclosing
  grows : a.current.Grows a'.current
  sound : a'.current.Sound
  settled : a'.Settled
  lives : ∀ y b d, Performs xs a y b d →
    ∃ path, d.path = path ++ a.path ∧ Lives a'.current path d.current

namespace Traversal

variable {xs : Script} {x : Step} {a b c : Assembler}

theorem nil (hs : a.current.Sound) (ha : a.Settled) : Traversal [] a a :=
  ⟨rfl, .refl _, hs, ha, fun _ _ _ hp => nomatch hp⟩

theorem cons (hx : Step.run x a = .ok () b) (h : Traversal [x] a b) (h' : Traversal xs b c) :
    Traversal (x :: xs) a c := by
  refine ⟨h'.enclosing.trans h.enclosing, h.grows.trans h'.grows, h'.sound, h'.settled, ?_⟩
  intro y e d hp
  have hfirst : Performs [x] a y e d →
      ∃ path, d.path = path ++ a.path ∧ Lives c.current path d.current := by
    intro hp
    obtain ⟨path, hpath, hl⟩ := h.lives y e d hp
    exact ⟨path, hpath, hl.grows h'.grows⟩
  cases hp with
  | here hx' => exact hfirst (.here hx')
  | inside he hd hp => exact hfirst (.inside he hd hp)
  | later hx' hp =>
    injection hx'.symm.trans hx with _ hb
    subst hb
    obtain ⟨path, hpath, hl⟩ := h'.lives y e d hp
    refine ⟨path, ?_, hl⟩
    rw [hpath, Assembler.path, h.enclosing]
    rfl

/-- A step that is no unit. -/
theorem one (hx : Step.run x a = .ok () b)
    (hu : ∀ op kind signature body, x ≠ .unit op kind signature body)
    (he : b.enclosing = a.enclosing ∧ b.left = a.left) (hs : a.current.Sound) (ha : a.Settled)
    (hb : a.current.Evolves b.current) : Traversal [x] a b := by
  refine ⟨he.1, hb.grows, hb.sound hs, ?_, ?_⟩
  · unfold Assembler.Settled
    rw [he.2]
    exact ha
  · intro y e d hp
    cases hp with
    | here hx' =>
      injection hx'.symm.trans hx with _ hb
      subst hb
      refine ⟨[], ?_, .self (.refl _)⟩
      rw [Assembler.path, he.1]
      rfl
    | inside => exact absurd rfl (hu _ _ _ _)
    | later _ hp => nomatch hp

theorem newLabel (hx : Step.run .newLabel a = .ok () b) (hs : a.current.Sound) (ha : a.Settled) :
    Traversal [.newLabel] a b := by
  obtain ⟨l, h⟩ := Edit.ignore_eq_ok.mp hx
  obtain ⟨s, hcur, rfl⟩ := Assembler.onCurrent_eq_ok.mp h
  obtain ⟨-, rfl⟩ := Scope.newLabel_eq_ok.mp hcur
  exact one hx (fun _ _ _ _ h => by cases h) ⟨rfl, rfl⟩ hs ha (.of_eq rfl rfl (.refl _))

theorem jump {op : Opcode} {l : Label} (hop : op.isJump = true)
    (hx : Step.run (.jump op l) a = .ok () b) (hs : a.current.Sound) (ha : a.Settled) :
    Traversal [.jump op l] a b := by
  obtain ⟨p, h⟩ := Edit.ignore_eq_ok.mp hx
  obtain ⟨s, hcur, rfl⟩ := Assembler.onCurrent_eq_ok.mp h
  obtain ⟨-, -, -, rfl⟩ := Scope.emitJump_eq_ok.mp hcur
  have hn : op.instantiates = false := by
    refine Bool.eq_false_iff.mpr fun hi => ?_
    exact Opcode.not_isJump_of_isFixed (Opcode.isFixed_of_instantiates hi) hop
  have hpush : a.current.Evolves (a.current.appended (.plain op)) :=
    .appended (Instruction.opcode?_plain op) hn _
  exact one hx (fun _ _ _ _ h => by cases h) ⟨rfl, rfl⟩ hs ha (hpush.trans (.of_eq rfl rfl (.refl _)))

theorem place {l : Label} (hx : Step.run (.place l) a = .ok () b) (hs : a.current.Sound)
    (ha : a.Settled) : Traversal [.place l] a b := by
  obtain ⟨s, hcur, rfl⟩ := Assembler.onCurrent_eq_ok.mp hx
  obtain ⟨-, -, rfl⟩ := Scope.placeLabel_eq_ok.mp hcur
  exact one hx (fun _ _ _ _ h => by cases h) ⟨rfl, rfl⟩ hs ha (.of_eq rfl rfl (.refl _))

theorem receive (hx : Step.run .receive a = .ok () b) (hs : a.current.Sound) (ha : a.Settled) :
    Traversal [.receive] a b := by
  have h := hx
  rw [Step.run] at h
  obtain ⟨s, hcur, rfl⟩ := Assembler.onCurrent_eq_ok.mp h
  obtain rfl := Scope.receive_eq_ok.mp hcur
  exact one hx (fun _ _ _ _ h => by cases h) ⟨rfl, rfl⟩ hs ha (.of_eq rfl rfl (.refl _))

theorem discard (hx : Step.run .discard a = .ok () b) (hs : a.current.Sound) (ha : a.Settled) :
    Traversal [.discard] a b := by
  obtain ⟨s, hcur, rfl⟩ := Assembler.onCurrent_eq_ok.mp hx
  exact one hx (fun _ _ _ _ h => by cases h) ⟨rfl, rfl⟩ hs ha (.discard hcur)

/-- A unit is entered, written, left and instantiated. -/
theorem unit {M : Frame → Frame → Prop} {o : Outlook} {op : Opcode} {kind : ScopeKind}
    {signature : Signature} {body : Script} (hop : op.instantiates = true)
    (hx : Step.run (.unit op kind signature body) a = .ok () b) (hs : a.current.Sound)
    (ha : a.Settled)
    (hfollow : ∀ {c c' : Assembler}, Step.runAll body c = .ok () c' → Followed M c.current .start →
      Followed M c'.current o)
    (hbody : ∀ {c c' : Assembler}, Step.runAll body c = .ok () c' → c.current.Sound → c.Settled →
      Traversal body c c') :
    Traversal [.unit op kind signature body] a b := by
  obtain ⟨n, _, s, c, child, e, he, hd, hb, hl, hc⟩ := Step.run_unit_eq_ok.mp hx
  obtain ⟨-, rfl⟩ := Assembler.enterScope_eq_ok.mp he
  have halike := Scope.alike_of_declareAll hd
  have hinner := hbody hb ((Scope.Evolves.alike halike).sound Scope.sound_new) ha
  obtain ⟨trail, htraced⟩ := (hfollow hb (followed_new.congr halike)).traced
  obtain ⟨parent, rest, t, relay, hparent, -, hrec, hrelay, rfl, rfl⟩ :=
    Assembler.leaveScope_eq_ok.mp hl
  obtain ⟨rfl, rfl⟩ := List.cons.inj (hparent.symm.trans hinner.enclosing)
  obtain ⟨hn, hcaptures, rfl⟩ := Assembler.eq_of_emitChild hc
  -- the unit at its end
  have hend : c.current.Evolves t := .reconcile htraced hrec
  have hsound := hend.sound hinner.sound
  have hr := Outers.relays_of_relay hrelay hsound.outside
  have hin : ∀ u, { t with outers := ⟨relay.settled⟩ }.toCodeObject.Contains u → Linked u := by
    intro u hu
    cases hu with
    | self => exact (hsound.linked _ (.self _)).congr rfl rfl
    | child hk hu => exact hsound.linked u (.child hk hu)
  -- the unit around it
  have hlinks := Scope.links_adopted (v := { t with outers := ⟨relay.settled⟩ }.toCodeObject) hop hn
    hcaptures hr hs hr.settled_length
  refine ⟨rfl, Scope.grows_adopted hop hn hcaptures hr,
    Scope.sound_adopted hop hn hcaptures hr hs hr.settled_length hsound.nodup hin, ?_, ?_⟩
  · intro l hl
    obtain rfl | hl := List.mem_cons.mp hl
    · exact ⟨rfl, hr.settled⟩
    · exact hinner.settled l hl
  · intro y e d hp
    cases hp with
    | here hx' =>
      injection hx'.symm.trans hx with _ hb
      subst hb
      exact ⟨[], rfl, .self (.refl _)⟩
    | later _ hp => nomatch hp
    | inside he' hd' hp =>
      obtain ⟨-, rfl⟩ := Assembler.enterScope_eq_ok.mp he'
      injection hd'.symm.trans hd with _ hs
      subst hs
      obtain ⟨path, hpath, hlives⟩ := hinner.lives y e d hp
      refine ⟨path ++ [a.current.children.size], ?_, ?_⟩
      · rw [hpath, List.append_assoc]
        rfl
      · show Lives (a.current.adopted op { t with outers := ⟨relay.settled⟩ }.toCodeObject relay) _ _
        refine (hlives.grows hend.grows).enclose Scope.last_adopted hlinks fun j x hj => ?_
        rw [Scope.outers_adopted]
        exact hr.fills j x hj

end Traversal

/-- A script that flows is traversed by the assembler. -/
theorem Flows.traverse {M : Frame → Frame → Prop} {xs : Script} {o o' : Outlook} {a a' : Assembler}
    (h : Flows M xs o o') (hr : Step.runAll xs a = .ok () a') (hs : a.current.Sound)
    (ha : a.Settled) : Traversal xs a a' := by
  induction h generalizing a a' with
  | done =>
    obtain ⟨-, rfl⟩ := Edit.pure_eq_ok.mp hr
    exact .nil hs ha
  | fail =>
    obtain ⟨b, hx, -⟩ := Step.runAll_cons_eq_ok.mp hr
    exact absurd hx Edit.throw_ne_ok
  | @quiet x xs o o' hx _ ih =>
    obtain ⟨b, hb, hr⟩ := Step.runAll_cons_eq_ok.mp hr
    obtain ⟨he, t, hat, ht⟩ := Step.run_quiet hx hb
    have hev : a.current.Evolves b.current := by
      obtain rfl | ⟨line, hn, hl⟩ := ht
      · exact .alike hat
      · rw [hl]
        exact (Scope.Evolves.alike hat).trans
          (.appended (Instruction.opcode?_pack (Nat.lt_succ_of_le hn)) rfl t)
    have hone := Traversal.one hb (fun _ _ _ _ h => by subst h; cases hx) he hs ha hev
    exact .cons hb hone (ih hr hone.sound hone.settled)
  | write hx hi _ ih =>
    obtain ⟨b, hb, hr⟩ := Step.runAll_cons_eq_ok.mp hr
    obtain ⟨he, t, i, hat, hw, ht⟩ := Step.run_write hx hb
    obtain ⟨op, hop, hn, -⟩ := hi i hw
    have hev : a.current.Evolves b.current := by
      rw [ht]
      exact (Scope.Evolves.alike hat).trans (.appended hop hn t)
    have hone := Traversal.one hb (fun _ _ _ _ h => by subst h; cases hx) he hs ha hev
    exact .cons hb hone (ih hr hone.sound hone.settled)
  | newLabel _ ih =>
    obtain ⟨b, hb, hr⟩ := Step.runAll_cons_eq_ok.mp hr
    have hone := Traversal.newLabel hb hs ha
    exact .cons hb hone (ih hr hone.sound hone.settled)
  | jump _ hj _ _ ih =>
    obtain ⟨b, hb, hr⟩ := Step.runAll_cons_eq_ok.mp hr
    have hone := Traversal.jump hj.jump hb hs ha
    exact .cons hb hone (ih hr hone.sound hone.settled)
  | place _ _ ih =>
    obtain ⟨b, hb, hr⟩ := Step.runAll_cons_eq_ok.mp hr
    have hone := Traversal.place hb hs ha
    exact .cons hb hone (ih hr hone.sound hone.settled)
  | handler _ _ _ _ _ _ ih =>
    obtain ⟨b₁, h₁, hr⟩ := Step.runAll_cons_eq_ok.mp hr
    obtain ⟨b₂, h₂, hr⟩ := Step.runAll_cons_eq_ok.mp hr
    obtain ⟨b₃, h₃, hr⟩ := Step.runAll_cons_eq_ok.mp hr
    have hjump := Traversal.jump rfl h₁ hs ha
    have hplace := Traversal.place h₂ hjump.sound hjump.settled
    have hreceive := Traversal.receive h₃ hplace.sound hplace.settled
    exact .cons h₁ hjump (.cons h₂ hplace (.cons h₃ hreceive
      (ih hr hreceive.sound hreceive.settled)))
  | discard _ _ ih =>
    obtain ⟨b, hb, hr⟩ := Step.runAll_cons_eq_ok.mp hr
    have hone := Traversal.discard hb hs ha
    exact .cons hb hone (ih hr hone.sound hone.settled)
  | unit hop _ hbody _ ihb ih =>
    obtain ⟨b, hb, hr⟩ := Step.runAll_cons_eq_ok.mp hr
    have hone := Traversal.unit (Opcode.instantiates_iff.mpr hop) hb hs ha
      (fun hb hf => (hbody.run hb hf).2) ihb
    exact .cons hb hone (ih hr hone.sound hone.settled)

end StackCode
