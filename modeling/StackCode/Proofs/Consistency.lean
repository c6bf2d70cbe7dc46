import StackCode.Proofs.Counterparts
import StackCode.Proofs.LoweredRegular
import StackCode.Proofs.Tables

/-!
# Compiled units are consistent

An operand is fixed while the tables of its unit are still growing, and slots that are freed are handed
out again. Each operand stays valid all the same: the tables get more entries but lose none, and the
number of slots is that of the fullest moment.

* `Scope.TablesKept`: an earlier and a later state of the tables of a scope;
* `Scope.Roomy`: the counts of a scope cover what lives in it and what it takes from the scopes around;
* `Scope.Written`: what a step other than a unit writes;
* `Scope.Consistent`: the operands and instances of a scope that is being written;
* `Scope.Echoes`: what the flags announce is what the steps so far have done;
* `Script.Regular.consistent`: a whole script;
* `tablesConsistent_of_compile`: every unit of a compiled program.
-/

namespace StackCode

/-! ### Tables that grow -/

/-- A later state of a scope, whose tables have lost nothing. -/
structure Scope.TablesKept (s t : Scope) : Prop where
  signature : t.signature = s.signature
  locals : s.locals.highWater ≤ t.locals.highWater
  constants : s.constants.values.toList <+: t.constants.values.toList
  outers : s.outers.descriptors.length ≤ t.outers.descriptors.length

namespace Scope.TablesKept

variable {s t u : Scope}

/-- The tables are the same. -/
theorem of_eq (hsignature : t.signature = s.signature) (hlocals : t.locals = s.locals)
    (hconstants : t.constants = s.constants) (houters : t.outers = s.outers) : s.TablesKept t := by
  refine ⟨hsignature, Nat.le_of_eq ?_, ⟨[], ?_⟩, Nat.le_of_eq ?_⟩
  · rw [hlocals]
  · rw [hconstants, List.append_nil]
  · rw [houters]

theorem trans (h : s.TablesKept t) (h' : t.TablesKept u) : s.TablesKept u :=
  ⟨h'.signature.trans h.signature, Nat.le_trans h.locals h'.locals, h.constants.trans h'.constants,
    Nat.le_trans h.outers h'.outers⟩

/-- An operand that was valid stays so. -/
theorem refers (h : s.TablesKept t) {n : Nat} {op : Opcode} (hn : s.toCodeObject.Refers n op) :
    t.toCodeObject.Refers n op := by
  have hname : (∃ name, s.toCodeObject.constants[n]? = some (.string name)) →
      ∃ name, t.toCodeObject.constants[n]? = some (.string name) := by
    rintro ⟨name, hname⟩
    exact ⟨name, getElem?_of_initial h.constants hname⟩
  cases op with
  | loadLocal | storeLocal | captureLocal => exact Nat.lt_of_lt_of_le hn h.locals
  | loadOuter | storeOuter | captureOuter => exact Nat.lt_of_lt_of_le hn h.outers
  | hasArg | paramEnd =>
    show n < t.signature.params.length
    rw [h.signature]
    exact hn
  | loadConst => exact Nat.lt_of_lt_of_le hn h.constants.length_le
  | loadGlobal | storeGlobal | getMember | setMember | getMethod | defineMember => exact hname hn
  | yield =>
    show t.toCodeObject.has .generator = true
    rw [t.has_flags.2.2.2, h.signature, ← s.has_flags.2.2.2]
    exact hn
  | _ => trivial

end Scope.TablesKept

/-- The variable that a descriptor stands for has a slot in the scope that is so far out. -/
def Outer.Within (around : List Scope) (o : Outer) : Prop :=
  1 ≤ o.up ∧ ∃ t, around[o.up - 1]? = some t ∧ o.slot < t.locals.highWater

/-- The counts of a scope cover the variables that live in it, its arguments, and the variables that it
takes from the scopes around it. -/
structure Scope.Roomy (around : List Scope) (s : Scope) : Prop where
  active : s.locals.active.length ≤ s.locals.highWater
  params : s.signature.params.length ≤ s.locals.highWater
  outers : ∀ o ∈ s.outers.descriptors, o.Within around

/-- Only the tables have changed. -/
structure Scope.Retabled (around : List Scope) (s t : Scope) : Prop where
  code : t.code = s.code
  children : t.children = s.children
  protects : t.protects = s.protects
  kept : s.TablesKept t
  roomy : t.Roomy around

namespace Scope.Roomy

variable {around : List Scope} {s t : Scope}

theorem congr (h : s.Roomy around) (hsignature : t.signature = s.signature)
    (hlocals : t.locals = s.locals) (houters : t.outers = s.outers) : t.Roomy around := by
  refine ⟨?_, ?_, ?_⟩
  · rw [hlocals]
    exact h.active
  · rw [hsignature, hlocals]
    exact h.params
  · rw [houters]
    exact h.outers

/-- What is neither in the tables nor written is of no account. -/
theorem same (h : s.Roomy around) (hcode : t.code = s.code) (hchildren : t.children = s.children)
    (hprotects : t.protects = s.protects) (hsignature : t.signature = s.signature)
    (hlocals : t.locals = s.locals) (hconstants : t.constants = s.constants)
    (houters : t.outers = s.outers) : s.Retabled around t :=
  ⟨hcode, hchildren, hprotects, .of_eq hsignature hlocals hconstants houters,
    h.congr hsignature hlocals houters⟩

theorem retabled (h : s.Roomy around) : s.Retabled around s :=
  h.same rfl rfl rfl rfl rfl rfl rfl

/-- The slot of a variable that lives is among those that are counted. -/
theorem slot_lt (h : s.Roomy around) {name : String} {slot : Nat}
    (hs : s.locals.lookup? name = some slot) : slot < s.locals.highWater :=
  Nat.lt_of_lt_of_le (List.getElem?_eq_some_iff.mp (Slots.getElem?_of_lookup? hs)).1 h.active

theorem withConstants (h : s.Roomy around) {constants : Pool}
    (hc : s.constants.values.toList <+: constants.values.toList) :
    s.Retabled around { s with constants } :=
  ⟨rfl, rfl, rfl, ⟨rfl, Nat.le_refl _, hc, Nat.le_refl _⟩, ⟨h.active, h.params, h.outers⟩⟩

end Scope.Roomy

theorem Pool.initial_of_add {pool p : Pool} {v : Value} {i : Nat} (h : pool.add v = .ok (i, p)) :
    pool.values.toList <+: p.values.toList := by
  obtain he | he := values_of_add h
  · exact ⟨[], by rw [he, List.append_nil]⟩
  · rw [he, Array.toList_push]
    exact List.prefix_append _ _

/-- The index of a name leads to a string. -/
theorem Pool.of_addName {pool p : Pool} {name : String} {i : Nat}
    (h : pool.addName name = .ok (i, p)) :
    pool.values.toList <+: p.values.toList ∧ p.values.toList[i]? = some (.string name) := by
  unfold addName at h
  split at h
  · next index hf =>
    simp only [Except.ok.injEq, Prod.mk.injEq] at h
    obtain ⟨rfl, rfl⟩ := h
    obtain ⟨hi, hs, -⟩ := Array.findIdx?_eq_some_iff_getElem.mp hf
    refine ⟨List.prefix_refl _, ?_⟩
    rw [Array.getElem?_toList, Array.getElem?_eq_getElem hi]
    cases hv : pool.values[index] with
    | string s =>
      rw [hv] at hs
      rw [eq_of_beq hs]
    | _ =>
      rw [hv] at hs
      cases hs
  · refine ⟨initial_of_add h, ?_⟩
    rw [Array.getElem?_toList]
    exact get?_of_add h

/-- Variables that are declared have a slot, and none is lost. -/
theorem Slots.of_declare {slots after : Slots} {name : String} {slot : Nat} {fresh : Bool}
    (h : slots.declare name = .ok ((slot, fresh), after))
    (ha : slots.active.length ≤ slots.highWater) :
    slots.highWater ≤ after.highWater ∧ after.active.length ≤ after.highWater := by
  unfold declare at h
  split at h
  · simp only [Except.ok.injEq, Prod.mk.injEq] at h
    rw [← h.2]
    exact ⟨Nat.le_refl _, ha⟩
  · split at h
    · cases h
    · simp only [Except.ok.injEq, Prod.mk.injEq] at h
      rw [← h.2]
      refine ⟨Nat.le_max_left _ _, ?_⟩
      show (slots.active ++ [name]).length ≤ _
      rw [List.length_append]
      exact Nat.le_max_right _ _

theorem Scope.Roomy.declare {around : List Scope} {s t : Scope} (h : s.Roomy around)
    {name : String} {slot : Nat} (hd : Scope.declare name s = .ok slot t) :
    s.Retabled around t := by
  obtain ⟨fresh, locals, hl, rfl⟩ := Scope.declare_eq_ok.mp hd
  obtain ⟨hmore, hroom⟩ := Slots.of_declare hl h.active
  exact ⟨rfl, rfl, rfl, ⟨rfl, hmore, List.prefix_refl _, Nat.le_refl _⟩,
    ⟨hroom, Nat.le_trans h.params hmore, h.outers⟩⟩

theorem Scope.Roomy.leaveBlock {around : List Scope} {s t : Scope} (h : s.Roomy around)
    (hl : Scope.leaveBlock s = .ok () t) : s.Retabled around t := by
  obtain ⟨marker, blocks, -, rfl⟩ := Scope.leaveBlock_eq_ok.mp hl
  refine ⟨rfl, rfl, rfl, ⟨rfl, Nat.le_refl _, List.prefix_refl _, Nat.le_refl _⟩, ?_, h.params,
    h.outers⟩
  show (s.locals.active.take marker).length ≤ s.locals.highWater
  rw [List.length_take]
  exact Nat.le_trans (Nat.min_le_right _ _) h.active

/-! ### Names -/

namespace Assembler

/-- The variable that is found has a slot in the scope that has it. -/
theorem within_of_findOuter {name : String} {up : Nat} {nearer scopes : List Scope} {o : Outer}
    (h : findOuter name (up + 1) scopes = .ok (some o)) (hup : nearer.length = up)
    (hs : ∀ t ∈ scopes, t.locals.active.length ≤ t.locals.highWater) :
    o.Within (nearer ++ scopes) := by
  induction scopes generalizing up nearer with
  | nil => cases h
  | cons s rest ih =>
    obtain ⟨hroom, hrest⟩ := List.forall_mem_cons.mp hs
    unfold findOuter at h
    split at h
    · cases h
    · split at h
      · next slot hslot =>
        obtain rfl := Option.some.inj (Except.ok.inj h)
        refine ⟨Nat.le_add_left _ _, s, ?_, ?_⟩
        · show (nearer ++ s :: rest)[up + 1 - 1]? = some s
          rw [Nat.add_sub_cancel, ← hup, List.getElem?_append_right (Nat.le_refl _), Nat.sub_self]
          rfl
        · exact Nat.lt_of_lt_of_le
            (List.getElem?_eq_some_iff.mp (Slots.getElem?_of_lookup? hslot)).1 hroom
      · have hmore := @ih (up + 1) (nearer ++ [s]) h (by rw [List.length_append, hup]; rfl) hrest
        rw [List.append_assoc] at hmore
        exact hmore

/-- A name is resolved to a place within the tables. -/
theorem refers_of_resolve {name : String} {place : Place} {a b : Assembler}
    (h : resolve name a = .ok place b) (ha : a.current.Roomy a.enclosing)
    (hout : ∀ t ∈ a.enclosing, t.locals.active.length ≤ t.locals.highWater) :
    a.current.Retabled a.enclosing b.current
      ∧ b.current.toCodeObject.Refers place.operand place.loadOp
      ∧ b.current.toCodeObject.Refers place.operand place.storeOp := by
  obtain ⟨slot, hl, rfl, rfl⟩ | ⟨-, o, index, outers, hf, hadd, rfl, rfl⟩ |
    ⟨-, -, index, constants, hc, rfl, rfl⟩ := resolve_eq_ok.mp h
  · exact ⟨ha.retabled, ha.slot_lt hl, ha.slot_lt hl⟩
  · have hindex : index < outers.descriptors.length :=
      (List.getElem?_eq_some_iff.mp (Outers.getElem?_of_add hadd)).1
    have hgrown := Outers.extends_of_add hadd (up_of_findOuter hf)
    refine ⟨⟨rfl, rfl, rfl, ⟨rfl, Nat.le_refl _, List.prefix_refl _, hgrown.initial.length_le⟩,
      ⟨ha.active, ha.params, ?_⟩⟩, hindex, hindex⟩
    intro o' ho'
    obtain rfl | ⟨-, he⟩ := Outers.add_eq_ok hadd
    · exact ha.outers o' ho'
    · rw [show outers.descriptors = _ from he] at ho'
      obtain ho' | ho' := List.mem_append.mp ho'
      · exact ha.outers o' ho'
      · rw [List.mem_singleton.mp ho']
        exact @within_of_findOuter _ _ [] _ _ hf rfl hout
  · obtain ⟨hmore, hname⟩ := Pool.of_addName hc
    exact ⟨ha.withConstants hmore, ⟨name, hname⟩, ⟨name, hname⟩⟩

end Assembler

/-! ### What a step writes -/

namespace Opcode

/-- Whether a flag of the unit tells that the operation occurs. -/
def isTold (op : Opcode) : Bool := op.installs || op == .hasArg

end Opcode

theorem Instruction.childRole_of_opcode? {i : Instruction} {op : Opcode} (h : i.opcode? = some op)
    (hop : op.isFixed = false) : i.childRole = .other := by
  unfold childRole
  rw [h]
  cases op <;> first | rfl | cases hop

/-- The step `x` appends the instructions `is`, whose operands lie within the tables. -/
structure Scope.Written (around : List Scope) (x : Step) (s t : Scope) (is : List Instruction) :
    Prop where
  children : t.children = s.children
  kept : s.TablesKept t
  roomy : t.Roomy around
  code : t.code.toList = s.code.toList ++ is
  refers : ∀ i ∈ is, ∃ op, i.opcode? = some op ∧ op.isFixed = false
    ∧ t.toCodeObject.Refers i.unsigned op
  protects : t.protects = true ↔ s.protects = true ∨ .protect = x
  told : ∀ op, op.isTold = true → ((∃ i ∈ is, i.opcode? = some op) ↔ x.opcode? = some op)

namespace Scope.Written

variable {around : List Scope} {x : Step} {s t : Scope}

/-- The step changes the tables alone. -/
theorem none (h : s.Retabled around t) (hx : x.opcode? = .none) (hne : .protect ≠ x) :
    Written around x s t [] := by
  refine ⟨h.children, h.kept, h.roomy, ?_, fun i hi => absurd hi List.not_mem_nil, ?_, ?_⟩
  · rw [h.code, List.append_nil]
  · simp [h.protects, hne]
  · simp [hx]

/-- The step changes the tables and appends an instruction that refers to them. -/
theorem one (h : s.Retabled around t) {op : Opcode} {n : Nat} (hn : n < 0x1000000)
    (hfixed : op.isFixed = false) (hrefers : t.toCodeObject.Refers n op)
    (hx : x.opcode? = some op ∨ (x.opcode? = .none ∧ op.isTold = false)) (hne : .protect ≠ x) :
    Written around x s (t.appended (.pack op n)) [.pack op n] := by
  have hop : (Instruction.pack op n).opcode? = some op := Instruction.opcode?_pack hn
  have happ : t.TablesKept (t.appended (.pack op n)) := .of_eq rfl rfl rfl rfl
  refine ⟨h.children, h.kept.trans happ, h.roomy.congr rfl rfl rfl, ?_, ?_, ?_, ?_⟩
  · show (t.code.push _).toList = _
    rw [Array.toList_push, h.code]
  · intro i hi
    rw [List.mem_singleton.mp hi]
    refine ⟨op, hop, hfixed, ?_⟩
    rw [Instruction.unsigned_pack hn]
    exact happ.refers hrefers
  · show t.protects = true ↔ _
    simp [h.protects, hne]
  · intro o ho
    simp only [List.mem_singleton, exists_eq_left, hop, Option.some.injEq]
    obtain hx | ⟨hx, hnot⟩ := hx
    · rw [hx, Option.some.injEq]
    · rw [hx]
      refine ⟨?_, nofun⟩
      rintro rfl
      rw [hnot] at ho
      cases ho

end Scope.Written

section Step

variable {a b : Assembler} {x : Step}

/-- What is needed of the state of an assembly for a step to stay within the tables. -/
structure Assembler.Roomy (a : Assembler) : Prop where
  current : a.current.Roomy a.enclosing
  enclosing : ∀ t ∈ a.enclosing, t.locals.active.length ≤ t.locals.highWater

/-- A step changes the tables, and what it appends lies within them. -/
theorem Step.written (hx : x.isRegular a.current.signature.generator
      a.current.signature.params.length = true)
    (h : Step.run x a = .ok () b) (ha : a.Roomy) :
    ∃ is, Scope.Written a.enclosing x a.current b.current is := by
  have hroom := ha.current
  -- this step alone sets the flag of handlers
  by_cases hne : .protect = x
  · subst hne
    simp only [Step.run] at h
    obtain ⟨s, hs, rfl⟩ := Assembler.onCurrent_eq_ok.mp h
    obtain rfl := Scope.protect_eq_ok.mp hs
    refine ⟨[], rfl, .of_eq rfl rfl rfl rfl, hroom.congr rfl rfl rfl, (List.append_nil _).symm,
      fun i hi => absurd hi List.not_mem_nil, ?_, ?_⟩
    · simp
    · simp [Step.opcode?]
  cases x with
  | fail _ | discard | unit _ _ _ _ => cases hx
  | markLine line =>
    obtain ⟨-, rfl⟩ | ⟨-, s, hs, rfl⟩ := Assembler.markLine_eq_ok.mp h
    · exact ⟨_, .none hroom.retabled rfl hne⟩
    · obtain ⟨-, rfl⟩ | ⟨-, hn, -, rfl⟩ := Scope.markLine_eq_ok.mp hs
      · exact ⟨_, .none hroom.retabled rfl hne⟩
      · refine ⟨_, .one (t := { a.current with lastLine := some line }) ?_ (Nat.lt_succ_of_le hn) rfl
          trivial (.inr ⟨rfl, rfl⟩) hne⟩
        exact hroom.same rfl rfl rfl rfl rfl rfl rfl
  | op o =>
    obtain ⟨p, h⟩ := Edit.ignore_eq_ok.mp h
    obtain ⟨s, hs, rfl⟩ := Assembler.onCurrent_eq_ok.mp h
    obtain ⟨-, -, rfl⟩ := Scope.emitOp_eq_ok.mp hs
    simp only [Step.isRegular, Bool.and_eq_true, beq_iff_eq] at hx
    refine ⟨_, .one hroom.retabled (by decide) ?_ ?_ (.inl rfl) hne⟩
    · cases o <;> first | rfl | cases hx.1
    · cases o with
      | yield =>
        show a.current.toCodeObject.has .generator = true
        rw [a.current.has_flags.2.2.2]
        simpa using hx.2
      | _ => first | trivial | cases hx.1
  | count o n =>
    obtain ⟨p, h⟩ := Edit.ignore_eq_ok.mp h
    obtain ⟨s, hs, rfl⟩ := Assembler.onCurrent_eq_ok.mp h
    obtain ⟨hn, -, -, rfl⟩ := Scope.emitUnsigned_eq_ok.mp hs
    simp only [Step.isRegular, Bool.or_eq_true, Bool.and_eq_true, decide_eq_true_eq] at hx
    refine ⟨_, .one hroom.retabled (Nat.lt_succ_of_le hn) ?_ ?_ (.inl rfl) hne⟩
    · cases o <;> first | rfl | simp [Opcode.isCount, Opcode.isArgument] at hx
    · cases o with
      | hasArg | paramEnd => exact (hx.resolve_left Bool.false_ne_true).2
      | _ => first | trivial | simp [Opcode.isCount, Opcode.isArgument] at hx
  | pair o m n =>
    obtain ⟨p, h⟩ := Edit.ignore_eq_ok.mp h
    obtain ⟨s, hs, rfl⟩ := Assembler.onCurrent_eq_ok.mp h
    obtain ⟨⟨hm, hn⟩, -, -, rfl⟩ := Scope.emitPair_eq_ok.mp hs
    obtain rfl := beq_iff_eq.mp hx
    unfold Instruction.maxPair at hm hn
    exact ⟨_, .one hroom.retabled (by omega) rfl trivial (.inl rfl) hne⟩
  | newLabel =>
    obtain ⟨l, h⟩ := Edit.ignore_eq_ok.mp h
    obtain ⟨s, hs, rfl⟩ := Assembler.onCurrent_eq_ok.mp h
    obtain ⟨-, rfl⟩ := Scope.newLabel_eq_ok.mp hs
    exact ⟨_, .none (hroom.same rfl rfl rfl rfl rfl rfl rfl) rfl hne⟩
  | jump o l =>
    obtain ⟨p, h⟩ := Edit.ignore_eq_ok.mp h
    obtain ⟨s, hs, rfl⟩ := Assembler.onCurrent_eq_ok.mp h
    obtain ⟨-, -, -, rfl⟩ := Scope.emitJump_eq_ok.mp hs
    have hone : Scope.Written a.enclosing (.jump o l) a.current (a.current.appended (.plain o))
        [.plain o] := by
      refine .one hroom.retabled (by decide) ?_ ?_ (.inl rfl) hne
      · cases o <;> first | rfl | cases hx
      · cases o <;> trivial
    exact ⟨_, hone.children, hone.kept.trans (.of_eq rfl rfl rfl rfl), hroom.congr rfl rfl rfl,
      hone.code, hone.refers, hone.protects, hone.told⟩
  | place l =>
    obtain ⟨s, hs, rfl⟩ := Assembler.onCurrent_eq_ok.mp h
    obtain ⟨-, -, rfl⟩ := Scope.placeLabel_eq_ok.mp hs
    exact ⟨_, .none (hroom.same rfl rfl rfl rfl rfl rfl rfl) rfl hne⟩
  | receive =>
    simp only [Step.run] at h
    obtain ⟨s, hs, rfl⟩ := Assembler.onCurrent_eq_ok.mp h
    obtain rfl := Scope.receive_eq_ok.mp hs
    exact ⟨_, .none (hroom.same rfl rfl rfl rfl rfl rfl rfl) rfl hne⟩
  | loadConst v =>
    obtain ⟨s, hs, rfl⟩ := Assembler.onCurrent_eq_ok.mp h
    obtain ⟨index, constants, hc, hn, -, rfl⟩ := Scope.loadConst_eq_ok.mp hs
    have hindex : index < constants.values.toList.length := by
      rw [Array.length_toList]
      exact (Array.getElem?_eq_some_iff.mp (Pool.get?_of_add hc)).1
    exact ⟨_, .one (hroom.withConstants (Pool.initial_of_add hc)) (Nat.lt_succ_of_le hn) rfl hindex
      (.inr ⟨rfl, rfl⟩) hne⟩
  | named o name =>
    obtain ⟨s, hs, rfl⟩ := Assembler.onCurrent_eq_ok.mp h
    obtain ⟨index, constants, hc, hn, -, rfl⟩ := Scope.emitNamed_eq_ok.mp hs
    obtain ⟨hmore, hname⟩ := Pool.of_addName hc
    refine ⟨_, .one (hroom.withConstants hmore) (Nat.lt_succ_of_le hn) ?_ ?_ (.inl rfl) hne⟩
    · cases o <;> first | rfl | cases hx
    · cases o <;> first | exact ⟨name, hname⟩ | cases hx
  | declare name =>
    obtain ⟨slot, h⟩ := Edit.ignore_eq_ok.mp h
    obtain ⟨s, hs, rfl⟩ := Assembler.onCurrent_eq_ok.mp h
    exact ⟨_, .none (hroom.declare hs) rfl hne⟩
  | slot o name =>
    obtain ⟨s, hs, rfl⟩ := Assembler.onCurrent_eq_ok.mp h
    obtain ⟨n, hl, hn, -, rfl⟩ := Scope.emitSlot_eq_ok.mp hs
    have hslot := hroom.slot_lt hl
    refine ⟨_, .one hroom.retabled (Nat.lt_succ_of_le hn) ?_ ?_ (.inl rfl) hne⟩
    · cases o <;> first | rfl | cases hx
    · cases o <;> first | exact hslot | cases hx
  | loadName name =>
    obtain ⟨place, c, hr, hn, -, rfl⟩ := Assembler.loadName_eq_ok.mp h
    obtain ⟨hre, hload, -⟩ := Assembler.refers_of_resolve hr hroom ha.enclosing
    refine ⟨_, .one hre (Nat.lt_succ_of_le hn) ?_ hload (.inr ⟨rfl, ?_⟩) hne⟩
    · cases place <;> rfl
    · cases place <;> rfl
  | storeName name =>
    obtain ⟨place, c, hr, hn, -, rfl⟩ := Assembler.storeName_eq_ok.mp h
    obtain ⟨hre, -, hstore⟩ := Assembler.refers_of_resolve hr hroom ha.enclosing
    refine ⟨_, .one hre (Nat.lt_succ_of_le hn) ?_ hstore (.inr ⟨rfl, ?_⟩) hne⟩
    · cases place <;> rfl
    · cases place <;> rfl
  | enterBlock =>
    simp only [Step.run] at h
    obtain ⟨s, hs, rfl⟩ := Assembler.onCurrent_eq_ok.mp h
    obtain rfl := Scope.enterBlock_eq_ok.mp hs
    exact ⟨_, .none (hroom.same rfl rfl rfl rfl rfl rfl rfl) rfl hne⟩
  | leaveBlock =>
    obtain ⟨s, hs, rfl⟩ := Assembler.onCurrent_eq_ok.mp h
    exact ⟨_, .none (hroom.leaveBlock hs) rfl hne⟩
  | protect => exact absurd rfl hne

end Step

/-! ### Scopes that are being written -/

/-- The operands of a scope lie within its tables, its instances are those of its children, and the
units inside it are consistent. -/
structure Scope.Consistent (s : Scope) : Prop where
  refers : ∀ i ∈ s.code.toList, ∃ op, i.opcode? = some op ∧ s.toCodeObject.Refers i.unsigned op
  instances : Instantiates s.children.toList (s.code.toList.map Instruction.childRole)
  children : ∀ k ∈ s.children.toList, ∀ u, k.Contains u → u.TableConsistent

/-- The flags and operations of a scope are those that the steps so far have asked for. -/
structure Scope.Echoes (done : Script) (s : Scope) : Prop where
  protects : s.protects = true ↔ .protect ∈ done
  told : ∀ op, op.isTold = true →
    ((∃ i ∈ s.code.toList, i.opcode? = some op) ↔ ∃ x ∈ done, x.opcode? = some op)

section Scopes

variable {around : List Scope} {done : Script} {x : Step} {s t : Scope} {is : List Instruction}

/-- Nothing is written. -/
theorem Scope.consistent_of_empty (hcode : s.code = #[]) (hchildren : s.children = #[])
    (hprotects : s.protects = false) : s.Consistent ∧ s.Echoes [] := by
  refine ⟨⟨?_, ?_, ?_⟩, ?_, fun op _ => ?_⟩
  · rw [hcode]
    exact fun i hi => absurd hi List.not_mem_nil
  · rw [hcode, hchildren]
    exact .nil
  · rw [hchildren]
    exact fun k hk => absurd hk List.not_mem_nil
  · simp [hprotects]
  · simp [hcode]

theorem Scope.Written.consistent (h : Scope.Written around x s t is) (hs : s.Consistent) :
    t.Consistent := by
  refine ⟨?_, ?_, ?_⟩
  · intro i hi
    rw [h.code] at hi
    obtain hi | hi := List.mem_append.mp hi
    · obtain ⟨op, hop, hrefers⟩ := hs.refers i hi
      exact ⟨op, hop, h.kept.refers hrefers⟩
    · obtain ⟨op, hop, -, hrefers⟩ := h.refers i hi
      exact ⟨op, hop, hrefers⟩
  · have hothers : is.map Instruction.childRole = List.replicate is.length .other := by
      refine List.eq_replicate_iff.mpr ⟨List.length_map _, fun r hr => ?_⟩
      obtain ⟨i, hi, rfl⟩ := List.mem_map.mp hr
      obtain ⟨op, hop, hfixed, -⟩ := h.refers i hi
      exact Instruction.childRole_of_opcode? hop hfixed
    rw [h.children, h.code, List.map_append, hothers]
    exact hs.instances.others is.length
  · rw [h.children]
    exact hs.children

/-- One more step has been done. -/
theorem Scope.Echoes.concat (h : s.Echoes done)
    (hprotects : t.protects = true ↔ s.protects = true ∨ .protect = x)
    (htold : ∀ op, op.isTold = true → ((∃ i ∈ t.code.toList, i.opcode? = some op) ↔
      (∃ i ∈ s.code.toList, i.opcode? = some op) ∨ x.opcode? = some op)) :
    t.Echoes (done ++ [x]) := by
  refine ⟨?_, fun op hop => ?_⟩
  · rw [hprotects, h.protects]
    simp
  · rw [htold op hop, h.told op hop]
    simp [or_and_right, exists_or]

theorem Scope.Written.echoes (h : Scope.Written around x s t is) (hs : s.Echoes done) :
    t.Echoes (done ++ [x]) := by
  refine hs.concat h.protects fun op hop => ?_
  rw [← h.told op hop, h.code]
  simp [or_and_right, exists_or]

/-- A duplication is taken back, which is neither an instance nor a capture. -/
theorem Scope.Consistent.withoutSpareDup (hs : s.Consistent) (h : s.endsInSpareDup = true) :
    s.withoutSpareDup.Consistent := by
  obtain ⟨before, i, j, op, hc, hdup, hop, hst, -⟩ := Scope.endsInSpareDup_iff_exists.mp h
  have hafter := Scope.toList_withoutSpareDup hc
  have hkept : s.TablesKept s.withoutSpareDup := .of_eq rfl rfl rfl rfl
  refine ⟨fun k hk => ?_, ?_, hs.children⟩
  · have hin : k ∈ s.code.toList := by
      rw [hafter] at hk
      rw [hc, List.append_assoc]
      obtain hk | hk := List.mem_append.mp hk
      · exact List.mem_append_left _ hk
      · exact List.mem_append_right _ (List.mem_cons_of_mem _ hk)
    obtain ⟨o, ho, hrefers⟩ := hs.refers k hin
    exact ⟨o, ho, hkept.refers hrefers⟩
  · have hi : i.childRole = .other := Instruction.childRole_of_opcode? hdup rfl
    have hj : j.childRole = .other := by
      refine Instruction.childRole_of_opcode? hop ?_
      cases op <;> first | rfl | cases hst
    have hinst := hs.instances
    rw [hc, List.map_append, List.map_append, List.map_singleton, List.map_singleton, hi, hj] at hinst
    rw [hafter, List.map_append, List.map_singleton, hj]
    exact hinst.of_other

theorem Scope.Echoes.withoutSpareDup (hs : s.Echoes done) (h : s.endsInSpareDup = true) :
    s.withoutSpareDup.Echoes (done ++ [.discard]) := by
  obtain ⟨before, i, j, op, hc, hdup, -, -, -⟩ := Scope.endsInSpareDup_iff_exists.mp h
  refine hs.concat ?_ fun o ho => ?_
  · show s.protects = true ↔ _
    simp
  · have hne : i.opcode? ≠ some o := by
      rw [hdup]
      rintro ⟨⟩
      cases ho
    rw [Scope.toList_withoutSpareDup hc, hc]
    simp [Step.opcode?, or_and_right, exists_or, hne]

/-- An instruction is what it was before the placeholders were overwritten, unless it is a jump. -/
theorem Logged.eq_or_isJump {h : History} {begins : Step → Nat → Prop} {code : Buffer} {p : Nat}
    {i : Instruction} (hl : Logged h begins s) (hcode : s.labels.reconcile s.code = .ok () code)
    (hs : s.Consistent) (hi : code.toList[p]? = some i) :
    ∃ j, s.code.toList[p]? = some j ∧ (i = j
      ∨ ∃ op, op.isJump = true ∧ i.opcode? = some op ∧ j.opcode? = some op) := by
  obtain ⟨j, hj, hop⟩ := hl.exists_before hcode hi
  obtain ⟨op, ho, -⟩ := hs.refers j (List.mem_of_getElem? hj)
  refine ⟨j, hj, ?_⟩
  cases hjump : op.isJump with
  | true => exact .inr ⟨op, hjump, hop.trans ho, ho⟩
  | false =>
    have hsame := hl.stayed hcode hi (hop.trans ho) hjump
    exact .inl (Option.some.inj (hsame.symm.trans hj))

/-- What is the same of all jumps of a kind is not changed when the placeholders are overwritten. -/
theorem Logged.map_of_reconcile {h : History} {begins : Step → Nat → Prop} {code : Buffer}
    {α : Type} {f : Instruction → α} (hl : Logged h begins s)
    (hcode : s.labels.reconcile s.code = .ok () code) (hs : s.Consistent)
    (hf : ∀ i j op, op.isJump = true → i.opcode? = some op → j.opcode? = some op → f i = f j) :
    code.toList.map f = s.code.toList.map f := by
  have hsize : code.toList.length = s.code.toList.length := by
    rw [Array.length_toList, Array.length_toList, Labels.size_of_reconcile hcode]
  refine List.ext_getElem (by simp [hsize]) fun p hp hp' => ?_
  rw [List.length_map] at hp hp'
  obtain ⟨j, hj, hsame⟩ := hl.eq_or_isJump hcode hs (List.getElem?_eq_getElem hp)
  obtain rfl := Option.some.inj ((List.getElem?_eq_getElem hp').symm.trans hj)
  rw [List.getElem_map, List.getElem_map]
  obtain hsame | ⟨op, hjump, hi, hj⟩ := hsame
  · rw [hsame]
  · exact hf _ _ op hjump hi hj

/-- The placeholders are overwritten: operations stay, and so does every operand but the
displacements. -/
theorem Scope.reconciled {h : History} {begins : Step → Nat → Prop} (hl : Logged h begins s)
    (hr : Scope.reconcile s = .ok () t) (hs : s.Consistent) (he : s.Echoes done) :
    t.Consistent ∧ t.Echoes done := by
  obtain ⟨-, code, hcode, rfl⟩ := Scope.reconcile_eq_ok.mp hr
  have hkept : s.TablesKept { s with code } := .of_eq rfl rfl rfl rfl
  refine ⟨⟨fun i hi => ?_, ?_, hs.children⟩, he.protects, fun op hop => ?_⟩
  · obtain ⟨p, hp⟩ := List.mem_iff_getElem?.mp hi
    obtain ⟨j, hj, hsame⟩ := hl.eq_or_isJump hcode hs hp
    obtain rfl | ⟨op, hjump, hop, -⟩ := hsame
    · obtain ⟨op, hop, hrefers⟩ := hs.refers i (List.mem_of_getElem? hj)
      exact ⟨op, hop, hkept.refers hrefers⟩
    · refine ⟨op, hop, ?_⟩
      cases op <;> trivial
  · have hroles := hl.map_of_reconcile (f := Instruction.childRole) hcode hs
      fun i j op hjump hi hj => by
        have hfixed : op.isFixed = false :=
          Bool.eq_false_iff.mpr fun hf => Opcode.not_isJump_of_isFixed hf hjump
        rw [Instruction.childRole_of_opcode? hi hfixed, Instruction.childRole_of_opcode? hj hfixed]
    show Instantiates s.children.toList (code.toList.map Instruction.childRole)
    rw [hroles]
    exact hs.instances
  · have hops := hl.map_of_reconcile (f := Instruction.opcode?) hcode hs
      fun i j op _ hi hj => hi.trans hj.symm
    show (∃ i ∈ code.toList, i.opcode? = some op) ↔ _
    rw [← he.told op hop, ← List.mem_map, ← List.mem_map, hops]

end Scopes

/-! ### Units -/

/-- The parameters of a unit, which differ from one another, have the first slots. -/
theorem Scope.eq_of_declareAll {names : List String} {s t : Scope}
    (h : declareAll names s = .ok () t) (hn : (s.locals.active ++ names).Nodup)
    (hroom : s.locals.active.length ≤ s.locals.highWater) :
    ∃ locals recorder, t = { s with locals, recorder } ∧ locals.active = s.locals.active ++ names
      ∧ locals.active.length ≤ locals.highWater := by
  induction names generalizing s with
  | nil =>
    obtain ⟨-, rfl⟩ := Edit.pure_eq_ok.mp h
    exact ⟨_, _, rfl, (List.append_nil _).symm, hroom⟩
  | cons name names ih =>
    obtain ⟨slot, s₁, hd, h⟩ := Edit.bind_eq_ok.mp h
    obtain ⟨fresh, locals, hl, rfl⟩ := Scope.declare_eq_ok.mp hd
    have hroom₁ := (Slots.of_declare hl hroom).2
    have hnew : s.locals.lookup? name = none := by
      refine List.idxOf?_eq_none_iff.mpr fun hin => ?_
      exact (List.nodup_append.mp hn).2.2 name hin name List.mem_cons_self rfl
    have hactive : locals.active = s.locals.active ++ [name] := by
      unfold Slots.declare at hl
      rw [hnew] at hl
      simp only at hl
      split at hl
      · cases hl
      · simp only [Except.ok.injEq, Prod.mk.injEq] at hl
        rw [← hl.2]
    rw [List.append_cons, ← hactive] at hn
    obtain ⟨locals', recorder, ht, hall, hroom'⟩ := ih h hn hroom₁
    refine ⟨locals', recorder, ht, ?_, hroom'⟩
    rw [hall, List.append_cons, ← hactive]

section Units

variable {around : List Scope} {body : Script} {s t : Scope}

/-- A unit that has come to its end is consistent. -/
theorem Scope.Consistent.tableConsistent {outers : Outers} (hs : t.Consistent)
    (hroom : t.Roomy around) (he : t.Echoes body) (hguarded : Script.Guarded body)
    (hdefaults : t.signature.defaults = true ↔ ∃ x ∈ body, x.asksForArg = true)
    (hlen : t.outers.descriptors.length = outers.descriptors.length) :
    { t with outers }.toCodeObject.TableConsistent := by
  have hkept : t.TablesKept { t with outers } :=
    ⟨rfl, Nat.le_refl _, List.prefix_refl _, Nat.le_of_eq hlen⟩
  obtain ⟨hdebug, hblocks, hnamed, -⟩ := Scope.has_flags { t with outers }
  refine ⟨fun i hi => ?_, hroom.params, List.length_map _, ?_, fun p k => hs.instances.captured,
    fun q => hs.instances.owned, ?_, ?_, ?_⟩
  · obtain ⟨op, hop, hrefers⟩ := hs.refers i hi
    exact ⟨op, hop, hkept.refers hrefers⟩
  · exact hs.instances.instances
  · rw [hdebug]
    show t.recorder.isSome = (t.recorder.map _).isSome
    rw [Option.isSome_map]
  · rw [hblocks]
    show t.protects = true ↔ ∃ i ∈ t.code.toList, _
    rw [he.protects, show _ ↔ _ from hguarded]
    have hcatch := he.told .tryCatch rfl
    have hfinally := he.told .tryFinally rfl
    simp only [and_or_left, exists_or]
    rw [hcatch, hfinally, ← exists_or]
    refine exists_congr fun x => ?_
    rw [← and_or_left, Step.installs, Option.any_eq_true]
    refine and_congr_right fun _ => ⟨?_, ?_⟩
    · rintro ⟨op, hop, hin⟩
      cases op <;> first | exact .inl hop | exact .inr hop | cases hin
    · rintro (hop | hop)
      · exact ⟨_, hop, rfl⟩
      · exact ⟨_, hop, rfl⟩
  · rw [hnamed]
    show t.signature.defaults = true ↔ _
    rw [hdefaults]
    simp only [Step.asksForArg, beq_iff_eq]
    exact (he.told .hasArg rfl).symm

variable {op : Opcode} {relay : Outers.Relay} {v : CodeObject}

theorem Scope.TablesKept.adopted (hrelay : s.outers.relay t.outers.descriptors = .ok relay)
    (ht : t.Roomy (s :: around)) : s.TablesKept (s.adopted op v relay) := by
  have hr := Outers.relays_of_relay hrelay fun o ho => (ht.outers o ho).1
  obtain ⟨code, depth, peak, hadopted⟩ := Scope.exists_appendedAll
    { s with outers := relay.parent, children := s.children.push v }
    (.pack op s.children.size :: relay.captures.map Capture.word)
  rw [Scope.adopted, hadopted]
  exact ⟨rfl, Nat.le_refl _, List.prefix_refl _, hr.grown.initial.length_le⟩

theorem Scope.Roomy.adopted (hrelay : s.outers.relay t.outers.descriptors = .ok relay)
    (hs : s.Roomy around) (ht : t.Roomy (s :: around)) : (s.adopted op v relay).Roomy around := by
  obtain ⟨code, depth, peak, hadopted⟩ := Scope.exists_appendedAll
    { s with outers := relay.parent, children := s.children.push v }
    (.pack op s.children.size :: relay.captures.map Capture.word)
  rw [Scope.adopted, hadopted]
  refine ⟨hs.active, hs.params, fun o ho => ?_⟩
  obtain hold | ⟨x, hx, hup, rfl⟩ := Outers.mem_of_relay hrelay ho
  · exact hs.outers o hold
  · obtain ⟨-, t', ht', hslot⟩ := ht.outers x hx
    refine ⟨by show 1 ≤ x.up - 1; omega, t', ?_, hslot⟩
    rw [show x.up - 1 = x.up - 1 - 1 + 1 by omega, List.getElem?_cons_succ] at ht'
    exact ht'

/-- A capture leads to a slot of the scope around the unit, or to one of its descriptors. -/
theorem Scope.refers_capture {c : Capture}
    (hrelay : s.outers.relay t.outers.descriptors = .ok relay) (ht : t.Roomy (s :: around))
    (hmem : c ∈ relay.captures) : (s.adopted op v relay).toCodeObject.Refers c.operand c.op := by
  have hr := Outers.relays_of_relay hrelay fun o ho => (ht.outers o ho).1
  obtain ⟨code, depth, peak, hadopted⟩ := Scope.exists_appendedAll
    { s with outers := relay.parent, children := s.children.push v }
    (.pack op s.children.size :: relay.captures.map Capture.word)
  obtain ⟨j, hj⟩ := List.mem_iff_getElem?.mp hmem
  have hlt : j < t.outers.descriptors.length := by
    rw [← hr.length]
    exact (List.getElem?_eq_some_iff.mp hj).1
  obtain ⟨c', hc', hfills⟩ := hr.fills j _ (List.getElem?_eq_getElem hlt)
  obtain rfl := Option.some.inj (hj.symm.trans hc')
  rw [Scope.adopted, hadopted]
  cases c with
  | slot n =>
    obtain ⟨-, t', ht', hslot⟩ := ht.outers _ (List.getElem_mem hlt)
    rw [show t.outers.descriptors[j] = ⟨n, 1⟩ from hfills] at ht' hslot
    obtain rfl : s = t' := Option.some.inj ht'
    exact hslot
  | outer r =>
    obtain ⟨x, hx, -⟩ := hfills
    exact (List.getElem?_eq_some_iff.mp hx).1

/-- The words that make an instance are that of the instance and those of its captures. -/
theorem map_childRole_adopted {n : Nat} {captures : List Capture} (hop : op.instantiates = true)
    (hn : n ≤ Instruction.maxUnsigned) (hc : ∀ c ∈ captures, c.operand ≤ Instruction.maxUnsigned) :
    (Instruction.pack op n :: captures.map Capture.word).map Instruction.childRole
      = .makes n :: List.replicate captures.length .captures := by
  have hmakes : (Instruction.pack op n).childRole = .makes n := by
    unfold Instruction.childRole
    rw [Instruction.opcode?_pack (Nat.lt_succ_of_le hn), Instruction.unsigned_pack (Nat.lt_succ_of_le hn)]
    cases op <;> first | rfl | cases hop
  rw [List.map_cons, hmakes]
  refine congrArg _ (List.eq_replicate_iff.mpr ⟨?_, fun r hr => ?_⟩)
  · rw [List.length_map, List.length_map]
  · obtain ⟨i, hi, rfl⟩ := List.mem_map.mp hr
    obtain ⟨c, hmem, rfl⟩ := List.mem_map.mp hi
    unfold Instruction.childRole
    rw [Capture.opcode?_word (hc c hmem)]
    cases c <;> rfl

/-- The scope around a unit that has ended makes an instance of it. -/
theorem Scope.Consistent.adopted (hop : op.instantiates = true)
    (hn : s.children.size ≤ Instruction.maxUnsigned)
    (hc : ∀ c ∈ relay.captures, c.operand ≤ Instruction.maxUnsigned)
    (hrelay : s.outers.relay t.outers.descriptors = .ok relay) (hs : s.Consistent)
    (ht : t.Roomy (s :: around)) (hv : ∀ u, v.Contains u → u.TableConsistent)
    (hlen : v.outerCount = t.outers.descriptors.length) : (s.adopted op v relay).Consistent := by
  have hkept : s.TablesKept (s.adopted op v relay) := .adopted hrelay ht
  have hcode : (s.adopted op v relay).code.toList
      = s.code.toList ++ .pack op s.children.size :: relay.captures.map Capture.word := code_adopted
  have hchildren : (s.adopted op v relay).children.toList = s.children.toList ++ [v] :=
    children_adopted
  refine ⟨fun i hi => ?_, ?_, fun k hk => ?_⟩
  · rw [hcode] at hi
    obtain hi | hi := List.mem_append.mp hi
    · obtain ⟨o, ho, hrefers⟩ := hs.refers i hi
      exact ⟨o, ho, hkept.refers hrefers⟩
    obtain rfl | hi := List.mem_cons.mp hi
    · refine ⟨op, Instruction.opcode?_pack (Nat.lt_succ_of_le hn), ?_⟩
      cases op <;> trivial
    · obtain ⟨c, hmem, rfl⟩ := List.mem_map.mp hi
      refine ⟨c.op, Capture.opcode?_word (hc c hmem), ?_⟩
      rw [show c.word.unsigned = c.operand from
        Instruction.unsigned_pack (Nat.lt_succ_of_le (hc c hmem))]
      exact Scope.refers_capture hrelay ht hmem
  · have hcount : relay.captures.length = v.outerCount := by
      rw [(Outers.relays_of_relay hrelay fun o ho => (ht.outers o ho).1).length, hlen]
    rw [hchildren, hcode, List.map_append, map_childRole_adopted hop hn hc, hcount,
      ← Array.length_toList]
    exact hs.instances.unit v
  · rw [hchildren] at hk
    obtain hk | hk := List.mem_append.mp hk
    · exact hs.children k hk
    · rw [List.mem_singleton.mp hk]
      exact hv

theorem Scope.Echoes.adopted {done : Script} {kind : ScopeKind} {signature : Signature}
    (hs : s.Echoes done) (hn : s.children.size ≤ Instruction.maxUnsigned)
    (hc : ∀ c ∈ relay.captures, c.operand ≤ Instruction.maxUnsigned) :
    (s.adopted op v relay).Echoes (done ++ [.unit op kind signature body]) := by
  obtain ⟨code, depth, peak, hadopted⟩ := Scope.exists_appendedAll
    { s with outers := relay.parent, children := s.children.push v }
    (.pack op s.children.size :: relay.captures.map Capture.word)
  have hcode : (s.adopted op v relay).code.toList
      = s.code.toList ++ .pack op s.children.size :: relay.captures.map Capture.word := code_adopted
  refine hs.concat ?_ fun o ho => ?_
  · rw [Scope.adopted, hadopted]
    show s.protects = true ↔ _
    simp
  · -- no flag tells of captures
    have hcaptures : ∀ i ∈ relay.captures.map Capture.word, i.opcode? ≠ some o := by
      intro i hi hop
      obtain ⟨c, hmem, rfl⟩ := List.mem_map.mp hi
      rw [Capture.opcode?_word (hc c hmem)] at hop
      obtain rfl := Option.some.inj hop
      cases c <;> cases ho
    rw [hcode]
    simp only [List.mem_append, List.mem_cons, or_and_right, exists_or, exists_eq_left,
      Instruction.opcode?_pack (Nat.lt_succ_of_le hn), Step.opcode?]
    refine or_congr_right (or_iff_left ?_)
    rintro ⟨i, hi, hop⟩
    exact hcaptures i hi hop

end Units

/-! ### Whole scripts -/

/-- The state of an assembly in which the steps `done` of a unit have been run. -/
structure Assembler.Consistent (signature : Signature) (done : Script) (a : Assembler) : Prop where
  roomy : a.Roomy
  current : a.current.Consistent
  echoes : a.current.Echoes done
  signature : a.current.signature = signature

namespace Assembler.Consistent

variable {signature : Signature} {done : Script} {a b : Assembler} {x : Step}

theorem written {is : List Instruction} (ha : a.Consistent signature done)
    (h : Scope.Written a.enclosing x a.current b.current is) (henc : b.enclosing = a.enclosing) :
    b.Consistent signature (done ++ [x]) := by
  refine ⟨⟨?_, ?_⟩, h.consistent ha.current, h.echoes ha.echoes,
    h.kept.signature.trans ha.signature⟩
  · rw [henc]
    exact h.roomy
  · rw [henc]
    exact ha.roomy.enclosing

theorem step (ha : a.Consistent signature done)
    (hx : x.isRegular signature.generator signature.params.length = true)
    (h : Step.run x a = .ok () b) : b.Consistent signature (done ++ [x]) := by
  rw [← ha.signature] at hx
  obtain ⟨is, hw⟩ := Step.written hx h ha.roomy
  exact ha.written hw (Step.frame_of_run x h).1

theorem discard (ha : a.Consistent signature done) (h : Step.run .discard a = .ok () b) :
    b.Consistent signature (done ++ [.discard]) := by
  obtain ⟨s, hs, rfl⟩ := Assembler.onCurrent_eq_ok.mp h
  have hroom := ha.roomy.current
  obtain ⟨hspare, rfl⟩ | ⟨-, -, rfl⟩ := Scope.discard_eq_ok.mp hs
  · exact ⟨⟨hroom.congr rfl rfl rfl, ha.roomy.enclosing⟩, ha.current.withoutSpareDup hspare,
      ha.echoes.withoutSpareDup hspare, ha.signature⟩
  · exact ha.written (.one hroom.retabled (by decide) rfl trivial (.inr ⟨rfl, rfl⟩) nofun) rfl

/-- The state in which the body of a unit begins. -/
theorem entered {kind : ScopeKind} {inner : Signature} {n : Nat} {s : Scope}
    (ha : a.Consistent signature done) (hparams : inner.params.Nodup)
    (he : Assembler.enterScope kind inner a = .ok n b)
    (hd : declareAll inner.params b.current = .ok () s) :
    Assembler.Consistent inner [] { b with current := s } := by
  obtain ⟨-, rfl⟩ := Assembler.enterScope_eq_ok.mp he
  obtain ⟨locals, recorder, rfl, hactive, hroom⟩ :=
    Scope.eq_of_declareAll hd hparams (Nat.le_refl 0)
  obtain ⟨hempty, hechoes⟩ := Scope.consistent_of_empty (s :=
    { Scope.new a.entered kind inner a.config.debugInfo with locals, recorder }) rfl rfl rfl
  refine ⟨⟨⟨hroom, ?_, fun o ho => absurd ho List.not_mem_nil⟩, ?_⟩, hempty, hechoes, rfl⟩
  · rw [hactive] at hroom
    exact hroom
  · exact List.forall_mem_cons.mpr ⟨ha.roomy.current.active, ha.roomy.enclosing⟩

/-- The unit that a body has come to is consistent. -/
theorem tableConsistent {body : Script} {s : Scope} {outers : Outers} {h : History}
    {begins : Step → Nat → Prop} (ha : a.Consistent signature body)
    (hlogged : Logged h begins a.current) (hguarded : Script.Guarded body)
    (hdefaults : signature.defaults = true ↔ ∃ y ∈ body, y.asksForArg = true)
    (hrec : Scope.reconcile a.current = .ok () s)
    (hlen : s.outers.descriptors.length = outers.descriptors.length) :
    ∀ u, { s with outers }.toCodeObject.Contains u → u.TableConsistent := by
  obtain ⟨hs, he⟩ := Scope.reconciled hlogged hrec ha.current ha.echoes
  obtain ⟨-, code, -, rfl⟩ := Scope.reconcile_eq_ok.mp hrec
  rw [← ha.signature] at hdefaults
  have hroom : Scope.Roomy a.enclosing { a.current with code } :=
    ha.roomy.current.congr rfl rfl rfl
  intro u hu
  cases hu with
  | self => exact hs.tableConsistent hroom he hguarded hdefaults hlen
  | child hk hu => exact hs.children _ hk u hu

/-- A unit is written and an instance of it is made, given what comes of its body. -/
theorem unit {op : Opcode} {kind : ScopeKind} {inner : Signature} {body : Script}
    (ha : a.Consistent signature done) (hop : op.instantiates = true)
    (hparams : inner.params.Nodup) (hproper : ∀ y ∈ body, y.isProper = true)
    (hguarded : Script.Guarded body)
    (hdefaults : inner.defaults = true ↔ ∃ y ∈ body, y.asksForArg = true)
    (hbody : ∀ {c d : Assembler}, c.Consistent inner [] → Step.runAll body c = .ok () d →
      d.Consistent inner body)
    (h : Step.run (.unit op kind inner body) a = .ok () b) :
    b.Consistent signature (done ++ [.unit op kind inner body]) := by
  obtain ⟨n, e, s, c, child, d, he, hd, hb, hl, hemit⟩ := Step.run_unit_eq_ok.mp h
  have hc := hbody (ha.entered hparams he hd) hb
  have hlogged := @Logged.run [] { e with current := s } _ _ _ (.entered he hd) rfl hproper hb
  have hframe := (Step.frame_of_runAll body hb).1
  obtain ⟨-, rfl⟩ := Assembler.enterScope_eq_ok.mp he
  have henc : c.enclosing = a.current :: a.enclosing := hframe
  obtain ⟨parent, rest, t, relay, hparent, -, hrec, hrelay, rfl, rfl⟩ :=
    Assembler.leaveScope_eq_ok.mp hl
  obtain ⟨rfl, rfl⟩ := List.cons.inj (hparent.symm.trans henc)
  obtain ⟨hn, hcaptures, rfl⟩ := Assembler.eq_of_emitChild hemit
  have hroom : c.current.Roomy (a.current :: a.enclosing) := by
    rw [← henc]
    exact hc.roomy.current
  have hunit : ∀ outers : Outers, t.outers.descriptors.length = outers.descriptors.length →
      ∀ u, { t with outers }.toCodeObject.Contains u → u.TableConsistent :=
    fun outers hlen => hc.tableConsistent hlogged hguarded hdefaults hrec hlen
  obtain ⟨-, code, -, rfl⟩ := Scope.reconcile_eq_ok.mp hrec
  have hrelay : a.current.outers.relay c.current.outers.descriptors = .ok relay := hrelay
  have hr := Outers.relays_of_relay hrelay fun o ho => (hroom.outers o ho).1
  have hs := ha.current.adopted hop hn hcaptures hrelay hroom
    (hunit ⟨relay.settled⟩ hr.settled_length.symm) hr.settled_length
  refine ⟨⟨?_, ha.roomy.enclosing⟩, hs, ha.echoes.adopted hn hcaptures, ?_⟩
  · exact Scope.Roomy.adopted hrelay ha.roomy.current hroom
  · exact (Scope.TablesKept.adopted hrelay hroom).signature.trans ha.signature

end Assembler.Consistent

/-- A regular script keeps the assembly consistent. -/
theorem Script.Regular.consistent {generator : Bool} {args : Nat} {done xs : Script}
    {signature : Signature} {a b : Assembler} (h : Script.Regular generator args done xs)
    (hgenerator : signature.generator = generator) (hargs : signature.params.length = args)
    (ha : a.Consistent signature done) (hr : Step.runAll xs a = .ok () b) :
    b.Consistent signature (done ++ xs) := by
  induction h generalizing signature a b with
  | done =>
    obtain ⟨-, rfl⟩ := Edit.pure_eq_ok.mp hr
    rw [List.append_nil]
    exact ha
  | step hx _ ih =>
    obtain ⟨c, hc, hr⟩ := Step.runAll_cons_eq_ok.mp hr
    subst hgenerator hargs
    rw [List.append_cons]
    exact ih rfl rfl (ha.step hx hc) hr
  | discard _ _ ih =>
    obtain ⟨c, hc, hr⟩ := Step.runAll_cons_eq_ok.mp hr
    rw [List.append_cons]
    exact ih hgenerator hargs (ha.discard hc) hr
  | unit hop hparams hbody hguarded hdefaults _ ihbody ih =>
    obtain ⟨c, hc, hr⟩ := Step.runAll_cons_eq_ok.mp hr
    rw [List.append_cons]
    have hunit := ha.unit hop hparams hbody.isProper hguarded hdefaults
      (fun hd hb => ihbody rfl rfl hd hb) hc
    exact ih hgenerator hargs hunit hr

/-- In every unit of a compiled program each word is an instruction whose operand lies within its table,
instances are made of the children in their order, each with its captures, and the counts and flags say
what is in the unit. -/
theorem tablesConsistent_of_compile {config : Config} {program : List Stmt} {c : CodeObject}
    (hc : compile config program = .ok c) (u : CodeObject) (hu : c.Contains u) :
    u.TableConsistent := by
  obtain ⟨hregular, hguarded⟩ := Program.regular hc
  obtain ⟨final, ha⟩ := compile_eq_ok.mp hc
  obtain ⟨b, s, hb, -, hrec, -, rfl, -⟩ := assemble_eq_ok.mp ha
  obtain ⟨hempty, hechoes⟩ := Scope.consistent_of_empty
    (s := (Assembler.start config).current) rfl rfl rfl
  have hroomy : (Assembler.start config).Roomy :=
    ⟨⟨Nat.le_refl 0, Nat.le_refl 0, fun o ho => absurd ho List.not_mem_nil⟩,
      fun t ht => absurd ht List.not_mem_nil⟩
  have hend := hregular.consistent rfl rfl ⟨hroomy, hempty, hechoes, rfl⟩ hb
  have hlogged := @Logged.run [] (.start config) (.start config) b _ .new rfl hregular.isProper hb
  have hnone : ∀ x ∈ Program.script config program, x.asksForArg = false :=
    hregular.asksForArg_eq_false rfl
  have hsame : s.outers.descriptors.length = s.outers.descriptors.length := rfl
  refine hend.tableConsistent hlogged hguarded ?_ hrec hsame u hu
  refine ⟨fun h => absurd h Bool.false_ne_true, ?_⟩
  rintro ⟨x, hx, hasks⟩
  rw [hnone x hx] at hasks
  cases hasks

/-- A generator with a default, a handler, and a function that captures both of its parameters:

      gen g(a, b = a) { try { yield fn() { return a(b); }; } finally { a; } } -/
def guardedGenerator : List Stmt :=
  [onFirstLine (.function "g" (.mk [.mk "a" none, .mk "b" (some (.name "a"))] false true
    [onFirstLine (.tryCatch
      [onFirstLine (.expr (.yield 1 (some (.function 1 (.mk [] false false
        [onFirstLine (.ret (some (.call 1 (.name "a") [.positional (.name "b")])))])))))]
      none (some [onFirstLine (.expr (.name "a"))]))]))]

theorem tablesConsistent_guardedGenerator :
    ∃ c, compile .debug guardedGenerator = .ok c
      ∧ (∃ g, c.children = [g] ∧ g.has .generator = true ∧ g.has .exceptionBlocks = true
        ∧ g.has .namedParams = true ∧ g.children.map (·.outerCount) = [2])
      ∧ ∀ u, c.Contains u → u.TableConsistent := by
  have hok : (compile .debug guardedGenerator).toOption.map (fun c => c.children.map fun g =>
      (g.has .generator, g.has .exceptionBlocks, g.has .namedParams, g.children.map (·.outerCount)))
      = some [(true, true, true, [2])] := by decide +kernel
  obtain ⟨c, hc, hg⟩ := Option.map_eq_some_iff.mp hok
  have hc := eq_ok_of_toOption hc
  obtain ⟨g, hchildren, hg⟩ := List.map_eq_singleton_iff.mp hg
  simp only [Prod.mk.injEq] at hg
  exact ⟨c, hc, ⟨g, hchildren, hg⟩, fun u hu => tablesConsistent_of_compile hc u hu⟩

end StackCode
