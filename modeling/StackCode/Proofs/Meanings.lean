import StackCode.Proofs.DebugNames
import StackCode.Proofs.SelfCalls

/-!
# What names mean

A name means the variable of the nearest unit that has it, and a global variable where none does.
Instructions refer to variables by slots, by outer variables and by constants; each of these leads to
the variable that the name meant when the instruction was written.

* `Variable`, `Assembler.lastVariable?`: the variable that an instruction refers to;
* `Variable.named`: the variable that a name means in units nested in one another;
* `Assembler.variableAt?_of_resolve`: names are resolved to what they mean;
* `Step.lastVariable?_of_stores`: where a closure is stored;
* `Step.lookup?_of_runAll`: a unit has no variable that it does not declare.
-/

namespace StackCode

/-! ### Variables -/

/-- A variable, in a slot of the unit at a path or among the globals. -/
inductive Variable where
  | slot (unit : List Nat) (n : Nat)
  | global (name : String)
  deriving DecidableEq, Repr

/-- The place that an instruction reads or writes. -/
def Instruction.place? (i : Instruction) : Option Place :=
  match i.opcode? with
  | some .loadLocal | some .storeLocal => some (.slot i.unsigned)
  | some .loadOuter | some .storeOuter => some (.outer i.unsigned)
  | some .loadGlobal | some .storeGlobal => some (.global i.unsigned)
  | _ => none

namespace Assembler

/-- The variable at a place, as seen from the unit that is being written. -/
def variableAt? (a : Assembler) : Place → Option Variable
  | .slot n => some (.slot a.path n)
  | .outer i =>
    a.current.outers.descriptors[i]?.map fun o => .slot (a.path.drop o.up) o.slot
  | .global i =>
    match a.current.constants.get? i with
    | some (.string name) => some (.global name)
    | _ => none

/-- The variable that the last instruction reads or writes. -/
def lastVariable? (a : Assembler) : Option Variable :=
  (a.current.code.back?.bind Instruction.place?).bind a.variableAt?

end Assembler

/-- The variable that a name means in units nested in one another, innermost first. -/
def Variable.named (name : String) : List Scope → Variable
  | [] => .global name
  | s :: rest =>
    match s.locals.lookup? name with
    | some n => .slot (rest.map fun t => t.children.size) n
    | none => named name rest

namespace Variable

variable {name : String} {s t : Scope} {rest scopes : List Scope}

theorem named_of_some {n : Nat} (h : s.locals.lookup? name = some n) :
    named name (s :: rest) = .slot (rest.map fun t => t.children.size) n := by
  rw [named, h]

theorem named_of_none (h : s.locals.lookup? name = none) :
    named name (s :: rest) = named name rest := by
  rw [named, h]

/-- What a name means depends on the variables of the innermost unit alone. -/
theorem named_congr (h : t.locals = s.locals) : named name (t :: rest) = named name (s :: rest) := by
  rw [named, named, h]

/-- A name means a global variable where no unit has it. -/
theorem named_eq_global_iff :
    named name scopes = .global name ↔ ∀ s ∈ scopes, s.locals.lookup? name = none := by
  induction scopes with
  | nil => simp [named]
  | cons s rest ih =>
    rw [List.forall_mem_cons]
    cases h : s.locals.lookup? name with
    | none => rw [named_of_none h, ih, and_iff_right rfl]
    | some n => simp [named_of_some h]

/-- A name never means a variable of a unit further in. -/
theorem named_ne_slot {path : List Nat} {n : Nat} (h : scopes.length ≤ path.length) :
    named name scopes ≠ .slot path n := by
  induction scopes with
  | nil => exact nofun
  | cons s rest ih =>
    rw [List.length_cons] at h
    cases hs : s.locals.lookup? name with
    | none =>
      rw [named_of_none hs]
      exact ih (Nat.le_of_succ_le h)
    | some k =>
      rw [named_of_some hs]
      rintro ⟨⟩
      rw [List.length_map] at h
      exact Nat.not_succ_le_self _ h

/-- The variable that is found in a unit further out. -/
theorem named_of_findOuter {up : Nat} {o : Outer}
    (h : Assembler.findOuter name up scopes = .ok (some o)) :
    ∃ k, o.up = up + k
      ∧ named name scopes = .slot ((scopes.drop (k + 1)).map fun t => t.children.size) o.slot := by
  induction scopes generalizing up with
  | nil => cases h
  | cons s rest ih =>
    unfold Assembler.findOuter at h
    split at h
    · cases h
    · split at h
      · next slot hslot =>
        obtain rfl := Option.some.inj (Except.ok.inj h)
        exact ⟨0, rfl, named_of_some hslot⟩
      · next hnone =>
        obtain ⟨k, hup, hk⟩ := ih h
        refine ⟨k + 1, by rw [hup]; omega, ?_⟩
        rw [named_of_none hnone, hk]
        rfl

theorem named_of_findOuter_none {up : Nat}
    (h : Assembler.findOuter name up scopes = .ok none) : named name scopes = .global name := by
  induction scopes generalizing up with
  | nil => rfl
  | cons s rest ih =>
    unfold Assembler.findOuter at h
    split at h
    · cases h
    · split at h
      · cases Except.ok.inj h
      · next hnone =>
        rw [named_of_none hnone]
        exact ih h

end Variable

/-! ### Instructions and names -/

namespace Place

variable (place : Place)

theorem place?_load (hn : place.operand ≤ Instruction.maxUnsigned) :
    (Instruction.pack place.loadOp place.operand).place? = some place := by
  rw [Instruction.place?, Instruction.opcode?_pack (Nat.lt_succ_of_le hn),
    Instruction.unsigned_pack (Nat.lt_succ_of_le hn)]
  cases place <;> rfl

theorem place?_store (hn : place.operand ≤ Instruction.maxUnsigned) :
    (Instruction.pack place.storeOp place.operand).place? = some place := by
  rw [Instruction.place?, Instruction.opcode?_pack (Nat.lt_succ_of_le hn),
    Instruction.unsigned_pack (Nat.lt_succ_of_le hn)]
  cases place <;> rfl

end Place

namespace Assembler

variable {name : String} {a b : Assembler}

theorem lastVariable?_appended {i : Instruction} {place : Place} (h : i.place? = some place) :
    ({ b with current := b.current.appended i } : Assembler).lastVariable?
      = b.variableAt? place := by
  show ((b.current.code.push i).back?.bind Instruction.place?).bind _ = _
  rw [Array.back?_push, Option.bind_some, h]
  rfl

theorem variableAt?_global {pool pool' : Pool} {i : Nat} (h : pool.addName name = .ok (i, pool'))
    (hb : b.current.constants = pool') : b.variableAt? (.global i) = some (.global name) := by
  have hname : b.current.constants.get? i = some (.string name) := by
    rw [hb, Pool.get?, ← Array.getElem?_toList]
    exact (Pool.of_addName h).2
  rw [variableAt?, hname]

/-- A name is resolved to the place of the variable that it means. -/
theorem variableAt?_of_resolve {place : Place} (h : resolve name a = .ok place b) :
    b.variableAt? place = some (.named name (a.current :: a.enclosing)) := by
  obtain ⟨slot, hl, rfl, rfl⟩ | ⟨hl, o, index, outers, hf, hadd, rfl, rfl⟩ |
    ⟨hl, hf, index, constants, hc, rfl, rfl⟩ := resolve_eq_ok.mp h
  · rw [Variable.named_of_some hl]
    rfl
  · obtain ⟨k, hup, hk⟩ := Variable.named_of_findOuter hf
    rw [Variable.named_of_none hl, hk, List.map_drop, Nat.add_comm k 1, ← hup]
    show (outers.descriptors[index]?).map _ = _
    rw [Outers.getElem?_of_add hadd]
    rfl
  · rw [Variable.named_of_none hl, Variable.named_of_findOuter_none hf]
    exact variableAt?_global hc rfl

end Assembler

namespace Step

variable {x : String} {a b : Assembler}

theorem lastVariable?_of_loadName (h : run (.loadName x) a = .ok () b) :
    b.lastVariable? = some (.named x (a.current :: a.enclosing)) := by
  obtain ⟨place, c, hr, hn, -, rfl⟩ := Assembler.loadName_eq_ok.mp h
  rw [Assembler.lastVariable?_appended (Place.place?_load place hn)]
  exact Assembler.variableAt?_of_resolve hr

theorem lastVariable?_of_storeName (h : run (.storeName x) a = .ok () b) :
    b.lastVariable? = some (.named x (a.current :: a.enclosing)) := by
  obtain ⟨place, c, hr, hn, -, rfl⟩ := Assembler.storeName_eq_ok.mp h
  rw [Assembler.lastVariable?_appended (Place.place?_store place hn)]
  exact Assembler.variableAt?_of_resolve hr

theorem lastVariable?_of_slot {op : Opcode} (hop : op = .loadLocal ∨ op = .storeLocal)
    (h : run (.slot op x) a = .ok () b) :
    b.lastVariable? = some (.named x (a.current :: a.enclosing)) := by
  obtain ⟨s, hs, rfl⟩ := Assembler.onCurrent_eq_ok.mp h
  obtain ⟨n, hl, hn, -, rfl⟩ := Scope.emitSlot_eq_ok.mp hs
  rw [Variable.named_of_some hl]
  obtain rfl | rfl := hop
  · exact Assembler.lastVariable?_appended (Place.place?_load (.slot n) hn)
  · exact Assembler.lastVariable?_appended (Place.place?_store (.slot n) hn)

theorem lastVariable?_of_storeGlobal (h : run (.named .storeGlobal x) a = .ok () b) :
    b.lastVariable? = some (.global x) := by
  obtain ⟨s, hs, rfl⟩ := Assembler.onCurrent_eq_ok.mp h
  obtain ⟨i, constants, hc, hn, -, rfl⟩ := Scope.emitNamed_eq_ok.mp hs
  refine (Assembler.lastVariable?_appended (b := { a with current := { a.current with constants } })
    (Place.place?_store (.global i) hn)).trans ?_
  exact Assembler.variableAt?_global hc rfl

/-- A closure is stored into the variable that its name means, unless it becomes a global one. -/
theorem lastVariable?_of_stores {between : Script} {store : Step}
    (hs : Script.Stores x between store) (h : runAll (between ++ [store]) a = .ok () b) :
    store = .named .storeGlobal x ∧ b.lastVariable? = some (.global x)
      ∨ store ≠ .named .storeGlobal x
        ∧ b.lastVariable? = some (.named x (a.current :: a.enclosing)) := by
  cases hs with
  | declared =>
    obtain ⟨c, hx, h⟩ := runAll_cons_eq_ok.mp h
    obtain ⟨-, rfl⟩ := Edit.pure_eq_ok.mp h
    exact .inr ⟨nofun, lastVariable?_of_slot (.inr rfl) hx⟩
  | global =>
    obtain ⟨c, hx, h⟩ := runAll_cons_eq_ok.mp h
    obtain ⟨-, rfl⟩ := Edit.pure_eq_ok.mp h
    exact .inl ⟨rfl, lastVariable?_of_storeGlobal hx⟩
  | assigned =>
    obtain ⟨d, hd, h⟩ := runAll_cons_eq_ok.mp h
    obtain ⟨c, hx, h⟩ := runAll_cons_eq_ok.mp h
    obtain ⟨-, rfl⟩ := Edit.pure_eq_ok.mp h
    refine .inr ⟨nofun, ?_⟩
    rw [lastVariable?_of_storeName hx, (frame_of_run _ hd).1,
      Variable.named_congr (sameNames rfl hd).locals]

end Step

/-! ### Names that stay out of a unit -/

namespace Slots

variable {slots after : Slots} {name other : String}

theorem lookup?_of_declare {slot : Nat} {fresh : Bool} (hne : other ≠ name)
    (h : slots.declare other = .ok ((slot, fresh), after)) (hn : slots.lookup? name = none) :
    after.lookup? name = none := by
  unfold declare at h
  split at h
  · obtain ⟨-, rfl⟩ := Prod.mk.inj (Except.ok.inj h)
    exact hn
  · split at h
    · cases h
    · obtain ⟨-, rfl⟩ := Prod.mk.inj (Except.ok.inj h)
      rw [lookup?, List.idxOf?_eq_none_iff] at hn ⊢
      simp only [List.mem_append, List.mem_singleton, not_or]
      exact ⟨hn, hne.symm⟩

theorem lookup?_of_rollback {marker : Nat} (hn : slots.lookup? name = none) :
    (slots.rollback marker).2.lookup? name = none := by
  rw [lookup?, List.idxOf?_eq_none_iff] at hn ⊢
  exact fun hmem => hn (List.mem_of_mem_take hmem)

end Slots

/-- Parameters with other names. -/
theorem Scope.lookup?_of_declareAll {names : List String} {name : String} {s t : Scope}
    (h : declareAll names s = .ok () t) (hne : name ∉ names)
    (hn : s.locals.lookup? name = none) : t.locals.lookup? name = none := by
  induction names generalizing s with
  | nil =>
    obtain ⟨-, rfl⟩ := Edit.pure_eq_ok.mp h
    exact hn
  | cons other names ih =>
    have hother : other ≠ name := (List.ne_of_not_mem_cons hne).symm
    obtain ⟨slot, u, hd, h⟩ := Edit.bind_eq_ok.mp h
    obtain ⟨fresh, locals, hl, rfl⟩ := Scope.declare_eq_ok.mp hd
    exact ih h (List.not_mem_of_not_mem_cons hne) (Slots.lookup?_of_declare hother hl hn)

namespace Step

variable {name : String} {x : Step} {xs : Script} {a b : Assembler}

/-- A name that a unit does not have is not given to it by a step that declares another one. -/
theorem lookup?_of_run (h : run x a = .ok () b) (hx : x ≠ .declare name)
    (hn : a.current.locals.lookup? name = none) : b.current.locals.lookup? name = none := by
  cases hkeep : x.keepsNames with
  | true =>
    rw [(sameNames hkeep h).locals]
    exact hn
  | false =>
    cases x with
    | declare other =>
      obtain ⟨slot, h⟩ := Edit.ignore_eq_ok.mp h
      obtain ⟨s, hs, rfl⟩ := Assembler.onCurrent_eq_ok.mp h
      obtain ⟨fresh, locals, hl, rfl⟩ := Scope.declare_eq_ok.mp hs
      exact Slots.lookup?_of_declare (fun he => hx (congrArg _ he)) hl hn
    | enterBlock =>
      simp only [run] at h
      obtain ⟨s, hs, rfl⟩ := Assembler.onCurrent_eq_ok.mp h
      obtain rfl := Scope.enterBlock_eq_ok.mp hs
      exact hn
    | leaveBlock =>
      obtain ⟨s, hs, rfl⟩ := Assembler.onCurrent_eq_ok.mp h
      obtain ⟨marker, blocks, -, rfl⟩ := Scope.leaveBlock_eq_ok.mp hs
      exact Slots.lookup?_of_rollback hn
    | _ => cases hkeep

/-- Nor is it by a script that does not declare it. -/
theorem lookup?_of_runAll (h : runAll xs a = .ok () b) (hx : .declare name ∉ xs)
    (hn : a.current.locals.lookup? name = none) : b.current.locals.lookup? name = none := by
  induction xs generalizing a with
  | nil =>
    obtain ⟨-, rfl⟩ := Edit.pure_eq_ok.mp h
    exact hn
  | cons x xs ih =>
    obtain ⟨c, hfirst, h⟩ := runAll_cons_eq_ok.mp h
    have hne : x ≠ .declare name := (List.ne_of_not_mem_cons hx).symm
    exact ih h (List.not_mem_of_not_mem_cons hx) (lookup?_of_run hfirst hne hn)

end Step

end StackCode
