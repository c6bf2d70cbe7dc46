import StackCode.Proofs.Descriptors
import StackCode.Proofs.Origins

/-!
# Units and their captures

An instance of each child of a unit is made at one place, and the captures behind that instruction
say what the outer variables of the child are. A unit that is still being written changes in many
ways, but instances and captures stay where they are, and its descriptors only get more.

* `Links`: the place where a child is instantiated, with its captures;
* `CodeObject.Keeps`: an earlier and a later state of a unit;
* `Leads`: what an outer variable stands for, seen from a unit that is still being written;
* `Leads.keeps`, `Leads.enclose`: it stands for the same when more is written, and when the unit
  becomes a child of the one around it;
* `Leads.origin?_eq`, `Leads.injective`: what is left when the whole tree is finished.
-/

namespace StackCode

/-! ### Instances and captures -/

namespace Opcode

/-- Whether the position of the operation in the code has a meaning. -/
def isFixed (op : Opcode) : Bool := op.instantiates || op == .captureLocal || op == .captureOuter

theorem isFixed_of_instantiates {op : Opcode} (h : op.instantiates = true) : op.isFixed = true := by
  simp [isFixed, h]

theorem not_isJump_of_isFixed {op : Opcode} (h : op.isFixed = true) : ¬ op.isJump = true := by
  cases op <;> simp [isFixed, instantiates] at h <;> decide

/-- Whether the operation reads or writes an outer variable. -/
def isOuterAccess (op : Opcode) : Bool := op == .loadOuter || op == .storeOuter

end Opcode

theorem Instruction.instantiates_iff {k : Nat} {i : Instruction} :
    i.instantiates k = true ↔
      ∃ op, i.opcode? = some op ∧ op.instantiates = true ∧ i.unsigned = k := by
  simp only [instantiates, Bool.and_eq_true, Option.any_eq_true, beq_iff_eq]
  constructor
  · rintro ⟨⟨op, hop, hi⟩, hk⟩
    exact ⟨op, hop, hi, hk⟩
  · rintro ⟨op, hop, hi, hk⟩
    exact ⟨⟨op, hop, hi⟩, hk⟩

theorem Instruction.isFixed_of_capture? {i : Instruction} {c : Capture} (h : i.capture? = some c) :
    ∃ op, i.opcode? = some op ∧ op.isFixed = true := by
  unfold capture? at h
  split at h
  · next hop => exact ⟨_, hop, rfl⟩
  · next hop => exact ⟨_, hop, rfl⟩
  · cases h

theorem CodeObject.instantiatesAt_iff {u : CodeObject} {k p : Nat} :
    u.instantiatesAt k p = true ↔
      ∃ i op, u.code[p]? = some i ∧ i.opcode? = some op ∧ op.instantiates = true
        ∧ i.unsigned = k := by
  simp only [instantiatesAt, Option.any_eq_true, Instruction.instantiates_iff]
  constructor
  · rintro ⟨i, hi, op, h⟩
    exact ⟨i, op, hi, h⟩
  · rintro ⟨i, op, hi, h⟩
    exact ⟨i, hi, op, h⟩

/-- An instance of child `k` is made at one place, and the captures behind it fill the outer
variables of the child. -/
structure Links (u : CodeObject) (k : Nat) (captures : List Capture) : Prop where
  child : ∃ v, u.children[k]? = some v ∧ v.outerCount = captures.length
  place : ∃ p, (∀ q, u.instantiatesAt k q = true ↔ q = p)
    ∧ ∀ (i : Nat) (c : Capture), captures[i]? = some c →
      u.code[p + 1 + i]?.bind Instruction.capture? = some c

variable {u v c : CodeObject} {k i j : Nat} {path : List Nat} {o : Outer} {captures : List Capture}

theorem Links.lt (h : Links u k captures) : k < u.children.length := by
  obtain ⟨v, hv, -⟩ := h.child
  exact (List.getElem?_eq_some_iff.mp hv).1

/-- The captures of a child are read off the code. -/
theorem Links.captureOf?_eq (h : Links u k captures) (i : Nat) :
    u.captureOf? k i = captures[i]? := by
  obtain ⟨v, hv, hlen⟩ := h.child
  obtain ⟨p, hp, hcaptures⟩ := h.place
  have hfound : u.code.findIdx? (·.instantiates k) = some p := by
    obtain ⟨w, hw, hi⟩ := (Option.any_eq_true _ _).mp ((hp p).mpr rfl)
    obtain ⟨hlt, rfl⟩ := List.getElem?_eq_some_iff.mp hw
    refine List.findIdx?_eq_some_iff_getElem.mpr ⟨hlt, hi, fun q hq hi' => ?_⟩
    have hlt' : q < u.code.length := Nat.lt_trans hq hlt
    have hsame : q = p := (hp q).mp ((Option.any_eq_true _ _).mpr ⟨_, List.getElem?_eq_getElem hlt', hi'⟩)
    omega
  simp only [CodeObject.captureOf?, hfound, hv]
  split
  · next hi =>
    rw [hlen] at hi
    rw [hcaptures i _ (List.getElem?_eq_getElem hi), List.getElem?_eq_getElem hi]
  · next hi =>
    rw [hlen] at hi
    rw [List.getElem?_eq_none (Nat.not_lt.mp hi)]

/-- A child has one list of captures. -/
theorem Links.unique {captures' : List Capture} (h : Links u k captures)
    (h' : Links u k captures') : captures = captures' :=
  List.ext_getElem? fun i => (h.captureOf?_eq i).symm.trans (h'.captureOf?_eq i)

/-! ### Writing more -/

/-- A later state of a unit: there may be more children, instances and captures stay where they are,
none of an old child is added, and accesses to outer variables stay. -/
structure CodeObject.Keeps (u v : CodeObject) : Prop where
  children : u.children <+: v.children
  fixed : ∀ (p : Nat) i op, u.code[p]? = some i → i.opcode? = some op → op.isFixed = true →
    v.code[p]? = some i
  old : ∀ k p, k < u.children.length → v.instantiatesAt k p = true → u.instantiatesAt k p = true
  access : ∀ i op, i ∈ u.code → i.opcode? = some op → op.isOuterAccess = true → i ∈ v.code

namespace CodeObject.Keeps

theorem refl (u : CodeObject) : u.Keeps u :=
  ⟨List.prefix_refl _, fun _ _ _ hi _ _ => hi, fun _ _ _ hi => hi, fun _ _ hi _ _ => hi⟩

/-- A unit is known by its code and its children. -/
theorem of_eq (hcode : v.code = u.code) (hchildren : v.children = u.children) : u.Keeps v := by
  refine ⟨?_, fun p i op hi _ _ => ?_, fun k p _ hi => ?_, fun i op hi _ _ => ?_⟩
  · exact ⟨[], by rw [List.append_nil, hchildren]⟩
  · rw [hcode]
    exact hi
  · rw [CodeObject.instantiatesAt, hcode] at hi
    exact hi
  · rw [hcode]
    exact hi

theorem trans (h : u.Keeps v) (h' : v.Keeps c) : u.Keeps c := by
  refine ⟨h.children.trans h'.children, ?_, ?_, ?_⟩
  · intro p i op hi hop hf
    exact h'.fixed p i op (h.fixed p i op hi hop hf) hop hf
  · intro k p hk hi
    exact h.old k p hk (h'.old k p (Nat.lt_of_lt_of_le hk h.children.length_le) hi)
  · intro i op hi hop ha
    exact h'.access i op (h.access i op hi hop ha) hop ha

/-- An instance stays where it is. -/
theorem instantiatesAt (h : u.Keeps v) {p : Nat} (hi : u.instantiatesAt k p = true) :
    v.instantiatesAt k p = true := by
  obtain ⟨i, op, hi, hop, hn, hk⟩ := instantiatesAt_iff.mp hi
  have hsame := h.fixed p i op hi hop (Opcode.isFixed_of_instantiates hn)
  exact instantiatesAt_iff.mpr ⟨i, op, hsame, hop, hn, hk⟩

/-- A child that is linked stays so. -/
theorem links (h : u.Keeps v) (hl : Links u k captures) : Links v k captures := by
  obtain ⟨w, hw, hlen⟩ := hl.child
  obtain ⟨p, hp, hcaptures⟩ := hl.place
  refine ⟨⟨w, getElem?_of_initial h.children hw, hlen⟩, p, fun q => ⟨fun hq => ?_, ?_⟩, ?_⟩
  · exact (hp q).mp (h.old k q hl.lt hq)
  · rintro rfl
    exact h.instantiatesAt ((hp q).mpr rfl)
  · intro i c hc
    obtain ⟨x, hx, hxc⟩ := Option.bind_eq_some_iff.mp (hcaptures i c hc)
    obtain ⟨op, hop, hf⟩ := Instruction.isFixed_of_capture? hxc
    exact Option.bind_eq_some_iff.mpr ⟨x, h.fixed _ x op hx hop hf, hxc⟩

/-- Units inside a unit are finished. -/
theorem unitAt? (h : u.Keeps v) {x : CodeObject} (hx : u.unitAt? path = some x) :
    ∃ y, v.unitAt? path = some y ∧ x.Keeps y := by
  induction path generalizing x with
  | nil =>
    obtain rfl := Option.some.inj hx
    exact ⟨v, rfl, h⟩
  | cons k path ih =>
    obtain ⟨x', hx', hk⟩ := Option.bind_eq_some_iff.mp hx
    obtain ⟨y', hy', hkeep⟩ := ih hx'
    exact ⟨x, Option.bind_eq_some_iff.mpr ⟨y', hy', getElem?_of_initial hkeep.children hk⟩, .refl x⟩

end CodeObject.Keeps

/-! ### What outer variables stand for -/

/-- Outer variable `i` of the unit at a path stands for `o`, if the outer variables of the whole tree
stand for `ds`. -/
inductive Leads (c : CodeObject) (ds : List Outer) : List Nat → Nat → Outer → Prop where
  | own {i : Nat} {o : Outer} (h : ds[i]? = some o) : Leads c ds [] i o
  | slot {k i n : Nat} {path : List Nat} {u : CodeObject} {captures : List Capture}
      (hu : c.unitAt? path = some u) (hl : Links u k captures)
      (hc : captures[i]? = some (.slot n)) : Leads c ds (k :: path) i ⟨n, 1⟩
  | outer {k i r : Nat} {o : Outer} {path : List Nat} {u : CodeObject} {captures : List Capture}
      (hu : c.unitAt? path = some u) (hl : Links u k captures)
      (hc : captures[i]? = some (.outer r)) (h : Leads c ds path r o) :
      Leads c ds (k :: path) i ⟨o.slot, o.up + 1⟩

theorem CodeObject.unitAt?_concat (c : CodeObject) (path : List Nat) (k : Nat) :
    c.unitAt? (path ++ [k]) = c.children[k]?.bind fun v => v.unitAt? path := by
  induction path with
  | nil => simp [unitAt?]
  | cons j path ih =>
    rw [List.cons_append, unitAt?, ih]
    cases c.children[k]? with
    | none => rfl
    | some v => rfl

theorem CodeObject.contains_of_unitAt? (h : c.unitAt? path = some u) : c.Contains u := by
  have htrans : ∀ {x y z : CodeObject}, x.Contains y → z ∈ y.children → x.Contains z := by
    intro x y z hxy hz
    induction hxy with
    | self => exact .child hz (.self z)
    | child hk _ ih => exact .child hk (ih hz)
  induction path generalizing u with
  | nil =>
    obtain rfl := Option.some.inj h
    exact .self c
  | cons k path ih =>
    obtain ⟨v, hv, hk⟩ := Option.bind_eq_some_iff.mp h
    exact htrans (ih hv) (List.mem_of_getElem? hk)

namespace Leads

variable {ds ds' : List Outer} {c' : CodeObject}

/-- What is written later changes nothing. -/
theorem keeps (h : Leads c ds path i o) (hk : c.Keeps c') (hd : ds <+: ds') :
    Leads c' ds' path i o := by
  induction h with
  | own h => exact .own (getElem?_of_initial hd h)
  | slot hu hl hc =>
    obtain ⟨y, hy, hkeep⟩ := hk.unitAt? hu
    exact .slot hy (hkeep.links hl) hc
  | outer hu hl hc _ ih =>
    obtain ⟨y, hy, hkeep⟩ := hk.unitAt? hu
    exact .outer hy (hkeep.links hl) hc ih

/-- A tree becomes a child of another one, whose captures fill the outer variables of the tree. -/
theorem enclose (h : Leads v ds path i o) (hv : c.children[k]? = some v) (hl : Links c k captures)
    (hf : ∀ (j : Nat) (x : Outer), ds[j]? = some x →
      ∃ y : Capture, captures[j]? = some y ∧ y.Fills ds' x) :
    Leads c ds' (path ++ [k]) i o := by
  have hunit : ∀ {path : List Nat} {u : CodeObject}, v.unitAt? path = some u →
      c.unitAt? (path ++ [k]) = some u := by
    intro path u hu
    rw [CodeObject.unitAt?_concat, hv]
    exact hu
  induction h with
  | own h =>
    obtain ⟨y, hy, hfill⟩ := hf _ _ h
    cases y with
    | slot n =>
      rw [show _ = _ from hfill]
      exact .slot rfl hl hy
    | outer r =>
      obtain ⟨x, hx, rfl⟩ := hfill
      exact .outer rfl hl hy (.own hx)
  | slot hu hl hc => exact .slot (hunit hu) hl hc
  | outer hu hl hc _ ih => exact .outer (hunit hu) hl hc ih

/-- In a tree without outer variables of its own, following the captures leads to the variable. -/
theorem origin?_eq (h : Leads c [] path i o) : c.origin? path i = some o := by
  induction h with
  | own h => cases h
  | slot hu hl hc =>
    rw [CodeObject.origin?, hu, Option.bind_some, hl.captureOf?_eq, hc]
  | outer hu hl hc _ ih =>
    rw [CodeObject.origin?, hu, Option.bind_some, hl.captureOf?_eq, hc]
    simp only [ih, Option.map_some]

theorem one_le_up (h : Leads c ds path i o) (hd : ∀ x ∈ ds, 1 ≤ x.up) : 1 ≤ o.up := by
  cases h with
  | own h => exact hd o (List.mem_of_getElem? h)
  | slot => exact Nat.le_refl 1
  | outer => exact Nat.le_add_left 1 _

end Leads

/-- Each child of a unit is linked by captures that differ from one another, and no instance is made
of anything else. -/
structure Linked (u : CodeObject) : Prop where
  links : ∀ k < u.children.length, ∃ captures, Links u k captures ∧ captures.Nodup
  known : ∀ k p, u.instantiatesAt k p = true → k < u.children.length

theorem Linked.congr (h : Linked u) (hcode : v.code = u.code) (hchildren : v.children = u.children) :
    Linked v := by
  refine ⟨fun k hk => ?_, fun k p hi => ?_⟩
  · rw [hchildren] at hk
    obtain ⟨captures, hl, hn⟩ := h.links k hk
    exact ⟨captures, (CodeObject.Keeps.of_eq hcode hchildren).links hl, hn⟩
  · rw [CodeObject.instantiatesAt, hcode] at hi
    rw [hchildren]
    exact h.known k p hi

theorem Links.nodup (h : Links u k captures) (hu : Linked u) : captures.Nodup := by
  obtain ⟨captures', h', hn⟩ := hu.links k h.lt
  rw [h.unique h']
  exact hn

theorem eq_of_getElem?_of_nodup {α : Type} {xs : List α} {x : α} (hn : xs.Nodup)
    (hi : xs[i]? = some x) (hj : xs[j]? = some x) : i = j := by
  obtain ⟨hi, hx⟩ := List.getElem?_eq_some_iff.mp hi
  obtain ⟨hj, hy⟩ := List.getElem?_eq_some_iff.mp hj
  have hne := List.pairwise_iff_getElem.mp hn
  rcases Nat.lt_trichotomy i j with hlt | heq | hgt
  · exact absurd (hx.trans hy.symm) (hne i j hi hj hlt)
  · exact heq
  · exact absurd (hy.trans hx.symm) (hne j i hj hi hgt)

/-- Outer variables that stand for the same variable are the same. -/
theorem Leads.injective {ds : List Outer} (h : Leads c ds path i o) (h' : Leads c ds path j o)
    (hc : ∀ u, c.Contains u → Linked u) (hn : ds.Nodup) (hd : ∀ x ∈ ds, 1 ≤ x.up) : i = j := by
  induction h generalizing j with
  | own h =>
    cases h' with
    | own h' => exact eq_of_getElem?_of_nodup hn h h'
  | slot hu hl hk =>
    have hlinked := hc _ (CodeObject.contains_of_unitAt? hu)
    generalize ho : (⟨_, 1⟩ : Outer) = o at h'
    cases h' with
    | slot hu' hl' hk' =>
      obtain rfl := Option.some.inj (hu.symm.trans hu')
      obtain rfl := hl.unique hl'
      obtain rfl := (Outer.mk.inj ho).1
      exact eq_of_getElem?_of_nodup (hl.nodup hlinked) hk hk'
    | outer _ _ _ h' =>
      have hpos := h'.one_le_up hd
      have hup := (Outer.mk.inj ho).2
      omega
  | @outer _ _ r x _ _ _ hu hl hk h ih =>
    have hlinked := hc _ (CodeObject.contains_of_unitAt? hu)
    generalize ho : (⟨x.slot, x.up + 1⟩ : Outer) = o at h'
    cases h' with
    | slot =>
      have hpos := h.one_le_up hd
      have hup := (Outer.mk.inj ho).2
      omega
    | @outer _ _ r' x' _ _ _ hu' hl' hk' h' =>
      obtain rfl := Option.some.inj (hu.symm.trans hu')
      obtain rfl := hl.unique hl'
      obtain rfl : x = x' := by
        obtain ⟨hslot, hup⟩ := Outer.mk.inj ho
        cases x with
        | mk slot up =>
          cases x' with
          | mk slot' up' =>
            simp only at hslot hup
            rw [hslot, Nat.succ.inj hup]
      obtain rfl := ih h'
      exact eq_of_getElem?_of_nodup (hl.nodup hlinked) hk hk'

end StackCode
