import StackCode.Proofs.Descriptors
import StackCode.Proofs.Tracking

/-!
# Charts of compiled code

A script that flows compiles to code that has a chart: every instruction has a frame, and the frames
of an instruction and of those that can follow it fit together. This is shown by following the
assembler along the script, one unit inside the other.

* `Chart`: the frames of the code of one unit, with the positions of its labels;
* `Step.run_quiet`, `Step.run_write`: what the steps that touch no label do to a scope;
* `Flows.run`: a script that flows leaves the scope traced and its children charted;
* `charted_of_compile`: every unit of a compiled program is charted.
-/

namespace StackCode

open Instruction (effectOf)

/-! ### Charts -/

/-- The code of a unit has the frames of `trail`; its labels have the frames `labels` and stand where
`position` says. -/
structure Chart (M : Frame → Frame → Prop) (c : CodeObject) (trail labels : List Frame)
    (position : Label → Option Nat) : Prop where
  length : trail.length = c.code.length + 1
  first : trail[0]? = some .start
  coherent : ∀ f ∈ trail, Coherent labels f.guards
  steps : ∀ p i, c.code[p]? = some i → ∃ op f g, i.opcode? = some op ∧ trail[p]? = some f
    ∧ trail[p + 1]? = some g
    ∧ (Passes labels op (effectOf op i) f g
      ∨ ∃ l t q, position l = some q ∧ i.jumpTarget? p = some q ∧ labels[l]? = some t
        ∧ effectOf op i = effectOf op (.plain op) ∧ Branches M labels op l f t g)
  placed : ∀ l q, position l = some q → trail[q]? = labels[l]?
  high : ∃ high, (∀ f ∈ trail, f.height ≤ high) ∧ high ≤ 2 * c.code.length
    ∧ c.maxStack = (high + c.tableSize) % UInt32.size

/-- The code of a unit has a chart. -/
def Charted (M : Frame → Frame → Prop) (c : CodeObject) : Prop :=
  ∃ trail labels position, Chart M c trail labels position

theorem Instruction.effectOf_jump {op : Opcode} (h : op.isJump = true) (i j : Instruction) :
    effectOf op i = effectOf op j := by
  cases op <;> simp [Opcode.isJump, Opcode.operandKind] at h <;> rfl

variable {M : Frame → Frame → Prop}

/-- A position is used once. -/
theorem Traced.use_unique {s : Scope} {trail : List Frame} {o : Outlook} (h : Traced M s trail o) :
    ∀ l l' u u', s.labels.Uses l u → s.labels.Uses l' u' → u.position = u'.position →
      l = l' ∧ u = u' := by
  intro l l' u u' hu hu' hp
  refine ⟨h.single l l' u u' hu hu' hp, ?_⟩
  have hop : u.op = u'.op := by
    have h₁ := (h.uses l u hu).1
    rw [hp] at h₁
    exact Instruction.plain_injective (Option.some.inj (h₁.symm.trans (h.uses l' u' hu').1))
  obtain ⟨p, op⟩ := u
  simp only at hp hop
  rw [hp, hop]

/-- A label that is set is inside the code or at its end. -/
theorem Traced.position_le {s : Scope} {trail : List Frame} {o : Outlook} (h : Traced M s trail o)
    (l : Label) (q : Nat) (hq : s.labels.position? l = some q) : q ≤ s.code.size := by
  obtain ⟨m, hm, -⟩ := Option.bind_eq_some_iff.mp hq
  have hl : l < o.labels.length := by
    rw [h.marks]
    exact (Array.getElem?_eq_some_iff.mp hm).1
  have htrail := h.placed l q hq
  rw [List.getElem?_eq_getElem hl] at htrail
  have hlt := (List.getElem?_eq_some_iff.mp htrail).1
  rw [h.length] at hlt
  exact Nat.le_of_lt_succ hlt

/-- An instruction stays as it is when the placeholders are overwritten, unless it is one of them. -/
theorem Traced.getElem?_of_reconcile {s : Scope} {trail : List Frame} {o : Outlook} {code : Buffer}
    {p : Nat} {i : Instruction} (h : Traced M s trail o)
    (hcode : s.labels.reconcile s.code = .ok () code) (hi : s.code[p]? = some i) :
    code[p]? = some i
      ∨ ∃ op n, op.isJump = true ∧ i = .plain op
        ∧ code[p]? = some (.pack op (Instruction.signedField n)) := by
  by_cases hp : ∃ l u, s.labels.Uses l u ∧ u.position = p
  · obtain ⟨l, u, hu, rfl⟩ := hp
    obtain ⟨hplain, hjump⟩ := h.uses l u hu
    obtain ⟨q, -, -, -, ha⟩ := Labels.getElem?_of_reconcile hcode h.use_unique h.position_le hu
    exact .inr ⟨u.op, _, hjump, Option.some.inj (hi.symm.trans hplain), ha⟩
  · rw [Labels.getElem?_of_reconcile_of_ne hcode fun l u hu hup => hp ⟨l, u, hu, hup⟩]
    exact .inl hi

/-- A traced scope whose placeholders are overwritten becomes a charted unit. -/
theorem Traced.charted {s s' : Scope} {trail : List Frame} {o : Outlook} {outers : Outers}
    (h : Traced M s trail o) (hr : Scope.reconcile s = .ok () s') :
    Charted M { s' with outers }.toCodeObject := by
  obtain ⟨-, code, hcode, rfl⟩ := Scope.reconcile_eq_ok.mp hr
  have hsize := Labels.size_of_reconcile hcode
  have hlength : code.toList.length = s.code.size := by rw [Array.length_toList, hsize]
  have hlist : ∀ p : Nat, code.toList[p]? = code[p]? := fun p => Array.getElem?_toList
  refine ⟨trail, o.labels, s.labels.position?, ?_, h.first, h.coherent, ?_, h.placed, ?_⟩
  · show trail.length = code.toList.length + 1
    rw [hlength]
    exact h.length
  · intro p i hi
    replace hi : code[p]? = some i := by rw [← hlist]; exact hi
    have hlt : p < s.code.size := by
      rw [← hsize]
      exact (Array.getElem?_eq_some_iff.mp hi).1
    obtain ⟨op, f, g, hop, hf, hg, hfg⟩ := h.steps p s.code[p] (Array.getElem?_eq_getElem hlt)
    by_cases hp : ∃ l u, s.labels.Uses l u ∧ u.position = p
    · -- a placeholder: it keeps its operation and leads to its label
      obtain ⟨l, u, hu, rfl⟩ := hp
      obtain ⟨hplain, hjump⟩ := h.uses l u hu
      obtain ⟨q, hq, hlo, hhi, ha⟩ :=
        Labels.getElem?_of_reconcile hcode h.use_unique h.position_le hu
      obtain rfl := Option.some.inj (hi.symm.trans ha)
      have hou : op = u.op := by
        rw [Array.getElem?_eq_getElem hlt] at hplain
        rw [Option.some.inj hplain, Instruction.opcode?_plain] at hop
        exact (Option.some.inj hop).symm
      subst hou
      refine ⟨u.op, f, g, Instruction.opcode?_pack (Instruction.signedField_lt _), hf, hg, .inr ?_⟩
      obtain hpass | ⟨l', t, hu', ht, hb⟩ := hfg
      · exact absurd (hpass.plain.symm.trans hjump) Bool.false_ne_true
      · obtain ⟨rfl, -⟩ := h.use_unique l l' u _ hu hu' rfl
        exact ⟨l, t, q, hq, Instruction.jumpTarget?_distance hjump hlo hhi, ht,
          Instruction.effectOf_jump hjump _ _, hb⟩
    · -- any other instruction is what it was
      have hsame' : code[p]? = s.code[p]? :=
        Labels.getElem?_of_reconcile_of_ne hcode fun l u hu hup => hp ⟨l, u, hu, hup⟩
      rw [hsame', Array.getElem?_eq_getElem hlt] at hi
      obtain rfl := Option.some.inj hi
      refine ⟨op, f, g, hop, hf, hg, .inl ?_⟩
      obtain hpass | ⟨l, t, hu, -, -⟩ := hfg
      · exact hpass
      · exact absurd ⟨l, _, hu, rfl⟩ hp
  · refine ⟨s.peak, h.heights, ?_, ?_⟩
    · show s.peak ≤ 2 * code.toList.length
      rw [hlength]
      exact h.room
    · simp only [Scope.toCodeObject, CodeObject.tableSize, Array.length_toList]
      congr 1
      omega

/-! ### Steps that touch no label -/

/-- A later state of a scope holds the same code, labels and children, at the same height; there may
be more outer variables. -/
structure Scope.Alike (s t : Scope) : Prop where
  code : t.code = s.code
  labels : t.labels = s.labels
  depth : t.depth = s.depth
  peak : t.peak = s.peak
  children : t.children = s.children
  outers : s.outers.Extends t.outers

namespace Scope.Alike

variable {s t u : Scope}

theorem refl (s : Scope) : Alike s s := ⟨rfl, rfl, rfl, rfl, rfl, .refl _⟩

theorem trans (h : Alike s t) (h' : Alike t u) : Alike s u :=
  ⟨h'.code.trans h.code, h'.labels.trans h.labels, h'.depth.trans h.depth, h'.peak.trans h.peak,
    h'.children.trans h.children, h.outers.trans h'.outers⟩

end Scope.Alike

theorem Scope.alike_of_declare {name : String} {slot : Nat} {s s' : Scope}
    (h : Scope.declare name s = .ok slot s') : Scope.Alike s s' := by
  obtain ⟨fresh, locals, -, rfl⟩ := Scope.declare_eq_ok.mp h
  exact ⟨rfl, rfl, rfl, rfl, rfl, .refl _⟩

/-- Declaring parameters writes nothing. -/
theorem Scope.alike_of_declareAll {names : List String} {u : Unit} {s s' : Scope}
    (h : declareAll names s = .ok u s') : Scope.Alike s s' := by
  induction names generalizing s with
  | nil =>
    obtain ⟨-, rfl⟩ := Edit.pure_eq_ok.mp h
    exact .refl s
  | cons name names ih =>
    obtain ⟨slot, t, hd, h⟩ := Edit.bind_eq_ok.mp h
    exact (alike_of_declare hd).trans (ih h)

/-- Resolving a name writes nothing. -/
theorem Assembler.alike_of_resolve {name : String} {place : Place} {a a' : Assembler}
    (h : resolve name a = .ok place a') :
    (a'.enclosing = a.enclosing ∧ a'.left = a.left) ∧ Scope.Alike a.current a'.current := by
  obtain ⟨_, -, -, rfl⟩ | ⟨-, _, _, _, hf, ho, -, rfl⟩ | ⟨-, -, _, _, -, -, rfl⟩ :=
    resolve_eq_ok.mp h
  · exact ⟨⟨rfl, rfl⟩, .refl _⟩
  · exact ⟨⟨rfl, rfl⟩, rfl, rfl, rfl, rfl, rfl, Outers.extends_of_add ho (up_of_findOuter hf)⟩
  · exact ⟨⟨rfl, rfl⟩, rfl, rfl, rfl, rfl, rfl, .refl _⟩

namespace Step

open Assembler

variable {x : Step} {a a' : Assembler} {u : Unit}

/-- A quiet step writes at most the mark of a line. -/
theorem run_quiet (hx : x.isQuiet = true) (h : run x a = .ok u a') :
    (a'.enclosing = a.enclosing ∧ a'.left = a.left) ∧ ∃ t, Scope.Alike a.current t
      ∧ (a'.current = t
        ∨ ∃ line, line ≤ Instruction.maxUnsigned ∧ a'.current = t.appended (.pack .line line)) := by
  cases x with
  | markLine line =>
    obtain ⟨-, rfl⟩ | ⟨-, s, hs, rfl⟩ := markLine_eq_ok.mp h
    · exact ⟨⟨rfl, rfl⟩, _, .refl _, .inl rfl⟩
    · obtain ⟨-, rfl⟩ | ⟨-, hn, -, rfl⟩ := Scope.markLine_eq_ok.mp hs
      · exact ⟨⟨rfl, rfl⟩, _, .refl _, .inl rfl⟩
      · exact ⟨⟨rfl, rfl⟩, { a.current with lastLine := some line },
          ⟨rfl, rfl, rfl, rfl, rfl, .refl _⟩, .inr ⟨line, hn, rfl⟩⟩
  | declare name =>
    obtain ⟨slot, h⟩ := Edit.ignore_eq_ok.mp h
    obtain ⟨s, hs, rfl⟩ := onCurrent_eq_ok.mp h
    exact ⟨⟨rfl, rfl⟩, s, Scope.alike_of_declare hs, .inl rfl⟩
  | enterBlock =>
    simp only [run] at h
    obtain ⟨s, hs, rfl⟩ := onCurrent_eq_ok.mp h
    refine ⟨⟨rfl, rfl⟩, s, ?_, .inl rfl⟩
    rw [Scope.enterBlock_eq_ok.mp hs]
    exact ⟨rfl, rfl, rfl, rfl, rfl, .refl _⟩
  | leaveBlock =>
    obtain ⟨s, hs, rfl⟩ := onCurrent_eq_ok.mp h
    refine ⟨⟨rfl, rfl⟩, s, ?_, .inl rfl⟩
    obtain ⟨marker, blocks, -, rfl⟩ := Scope.leaveBlock_eq_ok.mp hs
    exact ⟨rfl, rfl, rfl, rfl, rfl, .refl _⟩
  | protect =>
    simp only [run] at h
    obtain ⟨s, hs, rfl⟩ := onCurrent_eq_ok.mp h
    refine ⟨⟨rfl, rfl⟩, s, ?_, .inl rfl⟩
    rw [Scope.protect_eq_ok.mp hs]
    exact ⟨rfl, rfl, rfl, rfl, rfl, .refl _⟩
  | _ => exact absurd hx Bool.false_ne_true

/-- A writing step appends one of the instructions that it may write. -/
theorem run_write (hx : x.isWrite = true) (h : run x a = .ok u a') :
    (a'.enclosing = a.enclosing ∧ a'.left = a.left) ∧ ∃ t i, Scope.Alike a.current t ∧ x.Writes i
      ∧ a'.current = t.appended i := by
  cases x with
  | op o =>
    obtain ⟨p, h⟩ := Edit.ignore_eq_ok.mp h
    obtain ⟨s, hs, rfl⟩ := onCurrent_eq_ok.mp h
    obtain ⟨-, -, rfl⟩ := Scope.emitOp_eq_ok.mp hs
    exact ⟨⟨rfl, rfl⟩, _, _, .refl _, rfl, rfl⟩
  | count o n =>
    obtain ⟨p, h⟩ := Edit.ignore_eq_ok.mp h
    obtain ⟨s, hs, rfl⟩ := onCurrent_eq_ok.mp h
    obtain ⟨hn, -, -, rfl⟩ := Scope.emitUnsigned_eq_ok.mp hs
    exact ⟨⟨rfl, rfl⟩, _, _, .refl _, ⟨hn, rfl⟩, rfl⟩
  | pair o m n =>
    obtain ⟨p, h⟩ := Edit.ignore_eq_ok.mp h
    obtain ⟨s, hs, rfl⟩ := onCurrent_eq_ok.mp h
    obtain ⟨hn, -, -, rfl⟩ := Scope.emitPair_eq_ok.mp hs
    exact ⟨⟨rfl, rfl⟩, _, _, .refl _, ⟨hn, rfl⟩, rfl⟩
  | loadConst v =>
    obtain ⟨s, hs, rfl⟩ := onCurrent_eq_ok.mp h
    obtain ⟨index, constants, -, hn, -, rfl⟩ := Scope.loadConst_eq_ok.mp hs
    exact ⟨⟨rfl, rfl⟩, { a.current with constants }, _, ⟨rfl, rfl, rfl, rfl, rfl, .refl _⟩,
      ⟨index, hn, rfl⟩, rfl⟩
  | named o name =>
    obtain ⟨s, hs, rfl⟩ := onCurrent_eq_ok.mp h
    obtain ⟨index, constants, -, hn, -, rfl⟩ := Scope.emitNamed_eq_ok.mp hs
    exact ⟨⟨rfl, rfl⟩, { a.current with constants }, _, ⟨rfl, rfl, rfl, rfl, rfl, .refl _⟩,
      ⟨index, hn, rfl⟩, rfl⟩
  | slot o name =>
    obtain ⟨s, hs, rfl⟩ := onCurrent_eq_ok.mp h
    obtain ⟨n, -, hn, -, rfl⟩ := Scope.emitSlot_eq_ok.mp hs
    exact ⟨⟨rfl, rfl⟩, _, _, .refl _, ⟨n, hn, rfl⟩, rfl⟩
  | loadName name =>
    obtain ⟨place, b, hr, hn, -, rfl⟩ := loadName_eq_ok.mp h
    obtain ⟨he, ha⟩ := alike_of_resolve hr
    exact ⟨he, _, _, ha, ⟨place, hn, rfl⟩, rfl⟩
  | storeName name =>
    obtain ⟨place, b, hr, hn, -, rfl⟩ := storeName_eq_ok.mp h
    obtain ⟨he, ha⟩ := alike_of_resolve hr
    exact ⟨he, _, _, ha, ⟨place, hn, rfl⟩, rfl⟩
  | _ => exact absurd hx Bool.false_ne_true

end Step

/-! ### Following a script -/

/-- An instruction that goes on and is not about handlers has its effect on the height alone. -/
theorem Passes.of_falls {labels : List Frame} {op : Opcode} {e : Instruction.Effect} {f : Frame}
    (hj : op.isJump = false) (hf : op.falls = true) (he : op ≠ .endTry) (hp : e.pops ≤ f.height) :
    Passes labels op e f (f.after e) := by
  refine ⟨hj, hp, Nat.le_refl _, fun _ => rfl, fun _ _ => rfl, fun h => absurd h he, ?_, ?_⟩
  · intro hn
    exact absurd (hf.symm.trans hn) (by decide)
  · rintro (rfl | rfl)
    · exact absurd hf (by decide)
    · exact absurd hf (by decide)

/-- What was traced after an instruction is so later on. -/
theorem Traced.later {s : Scope} {trail labels : List Frame} {f : Frame}
    (h : Traced M s trail ⟨labels, f, true⟩) (b : Bool) : Traced M s trail ⟨labels, f, b⟩ :=
  { h with slack := fun _ => h.slack rfl }

/-- The scope is traced, and all units in its children are charted. -/
structure Followed (M : Frame → Frame → Prop) (s : Scope) (o : Outlook) : Prop where
  traced : ∃ trail, Traced M s trail o
  children : ∀ k ∈ s.children, ∀ u, k.Contains u → Charted M u

/-- A new scope has nothing to follow. -/
theorem followed_new {number : Nat} {kind : ScopeKind} {signature : Signature} {record : Bool} :
    Followed M (Scope.new number kind signature record) .start :=
  ⟨⟨_, traced_new⟩, fun k hk => absurd hk (Array.not_mem_empty k)⟩

namespace Followed

variable {s t : Scope} {o : Outlook} {labels : List Frame} {f g : Frame} {b : Bool}

theorem congr (h : Followed M s o) (hst : Scope.Alike s t) : Followed M t o := by
  obtain ⟨trail, ht⟩ := h.traced
  refine ⟨⟨trail, ht.congr hst.code hst.labels hst.depth hst.peak⟩, ?_⟩
  rw [hst.children]
  exact h.children

theorem write {i : Instruction} {op : Opcode} (h : Followed M s ⟨labels, f, b⟩)
    (hop : i.opcode? = some op) (hi : Passes labels op (effectOf op i) f g) :
    Followed M (s.appended i) ⟨labels, g, true⟩ := by
  obtain ⟨trail, ht⟩ := h.traced
  exact ⟨⟨_, ht.write hop hi⟩, h.children⟩

theorem later (h : Followed M s ⟨labels, f, true⟩) (b : Bool) : Followed M s ⟨labels, f, b⟩ := by
  obtain ⟨trail, ht⟩ := h.traced
  exact ⟨⟨trail, ht.later b⟩, h.children⟩

/-- An instruction without any effect. -/
theorem idle {op : Opcode} {n : Nat} (h : Followed M s ⟨labels, f, b⟩)
    (hn : n ≤ Instruction.maxUnsigned) (ho : op = .line ∨ op = .captureLocal ∨ op = .captureOuter) :
    Followed M (s.appended (.pack op n)) ⟨labels, f, true⟩ := by
  have hop : (Instruction.pack op n).opcode? = some op :=
    Instruction.opcode?_pack (Nat.lt_succ_of_le hn)
  obtain rfl | rfl | rfl := ho
  all_goals exact h.write hop (.of_falls rfl rfl (by decide) (Nat.zero_le _))

/-- The captures of a child. -/
theorem captured {captures : List Capture} (h : Followed M s ⟨labels, f, true⟩)
    (hc : ∀ c ∈ captures, c.operand ≤ Instruction.maxUnsigned) :
    Followed M (s.appendedAll (captures.map Capture.word)) ⟨labels, f, true⟩ := by
  induction captures generalizing s with
  | nil => exact h
  | cons c cs ih =>
    obtain ⟨hc, hcs⟩ := List.forall_mem_cons.mp hc
    refine ih (h.idle hc ?_) hcs
    cases c
    · exact .inr (.inl rfl)
    · exact .inr (.inr rfl)

/-- The value on top of the stack is dropped. -/
theorem discard {u : Unit} (h : Followed M s ⟨labels, f, true⟩) (hf : 1 ≤ f.height)
    (hd : Scope.discard s = .ok u t) :
    Followed M t ⟨labels, { f with height := f.height - 1 }, false⟩ := by
  obtain ⟨hs, rfl⟩ | ⟨-, -, rfl⟩ := Scope.discard_eq_ok.mp hd
  · obtain ⟨trail, ht⟩ := h.traced
    exact ⟨ht.withoutSpareDup hs, h.children⟩
  · exact (h.write (Instruction.opcode?_plain .pop) (.of_falls rfl rfl (by decide) hf)).later false

/-- A catch clause begins. -/
theorem handler {l done : Label} {x : Frame} {t₁ t₂ t₃ : Scope} {p : Nat} {u u' : Unit}
    (h : Followed M s ⟨labels, f, b⟩) (hj : Scope.emitJump .jump done s = .ok p t₁)
    (hp : Scope.placeLabel l t₁ = .ok u t₂) (hr : Scope.receive t₂ = .ok u' t₃)
    (hd : labels[done]? = some x) (hm : M f x) (hl : labels[l]? = some g)
    (hg : Coherent labels g.guards) (hh : g.height ≤ f.height + 1) :
    Followed M t₃ ⟨labels, g, false⟩ := by
  obtain ⟨-, hin, -, rfl⟩ := Scope.emitJump_eq_ok.mp hj
  obtain ⟨hin', -, rfl⟩ := Scope.placeLabel_eq_ok.mp hp
  obtain rfl := Scope.receive_eq_ok.mp hr
  obtain ⟨trail, ht⟩ := h.traced
  have hdepth : (s.appended (.plain .jump)).depth = s.depth := by
    show ((s.depth : Int) + 0).toNat = _
    omega
  refine ⟨⟨_, ht.handler hin (by simpa using hin') hd hm hl hg hh rfl ?_ ?_ ?_⟩, h.children⟩
  · show ((s.appended (.plain .jump)).depth + (1 : Int)).toNat = _
    omega
  · refine congrArg (max · _) ?_
    show max s.peak (s.appended (.plain .jump)).depth = s.peak
    rw [hdepth, Nat.max_eq_left ht.depth]
  · refine congrArg (fun n => Labels.mk (Array.modify _ l (·.placed n))) ?_
    exact Array.size_push _

/-- A scope that is followed to its end is charted with all the units in it. -/
theorem charted {outers : Outers} {u : CodeObject} (h : Followed M s o)
    (hr : Scope.reconcile s = .ok () t) (hu : { t with outers }.toCodeObject.Contains u) :
    Charted M u := by
  obtain ⟨trail, ht⟩ := h.traced
  cases hu with
  | self => exact ht.charted hr
  | child hk hu =>
    obtain ⟨-, code, -, rfl⟩ := Scope.reconcile_eq_ok.mp hr
    exact h.children _ (Array.mem_toList_iff.mp hk) u hu

/-- A unit is followed on its own and then instantiated in the unit around it. -/
theorem unit {op : Opcode} {kind : ScopeKind} {signature : Signature} {body : Script}
    {a a' : Assembler} {v : Unit}
    (hop : op = .makeClosure ∨ op = .makeClass ∨ op = .makeNamespace)
    (hp : Passes labels op (effectOf op (.plain op)) f g)
    (hbody : ∀ {c c' : Assembler} {u : Unit}, Step.runAll body c = .ok u c' →
      Followed M c.current .start → c'.enclosing = c.enclosing ∧ Followed M c'.current o)
    (ha : Followed M a.current ⟨labels, f, b⟩)
    (hx : Step.run (.unit op kind signature body) a = .ok v a') :
    a'.enclosing = a.enclosing ∧ Followed M a'.current ⟨labels, g, true⟩ := by
  obtain ⟨n, _, s, c, child, d, he, hd, hb, hl, hc⟩ := Step.run_unit_eq_ok.mp hx
  obtain ⟨-, rfl⟩ := Assembler.enterScope_eq_ok.mp he
  obtain ⟨hin, hfollow⟩ := hbody hb (followed_new.congr (Scope.alike_of_declareAll hd))
  obtain ⟨parent, rest, t, relay, hparent, -, hrec, -, rfl, rfl⟩ :=
    Assembler.leaveScope_eq_ok.mp hl
  obtain ⟨rfl, rfl⟩ := List.cons.inj (hparent.symm.trans hin)
  obtain ⟨hn, hcaptures, rfl⟩ := Assembler.eq_of_emitChild hc
  obtain ⟨trail, ht⟩ := ha.traced
  -- the parent is as it was, with one child more
  have hgrown : Followed M { a.current with
      outers := relay.parent
      children := a.current.children.push { t with outers := ⟨relay.settled⟩ }.toCodeObject }
      ⟨labels, f, b⟩ := by
    refine ⟨⟨trail, ht.congr rfl rfl rfl rfl⟩, ?_⟩
    intro k hk u hu
    obtain hk | rfl := Array.mem_push.mp hk
    · exact ha.children k hk u hu
    · exact hfollow.charted hrec hu
  have hword : Passes labels op (effectOf op (.pack op a.current.children.size)) f g := by
    obtain rfl | rfl | rfl := hop
    · exact hp
    · exact hp
    · exact hp
  exact ⟨rfl, (hgrown.write (Instruction.opcode?_pack (Nat.lt_succ_of_le hn)) hword).captured
    hcaptures⟩

end Followed

/-- A script that flows is followed by the assembler, from outlook to outlook. -/
theorem Flows.run {xs : Script} {o o' : Outlook} {a a' : Assembler} {u : Unit}
    (h : Flows M xs o o') (hr : Step.runAll xs a = .ok u a') (ha : Followed M a.current o) :
    a'.enclosing = a.enclosing ∧ Followed M a'.current o' := by
  induction h generalizing a a' u with
  | done =>
    obtain ⟨-, rfl⟩ := Edit.pure_eq_ok.mp hr
    exact ⟨rfl, ha⟩
  | fail =>
    obtain ⟨b, hx, -⟩ := Step.runAll_cons_eq_ok.mp hr
    exact absurd hx Edit.throw_ne_ok
  | @quiet x xs o o' hx _ ih =>
    obtain ⟨b, hb, hr⟩ := Step.runAll_cons_eq_ok.mp hr
    obtain ⟨⟨he, -⟩, t, hat, ht⟩ := Step.run_quiet hx hb
    have hfollow : Followed M b.current o := by
      obtain rfl | ⟨line, hn, hl⟩ := ht
      · exact ha.congr hat
      · rw [hl]
        exact ((ha.congr hat).idle hn (.inl rfl)).later _
    obtain ⟨he', h'⟩ := ih hr hfollow
    exact ⟨he'.trans he, h'⟩
  | write hx hi _ ih =>
    obtain ⟨b, hb, hr⟩ := Step.runAll_cons_eq_ok.mp hr
    obtain ⟨⟨he, -⟩, t, i, hat, hw, ht⟩ := Step.run_write hx hb
    obtain ⟨op, hop, -, hp⟩ := hi i hw
    obtain ⟨he', h'⟩ := ih hr (by rw [ht]; exact (ha.congr hat).write hop hp)
    exact ⟨he'.trans he, h'⟩
  | @newLabel xs labels f t b o _ ih =>
    obtain ⟨_, hb, hr⟩ := Step.runAll_cons_eq_ok.mp hr
    obtain ⟨l, hb⟩ := Edit.ignore_eq_ok.mp hb
    obtain ⟨s, hs, rfl⟩ := Assembler.onCurrent_eq_ok.mp hb
    obtain ⟨-, rfl⟩ := Scope.newLabel_eq_ok.mp hs
    obtain ⟨trail, ht⟩ := ha.traced
    obtain ⟨he, h'⟩ := ih hr ⟨⟨trail, ht.newLabel t⟩, ha.children⟩
    exact ⟨he, h'⟩
  | jump hl hb hh _ ih =>
    obtain ⟨_, hj, hr⟩ := Step.runAll_cons_eq_ok.mp hr
    obtain ⟨p, hj⟩ := Edit.ignore_eq_ok.mp hj
    obtain ⟨s, hs, rfl⟩ := Assembler.onCurrent_eq_ok.mp hj
    obtain ⟨-, hin, -, rfl⟩ := Scope.emitJump_eq_ok.mp hs
    obtain ⟨trail, ht⟩ := ha.traced
    obtain ⟨he, h'⟩ := ih hr ⟨⟨_, ht.jump hin hl hb hh⟩, ha.children⟩
    exact ⟨he, h'⟩
  | place hl _ ih =>
    obtain ⟨_, hp, hr⟩ := Step.runAll_cons_eq_ok.mp hr
    obtain ⟨s, hs, rfl⟩ := Assembler.onCurrent_eq_ok.mp hp
    obtain ⟨hin, -, rfl⟩ := Scope.placeLabel_eq_ok.mp hs
    obtain ⟨trail, ht⟩ := ha.traced
    obtain ⟨he, h'⟩ := ih hr ⟨⟨trail, ht.place hin hl⟩, ha.children⟩
    exact ⟨he, h'⟩
  | handler hd hm hl hg hh _ ih =>
    obtain ⟨_, hj, hr⟩ := Step.runAll_cons_eq_ok.mp hr
    obtain ⟨_, hp, hr⟩ := Step.runAll_cons_eq_ok.mp hr
    obtain ⟨_, hv, hr⟩ := Step.runAll_cons_eq_ok.mp hr
    simp only [Step.run] at hj hp hv
    obtain ⟨p, hj⟩ := Edit.ignore_eq_ok.mp hj
    obtain ⟨s₁, h₁, rfl⟩ := Assembler.onCurrent_eq_ok.mp hj
    obtain ⟨s₂, h₂, rfl⟩ := Assembler.onCurrent_eq_ok.mp hp
    obtain ⟨s₃, h₃, rfl⟩ := Assembler.onCurrent_eq_ok.mp hv
    obtain ⟨he, h'⟩ := ih hr (ha.handler h₁ h₂ h₃ hd hm hl hg hh)
    exact ⟨he, h'⟩
  | discard hf _ ih =>
    obtain ⟨_, hd, hr⟩ := Step.runAll_cons_eq_ok.mp hr
    obtain ⟨s, hs, rfl⟩ := Assembler.onCurrent_eq_ok.mp hd
    obtain ⟨he, h'⟩ := ih hr (ha.discard hf hs)
    exact ⟨he, h'⟩
  | unit hop hp _ _ ihb ih =>
    obtain ⟨_, hx, hr⟩ := Step.runAll_cons_eq_ok.mp hr
    obtain ⟨he, h⟩ := ha.unit hop hp ihb hx
    obtain ⟨he', h'⟩ := ih hr h
    exact ⟨he'.trans he, h'⟩

/-- Every unit of a compiled program is charted, if its script flows. -/
theorem charted_of_compile {config : Config} {program : List Stmt} {c u : CodeObject} {o : Outlook}
    (h : Flows M (Program.script config program) .start o) (hc : compile config program = .ok c)
    (hu : c.Contains u) : Charted M u := by
  obtain ⟨final, ha⟩ := compile_eq_ok.mp hc
  obtain ⟨b, s, hb, -, hrec, -, rfl, -⟩ := assemble_eq_ok.mp ha
  obtain ⟨-, hfollow⟩ := h.run hb followed_new
  exact hfollow.charted hrec hu

end StackCode
