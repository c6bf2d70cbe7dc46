import StackCode.Proofs.DebugNames
import StackCode.Proofs.DraftPairs
import StackCode.Proofs.Orderly

/-!
# Stages of a compilation

A draft that is complete and whose steps succeed leads from one stage of the compilation to another. The
parts of such a draft lead from stage to stage in between. Whatever a draft is for, the unit around it stays
the one that is written, no block is left over, and the variables that live go on living.

* `Stage`, `Draft.Leads`: stages, and what leads from one to the other;
* `Draft.leads_append`, `leads_withLabel`, `leads_block`, …: the parts of a draft;
* `Stage.Numbered`: labels are drawn as they are made;
* `Draft.LeadsNarrow`: labels are few enough for numbers of 32 bits, and so are those of each part;
* `Stage.Grows`, `Stage.Keeps`, `Stage.Still`: what goes on between two stages;
* `Draft.Keeps`, `Draft.Still`: what a draft leaves as it is.
-/

namespace StackCode

open Draft

/-! ### What leads from stage to stage -/

/-- Where a compilation stands: the numbers that come next, and the state of the assembly. -/
structure Stage where
  supply : Supply
  state : Assembler

namespace Stage

/-- The stage after a label was drawn. -/
def drawn (p : Stage) (n : Nat) (a : Assembler) : Stage :=
  ⟨{ p.supply with labels := p.supply.labels + n }, a⟩

/-- The stage after the name of a hidden variable was drawn. -/
def hidden (p : Stage) : Stage := ⟨{ p.supply with hidden := p.supply.hidden + 1 }, p.state⟩

/-- The stage at the start of a unit, in whose scope the parameters are declared. -/
def inside (p : Stage) (a : Assembler) (s : Scope) : Stage :=
  ⟨{ p.supply with labels := 0 }, { a with current := s }⟩

end Stage

/-- The draft is complete, and its steps lead from one stage to another. -/
structure Draft.Leads (d : Draft) (p q : Stage) : Prop where
  rest : d.rest? p.supply = some q.supply
  run : Step.runAll (d.steps p.supply) p.state = .ok () q.state

namespace Draft

variable {d e : Draft} {p q r : Stage}

/-- A draft leads to one stage only. -/
theorem Leads.unique (h : d.Leads p q) (h' : d.Leads p r) : q = r := by
  obtain ⟨supply, state⟩ := q
  obtain ⟨supply', state'⟩ := r
  obtain rfl : supply = supply' := Option.some.inj (h.rest.symm.trans h'.rest)
  obtain ⟨-, rfl⟩ := EStateM.Result.ok.inj (h.run.symm.trans h'.run)
  rfl

theorem leads_nil : Draft.nil.Leads p q ↔ q = p := by
  constructor
  · rintro ⟨hrest, hrun⟩
    obtain ⟨-, hstate⟩ := Edit.pure_eq_ok.mp hrun
    obtain ⟨supply, state⟩ := q
    rw [← show p.supply = supply from Option.some.inj hrest, ← show p.state = state from hstate]
  · rintro rfl
    exact ⟨rfl, rfl⟩

theorem leads_append : (d ++ e).Leads p r ↔ ∃ q, d.Leads p q ∧ e.Leads q r := by
  constructor
  · rintro ⟨hrest, hrun⟩
    obtain ⟨s, hd, he⟩ := exists_of_append hrest
    rw [steps_append_of_some e hd] at hrun
    obtain ⟨a, hxs, hys⟩ := Step.runAll_append_eq_ok.mp hrun
    exact ⟨⟨s, a⟩, ⟨hd, hxs⟩, ⟨he, hys⟩⟩
  · rintro ⟨q, hd, he⟩
    refine ⟨(rest?_append_of_some e hd.rest).trans he.rest, ?_⟩
    rw [steps_append_of_some e hd.rest]
    exact Step.runAll_append_eq_ok.mpr ⟨q.state, hd.run, he.run⟩

theorem leads_step {x : Step} :
    (step x).Leads p q ↔ Step.run x p.state = .ok () q.state ∧ q.supply = p.supply := by
  have hrun : Step.runAll [x] p.state = .ok () q.state ↔ Step.run x p.state = .ok () q.state := by
    rw [Step.runAll_cons_eq_ok]
    constructor
    · rintro ⟨b, hx, hb⟩
      obtain ⟨-, rfl⟩ := Edit.pure_eq_ok.mp hb
      exact hx
    · exact fun hx => ⟨_, hx, rfl⟩
  constructor
  · rintro ⟨hrest, h⟩
    exact ⟨hrun.mp h, (Option.some.inj hrest).symm⟩
  · rintro ⟨h, hsupply⟩
    exact ⟨congrArg some hsupply.symm, hrun.mpr h⟩

theorem not_leads_final {x : Step} : ¬ (final x).Leads p q := by
  rintro ⟨hrest, -⟩
  cases hrest

theorem leads_withLabel {f : Label → Draft} :
    (withLabel f).Leads p q ↔
      ∃ a, Step.run .newLabel p.state = .ok () a ∧ (f p.supply.labels).Leads (p.drawn 1 a) q := by
  constructor
  · rintro ⟨hrest, hrun⟩
    rw [rest?_withLabel] at hrest
    rw [steps_withLabel] at hrun
    obtain ⟨a, ha, hrun⟩ := Step.runAll_cons_eq_ok.mp hrun
    exact ⟨a, ha, hrest, hrun⟩
  · rintro ⟨a, ha, hrest, hrun⟩
    refine ⟨(rest?_withLabel f p.supply).trans hrest, ?_⟩
    rw [steps_withLabel]
    exact Step.runAll_cons_eq_ok.mpr ⟨a, ha, hrun⟩

theorem leads_withLabels {n : Nat} {f : Label → Draft} :
    (withLabels n f).Leads p q ↔
      ∃ a, Step.runAll (List.replicate n .newLabel) p.state = .ok () a
        ∧ (f p.supply.labels).Leads (p.drawn n a) q := by
  constructor
  · rintro ⟨hrest, hrun⟩
    rw [rest?_withLabels] at hrest
    rw [steps_withLabels] at hrun
    obtain ⟨a, ha, hrun⟩ := Step.runAll_append_eq_ok.mp hrun
    exact ⟨a, ha, hrest, hrun⟩
  · rintro ⟨a, ha, hrest, hrun⟩
    refine ⟨(rest?_withLabels n f p.supply).trans hrest, ?_⟩
    rw [steps_withLabels]
    exact Step.runAll_append_eq_ok.mpr ⟨a, ha, hrun⟩

theorem leads_withHidden {what : String} {f : String → Draft} :
    (withHidden what f).Leads p q
      ↔ (f (hiddenName what (p.supply.hidden + 1))).Leads p.hidden q := by
  have hrest := rest?_withHidden what f p.supply
  have hsteps := steps_withHidden what f p.supply
  constructor
  · rintro ⟨h, hrun⟩
    exact ⟨hrest ▸ h, hsteps ▸ hrun⟩
  · rintro ⟨h, hrun⟩
    exact ⟨hrest.trans h, hsteps ▸ hrun⟩

theorem leads_block :
    (block d).Leads p q ↔
      ∃ a b, Step.run .enterBlock p.state = .ok () a ∧ d.Leads ⟨p.supply, a⟩ ⟨q.supply, b⟩
        ∧ Step.run .leaveBlock b = .ok () q.state := by
  simp only [block, leads_append, leads_step]
  constructor
  · rintro ⟨⟨s, b⟩, ⟨⟨_, a⟩, ⟨ha, rfl⟩, hd⟩, hb, rfl⟩
    exact ⟨a, b, ha, hd, hb⟩
  · rintro ⟨a, b, ha, hd, hb⟩
    exact ⟨⟨q.supply, b⟩, ⟨⟨p.supply, a⟩, ⟨ha, rfl⟩, hd⟩, hb, rfl⟩

theorem Leads.steps_block (h : d.Leads p q) :
    (block d).steps p.supply = .enterBlock :: (d.steps p.supply ++ [.leaveBlock]) := by
  have henter : (step .enterBlock).rest? p.supply = some p.supply := rfl
  have hinner : (step .enterBlock ++ d).rest? p.supply = some q.supply :=
    (rest?_append_of_some d henter).trans h.rest
  rw [block, steps_append_of_some _ hinner, steps_append_of_some d henter]
  rfl

/-- The body of a unit leads from the start of the unit to some stage. -/
theorem exists_of_leads_unit {op : Opcode} {kind : ScopeKind} {signature : Signature}
    (h : (unit op kind signature d).Leads p q) :
    ∃ n a s r, Assembler.enterScope kind signature p.state = .ok n a
      ∧ declareAll signature.params a.current = .ok () s ∧ d.Leads (p.inside a s) r
      ∧ q.supply = { r.supply with labels := p.supply.labels }
      ∧ Step.run (.unit op kind signature (d.steps { p.supply with labels := 0 })) p.state
        = .ok () q.state := by
  obtain ⟨hrest, hrun⟩ := h
  rw [rest?_unit] at hrest
  obtain ⟨supply, hd, hsupply⟩ := Option.map_eq_some_iff.mp hrest
  have hunit := (leads_step (p := p) (q := ⟨p.supply, q.state⟩)).mp ⟨rfl, hrun⟩
  obtain ⟨n, a, s, c, child, b, he, hp, hb, -, -⟩ := Step.run_unit_eq_ok.mp hunit.1
  exact ⟨n, a, s, ⟨supply, c⟩, he, hp, ⟨hd, hb⟩, hsupply.symm, hunit.1⟩

end Draft

/-! ### Labels and variables -/

namespace Step

variable {x : Step} {xs ys : Script} {a b c : Assembler}

/-- The rest of a script is run from where its first step ends. -/
theorem runAll_of_cons (h : runAll (x :: xs) a = .ok () c) (hx : run x a = .ok () b) :
    runAll xs b = .ok () c := by
  obtain ⟨d, hd, h⟩ := runAll_cons_eq_ok.mp h
  obtain ⟨-, rfl⟩ := EStateM.Result.ok.inj (hd.symm.trans hx)
  exact h

theorem runAll_of_append (h : runAll (xs ++ ys) a = .ok () c) (hx : runAll xs a = .ok () b) :
    runAll ys b = .ok () c := by
  obtain ⟨d, hd, h⟩ := runAll_append_eq_ok.mp h
  obtain ⟨-, rfl⟩ := EStateM.Result.ok.inj (hd.symm.trans hx)
  exact h

end Step

namespace Slots

variable {slots after : Slots} {name : String} {slot : Nat} {fresh : Bool}

theorem active_of_declare (h : slots.declare name = .ok ((slot, fresh), after)) :
    after.active = if name ∈ slots.active then slots.active else slots.active ++ [name] := by
  unfold declare at h
  split at h
  · next hlookup =>
    obtain ⟨-, rfl⟩ := Prod.mk.inj (Except.ok.inj h)
    rw [if_pos (List.mem_of_getElem? (getElem?_of_lookup? hlookup))]
  · next hlookup =>
    split at h
    · cases h
    · obtain ⟨-, rfl⟩ := Prod.mk.inj (Except.ok.inj h)
      rw [if_neg (List.idxOf?_eq_none_iff.mp hlookup)]

/-- Variables that live keep their slots. -/
theorem initial_of_declare (h : slots.declare name = .ok ((slot, fresh), after)) :
    slots.active <+: after.active := by
  rw [active_of_declare h]
  split
  · exact List.prefix_refl _
  · exact List.prefix_append _ _

theorem mem_of_declare {other : String} (h : slots.declare name = .ok ((slot, fresh), after)) :
    other ∈ after.active ↔ other ∈ slots.active ∨ other = name := by
  rw [active_of_declare h]
  split
  · next hmem =>
    refine ⟨.inl, ?_⟩
    rintro (hother | rfl)
    · exact hother
    · exact hmem
  · rw [List.mem_append, List.mem_singleton]

end Slots

namespace Step

variable {x : Step} {a b : Assembler}

theorem run_declare_eq_ok {name : String} (h : run (.declare name) a = .ok () b) :
    ∃ slot fresh, a.current.locals.declare name = .ok ((slot, fresh), b.current.locals)
      ∧ b.enclosing = a.enclosing ∧ b.current.blocks = a.current.blocks := by
  obtain ⟨slot, h⟩ := Edit.ignore_eq_ok.mp h
  obtain ⟨s, hs, rfl⟩ := Assembler.onCurrent_eq_ok.mp h
  obtain ⟨fresh, locals, hl, rfl⟩ := Scope.declare_eq_ok.mp hs
  exact ⟨slot, fresh, hl, rfl, rfl⟩

theorem run_enterBlock_eq_ok (h : run .enterBlock a = .ok () b) :
    b = { a with
      current := { a.current with blocks := a.current.locals.mark :: a.current.blocks } } := by
  simp only [run] at h
  obtain ⟨s, hs, rfl⟩ := Assembler.onCurrent_eq_ok.mp h
  rw [Scope.enterBlock_eq_ok.mp hs]

theorem run_leaveBlock_eq_ok (h : run .leaveBlock a = .ok () b) :
    ∃ marker, a.current.blocks = marker :: b.current.blocks
      ∧ b.current.locals.active = a.current.locals.active.take marker
      ∧ b.enclosing = a.enclosing ∧ b.current.labels = a.current.labels := by
  simp only [run] at h
  obtain ⟨s, hs, rfl⟩ := Assembler.onCurrent_eq_ok.mp h
  obtain ⟨marker, blocks, hb, rfl⟩ := Scope.leaveBlock_eq_ok.mp hs
  exact ⟨marker, hb, rfl, rfl, rfl⟩

theorem labels_of_unit {op : Opcode} {kind : ScopeKind} {signature : Signature} {body : Script}
    (h : run (.unit op kind signature body) a = .ok () b) : b.current.labels = a.current.labels := by
  obtain ⟨n, e, s, c, child, d, he, -, hb, hl, hemit⟩ := run_unit_eq_ok.mp h
  obtain ⟨-, rfl⟩ := Assembler.enterScope_eq_ok.mp he
  obtain ⟨parent, rest, t, relay, hparent, -, -, -, -, rfl⟩ := Assembler.leaveScope_eq_ok.mp hl
  obtain ⟨rfl, rfl⟩ := List.cons.inj (hparent.symm.trans (frame_of_runAll body hb).1)
  obtain ⟨-, -, rfl⟩ := Assembler.eq_of_emitChild hemit
  exact Scope.labels_appendedAll _ _

/-- Labels are made by one kind of step only. -/
theorem marks_of_run (hx : x ≠ .newLabel) (h : run x a = .ok () b) :
    b.current.labels.marks.size = a.current.labels.marks.size := by
  cases x with
  | newLabel => exact absurd rfl hx
  | fail e => exact absurd h Edit.throw_ne_ok
  | unit op kind signature body => rw [labels_of_unit h]
  | jump op l =>
    obtain ⟨p, h⟩ := Edit.ignore_eq_ok.mp h
    obtain ⟨s, hs, rfl⟩ := Assembler.onCurrent_eq_ok.mp h
    obtain ⟨-, -, -, rfl⟩ := Scope.emitJump_eq_ok.mp hs
    exact Array.size_modify
  | place l =>
    obtain ⟨s, hs, rfl⟩ := Assembler.onCurrent_eq_ok.mp h
    obtain ⟨-, -, rfl⟩ := Scope.placeLabel_eq_ok.mp hs
    exact Array.size_modify
  | receive =>
    simp only [run] at h
    obtain ⟨s, hs, rfl⟩ := Assembler.onCurrent_eq_ok.mp h
    obtain rfl := Scope.receive_eq_ok.mp hs
    rfl
  | discard =>
    obtain ⟨s, hs, rfl⟩ := Assembler.onCurrent_eq_ok.mp h
    obtain ⟨-, rfl⟩ | ⟨-, -, rfl⟩ := Scope.discard_eq_ok.mp hs <;> rfl
  | markLine _ | declare _ | enterBlock | leaveBlock | protect =>
    obtain ⟨-, t, ht, hb | ⟨line, -, hb⟩⟩ := run_quiet rfl h
    · rw [hb, ht.labels]
    · rw [hb, ← ht.labels]
      rfl
  | op _ | count _ _ | pair _ _ _ | loadConst _ | named _ _ | slot _ _ | loadName _ | storeName _ =>
    obtain ⟨-, t, i, ht, -, hb⟩ := run_write rfl h
    rw [hb, ← ht.labels]
    rfl

theorem run_newLabel {l : Label} (h : Assembler.onCurrent Scope.newLabel a = .ok l b) :
    run .newLabel a = .ok () b := Edit.ignore_eq_ok.mpr ⟨l, h⟩

/-- The label that is made has the next number, in 32 bits. -/
theorem run_newLabel_eq_ok (h : run .newLabel a = .ok () b) :
    Assembler.onCurrent Scope.newLabel a = .ok (.ofCount a.current.labels.marks.size) b
      ∧ b.current.labels.marks.size = a.current.labels.marks.size + 1 := by
  obtain ⟨l, h⟩ := Edit.ignore_eq_ok.mp h
  obtain ⟨s, hs, rfl⟩ := Assembler.onCurrent_eq_ok.mp h
  obtain ⟨rfl, rfl⟩ := Scope.newLabel_eq_ok.mp hs
  exact ⟨h, Array.size_push _⟩

theorem makes_of_ne_newLabel (hx : x ≠ .newLabel) : x.makes = 0 := by
  cases x <;> first | rfl | exact absurd rfl hx

/-- A script that succeeds has made its labels. -/
theorem marks_of_runAll {xs : Script} (h : runAll xs a = .ok () b) :
    b.current.labels.marks.size = a.current.labels.marks.size + Script.makes xs := by
  induction xs generalizing a with
  | nil =>
    obtain ⟨-, rfl⟩ := Edit.pure_eq_ok.mp h
    rfl
  | cons x xs ih =>
    obtain ⟨c, hc, h⟩ := runAll_cons_eq_ok.mp h
    rw [ih h, Script.makes_cons, ← Nat.add_assoc]
    by_cases hx : x = .newLabel
    · obtain rfl := hx
      rw [(run_newLabel_eq_ok hc).2, makes]
    · rw [marks_of_run hx hc, makes_of_ne_newLabel hx, Nat.add_zero]

theorem mem_of_declareAll {names : List String} {s t : Scope} {x : String}
    (h : declareAll names s = .ok () t) :
    x ∈ t.locals.active ↔ x ∈ s.locals.active ∨ x ∈ names := by
  induction names generalizing s with
  | nil =>
    obtain ⟨-, rfl⟩ := Edit.pure_eq_ok.mp h
    simp
  | cons name names ih =>
    obtain ⟨slot, u, hu, h⟩ := Edit.bind_eq_ok.mp h
    obtain ⟨fresh, locals, hl, rfl⟩ := Scope.declare_eq_ok.mp hu
    rw [ih h, Slots.mem_of_declare hl, List.mem_cons, or_assoc]

theorem labels_of_declareAll {names : List String} {s t : Scope} (h : declareAll names s = .ok () t) :
    t.labels = s.labels := (Scope.alike_of_declareAll h).labels

end Step

/-! ### Few enough labels -/

/-- The draft leads from one stage to another, and on the way no unit makes more labels than there are
numbers of 32 bits. -/
structure Draft.LeadsNarrow (d : Draft) (p q : Stage) : Prop extends d.Leads p q where
  count : q.state.current.labels.marks.size ≤ UInt32.size
  inside : Step.widestOf (d.steps p.supply) ≤ UInt32.size

namespace Draft.LeadsNarrow

variable {d e : Draft} {p q r : Stage}

/-- Nor are there too many labels at the beginning. -/
theorem count_start (h : d.LeadsNarrow p q) : p.state.current.labels.marks.size ≤ UInt32.size := by
  have hcount := h.count
  rw [Step.marks_of_runAll h.run] at hcount
  exact Nat.le_of_add_right_le hcount

/-- The labels of a draft that goes first are among those of the whole. -/
theorem exists_of_append (h : (d ++ e).LeadsNarrow p r) : ∃ q, d.LeadsNarrow p q ∧ e.LeadsNarrow q r := by
  obtain ⟨hleads, hcount, hinside⟩ := h
  obtain ⟨q, hd, he⟩ := leads_append.mp hleads
  rw [steps_append_of_some e hd.rest, Step.widestOf_append] at hinside
  obtain ⟨hinside, hinside'⟩ := Nat.max_le.mp hinside
  have he : e.LeadsNarrow q r := ⟨he, hcount, hinside'⟩
  exact ⟨q, ⟨hd, he.count_start, hinside⟩, he⟩

theorem exists_of_withLabel {f : Label → Draft} (h : (withLabel f).LeadsNarrow p q) :
    ∃ a, Step.run .newLabel p.state = .ok () a ∧ (f p.supply.labels).LeadsNarrow (p.drawn 1 a) q := by
  obtain ⟨hleads, hcount, hinside⟩ := h
  obtain ⟨a, ha, hf⟩ := leads_withLabel.mp hleads
  rw [steps_withLabel] at hinside
  exact ⟨a, ha, hf, hcount, (Nat.max_le.mp hinside).2⟩

theorem exists_of_withLabels {n : Nat} {f : Label → Draft} (h : (withLabels n f).LeadsNarrow p q) :
    ∃ a, Step.runAll (List.replicate n .newLabel) p.state = .ok () a
      ∧ (f p.supply.labels).LeadsNarrow (p.drawn n a) q := by
  obtain ⟨hleads, hcount, hinside⟩ := h
  obtain ⟨a, ha, hf⟩ := leads_withLabels.mp hleads
  rw [steps_withLabels, Step.widestOf_append] at hinside
  exact ⟨a, ha, hf, hcount, (Nat.max_le.mp hinside).2⟩

theorem of_withHidden {what : String} {f : String → Draft} (h : (withHidden what f).LeadsNarrow p q) :
    (f (hiddenName what (p.supply.hidden + 1))).LeadsNarrow p.hidden q := by
  obtain ⟨hleads, hcount, hinside⟩ := h
  rw [steps_withHidden] at hinside
  exact ⟨leads_withHidden.mp hleads, hcount, hinside⟩

theorem exists_of_block (h : (block d).LeadsNarrow p q) :
    ∃ a b, Step.run .enterBlock p.state = .ok () a ∧ d.LeadsNarrow ⟨p.supply, a⟩ ⟨q.supply, b⟩
      ∧ Step.run .leaveBlock b = .ok () q.state := by
  obtain ⟨hleads, hcount, hinside⟩ := h
  obtain ⟨a, b, ha, hd, hb⟩ := leads_block.mp hleads
  rw [Step.marks_of_run (x := .leaveBlock) nofun hb] at hcount
  rw [hd.steps_block] at hinside
  have hbody := (Nat.max_le.mp hinside).2
  rw [Step.widestOf_append] at hbody
  exact ⟨a, b, ha, ⟨hd, hcount, (Nat.max_le.mp hbody).1⟩, hb⟩

/-- The labels of a unit are counted on their own. -/
theorem exists_of_unit {op : Opcode} {kind : ScopeKind} {signature : Signature}
    (h : (unit op kind signature d).LeadsNarrow p q) :
    ∃ n a s r, Assembler.enterScope kind signature p.state = .ok n a
      ∧ declareAll signature.params a.current = .ok () s ∧ d.LeadsNarrow (p.inside a s) r
      ∧ q.supply = { r.supply with labels := p.supply.labels }
      ∧ Step.run (.unit op kind signature (d.steps { p.supply with labels := 0 })) p.state
        = .ok () q.state := by
  obtain ⟨hleads, -, hinside⟩ := h
  obtain ⟨n, a, s, r, ha, hs, hd, hsupply, hrun⟩ := exists_of_leads_unit hleads
  have hbody := (Nat.max_le.mp hinside).1
  rw [Step.widest] at hbody
  obtain ⟨hmakes, hbody⟩ := Nat.max_le.mp hbody
  have hnone : s.labels.marks.size = 0 := by
    rw [Step.labels_of_declareAll hs, (Assembler.enterScope_eq_ok.mp ha).2]
    rfl
  have hcount : r.state.current.labels.marks.size ≤ UInt32.size := by
    have hmarks : r.state.current.labels.marks.size = s.labels.marks.size + _ :=
      Step.marks_of_runAll hd.run
    rw [hmarks, hnone, Nat.zero_add]
    exact hmakes
  exact ⟨n, a, s, r, ha, hs, ⟨hd, hcount, hbody⟩, hsupply, hrun⟩

end Draft.LeadsNarrow

/-! ### What a draft leaves as it is -/

/-- The next label that is drawn is the next one that is made. -/
def Stage.Numbered (p : Stage) : Prop := p.state.current.labels.marks.size = p.supply.labels

theorem Stage.Numbered.inside {p : Stage} {n : Nat} {a : Assembler} {s : Scope} {kind : ScopeKind}
    {signature : Signature} (ha : Assembler.enterScope kind signature p.state = .ok n a)
    (hs : declareAll signature.params a.current = .ok () s) : (p.inside a s).Numbered := by
  obtain ⟨-, rfl⟩ := Assembler.enterScope_eq_ok.mp ha
  exact congrArg (fun labels : Labels => labels.marks.size) (Step.labels_of_declareAll hs)

/-- A later stage in the same unit, where the variables that lived go on living. -/
structure Stage.Grows (p q : Stage) : Prop where
  enclosing : q.state.enclosing = p.state.enclosing
  initial : p.state.current.locals.active <+: q.state.current.locals.active
  numbered : p.Numbered → q.Numbered

/-- A later stage where in addition no block is left over. -/
structure Stage.Keeps (p q : Stage) : Prop extends p.Grows q where
  blocks : q.state.current.blocks = p.state.current.blocks

theorem Stage.Grows.refl (p : Stage) : p.Grows p := ⟨rfl, List.prefix_refl _, id⟩

theorem Stage.Grows.trans {p q r : Stage} (h : p.Grows q) (h' : q.Grows r) : p.Grows r :=
  ⟨h'.enclosing.trans h.enclosing, h.initial.trans h'.initial, fun hp => h'.numbered (h.numbered hp)⟩

/-- A later stage where the same variables live. -/
structure Stage.Still (p q : Stage) : Prop extends p.Keeps q where
  active : q.state.current.locals.active = p.state.current.locals.active

theorem Stage.Keeps.refl (p : Stage) : p.Keeps p := ⟨.refl p, rfl⟩

theorem Stage.Keeps.trans {p q r : Stage} (h : p.Keeps q) (h' : q.Keeps r) : p.Keeps r :=
  ⟨h.toGrows.trans h'.toGrows, h'.blocks.trans h.blocks⟩

namespace Stage.Still

variable {p q r : Stage}

theorem refl (p : Stage) : p.Still p := ⟨.refl p, rfl⟩

theorem trans (h : p.Still q) (h' : q.Still r) : p.Still r :=
  ⟨h.toKeeps.trans h'.toKeeps, h'.active.trans h.active⟩

theorem of_sameNames (henclosing : q.state.enclosing = p.state.enclosing)
    (hsame : p.state.current.SameNames q.state.current) (hnumbered : p.Numbered → q.Numbered) :
    p.Still q :=
  ⟨⟨⟨henclosing, hsame.locals ▸ List.prefix_refl _, hnumbered⟩, hsame.blocks⟩,
    congrArg Slots.active hsame.locals⟩

/-- Only a label is made. -/
theorem drawn_one {a : Assembler} (h : Step.run .newLabel p.state = .ok () a) : p.Still (p.drawn 1 a) :=
  .of_sameNames (Step.frame_of_run _ h).1 (Step.sameNames rfl h) fun hp =>
    (Step.run_newLabel_eq_ok h).2.trans (congrArg (· + 1) hp)

theorem drawn {n : Nat} {a : Assembler}
    (h : Step.runAll (List.replicate n .newLabel) p.state = .ok () a) : p.Still (p.drawn n a) := by
  induction n generalizing p with
  | zero =>
    obtain ⟨-, rfl⟩ := Edit.pure_eq_ok.mp h
    exact .refl p
  | succ n ih =>
    obtain ⟨b, hb, h⟩ := Step.runAll_cons_eq_ok.mp h
    have hrest := (drawn_one hb).trans (ih (p := p.drawn 1 b) h)
    refine ⟨⟨⟨hrest.enclosing, hrest.initial, fun hp => ?_⟩, hrest.blocks⟩, hrest.active⟩
    refine (hrest.numbered hp).trans ?_
    show p.supply.labels + 1 + n = p.supply.labels + (n + 1)
    omega

end Stage.Still

/-- Whether a step knows no label and makes no unit. -/
def Step.isFree : Step → Bool
  | newLabel | jump _ _ | place _ | unit _ _ _ _ => false
  | _ => true

/-- Neither the blocks nor the labels change in number. -/
def Step.isLevel : Step → Bool
  | enterBlock | leaveBlock | newLabel => false
  | _ => true

namespace Draft

/-- Wherever the draft leads, the unit is kept. -/
def Keeps (d : Draft) : Prop := ∀ p q, d.Leads p q → p.Keeps q

/-- Wherever the draft leads, the same variables live. -/
def Still (d : Draft) : Prop := ∀ p q, d.Leads p q → p.Still q

variable {d e : Draft} {x : Step}

theorem Still.keeps (h : d.Still) : d.Keeps := fun p q hd => (h p q hd).toKeeps

/-- A step that does not concern variables. -/
theorem Still.step (hx : x.isLevel = true) (hkeep : x.keepsNames = true) :
    (Draft.step x).Still := by
  intro p q h
  obtain ⟨hrun, hsupply⟩ := leads_step.mp h
  have hne : x ≠ .newLabel := by
    rintro rfl
    cases hx
  refine .of_sameNames (Step.frame_of_run x hrun).1 (Step.sameNames hkeep hrun) fun hp => ?_
  rw [Stage.Numbered, Step.marks_of_run hne hrun, hsupply]
  exact hp

namespace Keeps

theorem append (hd : d.Keeps) (he : e.Keeps) : (d ++ e).Keeps := by
  intro p r h
  obtain ⟨q, h, h'⟩ := leads_append.mp h
  exact (hd p q h).trans (he q r h')

theorem declare {name : String} : (Draft.step (.declare name)).Keeps := by
  intro p q h
  obtain ⟨hrun, hsupply⟩ := leads_step.mp h
  obtain ⟨slot, fresh, hl, henclosing, hblocks⟩ := Step.run_declare_eq_ok hrun
  refine ⟨⟨henclosing, Slots.initial_of_declare hl, fun hp => ?_⟩, hblocks⟩
  rw [Stage.Numbered, Step.marks_of_run (x := .declare name) nofun hrun, hsupply]
  exact hp

theorem step (hx : x.isLevel = true) : (Draft.step x).Keeps := by
  cases hkeep : x.keepsNames with
  | true => exact (Still.step hx hkeep).keeps
  | false =>
    cases x with
    | declare name => exact declare
    | enterBlock | leaveBlock => cases hx
    | _ => cases hkeep

theorem withLabel {f : Label → Draft} (h : ∀ l, (f l).Keeps) : (Draft.withLabel f).Keeps := by
  intro p q hq
  obtain ⟨a, ha, hq⟩ := leads_withLabel.mp hq
  exact (Stage.Still.drawn_one ha).toKeeps.trans (h _ _ q hq)

theorem withLabels {n : Nat} {f : Label → Draft} (h : ∀ l, (f l).Keeps) :
    (Draft.withLabels n f).Keeps := by
  intro p q hq
  obtain ⟨a, ha, hq⟩ := leads_withLabels.mp hq
  exact (Stage.Still.drawn ha).toKeeps.trans (h _ _ q hq)

theorem withHidden {what : String} {f : String → Draft} (h : ∀ n, (f (hiddenName what n)).Keeps) :
    (Draft.withHidden what f).Keeps := by
  intro p q hq
  obtain ⟨⟨henclosing, hinitial, hnumbered⟩, hblocks⟩ := h _ _ q (leads_withHidden.mp hq)
  exact ⟨⟨henclosing, hinitial, hnumbered⟩, hblocks⟩

end Keeps

namespace Still

theorem nil : Draft.nil.Still := by
  intro p q h
  rw [leads_nil.mp h]
  exact .refl p

theorem append (hd : d.Still) (he : e.Still) : (d ++ e).Still := by
  intro p r h
  obtain ⟨q, h, h'⟩ := leads_append.mp h
  exact (hd p q h).trans (he q r h')

theorem final : (Draft.final x).Still := fun _ _ h => absurd h not_leads_final

theorem withLabel {f : Label → Draft} (h : ∀ l, (f l).Still) : (Draft.withLabel f).Still := by
  intro p q hq
  obtain ⟨a, ha, hq⟩ := leads_withLabel.mp hq
  exact (Stage.Still.drawn_one ha).trans (h _ _ q hq)

/-- A block ends with the variables with which it began. -/
theorem block (h : d.Keeps) : (Draft.block d).Still := by
  intro p q hq
  obtain ⟨a, b, ha, hd, hb⟩ := leads_block.mp hq
  obtain rfl := Step.run_enterBlock_eq_ok ha
  obtain ⟨⟨henclosing, hinitial, hnumbered⟩, hblocks⟩ := h _ _ hd
  obtain ⟨marker, hmarker, hactive, henclosing', hlabels⟩ := Step.run_leaveBlock_eq_ok hb
  obtain ⟨rfl, hrest⟩ := List.cons.inj (hmarker.symm.trans hblocks)
  have hactive : q.state.current.locals.active = p.state.current.locals.active :=
    hactive.trans (List.prefix_iff_eq_take.mp hinitial).symm
  refine ⟨⟨⟨henclosing'.trans henclosing, hactive ▸ List.prefix_refl _, fun hp => ?_⟩, hrest⟩, hactive⟩
  rw [Stage.Numbered, hlabels]
  exact hnumbered hp

/-- A unit of its own does not concern the variables around it. -/
theorem unit {op : Opcode} {kind : ScopeKind} {signature : Signature} :
    (Draft.unit op kind signature d).Still := by
  intro p q hq
  obtain ⟨n, a, s, r, -, -, -, hsupply, hrun⟩ := exists_of_leads_unit hq
  refine .of_sameNames (Step.frame_of_run _ hrun).1 (Step.sameNames_of_unit hrun) fun hp => ?_
  rw [Stage.Numbered, Step.labels_of_unit hrun, hsupply]
  exact hp

end Still

end Draft

end StackCode
