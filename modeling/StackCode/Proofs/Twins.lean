import StackCode.Proofs.Plans
import StackCode.Proofs.SideBySide

/-!
# Drafts whose scripts go side by side

Two drafts are twins if their scripts, drawn from different supplies and run in different states of one
unit, go side by side. The rules follow the ways in which drafts are made. Labels and hidden variables are
drawn on both sides at once, so whatever depends on them is asked for all pairs of them.

* `consecutive`: the pairs of several labels that are drawn at once;
* `Gap.Twins`: twins, wherever the given labels correspond;
* `Gap.Twins.append`, `step`, `withLabel`, `withLabels`, `withHidden`, `block`, `unit`: the rules;
* `Gap.Twins.stray`: an exit that leads to another loop on the other side.
-/

namespace StackCode

open Draft

/-- The pairs of `n` labels, numbered from `l` on one side and from `l'` on the other. -/
def consecutive : Nat → Label → Label → LabelPairs
  | 0, _, _ => []
  | n + 1, l, l' => (l, l') :: consecutive n (l + 1) (l' + 1)

namespace Gap

/-- Wherever the labels `M` correspond, the scripts of the drafts go side by side. -/
structure Twins (G : Gap) (depth : Nat) (M : LabelPairs) (D D' : Draft) : Prop where
  keeps : D.Keeps
  keeps' : D'.Keeps
  run : ∀ (N : LabelPairs) (p p' q q' : Stage), M ⊆ N → D.LeadsNarrow p q → D'.LeadsNarrow p' q' →
    p.Numbered → p'.Numbered → G.Beside depth p.state.scopes p'.state.scopes →
    ∃ N', N ⊆ N'
      ∧ G.SideBySide depth N (D.steps p.supply) p.state (D'.steps p'.supply) p'.state N'
      ∧ G.Beside depth q.state.scopes q'.state.scopes

variable {G : Gap} {depth : Nat} {M N : LabelPairs} {D D' E E' : Draft} {x x' : Step} {a a' b b' : Assembler}

/-- Labels are made on both sides, and have their numbers in 32 bits. -/
theorem SideBySide.newLabels (G : Gap) (depth : Nat) (M : LabelPairs) {n : Nat}
    (hr : Step.runAll (List.replicate n .newLabel) a = .ok () b)
    (hr' : Step.runAll (List.replicate n .newLabel) a' = .ok () b')
    (hb : b.current.labels.marks.size ≤ UInt32.size)
    (hb' : b'.current.labels.marks.size ≤ UInt32.size) :
    ∃ N, M ⊆ N ∧ consecutive n a.current.labels.marks.size a'.current.labels.marks.size ⊆ N
      ∧ G.SideBySide depth M (List.replicate n .newLabel) a (List.replicate n .newLabel) a' N := by
  induction n generalizing a a' M with
  | zero => exact ⟨M, List.Subset.refl _, List.nil_subset _, .done⟩
  | succ n ih =>
    obtain ⟨c, hc, hr⟩ := Step.runAll_cons_eq_ok.mp hr
    obtain ⟨c', hc', hr'⟩ := Step.runAll_cons_eq_ok.mp hr'
    obtain ⟨hl, hsize⟩ := Step.run_newLabel_eq_ok hc
    obtain ⟨hl', hsize'⟩ := Step.run_newLabel_eq_ok hc'
    obtain ⟨N, hM, hpairs, h⟩ := ih ((_, _) :: M) hr hr'
    rw [hsize, hsize'] at hpairs
    rw [Step.marks_of_runAll hr, hsize] at hb
    rw [Step.marks_of_runAll hr', hsize'] at hb'
    rw [Label.ofCount, Nat.mod_eq_of_lt (by omega)] at hl hl'
    obtain ⟨hfirst, hM⟩ := List.cons_subset.mp hM
    exact ⟨N, hM, List.cons_subset.mpr ⟨hfirst, hpairs⟩, .label hl hl' h⟩

namespace Twins

/-- Where the program is refused at home, there is no copy. -/
theorem of_final (hD' : D'.Keeps) : G.Twins depth M (final x) D' :=
  ⟨Draft.Still.final.keeps, hD', fun _ _ _ _ _ _ h => absurd h.toLeads not_leads_final⟩

theorem nil : G.Twins depth M Draft.nil Draft.nil := by
  refine ⟨Draft.Still.nil.keeps, Draft.Still.nil.keeps, ?_⟩
  intro N p p' q q' _ h h' _ _ hb
  rw [leads_nil.mp h.toLeads, leads_nil.mp h'.toLeads]
  exact ⟨N, List.Subset.refl _, .done, hb⟩

theorem append (h : G.Twins depth M D D') (hE : G.Twins depth M E E') :
    G.Twins depth M (D ++ E) (D' ++ E') := by
  refine ⟨h.keeps.append hE.keeps, h.keeps'.append hE.keeps', ?_⟩
  intro N p p' r r' hN hp hp' hn hn' hb
  obtain ⟨q, hD, hr⟩ := hp.exists_of_append
  obtain ⟨q', hD', hr'⟩ := hp'.exists_of_append
  obtain ⟨N₁, hN₁, hside, hb₁⟩ := h.run N p p' q q' hN hD hD' hn hn' hb
  obtain ⟨N₂, hN₂, hside₂, hb₂⟩ := hE.run N₁ q q' r r' (List.Subset.trans hN hN₁) hr hr'
    ((h.keeps p q hD.toLeads).numbered hn) ((h.keeps' p' q' hD'.toLeads).numbered hn') hb₁
  refine ⟨N₂, List.Subset.trans hN₁ hN₂, ?_, hb₂⟩
  rw [steps_append_of_some E hD.rest, steps_append_of_some E' hD'.rest]
  exact hside.append hD.run hD'.run hside₂

/-- One step on both sides. -/
theorem step (hx : G.Like depth M x x') (hlevel : x.isLevel = true) (hlevel' : x'.isLevel = true) :
    G.Twins depth M (Draft.step x) (Draft.step x') := by
  refine ⟨.step hlevel, .step hlevel', ?_⟩
  intro N p p' q q' hN h h' _ _ hb
  obtain ⟨hr, -⟩ := leads_step.mp h.toLeads
  obtain ⟨hr', -⟩ := leads_step.mp h'.toLeads
  have hlike := hx.mono hN
  have hb' := hb.step hlike hlevel hr hr'
  exact ⟨N, List.Subset.refl _, .step hlike hr hr' (hb.agrees hlike hr hr' hb') .done, hb'⟩

/-- The same step on both sides. -/
theorem same (hx : x.isFree = true) (hlevel : x.isLevel = true) :
    G.Twins depth M (Draft.step x) (Draft.step x) :=
  step (.same hx) hlevel hlevel

theorem op {o : Opcode} : G.Twins depth M (plain o) (plain o) := same rfl rfl

theorem jump {o : Opcode} {l l' : Label} (h : (l, l') ∈ M) :
    G.Twins depth M (jump o l) (StackCode.jump o l') :=
  step (.jump h) rfl rfl

theorem place {l l' : Label} (h : (l, l') ∈ M) :
    G.Twins depth M (place l) (StackCode.place l') :=
  step (.place h) rfl rfl

/-- The copies of a draft that starts where labels were made. -/
theorem of_drawn {n : Nat} {F F' : Label → Draft}
    (h : ∀ K l l', M ⊆ K → consecutive n l l' ⊆ K → G.Twins depth K (F l) (F' l'))
    {p p' q q' : Stage} (hN : M ⊆ N)
    (ha : Step.runAll (List.replicate n .newLabel) p.state = .ok () a)
    (ha' : Step.runAll (List.replicate n .newLabel) p'.state = .ok () a')
    (hq : (F p.supply.labels).LeadsNarrow (p.drawn n a) q)
    (hq' : (F' p'.supply.labels).LeadsNarrow (p'.drawn n a') q') (hn : p.Numbered) (hn' : p'.Numbered)
    (hb : G.Beside depth p.state.scopes p'.state.scopes) :
    ∃ N', N ⊆ N'
      ∧ G.SideBySide depth N
        (List.replicate n .newLabel ++ (F p.supply.labels).steps (p.drawn n a).supply) p.state
        (List.replicate n .newLabel ++ (F' p'.supply.labels).steps (p'.drawn n a').supply) p'.state N'
      ∧ G.Beside depth q.state.scopes q'.state.scopes := by
  have hstill := Stage.Still.drawn ha
  have hstill' := Stage.Still.drawn ha'
  obtain ⟨K, hK, hpairs, hside⟩ := SideBySide.newLabels G depth N ha ha' hq.count_start hq'.count_start
  rw [hn, hn'] at hpairs
  obtain ⟨N', hN', hrest, hq⟩ := (h K _ _ (List.Subset.trans hN hK) hpairs).run K _ _ q q'
    (List.Subset.refl K) hq hq' (hstill.numbered hn) (hstill'.numbered hn') (hb.still hstill hstill')
  exact ⟨N', List.Subset.trans hK hN', hside.append ha ha' hrest, hq⟩

theorem withLabels {n : Nat} {F F' : Label → Draft}
    (h : ∀ K l l', M ⊆ K → consecutive n l l' ⊆ K → G.Twins depth K (F l) (F' l')) :
    G.Twins depth M (Draft.withLabels n F) (Draft.withLabels n F') := by
  have hboth := fun l l' => h (M ++ consecutive n l l') l l' (List.subset_append_left _ _)
    (List.subset_append_right _ _)
  refine ⟨.withLabels fun l => (hboth l 0).keeps, .withLabels fun l' => (hboth 0 l').keeps', ?_⟩
  intro N p p' q q' hN hp hp' hn hn' hb
  obtain ⟨a, ha, hq⟩ := hp.exists_of_withLabels
  obtain ⟨a', ha', hq'⟩ := hp'.exists_of_withLabels
  rw [steps_withLabels, steps_withLabels]
  exact of_drawn h hN ha ha' hq hq' hn hn' hb

theorem withLabel {F F' : Label → Draft}
    (h : ∀ K l l', M ⊆ K → (l, l') ∈ K → G.Twins depth K (F l) (F' l')) :
    G.Twins depth M (Draft.withLabel F) (Draft.withLabel F') := by
  have hboth := fun l l' => h ((l, l') :: M) l l' (List.subset_cons_self _ _) List.mem_cons_self
  refine ⟨.withLabel fun l => (hboth l 0).keeps, .withLabel fun l' => (hboth 0 l').keeps', ?_⟩
  intro N p p' q q' hN hp hp' hn hn' hb
  obtain ⟨a, ha, hq⟩ := hp.exists_of_withLabel
  obtain ⟨a', ha', hq'⟩ := hp'.exists_of_withLabel
  rw [steps_withLabel, steps_withLabel]
  have hone : ∀ {b c : Assembler}, Step.run .newLabel b = .ok () c →
      Step.runAll (List.replicate 1 .newLabel) b = .ok () c :=
    fun h => Step.runAll_cons_eq_ok.mpr ⟨_, h, rfl⟩
  exact of_drawn (n := 1) (fun K l l' hM hl => h K l l' hM (hl List.mem_cons_self)) hN (hone ha)
    (hone ha') hq hq' hn hn' hb

theorem withHidden {what : String} {F F' : String → Draft}
    (h : ∀ x x', IsHidden x → IsHidden x' → G.Twins depth M (F x) (F' x')) :
    G.Twins depth M (Draft.withHidden what F) (Draft.withHidden what F') := by
  have hboth := fun n n' => h (hiddenName what n) (hiddenName what n') ⟨what, n, rfl⟩ ⟨what, n', rfl⟩
  refine ⟨.withHidden fun n => (hboth n 0).keeps, .withHidden fun n' => (hboth 0 n').keeps', ?_⟩
  intro N p p' q q' hN hp hp' hn hn' hb
  rw [steps_withHidden, steps_withHidden]
  exact (hboth _ _).run N _ _ q q' hN hp.of_withHidden hp'.of_withHidden hn hn' hb

theorem block (h : G.Twins depth M D D') : G.Twins depth M (Draft.block D) (Draft.block D') := by
  have hstill := Draft.Still.block h.keeps
  have hstill' := Draft.Still.block h.keeps'
  refine ⟨hstill.keeps, hstill'.keeps, ?_⟩
  intro N p p' q q' hN hp hp' hn hn' hb
  have hbq := hb.still (hstill p q hp.toLeads) (hstill' p' q' hp'.toLeads)
  obtain ⟨a, b, ha, hD, hleave⟩ := hp.exists_of_block
  obtain ⟨a', b', ha', hD', hleave'⟩ := hp'.exists_of_block
  have hba := hb.enterBlock ha ha'
  have hnumbered : ∀ {r : Stage} {c : Assembler}, Step.run .enterBlock r.state = .ok () c →
      r.Numbered → (Stage.mk r.supply c).Numbered := by
    intro r c hr hnumbered
    rw [Step.run_enterBlock_eq_ok hr]
    exact hnumbered
  obtain ⟨N', hN', hside, hb'⟩ := h.run N _ _ _ _ hN hD hD' (hnumbered ha hn) (hnumbered ha' hn') hba
  have henter : G.Like depth N .enterBlock .enterBlock := .same rfl
  have hout : G.Like depth N' .leaveBlock .leaveBlock := .same rfl
  refine ⟨N', hN', ?_, hbq⟩
  rw [hD.steps_block, hD'.steps_block]
  refine .step henter ha ha' (hb.agrees henter ha ha' hba) (hside.append hD.run hD'.run ?_)
  exact .step hout hleave hleave' (hb'.agrees hout hleave hleave' hbq) .done

/-- The same kind of unit on both sides. -/
theorem unit {o : Opcode} {kind : ScopeKind} {signature : Signature}
    (h : G.Twins (depth + 1) [] D D') :
    G.Twins depth M (Draft.unit o kind signature D) (Draft.unit o kind signature D') := by
  refine ⟨Draft.Still.unit.keeps, Draft.Still.unit.keeps, ?_⟩
  intro N p p' q q' _ hp hp' _ _ hb
  have hbq := hb.still (Draft.Still.unit p q hp.toLeads) (Draft.Still.unit p' q' hp'.toLeads)
  obtain ⟨n, a, s, r, ha, hs, hD, -, hrun⟩ := hp.exists_of_unit
  obtain ⟨n', a', s', r', ha', hs', hD', -, hrun'⟩ := hp'.exists_of_unit
  have hinner : G.Beside (depth + 1) (p.inside a s).state.scopes (p'.inside a' s').state.scopes := by
    refine .inner (fun x _ => ?_) ?_
    · show x ∈ s.locals.active ↔ x ∈ s'.locals.active
      rw [Step.mem_of_declareAll hs, Step.mem_of_declareAll hs', (Assembler.enterScope_eq_ok.mp ha).2,
        (Assembler.enterScope_eq_ok.mp ha').2]
      rfl
    · show G.Beside depth a.enclosing a'.enclosing
      rw [(Assembler.enterScope_eq_ok.mp ha).2, (Assembler.enterScope_eq_ok.mp ha').2]
      exact hb
  obtain ⟨K, -, hside, -⟩ := h.run [] _ _ r r' (List.Subset.refl _) hD hD' (.inside ha hs)
    (.inside ha' hs') hinner
  exact ⟨N, List.Subset.refl _, .unit ha ha' hs hs' hside hrun hrun' .done, hbq⟩

/-- An exit from both copies that leads to another loop than at home, after other regions are left. -/
theorem stray {l l' : Label} {n n' : Nat} {s : Setting} {loops : List Loop}
    (hl : G.Exit (l, n) (l', n')) (hn : n ≠ n') :
    G.Twins 0 M ((Task.unwind (s.regions.length - n)).lowered s ++ StackCode.jump .jump l)
      ((Task.unwind (s.regions.length - n')).lowered { s with loops } ++ StackCode.jump .jump l') := by
  have hjump : ∀ l, (StackCode.jump .jump l).Still := fun l => .step rfl rfl
  have hstill := (Task.still_unwind (s.regions.length - n) s).append (hjump l)
  have hstill' := (Task.still_unwind (s.regions.length - n') { s with loops }).append (hjump l')
  refine ⟨hstill.keeps, hstill'.keeps, ?_⟩
  intro N p p' r r' _ hp hp' _ _ hb
  have hbr := hb.still (hstill p r hp.toLeads) (hstill' p' r' hp'.toLeads)
  obtain ⟨q, hq, hr⟩ := leads_append.mp hp.toLeads
  obtain ⟨q', hq', hr'⟩ := leads_append.mp hp'.toLeads
  refine ⟨N, List.Subset.refl _, ?_, hbr⟩
  rw [steps_append_of_some _ hq.rest, steps_append_of_some _ hq'.rest]
  exact .stray hl hn rfl rfl hq.run hq'.run (leads_step.mp hr).1 (leads_step.mp hr').1 .done

end Twins

end Gap

end StackCode
