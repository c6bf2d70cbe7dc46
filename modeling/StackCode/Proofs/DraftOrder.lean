import StackCode.Proofs.Drafts
import StackCode.Proofs.Orderly

/-!
# Orderly drafts

A draft keeps to the order on which the assembler relies. It sets each label that it draws, and may
have to set labels that were drawn around it; it leaves the blocks that it enters, and lets the
variables around it live.

* `Draft.Exits`: the script of a draft leaves the unit;
* `Ledger.Admits`, `Ledger.Leaves`: the ledgers with which a draft begins and ends;
* `InOrder`: a draft is orderly, with the labels it has to set and the variables it needs and gives;
* `InOrder.append`, `InOrder.withLabel`, `InOrder.block`, …: one rule for each way of making a draft.
-/

namespace StackCode

open Draft

/-! ### The ends of units -/

/-- The script of a draft that succeeds leaves the unit. -/
def Draft.Exits (d : Draft) : Prop := ∀ s s', d.rest? s = some s' → Script.Exits (d.steps s)

namespace Draft.Exits

variable {d e : Draft}

theorem append (he : e.Exits) : (d ++ e).Exits := by
  intro s s' h
  cases hr : d.rest? s with
  | none =>
    rw [rest?_append_of_none e hr] at h
    cases h
  | some s₁ =>
    rw [rest?_append_of_some e hr] at h
    obtain ⟨before, x, hx, hexit⟩ := he s₁ s' h
    refine ⟨d.steps s ++ before, x, ?_, hexit⟩
    rw [steps_append_of_some e hr, hx, List.append_assoc]

theorem append_nil (hd : d.Exits) : (d ++ Draft.nil).Exits := by
  intro s s' h
  cases hr : d.rest? s with
  | none =>
    rw [rest?_append_of_none _ hr] at h
    cases h
  | some s₁ =>
    rw [steps_append_of_some _ hr, steps_nil, List.append_nil]
    exact hd s s₁ hr

theorem step {x : Step} (hx : x.IsExit) : (Draft.step x).Exits := fun _ _ _ => ⟨[], x, rfl, hx⟩

theorem final {x : Step} : (Draft.final x).Exits := by
  intro s s' h
  cases h

theorem returnNil : StackCode.returnNil.Exits := append (step (.inl rfl))

theorem returnTop {ctx : Context} : ctx.returnTop.Exits := append (step (.inl rfl))

end Draft.Exits

/-! ### Drafts in order -/

/-- The ledger with which a draft may begin: `n` labels are known for sure, the labels `Q` have to be
set by it, and the variables `N` live. -/
structure Ledger.Admits (L : Ledger) (s : Supply) (n : Nat) (Q : List Label) (N : List String) :
    Prop where
  made : L.made = s.labels
  known : n ≤ s.labels
  due : ∀ l ∈ Q, l < s.labels ∧ l ∉ L.placed
  nodup : Q.Nodup
  placed : ∀ l ∈ L.placed, l < s.labels
  names : N ⊆ L.names

/-- The ledger with which a draft ends: beside the labels `Q` it has set all that it has drawn, and
the variables `N` live. -/
structure Ledger.Leaves (L : Ledger) (s : Supply) (Q : List Label) (N : List String) (L' : Ledger)
    (s' : Supply) : Prop where
  made : L'.made = s'.labels
  grown : s.labels ≤ s'.labels
  placed : ∀ l, l ∈ L'.placed ↔ l ∈ L.placed ∨ l ∈ Q ∨ s.labels ≤ l ∧ l < s'.labels
  blocks : L'.blocks = L.blocks
  initial : L.names <+: L'.names
  names : N ⊆ L'.names

/-- A draft is orderly wherever `n` labels are known. It sets the labels `Q`, needs the variables `N`
and leaves the variables `N'`. -/
def InOrder (markers : Bool) (n : Nat) (d : Draft) (Q : List Label) (N N' : List String) : Prop :=
  ∀ s L, L.Admits s n Q N →
    match d.rest? s with
    | none => ∀ L', Orderly markers (d.steps s) L L'
    | some s' => ∃ L', Orderly markers (d.steps s) L L' ∧ L.Leaves s Q N' L' s'

namespace Ledger

variable {L L₁ L₂ : Ledger} {s s₁ s₂ : Supply} {n : Nat} {Q Q' : List Label} {N N' : List String}

/-- What a first draft leaves admits a second one. -/
theorem Leaves.admits (h : L.Leaves s Q N' L₁ s₁) (ha : L.Admits s n (Q ++ Q') N) :
    L₁.Admits s₁ n Q' N' := by
  obtain ⟨-, hQ', hdisjoint⟩ := List.nodup_append.mp ha.nodup
  refine ⟨h.made, Nat.le_trans ha.known h.grown, ?_, hQ', ?_, h.names⟩
  · intro l hl
    obtain ⟨hlt, hnew⟩ := ha.due l (List.mem_append_right _ hl)
    refine ⟨Nat.lt_of_lt_of_le hlt h.grown, fun hp => ?_⟩
    rcases (h.placed l).mp hp with hp | hp | ⟨hle, -⟩
    · exact hnew hp
    · exact hdisjoint l hp l hl rfl
    · exact Nat.not_le.mpr hlt hle
  · intro l hl
    rcases (h.placed l).mp hl with hp | hp | ⟨-, hlt⟩
    · exact Nat.lt_of_lt_of_le (ha.placed l hp) h.grown
    · exact Nat.lt_of_lt_of_le (ha.due l (List.mem_append_left _ hp)).1 h.grown
    · exact hlt

theorem Leaves.trans (h : L.Leaves s Q N L₁ s₁) (h' : L₁.Leaves s₁ Q' N' L₂ s₂) :
    L.Leaves s (Q ++ Q') N' L₂ s₂ := by
  refine ⟨h'.made, Nat.le_trans h.grown h'.grown, ?_, h'.blocks.trans h.blocks,
    h.initial.trans h'.initial, h'.names⟩
  intro l
  rw [h'.placed, h.placed, List.mem_append]
  constructor
  · rintro ((hp | hp | hp) | hp | hp)
    · exact .inl hp
    · exact .inr (.inl (.inl hp))
    · exact .inr (.inr ⟨hp.1, Nat.lt_of_lt_of_le hp.2 h'.grown⟩)
    · exact .inr (.inl (.inr hp))
    · exact .inr (.inr ⟨Nat.le_trans h.grown hp.1, hp.2⟩)
  · rintro (hp | (hp | hp) | hp)
    · exact .inl (.inl hp)
    · exact .inl (.inr (.inl hp))
    · exact .inr (.inl hp)
    · by_cases hl : l < s₁.labels
      · exact .inl (.inr (.inr ⟨hp.1, hl⟩))
      · exact .inr (.inr ⟨Nat.not_lt.mp hl, hp.2⟩)

theorem Admits.left (h : L.Admits s n (Q ++ Q') N) : L.Admits s n Q N :=
  { h with
    due := fun l hl => h.due l (List.mem_append_left _ hl)
    nodup := (List.nodup_append.mp h.nodup).1 }

/-- The ledger is as it was. -/
theorem Admits.same (h : L.Admits s n [] N) : L.Leaves s [] N L s := by
  refine ⟨h.made, Nat.le_refl _, fun l => ?_, rfl, List.prefix_refl _, h.names⟩
  constructor
  · exact .inl
  · rintro (hp | hp | hp)
    · exact hp
    · cases hp
    · exact absurd hp.1 (Nat.not_le.mpr hp.2)

/-- Labels are made, which then have to be set. -/
theorem Admits.newLabels (h : L.Admits s n Q N) (k : Nat) :
    Ledger.Admits { L with made := L.made + k } { s with labels := s.labels + k } (s.labels + k)
      (Q ++ List.range' s.labels k) N := by
  refine ⟨congrArg (· + k) h.made, Nat.le_refl _, ?_, ?_, ?_, h.names⟩
  · intro l hl
    rcases List.mem_append.mp hl with hl | hl
    · obtain ⟨hlt, hnew⟩ := h.due l hl
      exact ⟨Nat.lt_of_lt_of_le hlt (Nat.le_add_right _ _), hnew⟩
    · obtain ⟨hle, hlt⟩ := List.mem_range'_1.mp hl
      exact ⟨hlt, fun hp => Nat.not_le.mpr (h.placed l hp) hle⟩
  · refine List.nodup_append.mpr ⟨h.nodup, List.nodup_range', ?_⟩
    rintro l hl l' hl' rfl
    exact Nat.not_le.mpr (h.due l hl).1 (List.mem_range'_1.mp hl').1
  · intro l hl
    exact Nat.lt_of_lt_of_le (h.placed l hl) (Nat.le_add_right _ _)

theorem Leaves.newLabels {k : Nat}
    (h : Ledger.Leaves { L with made := L.made + k } { s with labels := s.labels + k }
      (Q ++ List.range' s.labels k) N L₁ s₁) : L.Leaves s Q N L₁ s₁ := by
  have hgrown : s.labels + k ≤ s₁.labels := h.grown
  refine ⟨h.made, by omega, ?_, h.blocks, h.initial, h.names⟩
  intro l
  rw [h.placed, List.mem_append, List.mem_range'_1]
  simp only
  constructor
  · rintro (hp | (hp | hp) | hp)
    · exact .inl hp
    · exact .inr (.inl hp)
    · exact .inr (.inr ⟨hp.1, Nat.lt_of_lt_of_le hp.2 hgrown⟩)
    · exact .inr (.inr ⟨Nat.le_trans (Nat.le_add_right _ _) hp.1, hp.2⟩)
  · rintro (hp | hp | hp)
    · exact .inl hp
    · exact .inr (.inl (.inl hp))
    · by_cases hl : l < s.labels + k
      · exact .inr (.inl (.inr ⟨hp.1, hl⟩))
      · exact .inr (.inr ⟨Nat.not_lt.mp hl, hp.2⟩)

end Ledger

theorem Orderly.newLabels {markers : Bool} {xs : Script} {L L' : Ledger} {k : Nat}
    (h : Orderly markers xs { L with made := L.made + k } L') :
    Orderly markers (List.replicate k .newLabel ++ xs) L L' := by
  induction k generalizing L with
  | zero => exact h
  | succ k ih =>
    refine .newLabel (ih ?_)
    rw [Nat.add_assoc, Nat.add_comm 1]
    exact h

namespace InOrder

variable {markers : Bool} {n : Nat} {d e : Draft} {Q Q' : List Label} {N N' N'' : List String}

/-- What holds where some labels are known holds where more are. -/
theorem mono {m : Nat} (h : InOrder markers n d Q N N') (hm : n ≤ m) :
    InOrder markers m d Q N N' :=
  fun s L ha => h s L { ha with known := Nat.le_trans hm ha.known }

/-- The order in which labels are set does not matter. -/
theorem perm (h : InOrder markers n d Q N N') (hQ : Q.Perm Q') : InOrder markers n d Q' N N' := by
  intro s L ha
  have hrun := h s L { ha with
    due := fun l hl => ha.due l (hQ.mem_iff.mp hl), nodup := hQ.nodup_iff.mpr ha.nodup }
  cases hr : d.rest? s with
  | none =>
    simp only [hr] at hrun
    exact hrun
  | some s' =>
    simp only [hr] at hrun
    obtain ⟨L', ho, hl⟩ := hrun
    refine ⟨L', ho, { hl with placed := fun l => ?_ }⟩
    rw [hl.placed, hQ.mem_iff]

/-- Fewer variables are left than there are. -/
theorem forget (h : InOrder markers n d Q N N') (hN : N'' ⊆ N') : InOrder markers n d Q N N'' := by
  intro s L ha
  have hrun := h s L ha
  cases hr : d.rest? s with
  | none =>
    simp only [hr] at hrun
    exact hrun
  | some s' =>
    simp only [hr] at hrun
    obtain ⟨L', ho, hl⟩ := hrun
    exact ⟨L', ho, { hl with names := List.Subset.trans hN hl.names }⟩

theorem nil : InOrder markers n nil [] N N := fun _ L ha => ⟨L, .done, ha.same⟩

theorem append (h : InOrder markers n d Q N N') (h' : InOrder markers n e Q' N' N'') :
    InOrder markers n (d ++ e) (Q ++ Q') N N'' := by
  intro s L ha
  have hrun := h s L ha.left
  cases hr : d.rest? s with
  | none =>
    simp only [hr] at hrun
    simp only [rest?_append_of_none e hr, steps_append_of_none e hr]
    exact hrun
  | some s₁ =>
    simp only [hr] at hrun
    obtain ⟨L₁, ho, hl⟩ := hrun
    have hrun' := h' s₁ L₁ (hl.admits ha)
    simp only [rest?_append_of_some e hr, steps_append_of_some e hr]
    cases hr' : e.rest? s₁ with
    | none =>
      simp only [hr'] at hrun'
      exact fun L' => ho.append (hrun' L')
    | some s₂ =>
      simp only [hr'] at hrun'
      obtain ⟨L₂, ho', hl'⟩ := hrun'
      exact ⟨L₂, ho.append ho', hl.trans hl'⟩

/-! ### Steps -/

/-- A step that leaves the ledger as it is. -/
theorem step {x : Step} (hx : ∀ s L, L.Admits s n [] N → Orderly markers [x] L L) :
    InOrder markers n (Draft.step x) [] N N :=
  fun s L ha => ⟨L, hx s L ha, ha.same⟩

theorem plain {x : Step} (hx : x.isPlain = true) : InOrder markers n (Draft.step x) [] N N :=
  step fun _ _ _ => .plain hx .done

theorem final {x : Step} (hx : x.Stuck markers) : InOrder markers n (Draft.final x) Q N N' :=
  fun _ _ _ _ => .stuck hx

theorem refuse {line : Nat} {cause : Misuse} :
    InOrder markers n (refuse line cause) Q N N' := final .fail

theorem jump {op : Opcode} {l : Label} (hop : op.isJump = true) (hl : l < n) :
    InOrder markers n (jump op l) [] N N :=
  step fun s L ha => .jump hop (by rw [ha.made]; exact Nat.lt_of_lt_of_le hl ha.known) .done

theorem slot {op : Opcode} {x : String} (hop : op.isProper = true) (hx : x ∈ N) :
    InOrder markers n (Draft.step (.slot op x)) [] N N :=
  step fun _ _ ha => .slot hop (ha.names hx) .done

theorem place {l : Label} : InOrder markers n (place l) [l] N N := by
  intro s L ha
  obtain ⟨hlt, hnew⟩ := ha.due l List.mem_cons_self
  refine ⟨_, .place (by rw [ha.made]; exact hlt) hnew .done, ha.made, Nat.le_refl _, fun k => ?_,
    rfl, List.prefix_refl _, ha.names⟩
  rw [List.mem_cons, List.mem_singleton]
  constructor
  · rintro (hk | hk)
    · exact .inr (.inl hk)
    · exact .inl hk
  · rintro (hk | hk | hk)
    · exact .inr hk
    · exact .inl hk
    · exact absurd hk.1 (Nat.not_le.mpr hk.2)

theorem declare {x : String} : InOrder markers n (Draft.step (.declare x)) [] N (x :: N) := by
  intro s L ha
  refine ⟨_, .declare .done, ?_, Nat.le_refl _, fun l => ?_, Ledger.blocks_declared L x,
    Ledger.names_initial_declared L x, ?_⟩
  · rw [Ledger.made_declared]
    exact ha.made
  · rw [Ledger.placed_declared]
    exact ha.same.placed l
  · exact List.cons_subset.mpr ⟨Ledger.mem_names_declared L x,
      List.Subset.trans ha.names (Ledger.names_initial_declared L x).subset⟩

theorem declareAndStore {x : String} :
    InOrder markers n (declareAndStore x) [] N (x :: N) :=
  declare.append (slot rfl List.mem_cons_self)

/-! ### Labels, names, blocks and units -/

theorem withLabels {k : Nat} {F : Label → Draft}
    (hF : ∀ l, n ≤ l → InOrder markers (l + k) (F l) (Q ++ List.range' l k) N N') :
    InOrder markers n (Draft.withLabels k F) Q N N' := by
  intro s L ha
  have hrun := hF s.labels ha.known _ _ (ha.newLabels k)
  rw [rest?_withLabels, steps_withLabels]
  cases hr : (F s.labels).rest? { s with labels := s.labels + k } with
  | none =>
    simp only [hr] at hrun
    exact fun L' => (hrun L').newLabels
  | some s' =>
    simp only [hr] at hrun
    obtain ⟨L', ho, hl⟩ := hrun
    exact ⟨L', ho.newLabels, hl.newLabels⟩

theorem withLabel {F : Label → Draft}
    (hF : ∀ l, n ≤ l → InOrder markers (l + 1) (F l) (Q ++ [l]) N N') :
    InOrder markers n (Draft.withLabel F) Q N N' := by
  intro s L ha
  have hrun := hF s.labels ha.known _ _ (ha.newLabels 1)
  rw [rest?_withLabel, steps_withLabel]
  cases hr : (F s.labels).rest? { s with labels := s.labels + 1 } with
  | none =>
    simp only [hr] at hrun
    exact fun L' => .newLabel (hrun L')
  | some s' =>
    simp only [hr] at hrun
    obtain ⟨L', ho, hl⟩ := hrun
    exact ⟨L', .newLabel ho, hl.newLabels⟩

theorem withHidden {what : String} {F : String → Draft}
    (hF : ∀ x, InOrder markers n (F x) Q N N') :
    InOrder markers n (Draft.withHidden what F) Q N N' := by
  intro s L ha
  have hrun := hF (hiddenName what (s.hidden + 1)) { s with hidden := s.hidden + 1 } L
    ⟨ha.made, ha.known, ha.due, ha.nodup, ha.placed, ha.names⟩
  rw [rest?_withHidden, steps_withHidden]
  split
  · next hr =>
    simp only [hr] at hrun
    exact hrun
  · next hr =>
    simp only [hr] at hrun
    obtain ⟨L', ho, hl⟩ := hrun
    exact ⟨L', ho, hl.made, hl.grown, hl.placed, hl.blocks, hl.initial, hl.names⟩

/-- A hidden variable is declared before anything else. -/
theorem hidden {what : String} {F : String → Draft}
    (hF : ∀ x, InOrder markers n (F x) Q (x :: N) (x :: N)) :
    InOrder markers n (Draft.withHidden what fun x => StackCode.declareAndStore x ++ F x) Q N N :=
  withHidden fun x => (declareAndStore.append (hF x)).forget (List.subset_cons_self x N)

/-- The variables of a block die with it. -/
theorem block (h : InOrder markers n d Q N N') : InOrder markers n (Draft.block d) Q N N := by
  intro s L ha
  let inner : Ledger := { L with blocks := L.names.length :: L.blocks }
  have hrun := h s inner ⟨ha.made, ha.known, ha.due, ha.nodup, ha.placed, ha.names⟩
  have henter : (Draft.step .enterBlock ++ d).rest? s = d.rest? s :=
    rest?_append_of_some d rfl
  have hsteps : (Draft.step .enterBlock ++ d).steps s = .enterBlock :: d.steps s :=
    steps_append_of_some d rfl
  unfold Draft.block
  cases hr : d.rest? s with
  | none =>
    simp only [hr] at hrun
    simp only [rest?_append_of_none _ (henter.trans hr), steps_append_of_none _ (henter.trans hr),
      hsteps]
    exact fun L' => .enterBlock (hrun L')
  | some s' =>
    simp only [hr] at hrun
    obtain ⟨L', ho, hl⟩ := hrun
    simp only [rest?_append_of_some _ (henter.trans hr), steps_append_of_some _ (henter.trans hr),
      hsteps]
    have hnames : L'.names.take L.names.length = L.names :=
      (List.prefix_iff_eq_take.mp hl.initial).symm
    refine ⟨{ L' with names := L.names, blocks := L.blocks }, ?_, hl.made, hl.grown, hl.placed, rfl,
      List.prefix_refl _, ha.names⟩
    refine .enterBlock (ho.append (.leaveBlock hl.blocks ?_))
    simp only [hnames]
    exact .done

/-- A unit has labels and variables of its own. -/
theorem unit {op : Opcode} {kind : ScopeKind} {signature : Signature} (hop : op.isProper = true)
    (h : InOrder markers 0 d [] signature.params N')
    (he : d.Exits) : InOrder markers n (Draft.unit op kind signature d) [] N N := by
  intro s L ha
  obtain ⟨hmade, hplaced, hblocks, -⟩ := Ledger.foldl_declared (L := {}) signature.params
  have hadmits : (Ledger.entry signature.params).Admits { s with labels := 0 } 0 []
      signature.params := by
    refine ⟨hmade, Nat.le_refl _, fun l hl => absurd hl List.not_mem_nil, List.nodup_nil, ?_, ?_⟩
    · intro l hl
      rw [Ledger.entry, hplaced] at hl
      cases hl
    · intro x hx
      exact Ledger.mem_names_foldl {} x hx
  have hrun := h { s with labels := 0 } _ hadmits
  rw [steps_unit]
  cases hr : d.rest? { s with labels := 0 } with
  | none =>
    simp only [hr] at hrun
    simp only [rest?_unit, hr, Option.map_none]
    exact fun L' => .unitStuck hrun
  | some s' =>
    simp only [hr] at hrun
    simp only [rest?_unit, hr, Option.map_some]
    obtain ⟨K, ho, hl⟩ := hrun
    have hsettled : K.Settled := by
      refine ⟨hl.blocks.trans hblocks, fun l hlt => ?_⟩
      rw [hl.made] at hlt
      exact (hl.placed l).mpr (.inr (.inr ⟨Nat.zero_le l, hlt⟩))
    have hsame := ha.same
    exact ⟨L, .unit hop ho hsettled (he _ s' hr) .done, hsame.made, hsame.grown, hsame.placed,
      hsame.blocks, hsame.initial, hsame.names⟩

end InOrder

end StackCode
