import StackCode.Proofs.Runs

/-!
# Placeholders and their displacements

When a scope ends, every placeholder is overwritten with the displacement to its label. The walk
over labels and uses is one walk over the list of all placeholders, each with the position of its
label.

* `Labels.Uses`: which placeholder belongs to which label;
* `Labels.Patched`: a list of placeholders is overwritten one by one;
* `Labels.displacement_of_inside`: within the code, displacements do not wrap around;
* `Labels.getElem?_of_reconcile`, `size_of_reconcile`, `getElem?_of_reconcile_of_ne`: what the code
  holds afterwards, as long as no two labels share a placeholder and all are set within the code.
-/

namespace StackCode

namespace Labels

open Edit

/-- The placeholder `u` jumps to the label `l`. -/
def Uses (labels : Labels) (l : Label) (u : Use) : Prop :=
  ∃ m, labels.marks[l]? = some m ∧ u ∈ m.uses.toList

section Tables

variable {labels : Labels} {l k : Label} {u v : Use}

theorem position?_empty (l : Label) : position? {} l = none := by
  simp [position?]

theorem not_uses_empty : ¬ Uses {} l u := by
  rintro ⟨m, hm, -⟩
  simp at hm

theorem uses_push : Uses ⟨labels.marks.push {}⟩ l u ↔ labels.Uses l u := by
  unfold Uses
  rw [Array.getElem?_push]
  constructor
  · rintro ⟨m, hm, hu⟩
    split at hm
    · obtain rfl := Option.some.inj hm
      simp at hu
    · exact ⟨m, hm, hu⟩
  · rintro ⟨m, hm, hu⟩
    have hl : l ≠ labels.marks.size := Nat.ne_of_lt (Array.getElem?_eq_some_iff.mp hm).1
    exact ⟨m, by rw [if_neg hl]; exact hm, hu⟩

theorem position?_push : position? ⟨labels.marks.push {}⟩ l = labels.position? l := by
  unfold position?
  rw [Array.getElem?_push]
  split
  · next hl =>
    rw [hl, Array.getElem?_eq_none (Nat.le_refl _)]
    rfl
  · rfl

theorem uses_used (hk : k < labels.marks.size) :
    Uses ⟨labels.marks.modify k (·.used v)⟩ l u ↔ labels.Uses l u ∨ (l = k ∧ u = v) := by
  unfold Uses
  simp only [Array.getElem?_modify]
  by_cases hl : k = l
  · subst hl
    simp only [if_true, Array.getElem?_eq_getElem hk, Option.map_some, Option.some.injEq,
      exists_eq_left', Mark.used, Array.toList_push, List.mem_append, List.mem_singleton, true_and]
  · simp only [if_neg hl]
    constructor
    · exact .inl
    · rintro (h | ⟨rfl, -⟩)
      · exact h
      · exact absurd rfl hl

theorem position?_used :
    position? ⟨labels.marks.modify k (·.used v)⟩ l = labels.position? l := by
  unfold position?
  rw [Array.getElem?_modify]
  split
  · rw [Option.bind_map]
    rfl
  · rfl

theorem uses_placed {q : Nat} :
    Uses ⟨labels.marks.modify k (·.placed q)⟩ l u ↔ labels.Uses l u := by
  unfold Uses
  rw [Array.getElem?_modify]
  split
  · constructor
    · rintro ⟨_, hp, hu⟩
      obtain ⟨m, hm, rfl⟩ := Option.map_eq_some_iff.mp hp
      exact ⟨m, hm, hu⟩
    · rintro ⟨m, hm, hu⟩
      exact ⟨m.placed q, by rw [hm]; rfl, hu⟩
  · exact Iff.rfl

theorem position?_placed {q : Nat} (hk : k < labels.marks.size) :
    position? ⟨labels.marks.modify k (·.placed q)⟩ l
      = if l = k then some q else labels.position? l := by
  unfold position?
  rw [Array.getElem?_modify]
  by_cases hl : k = l
  · subst hl
    rw [if_pos rfl, if_pos rfl, Array.getElem?_eq_getElem hk]
    rfl
  · rw [if_neg hl, if_neg fun h => hl h.symm]

end Tables

/-- The placeholders of the given marks, each with the position of its label. -/
def placeholders (marks : List Mark) : List (Option Nat × Use) :=
  marks.flatMap fun m => m.uses.toList.map fun u => (m.position, u)

theorem mem_placeholders {labels : Labels} {t : Option Nat} {u : Use} :
    (t, u) ∈ placeholders labels.marks.toList ↔
      ∃ l, labels.Uses l u ∧ labels.position? l = t := by
  simp only [placeholders, List.mem_flatMap, List.mem_map, Prod.mk.injEq]
  constructor
  · rintro ⟨m, hm, v, hv, rfl, rfl⟩
    obtain ⟨l, hl⟩ := List.getElem?_of_mem hm
    rw [Array.getElem?_toList] at hl
    exact ⟨l, ⟨m, hl, hv⟩, by rw [position?, hl]; rfl⟩
  · rintro ⟨l, ⟨m, hl, hv⟩, rfl⟩
    refine ⟨m, ?_, u, hv, by rw [position?, hl]; rfl, rfl⟩
    exact List.mem_of_getElem? (by rw [Array.getElem?_toList]; exact hl)

/-! ### One placeholder after the other -/

/-- The placeholders of a list are overwritten in order. -/
inductive Patched : List (Option Nat × Use) → Buffer → Buffer → Prop where
  | nil {code : Buffer} : Patched [] code code
  | cons {t : Nat} {u : Use} {i : Instruction} {rest : List (Option Nat × Use)}
      {code after : Buffer} (hi : resolved code.size t u = .ok i) (hu : u.position < code.size)
      (h : Patched rest (code.setIfInBounds u.position i) after) :
      Patched ((some t, u) :: rest) code after

theorem Patched.append {ps qs : List (Option Nat × Use)} {a b c : Buffer} (h : Patched ps a b)
    (h' : Patched qs b c) : Patched (ps ++ qs) a c := by
  induction h with
  | nil => exact h'
  | cons hi hu _ ih => exact .cons hi hu (ih h')

theorem patched_of_patchUses {t : Nat} {us : List Use} {code after : Buffer} {x : Unit}
    (h : patchUses t us code = .ok x after) :
    Patched (us.map fun u => (some t, u)) code after := by
  induction us generalizing code with
  | nil =>
    obtain ⟨-, rfl⟩ := pure_eq_ok.mp h
    exact .nil
  | cons u us ih =>
    simp only [patchUses, bind_eq_ok, ofExcept_eq_ok, get_eq_ok] at h
    obtain ⟨_, _, ⟨rfl, rfl⟩, i, _, ⟨hi, rfl⟩, h⟩ := h
    split at h
    · next hu =>
      simp only [bind_eq_ok, modify_eq_ok] at h
      obtain ⟨_, _, rfl, h⟩ := h
      exact .cons hi hu (ih h)
    · obtain ⟨_, _, h, -⟩ := bind_eq_ok.mp h
      exact absurd h throw_ne_ok

theorem patched_of_reconcileFrom {l : Label} {marks : List Mark} {code after : Buffer} {x : Unit}
    (h : reconcileFrom l marks code = .ok x after) : Patched (placeholders marks) code after := by
  induction marks generalizing l code with
  | nil =>
    obtain ⟨-, rfl⟩ := pure_eq_ok.mp h
    exact .nil
  | cons m ms ih =>
    show Patched (m.uses.toList.map (fun u => (m.position, u)) ++ placeholders ms) code after
    simp only [reconcileFrom] at h
    split at h
    · next hu =>
      rw [Array.isEmpty_iff.mp hu]
      exact ih h
    · cases hm : m.position with
      | none =>
        simp only [hm] at h
        obtain ⟨_, _, h, -⟩ := bind_eq_ok.mp h
        exact absurd h throw_ne_ok
      | some t =>
        simp only [hm, bind_eq_ok] at h
        obtain ⟨_, _, hp, h⟩ := h
        exact (patched_of_patchUses hp).append (ih h)

/-! ### The code afterwards -/

theorem Patched.size_eq {ps : List (Option Nat × Use)} {code after : Buffer}
    (h : Patched ps code after) : after.size = code.size := by
  induction h with
  | nil => rfl
  | cons _ _ _ ih => rw [ih, Array.size_setIfInBounds]

theorem Patched.getElem?_of_ne {ps : List (Option Nat × Use)} {code after : Buffer} {p : Nat}
    (h : Patched ps code after) (hp : ∀ q ∈ ps, q.2.position ≠ p) : after[p]? = code[p]? := by
  induction h with
  | nil => rfl
  | cons _ _ _ ih =>
    rw [ih fun q hq => hp q (List.mem_cons_of_mem _ hq),
      Array.getElem?_setIfInBounds_ne (hp _ List.mem_cons_self)]

/-- A placeholder that no other one shares holds its displacement. -/
theorem Patched.getElem?_eq {ps : List (Option Nat × Use)} {code after : Buffer} {t : Option Nat}
    {u : Use} (h : Patched ps code after) (hu : (t, u) ∈ ps)
    (hd : ∀ q ∈ ps, q.2.position = u.position → q = (t, u)) :
    u.position < code.size
      ∧ ∃ target i, t = some target ∧ resolved code.size target u = .ok i
        ∧ after[u.position]? = some i := by
  induction h with
  | nil => simp at hu
  | @cons target v i rest code after hi hv h ih =>
    by_cases hr : (t, u) ∈ rest
    · obtain ⟨hlt, hex⟩ := ih hr fun q hq => hd q (List.mem_cons_of_mem _ hq)
      rw [Array.size_setIfInBounds] at hlt hex
      exact ⟨hlt, hex⟩
    · obtain heq | hr' := List.mem_cons.mp hu
      · obtain ⟨rfl, rfl⟩ := Prod.mk.inj heq
        refine ⟨hv, target, i, rfl, hi, ?_⟩
        have hne : ∀ q ∈ rest, q.2.position ≠ u.position := by
          intro q hq hp
          rw [hd q (List.mem_cons_of_mem _ hq) hp] at hq
          exact hr hq
        rw [h.getElem?_of_ne hne, Array.getElem?_setIfInBounds_self_of_lt hv]
      · exact absurd hr' hr

/-- Within the code, a displacement is a distance. -/
theorem displacement_of_inside {size target position : Nat} (ht : target ≤ size)
    (hp : position < size) : displacement size target position = distance target position :=
  if_pos ⟨ht, hp⟩

theorem resolved_eq_ok {size target : Nat} {u : Use} {i : Instruction}
    (h : resolved size target u = .ok i) :
    (Instruction.minSigned ≤ displacement size target u.position
        ∧ displacement size target u.position ≤ Instruction.maxSigned)
      ∧ i = .pack u.op (Instruction.signedField (displacement size target u.position)) := by
  simp only [resolved] at h
  split at h
  · simp at h
  · exact Instruction.withSigned_eq_ok_iff.mp h

section Reconcile

variable {labels : Labels} {code after : Buffer} {x : Unit}

theorem size_of_reconcile (h : labels.reconcile code = .ok x after) : after.size = code.size :=
  (patched_of_reconcileFrom h).size_eq

/-- Only placeholders are overwritten. -/
theorem getElem?_of_reconcile_of_ne (h : labels.reconcile code = .ok x after) {p : Nat}
    (hp : ∀ l u, labels.Uses l u → u.position ≠ p) : after[p]? = code[p]? := by
  refine (patched_of_reconcileFrom h).getElem?_of_ne ?_
  rintro ⟨t, u⟩ hq
  obtain ⟨l, hl, -⟩ := mem_placeholders.mp hq
  exact hp l u hl

/-- Where the labels are set within the code, every placeholder that belongs to one label alone jumps
to where the label is set. -/
theorem getElem?_of_reconcile (h : labels.reconcile code = .ok x after)
    (hd : ∀ l l' u u', labels.Uses l u → labels.Uses l' u' → u.position = u'.position →
      l = l' ∧ u = u') (hin : ∀ l q, labels.position? l = some q → q ≤ code.size) {l : Label}
    {u : Use} (hu : labels.Uses l u) :
    ∃ target, labels.position? l = some target
      ∧ Instruction.minSigned ≤ distance target u.position
      ∧ distance target u.position ≤ Instruction.maxSigned
      ∧ after[u.position]?
        = some (.pack u.op (Instruction.signedField (distance target u.position))) := by
  have hmem : (labels.position? l, u) ∈ placeholders labels.marks.toList :=
    mem_placeholders.mpr ⟨l, hu, rfl⟩
  obtain ⟨hlt, target, i, ht, hi, ha⟩ := (patched_of_reconcileFrom h).getElem?_eq hmem (by
    rintro ⟨t, v⟩ hq hp
    obtain ⟨l', hl', rfl⟩ := mem_placeholders.mp hq
    obtain ⟨rfl, rfl⟩ := hd l' l v u hl' hu hp
    rfl)
  obtain ⟨⟨hlo, hhi⟩, rfl⟩ := resolved_eq_ok hi
  rw [displacement_of_inside (hin l target ht) hlt] at hlo hhi ha
  exact ⟨target, ht, hlo, hhi, ha⟩

end Reconcile

end Labels

/-- A patched jump leads to where its label is set. -/
theorem Instruction.jumpTarget?_distance {op : Opcode} {target p : Nat}
    (hop : op.isJump = true) (hlo : minSigned ≤ Labels.distance target p)
    (hhi : Labels.distance target p ≤ maxSigned) :
    (pack op (signedField (Labels.distance target p))).jumpTarget? p = some target := by
  have ht : (p : Int) + 1 + Labels.distance target p = target := by
    unfold Labels.distance
    omega
  simp only [jumpTarget?, opcode?_pack (signedField_lt _), hop, if_true, signed_pack hlo hhi, ht]
  rw [if_neg (by omega), Int.toNat_natCast]

end StackCode
