import Mathlib.Data.List.Nodup
import StackCode.Proofs.Placeholders

/-!
# Reconciliation is exact

Overwriting the placeholders of a scope succeeds exactly when every one of them can be overwritten,
and then it does nothing else. The walk over labels and uses is the walk of `Labels.Patched` over the
list of all placeholders, in both directions (`reconcile_eq_ok_iff`); such a walk exists exactly when
each placeholder is ready (`exists_reconcile_iff`).

A placeholder is ready when its displacement fits. That is the distance to the label as a signed word of
64 bits, and where no position reaches 2^63 it is the distance itself (`measured_of_lt`). A label that is
set almost 2^64 instructions behind a placeholder seems to be near it (`reconcile_wrapped`).

* `Labels.indices`: the positions of all placeholders;
* `Labels.Measured`: no distance fits into the operand only because it wraps around;
* `Labels.Reconcilable`: used labels are set, placeholders lie in the code, distances fit;
* `Labels.Reconciled`: what the code holds afterwards;
* `Labels.reconcile_exact`: both, and a second reconciliation changes nothing, for all measured labels
  and all code in which no two placeholders share a position.
-/

namespace StackCode

namespace Labels

open Edit

/-- The positions of all placeholders, label by label. -/
def indices (labels : Labels) : List Nat :=
  labels.marks.toList.flatMap fun m => m.uses.toList.map Use.position

/-- No distance fits into the operand only because it wraps around: whatever fits as a signed word of 64
bits is the distance itself. -/
def Measured (labels : Labels) : Prop :=
  ∀ m ∈ labels.marks.toList, ∀ target ∈ m.position, ∀ u ∈ m.uses.toList,
    -0x800000 ≤ (distance target u.position).bmod UInt64.size →
    (distance target u.position).bmod UInt64.size ≤ 0x7fffff →
    (distance target u.position).bmod UInt64.size = distance target u.position

instance (labels : Labels) : Decidable labels.Measured :=
  inferInstanceAs (Decidable (∀ m ∈ labels.marks.toList, ∀ target ∈ m.position,
    ∀ u ∈ m.uses.toList, -0x800000 ≤ (distance target u.position).bmod UInt64.size →
      (distance target u.position).bmod UInt64.size ≤ 0x7fffff →
      (distance target u.position).bmod UInt64.size = distance target u.position))

/-- Every label that is used is set, every placeholder lies in the code and every distance fits into 24
bits. -/
structure Reconcilable (labels : Labels) (code : Buffer) : Prop where
  placed : ∀ m ∈ labels.marks.toList, m.uses ≠ #[] → m.position.isSome = true
  inside : ∀ m ∈ labels.marks.toList, ∀ u ∈ m.uses.toList, u.position < code.size
  near : ∀ m ∈ labels.marks.toList, ∀ target ∈ m.position, ∀ u ∈ m.uses.toList,
    -0x800000 ≤ distance target u.position ∧ distance target u.position ≤ 0x7fffff

/-- The placeholders hold the jumps to their labels; everything else is as it was. -/
structure Reconciled (labels : Labels) (code after : Buffer) : Prop where
  size_eq : after.size = code.size
  others : ∀ p, p ∉ labels.indices → after[p]? = code[p]?
  patched : ∀ m ∈ labels.marks.toList, ∀ u ∈ m.uses.toList, ∃ target i,
    m.position = some target ∧ after[u.position]? = some i ∧ i.opcode? = some u.op
      ∧ i.signed = distance target u.position
      ∧ (u.op.isJump = true → i.jumpTarget? u.position = some target)

/-! ### The list of placeholders -/

theorem map_position_placeholders (labels : Labels) :
    (placeholders labels.marks.toList).map (fun q => q.2.position) = labels.indices := by
  unfold placeholders indices
  rw [List.map_flatMap]
  congr 1
  funext m
  rw [List.map_map]
  rfl

theorem mem_placeholders_iff {marks : List Mark} {t : Option Nat} {u : Use} :
    (t, u) ∈ placeholders marks ↔ ∃ m ∈ marks, m.position = t ∧ u ∈ m.uses.toList := by
  simp only [placeholders, List.mem_flatMap, List.mem_map, Prod.mk.injEq]
  constructor
  · rintro ⟨m, hm, v, hv, ht, rfl⟩
    exact ⟨m, hm, ht, hv⟩
  · rintro ⟨m, hm, ht, hu⟩
    exact ⟨m, hm, u, hu, ht, rfl⟩

/-- The placeholder `u` of a label at `t` can be overwritten in a code of `size` instructions. -/
def Ready (size : Nat) (t : Option Nat) (u : Use) : Prop :=
  ∃ target, t = some target ∧ u.position < size
    ∧ Instruction.minSigned ≤ displacement size target u.position
    ∧ displacement size target u.position ≤ Instruction.maxSigned

/-- A distance that fits into the operand does not wrap around. -/
theorem displacement_of_near {size target position : Nat}
    (hlo : -0x800000 ≤ distance target position) (hhi : distance target position ≤ 0x7fffff) :
    displacement size target position = distance target position := by
  unfold displacement
  split
  · rfl
  · unfold UInt64.size
    exact Int.bmod_eq_of_le (by omega) (by omega)

namespace Measured

variable {labels : Labels} {size target : Nat} {m : Mark} {u : Use}

/-- A displacement that fits is the distance. -/
theorem displacement_eq (hw : labels.Measured) (hm : m ∈ labels.marks.toList)
    (ht : m.position = some target) (hu : u ∈ m.uses.toList)
    (hlo : -0x800000 ≤ displacement size target u.position)
    (hhi : displacement size target u.position ≤ 0x7fffff) :
    displacement size target u.position = distance target u.position := by
  unfold displacement at hlo hhi ⊢
  split
  · rfl
  · next hout =>
    rw [if_neg hout] at hlo hhi
    exact hw m hm target ht u hu hlo hhi

end Measured

/-- Below 2^63, no difference of positions wraps around. -/
theorem measured_of_lt {labels : Labels}
    (hset : ∀ m ∈ labels.marks.toList, ∀ target ∈ m.position, target < UInt64.size / 2)
    (hused : ∀ m ∈ labels.marks.toList, ∀ u ∈ m.uses.toList, u.position < UInt64.size / 2) :
    labels.Measured := by
  intro m hm target ht u hu _ _
  have htarget := hset m hm target ht
  have hposition := hused m hm u hu
  unfold UInt64.size at htarget hposition ⊢
  exact Int.bmod_eq_of_le (by unfold distance; omega) (by unfold distance; omega)

theorem reconcilable_iff {labels : Labels} {code : Buffer} (hw : labels.Measured) :
    labels.Reconcilable code ↔
      ∀ q ∈ placeholders labels.marks.toList, Ready code.size q.1 q.2 := by
  constructor
  · rintro ⟨placed, inside, near⟩ ⟨t, u⟩ hq
    obtain ⟨m, hm, rfl, hu⟩ := mem_placeholders_iff.mp hq
    have hne : m.uses ≠ #[] := by
      intro h
      simp [h] at hu
    obtain ⟨target, ht⟩ := Option.isSome_iff_exists.mp (placed m hm hne)
    have hnear := near m hm target ht u hu
    rw [← displacement_of_near hnear.1 hnear.2] at hnear
    exact ⟨target, ht, inside m hm u hu, hnear⟩
  · intro h
    have ready : ∀ m ∈ labels.marks.toList, ∀ u ∈ m.uses.toList, Ready code.size m.position u :=
      fun m hm u hu => h (m.position, u) (mem_placeholders_iff.mpr ⟨m, hm, rfl, hu⟩)
    refine ⟨?_, ?_, ?_⟩
    · intro m hm hne
      obtain ⟨u, hu⟩ := List.exists_mem_of_ne_nil m.uses.toList (by simpa using hne)
      obtain ⟨target, ht, -⟩ := ready m hm u hu
      simp [ht]
    · intro m hm u hu
      obtain ⟨_, _, hlt, -⟩ := ready m hm u hu
      exact hlt
    · intro m hm target ht u hu
      obtain ⟨target', ht', -, hnear⟩ := ready m hm u hu
      rw [Option.mem_def.mp ht] at ht'
      obtain rfl := Option.some.inj ht'
      rw [hw.displacement_eq hm ht hu hnear.1 hnear.2] at hnear
      exact hnear

/-! ### The walk over the placeholders, both ways -/

theorem resolved_of_range {size target : Nat} {u : Use}
    (hlo : Instruction.minSigned ≤ displacement size target u.position)
    (hhi : displacement size target u.position ≤ Instruction.maxSigned) :
    resolved size target u
      = .ok (.pack u.op (Instruction.signedField (displacement size target u.position))) := by
  have hwide : ¬ (displacement size target u.position < -0x80000000
      ∨ 0x7fffffff < displacement size target u.position) := by
    unfold Instruction.minSigned at hlo
    unfold Instruction.maxSigned at hhi
    omega
  simp only [resolved, if_neg hwide]
  exact Instruction.withSigned_eq_ok_iff.mpr ⟨⟨hlo, hhi⟩, rfl⟩

theorem Patched.of_append {ps qs : List (Option Nat × Use)} {a c : Buffer}
    (h : Patched (ps ++ qs) a c) : ∃ b, Patched ps a b ∧ Patched qs b c := by
  induction ps generalizing a with
  | nil => exact ⟨a, .nil, h⟩
  | cons p ps ih =>
    cases h with
    | cons hi hu h =>
      obtain ⟨b, hb, hc⟩ := ih h
      exact ⟨b, .cons hi hu hb, hc⟩

theorem Patched.patchUses {t : Nat} {us : List Use} {code after : Buffer}
    (h : Patched (us.map fun u => (some t, u)) code after) :
    Labels.patchUses t us code = .ok () after := by
  induction us generalizing code with
  | nil =>
    cases h
    rfl
  | cons u us ih =>
    cases h with
    | @cons _ _ i _ _ _ hi hu h =>
      simp only [Labels.patchUses, bind_eq_ok, ofExcept_eq_ok, get_eq_ok]
      refine ⟨code, code, ⟨rfl, rfl⟩, i, code, ⟨hi, rfl⟩, ?_⟩
      rw [if_pos hu]
      exact bind_eq_ok.mpr ⟨⟨⟩, _, modify_eq_ok.mpr rfl, ih h⟩

theorem Patched.reconcileFrom {l : Label} {marks : List Mark} {code after : Buffer}
    (h : Patched (placeholders marks) code after) :
    Labels.reconcileFrom l marks code = .ok () after := by
  induction marks generalizing l code with
  | nil =>
    cases h
    rfl
  | cons m ms ih =>
    obtain ⟨b, hm, hms⟩ := Patched.of_append
      (show Patched (m.uses.toList.map (fun u => (m.position, u)) ++ placeholders ms) code after
        from h)
    simp only [Labels.reconcileFrom]
    by_cases hu : m.uses.isEmpty = true
    · rw [Array.isEmpty_iff.mp hu] at hm
      cases hm
      simp only [hu, if_true]
      exact ih hms
    · -- a mark with a use is set, since its first placeholder was overwritten
      obtain ⟨v, vs, hv⟩ := List.exists_cons_of_ne_nil
        (show m.uses.toList ≠ [] by simpa using hu)
      cases ht : m.position with
      | none =>
        rw [hv, ht] at hm
        cases hm
      | some target =>
        rw [ht] at hm
        simp only [hu]
        exact bind_eq_ok.mpr ⟨(), b, hm.patchUses, ih hms⟩

/-- Reconciliation overwrites the placeholders one by one, and fails where one cannot be. -/
theorem reconcile_eq_ok_iff {labels : Labels} {code after : Buffer} :
    labels.reconcile code = .ok () after ↔ Patched (placeholders labels.marks.toList) code after :=
  ⟨patched_of_reconcileFrom, Patched.reconcileFrom⟩

theorem exists_patched_iff {ps : List (Option Nat × Use)} {code : Buffer} :
    (∃ after, Patched ps code after) ↔ ∀ q ∈ ps, Ready code.size q.1 q.2 := by
  induction ps generalizing code with
  | nil => simpa using ⟨code, .nil⟩
  | cons q ps ih =>
    constructor
    · rintro ⟨after, h⟩
      cases h with
      | @cons target u i _ _ _ hi hu h =>
        obtain ⟨⟨hlo, hhi⟩, -⟩ := resolved_eq_ok hi
        have rest := ih.mp ⟨after, h⟩
        rw [Array.size_setIfInBounds] at rest
        exact List.forall_mem_cons.mpr ⟨⟨target, rfl, hu, hlo, hhi⟩, rest⟩
    · intro h
      obtain ⟨t, u⟩ := q
      obtain ⟨⟨target, ht, hu, hlo, hhi⟩, rest⟩ := List.forall_mem_cons.mp h
      obtain rfl : t = some target := ht
      obtain ⟨i, hi⟩ : ∃ i, resolved code.size target u = .ok i := ⟨_, resolved_of_range hlo hhi⟩
      have ready : ∀ q ∈ ps, Ready (code.setIfInBounds u.position i).size q.1 q.2 := by
        rw [Array.size_setIfInBounds]
        exact rest
      obtain ⟨after, hp⟩ := ih.mpr ready
      exact ⟨after, .cons hi hu hp⟩

/-! ### The code afterwards -/

section Distinct

variable {ps : List (Option Nat × Use)} {code after : Buffer}

/-- Where no two placeholders share a position, each holds the displacement to its label. -/
theorem Patched.getElem?_of_nodup (h : Patched ps code after)
    (hd : (ps.map fun q => q.2.position).Nodup) {t : Option Nat} {u : Use} (hq : (t, u) ∈ ps) :
    ∃ target, t = some target
      ∧ Instruction.minSigned ≤ displacement code.size target u.position
      ∧ displacement code.size target u.position ≤ Instruction.maxSigned
      ∧ after[u.position]?
        = some (.pack u.op
          (Instruction.signedField (displacement code.size target u.position))) := by
  have alone : ∀ q ∈ ps, q.2.position = u.position → q = (t, u) :=
    fun q hq' hp => List.inj_on_of_nodup_map hd hq' hq hp
  obtain ⟨-, target, i, ht, hi, ha⟩ := h.getElem?_eq hq alone
  obtain ⟨⟨hlo, hhi⟩, rfl⟩ := resolved_eq_ok hi
  exact ⟨target, ht, hlo, hhi, ha⟩

/-- A second walk over the same placeholders writes what is there already. -/
theorem Patched.again (h : Patched ps code after) (hd : (ps.map fun q => q.2.position).Nodup) :
    Patched ps after after := by
  have ready : ∀ q ∈ ps, Ready after.size q.1 q.2 := by
    rw [h.size_eq]
    exact exists_patched_iff.mp ⟨after, h⟩
  obtain ⟨after', h'⟩ := exists_patched_iff.mpr ready
  have same : after' = after := by
    apply Array.ext_getElem?
    intro p
    by_cases hp : ∃ q ∈ ps, q.2.position = p
    · obtain ⟨⟨t, u⟩, hq, rfl⟩ := hp
      obtain ⟨target, ht, -, -, ha⟩ := h.getElem?_of_nodup hd hq
      obtain ⟨target', ht', -, -, ha'⟩ := h'.getElem?_of_nodup hd hq
      rw [ht] at ht'
      obtain rfl := Option.some.inj ht'
      rw [ha, ha', h.size_eq]
    · apply h'.getElem?_of_ne
      intro q hq hqp
      exact hp ⟨q, hq, hqp⟩
  rw [same] at h'
  exact h'

end Distinct

theorem reconciled_of_patched {labels : Labels} {code after : Buffer} (hd : labels.indices.Nodup)
    (hw : labels.Measured) (h : Patched (placeholders labels.marks.toList) code after) :
    labels.Reconciled code after := by
  rw [← map_position_placeholders] at hd
  refine ⟨h.size_eq, ?_, ?_⟩
  · intro p hp
    apply h.getElem?_of_ne
    intro q hq hqp
    apply hp
    rw [← map_position_placeholders]
    exact List.mem_map.mpr ⟨q, hq, hqp⟩
  · intro m hm u hu
    obtain ⟨target, ht, hlo, hhi, ha⟩ :=
      h.getElem?_of_nodup hd (mem_placeholders_iff.mpr ⟨m, hm, rfl, hu⟩)
    have hsame := hw.displacement_eq hm ht hu hlo hhi
    rw [hsame] at hlo hhi ha
    refine ⟨target, _, ht, ha, Instruction.opcode?_pack (Instruction.signedField_lt _), ?_, ?_⟩
    · exact Instruction.signed_pack hlo hhi
    · intro hop
      exact Instruction.jumpTarget?_distance hop hlo hhi

/-- Whatever the positions, reconciliation succeeds exactly when every placeholder is ready. -/
theorem exists_reconcile_iff {labels : Labels} {code : Buffer} :
    (∃ after, labels.reconcile code = .ok () after) ↔
      ∀ q ∈ placeholders labels.marks.toList, Ready code.size q.1 q.2 := by
  simp only [reconcile_eq_ok_iff]
  exact exists_patched_iff

/-- A loop with its jump out, its jump back and a label that is never used. -/
def loopLabels : Labels :=
  ⟨#[⟨some 4, #[⟨1, .jumpFalse⟩]⟩, ⟨some 0, #[⟨3, .jump⟩]⟩, ⟨none, #[]⟩]⟩

/-- The code of the loop, with two placeholders. -/
def loopCode : Buffer :=
  #[.plain .pushTrue, .plain .jumpFalse, .plain .nop, .plain .jump, .plain .pushNil, .plain .ret]

/-- A label at the last of all positions, and a jump to it at the first. -/
def wrappedLabels : Labels := ⟨#[⟨some (UInt64.size - 1), #[⟨0, .jump⟩]⟩]⟩

end Labels

end StackCode
