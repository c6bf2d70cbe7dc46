import StackCode.Proofs.Abreast
import StackCode.Proofs.SpareDups

/-!
# Scopes whose positions have moved

Two scopes are written side by side, and their codes differ in length. Labels, placeholders and the
record of lifetimes hold positions; on the other side each of them holds the position to which its own
has moved.

* `Recorder.Moved`: the records of lifetimes;
* `Scope.Relocated`: labels, placeholders, records and heights of two scopes;
* `Scope.Relocated.recode`: the codes change, behind all positions that are referred to;
* `Scope.Relocated.newLabel`, `jump`, `place`, `recorded`: both sides do the same.

Which codes correspond is not said here: a function gives the position to which each one has moved.
-/

namespace StackCode

/-! ### Records -/

namespace Span

variable {f g : Nat → Nat} {v : Span} {vs : List Span} {bound p n : Nat}

theorem lives_moved : (v.moved f).lives = v.lives := by
  unfold lives moved
  cases v.stop <;> rfl

theorem moved_congr (hv : v.Bounded bound) (h : ∀ p ≤ bound, g p = f p) : v.moved g = v.moved f := by
  unfold moved
  rw [h _ hv.1, Option.map_congr fun q hq => h q (hv.2 q hq)]

theorem active_moved : active (vs.map (moved f)) = active vs := by
  unfold active
  rw [List.filter_map, List.map_map]
  congr 1
  exact List.filter_congr fun v _ => lives_moved

theorem close_moved : close (f p) n (vs.map (moved f)) = (close p n vs).map (moved f) := by
  induction vs generalizing n with
  | nil => cases n <;> rfl
  | cons v vs ih =>
    rw [List.map_cons]
    cases hl : v.lives with
    | false => rw [close_cons_dead (by rw [lives_moved, hl]), close_cons_dead hl, ih, List.map_cons]
    | true =>
      cases n with
      | zero =>
        rw [close_cons_zero (by rw [lives_moved, hl]), close_cons_zero hl, ih, List.map_cons]
        rfl
      | succ n =>
        rw [close_cons_succ (by rw [lives_moved, hl]), close_cons_succ hl, ih, List.map_cons]

end Span

/-- Two records hold the same variables, at positions that have moved; none of them is behind `bound`. -/
def Recorder.Moved (f : Nat → Nat) (bound : Nat) (r r' : Recorder) : Prop :=
  ∃ spans, r.Records spans ∧ r'.Records (spans.map (Span.moved f)) ∧ ∀ v ∈ spans, v.Bounded bound

namespace Recorder.Moved

variable {f g : Nat → Nat} {bound p : Nat} {r r' : Recorder}

theorem congr (h : Recorder.Moved f bound r r') (hfg : ∀ p ≤ bound, g p = f p) (hp : bound ≤ p) :
    Recorder.Moved g p r r' := by
  obtain ⟨spans, hr, hr', hb⟩ := h
  refine ⟨spans, hr, ?_, fun v hv => (hb v hv).mono hp⟩
  rw [List.map_congr_left fun v hv => Span.moved_congr (hb v hv) hfg]
  exact hr'

theorem start (h : Recorder.Moved f bound r r') (name : String) (hp : bound ≤ p) :
    Recorder.Moved f p (r.start name p) (r'.start name (f p)) := by
  obtain ⟨spans, hr, hr', hb⟩ := h
  refine ⟨_, hr.start name p, ?_, ?_⟩
  · rw [List.map_append]
    exact hr'.start name (f p)
  · intro v hv
    obtain hv | hv := List.mem_append.mp hv
    · exact (hb v hv).mono hp
    · rw [List.mem_singleton.mp hv]
      exact ⟨Nat.le_refl _, nofun⟩

theorem stop (h : Recorder.Moved f bound r r') (count : Nat) (hp : bound ≤ p) :
    Recorder.Moved f p (r.stop count p) (r'.stop count (f p)) := by
  obtain ⟨spans, hr, hr', hb⟩ := h
  refine ⟨_, hr.stop count p, ?_, Span.Bounded.close hb hp⟩
  have hstop := hr'.stop count (f p)
  rw [Span.active_moved, Span.close_moved] at hstop
  exact hstop

/-- All variables die at the end of the code. -/
theorem finish (h : Recorder.Moved f bound r r') (hp : bound ≤ p) :
    List.Forall₂ (Lifetime.Moved f p) (r.finish p) (r'.finish (f p)) := by
  obtain ⟨spans, hr, hr', hb⟩ := h
  rw [hr.finish, hr'.finish, Span.close_moved, List.forall₂_map_left_iff, List.forall₂_map_right_iff,
    List.forall₂_map_right_iff, List.forall₂_same]
  intro w hw
  obtain ⟨q, hq, -⟩ := Span.stop_of_mem_close_zero hb hp hw
  refine ⟨w, Span.Bounded.close hb hp w hw, ?_, rfl, rfl⟩
  rw [Span.lives, hq]
  rfl

end Recorder.Moved

/-! ### Both scopes -/

/-- Labels, records and heights of two scopes correspond, where `f` gives the position to which each
position has moved. No position behind `bound` is recorded. -/
structure Scope.Relocated (f : Nat → Nat) (bound : Nat) (s s' : Scope) : Prop where
  size : s'.code.size = f s.code.size
  labels : s'.labels.marks.size = s.labels.marks.size
  inside : ∀ l q, s.labels.position? l = some q → q ≤ s.code.size
  position : ∀ l, s'.labels.position? l = (s.labels.position? l).map f
  before : ∀ l u, s.labels.Uses l u →
    s.code.toList[u.position]? = some (.plain u.op) ∧ u.op.isJump = true
  uses : ∀ l u', s'.labels.Uses l u' ↔ ∃ u, s.labels.Uses l u ∧ u' = ⟨f u.position, u.op⟩
  bounded : bound ≤ s.code.size
  recorder : Option.Rel (Recorder.Moved f bound) s.recorder s'.recorder
  depth : s'.depth = s.depth
  peak : s'.peak = s.peak

namespace Scope.Relocated

variable {f g : Nat → Nat} {bound bound' : Nat} {s s' t t' : Scope}

theorem new {n n' : Nat} {kind : ScopeKind} {signature : Signature} {record : Bool} (hf : f 0 = 0) :
    (Scope.new n kind signature record).Relocated f 0 (Scope.new n' kind signature record) := by
  refine ⟨hf.symm, rfl, ?_, ?_, ?_, ?_, Nat.le_refl 0, ?_, rfl, rfl⟩
  · intro l q hq
    exact absurd ((Labels.position?_empty l).symm.trans hq) (Option.some_ne_none q).symm
  · intro l
    show Labels.position? {} l = (Labels.position? {} l).map _
    rw [Labels.position?_empty, Option.map_none]
  · exact fun l u hu => absurd hu Labels.not_uses_empty
  · refine fun l u => ⟨fun hu => absurd hu Labels.not_uses_empty, ?_⟩
    rintro ⟨v, hv, -⟩
    exact absurd hv Labels.not_uses_empty
  · cases record with
    | true => exact .some ⟨[], ⟨rfl, rfl⟩, ⟨rfl, rfl⟩, fun v hv => absurd hv List.not_mem_nil⟩
    | false => exact .none

/-- Tables and children are of no account. -/
theorem congr (h : s.Relocated f bound s') (hcode : t.code = s.code) (hlabels : t.labels = s.labels)
    (hrecorder : t.recorder = s.recorder) (hdepth : t.depth = s.depth) (hpeak : t.peak = s.peak)
    (hcode' : t'.code = s'.code) (hlabels' : t'.labels = s'.labels)
    (hrecorder' : t'.recorder = s'.recorder) (hdepth' : t'.depth = s'.depth)
    (hpeak' : t'.peak = s'.peak) : t.Relocated f bound t' := by
  refine ⟨?_, ?_, ?_, ?_, ?_, ?_, ?_, ?_, ?_, ?_⟩
  · rw [hcode, hcode']; exact h.size
  · rw [hlabels, hlabels']; exact h.labels
  · rw [hcode, hlabels]; exact h.inside
  · rw [hlabels, hlabels']; exact h.position
  · rw [hcode, hlabels]; exact h.before
  · rw [hlabels, hlabels']; exact h.uses
  · rw [hcode]; exact h.bounded
  · rw [hrecorder, hrecorder']; exact h.recorder
  · rw [hdepth, hdepth']; exact h.depth
  · rw [hpeak, hpeak']; exact h.peak

/-- A placeholder is in the code. -/
theorem use_lt (h : s.Relocated f bound s') {l : Label} {u : Use} (hu : s.labels.Uses l u) :
    u.position < s.code.size := by
  rw [← Array.length_toList]
  exact (List.getElem?_eq_some_iff.mp (h.before l u hu).1).1

/-- Both codes change behind all positions that are referred to, and these do not move. -/
theorem recode (h : s.Relocated f bound s') {k : Nat} (hfg : ∀ p ≤ k, g p = f p)
    (hposition : ∀ l q, s.labels.position? l = some q → q ≤ k)
    (huses : ∀ l u, s.labels.Uses l u → u.position ≤ k
      ∧ t.code.toList[u.position]? = some (.plain u.op))
    (hk : bound ≤ k) (hsize : k ≤ t.code.size) (hsize' : t'.code.size = g t.code.size)
    (hbound : bound ≤ bound') (hbound' : bound' ≤ t.code.size)
    (hlabels : t.labels = s.labels) (hlabels' : t'.labels = s'.labels)
    (hrecorder : t.recorder = s.recorder) (hrecorder' : t'.recorder = s'.recorder)
    (hdepth : t'.depth = t.depth) (hpeak : t'.peak = t.peak) : t.Relocated g bound' t' := by
  refine ⟨hsize', ?_, ?_, ?_, ?_, ?_, hbound', ?_, hdepth, hpeak⟩
  · rw [hlabels, hlabels']
    exact h.labels
  · intro l q hq
    rw [hlabels] at hq
    exact Nat.le_trans (hposition l q hq) hsize
  · intro l
    rw [hlabels, hlabels', h.position l]
    exact Option.map_congr fun q hq => (hfg q (hposition l q hq)).symm
  · intro l u hu
    rw [hlabels] at hu
    exact ⟨(huses l u hu).2, (h.before l u hu).2⟩
  · intro l u'
    rw [hlabels, hlabels', h.uses l u']
    refine exists_congr fun u => and_congr_right fun hu => ?_
    rw [hfg _ (huses l u hu).1]
  · rw [hrecorder, hrecorder']
    exact h.recorder.imp fun r r' hr => hr.congr (fun p hp => hfg p (Nat.le_trans hp hk)) hbound

/-- The codes grow. -/
theorem grow (h : s.Relocated f bound s') (hfg : ∀ p ≤ s.code.size, g p = f p)
    (hcode : s.code.toList <+: t.code.toList) (hsize : t'.code.size = g t.code.size)
    (hlabels : t.labels = s.labels) (hlabels' : t'.labels = s'.labels)
    (hrecorder : t.recorder = s.recorder) (hrecorder' : t'.recorder = s'.recorder)
    (hdepth : t'.depth = t.depth) (hpeak : t'.peak = t.peak) : t.Relocated g bound t' := by
  have hle : s.code.size ≤ t.code.size := by
    rw [← Array.length_toList, ← Array.length_toList]
    exact hcode.length_le
  refine h.recode hfg h.inside (fun l u hu => ⟨Nat.le_of_lt (h.use_lt hu), ?_⟩) h.bounded hle hsize
    (Nat.le_refl _) (Nat.le_trans h.bounded hle) hlabels hlabels' hrecorder hrecorder' hdepth hpeak
  exact getElem?_of_initial hcode (h.before l u hu).1

/-- Both sides append the same instruction. -/
theorem write (h : s.Relocated f bound s') {i : Instruction} (hfg : ∀ p ≤ s.code.size, g p = f p)
    (hg : g (s.code.size + 1) = f s.code.size + 1) :
    (s.appended i).Relocated g bound (s'.appended i) := by
  have hcode : (s.appended i).code.toList = s.code.toList ++ [i] := Array.toList_push
  have hsize : (s.appended i).code.size = s.code.size + 1 := Array.size_push _
  have hsize' : (s'.appended i).code.size = s'.code.size + 1 := Array.size_push _
  refine h.grow hfg ?_ ?_ rfl rfl rfl rfl ?_ ?_
  · rw [hcode]
    exact List.prefix_append _ _
  · rw [hsize, hsize', hg, h.size]
  · rw [depth_appended, depth_appended, h.depth]
  · rw [peak_appended, peak_appended, depth_appended, depth_appended, h.depth, h.peak]

/-- Both sides make a label. -/
theorem newLabel (h : s.Relocated f bound s') :
    (s.after .newLabel).Relocated f bound (s'.after .newLabel) :=
  { h with
    labels := by
      show (s'.labels.marks.push {}).size = (s.labels.marks.push {}).size
      rw [Array.size_push, Array.size_push, h.labels]
    inside := fun l q hq => h.inside l q (by rw [← Labels.position?_push]; exact hq)
    position := fun l => by
      show Labels.position? ⟨_⟩ l = (Labels.position? ⟨_⟩ l).map _
      rw [Labels.position?_push, Labels.position?_push]
      exact h.position l
    before := fun l u hu => h.before l u (Labels.uses_push.mp hu)
    uses := fun l u' => by
      show Labels.Uses ⟨_⟩ l u' ↔ ∃ u, Labels.Uses ⟨_⟩ l u ∧ _
      rw [Labels.uses_push, h.uses l u']
      simp only [Labels.uses_push] }

/-- Both sides append a placeholder. -/
theorem jump (h : s.Relocated f bound s') {op : Opcode} {l : Label} (hop : op.isJump = true)
    (hl : l < s.labels.marks.size) (hfg : ∀ p ≤ s.code.size, g p = f p)
    (hg : g (s.code.size + 1) = f s.code.size + 1) :
    (s.after (.jump op l)).Relocated g bound (s'.after (.jump op l)) := by
  have hp := h.write (i := .plain op) hfg hg
  have hl' : l < s'.labels.marks.size := by rw [h.labels]; exact hl
  have hlast : g s.code.size = s'.code.size := by rw [hfg _ (Nat.le_refl _), h.size]
  refine { hp with labels := ?_, inside := ?_, position := ?_, before := ?_, uses := ?_ }
  · show (s'.labels.marks.modify l _).size = (s.labels.marks.modify l _).size
    rw [Array.size_modify, Array.size_modify, h.labels]
  · intro k q hq
    exact hp.inside k q (by rw [← Labels.position?_used]; exact hq)
  · intro k
    show Labels.position? ⟨_⟩ k = (Labels.position? ⟨_⟩ k).map _
    rw [Labels.position?_used, Labels.position?_used]
    exact hp.position k
  · intro k u hu
    obtain hu | ⟨-, rfl⟩ := (Labels.uses_used hl).mp hu
    · exact hp.before k u hu
    · refine ⟨?_, hop⟩
      show (s.code.push _).toList[s.code.size]? = _
      rw [Array.getElem?_toList, Array.getElem?_push_size]
  · intro k u'
    show Labels.Uses ⟨_⟩ k u' ↔ ∃ u, Labels.Uses ⟨_⟩ k u ∧ _
    rw [Labels.uses_used hl', show s'.labels.Uses k u' ↔ _ from hp.uses k u']
    simp only [Labels.uses_used hl]
    constructor
    · rintro (⟨u, hu, rfl⟩ | ⟨rfl, rfl⟩)
      · exact ⟨u, .inl hu, rfl⟩
      · exact ⟨⟨s.code.size, op⟩, .inr ⟨rfl, rfl⟩, by rw [hlast]⟩
    · rintro ⟨u, hu | ⟨rfl, rfl⟩, rfl⟩
      · exact .inl ⟨u, hu, rfl⟩
      · exact .inr ⟨rfl, by rw [hlast]⟩

/-- Both sides set a label. -/
theorem place (h : s.Relocated f bound s') {l : Label} (hl : l < s.labels.marks.size) :
    (s.after (.place l)).Relocated f bound (s'.after (.place l)) := by
  have hl' : l < s'.labels.marks.size := by rw [h.labels]; exact hl
  refine { h with labels := ?_, inside := ?_, position := ?_, before := ?_, uses := ?_ }
  · show (s'.labels.marks.modify l _).size = (s.labels.marks.modify l _).size
    rw [Array.size_modify, Array.size_modify, h.labels]
  · intro k q hq
    have hq : Labels.position? ⟨s.labels.marks.modify l (·.placed s.code.size)⟩ k = some q := hq
    rw [Labels.position?_placed hl] at hq
    split at hq
    · exact Nat.le_of_eq (Option.some.inj hq).symm
    · exact h.inside k q hq
  · intro k
    show Labels.position? ⟨_⟩ k = (Labels.position? ⟨_⟩ k).map _
    rw [Labels.position?_placed hl, Labels.position?_placed hl']
    split
    · rw [Option.map_some, h.size]
    · exact h.position k
  · exact fun k u hu => h.before k u (Labels.uses_placed.mp hu)
  · intro k u'
    show Labels.Uses ⟨_⟩ k u' ↔ ∃ u, Labels.Uses ⟨_⟩ k u ∧ _
    rw [Labels.uses_placed, h.uses k u']
    simp only [Labels.uses_placed]

/-- Both sides receive a value. -/
theorem receive (h : s.Relocated f bound s') :
    (s.after .receive).Relocated f bound (s'.after .receive) := by
  refine { h with depth := ?_, peak := ?_ }
  · show ((s'.depth : Int) + 1).toNat = ((s.depth : Int) + 1).toNat
    rw [h.depth]
  · show max s'.peak ((s'.depth : Int) + 1).toNat = max s.peak ((s.depth : Int) + 1).toNat
    rw [h.depth, h.peak]

/-- Both sides declare a variable at the position that they have reached. -/
theorem declare (h : s.Relocated f bound s') (name : String) (fresh : Bool) :
    (s.after (.declare name fresh)).Relocated f s.code.size (s'.after (.declare name fresh)) := by
  refine { h with bounded := Nat.le_refl _, recorder := ?_ }
  cases fresh with
  | true =>
    simp only [after, if_true, h.size]
    exact h.recorder.map fun r r' hr => hr.start name h.bounded
  | false => exact h.recorder.imp fun r r' hr => hr.congr (fun _ _ => rfl) h.bounded

/-- Variables die at the position that both sides have reached. -/
theorem leave (h : s.Relocated f bound s') (count : Nat) :
    (s.after (.leave count)).Relocated f s.code.size (s'.after (.leave count)) := by
  refine { h with bounded := Nat.le_refl _, recorder := ?_ }
  simp only [after, h.size]
  exact h.recorder.map fun r r' hr => hr.stop count h.bounded

/-- A duplication and a store are not placeholders. -/
theorem use_before (h : s.Relocated f bound s') {before : List Instruction} {i j : Instruction}
    {op : Opcode} (hcode : s.code.toList = before ++ [i] ++ [j]) (hdup : i.opcode? = some .dup)
    (hop : j.opcode? = some op) (hst : op.isStore = true) {l : Label} {u : Use}
    (hu : s.labels.Uses l u) : u.position < before.length := by
  obtain ⟨hword, hjump⟩ := h.before l u hu
  refine Nat.not_le.mp fun hle => ?_
  rw [hcode, List.append_assoc, List.getElem?_append_right hle] at hword
  have hmem := List.mem_of_getElem? hword
  simp only [List.cons_append, List.nil_append, List.mem_cons, List.not_mem_nil, or_false] at hmem
  obtain heq | heq := hmem
  · rw [← heq, Instruction.opcode?_plain] at hdup
    rw [Option.some.inj hdup] at hjump
    cases hjump
  · rw [← heq, Instruction.opcode?_plain] at hop
    rw [Option.some.inj hop, (Instruction.effectOf_store hst j).2.2.1] at hjump
    cases hjump

/-- One side takes a duplication back, and all positions before it stay where they are. -/
theorem elide (h : s.Relocated f bound s') {before : List Instruction} {i j : Instruction}
    {op : Opcode} (hcode : s.code.toList = before ++ [i] ++ [j]) (hdup : i.opcode? = some .dup)
    (hop : j.opcode? = some op) (hst : op.isStore = true)
    (hpos : ∀ l q, s.labels.position? l = some q → q < before.length)
    (hfg : ∀ p ≤ before.length, g p = f p) (hbound : bound ≤ before.length)
    (hsize : t'.code.size = g (before.length + 1)) (hlabels : t'.labels = s'.labels)
    (hrecorder : t'.recorder = s'.recorder) (hdepth : t'.depth = s.withoutSpareDup.depth)
    (hpeak : t'.peak = s.withoutSpareDup.peak) :
    s.withoutSpareDup.Relocated g s.withoutSpareDup.code.size t' := by
  have hafter := toList_withoutSpareDup hcode
  have hlength : s.withoutSpareDup.code.size = before.length + 1 := by
    rw [← Array.length_toList, hafter, List.length_append]
    rfl
  refine h.recode hfg (fun l q hq => Nat.le_of_lt (hpos l q hq)) (fun l u hu => ?_) hbound (by omega)
    (by rw [hsize, hlength]) (by omega) (Nat.le_refl _) rfl hlabels rfl hrecorder hdepth hpeak
  have hlt := h.use_before hcode hdup hop hst hu
  obtain ⟨hword, -⟩ := h.before l u hu
  rw [hcode, List.append_assoc, List.getElem?_append_left hlt] at hword
  rw [hafter, List.getElem?_append_left hlt]
  exact ⟨Nat.le_of_lt hlt, hword⟩

end Scope.Relocated

/-- Only jumps have targets. -/
theorem Instruction.isJump_of_jumpTarget? {i : Instruction} {ip t : Nat}
    (h : i.jumpTarget? ip = some t) : ∃ op, i.opcode? = some op ∧ op.isJump = true := by
  unfold jumpTarget? at h
  split at h
  · next op hop =>
    split at h
    · next hjump => exact ⟨op, hop, hjump⟩
    · cases h
  · cases h

section Finish

variable {f : Nat → Nat} {bound : Nat} {s s' : Scope} {h h' : History}
  {begins begins' : Step → Nat → Prop} {code code' : Buffer}

/-- When the placeholders are overwritten, a jump leads to the position to which its target has moved. -/
theorem Scope.Relocated.jump_of_reconcile (hb : s.Relocated f bound s') (hs : Logged h begins s)
    (hs' : Logged h' begins' s') (hcode : s.labels.reconcile s.code = .ok () code)
    (hcode' : s'.labels.reconcile s'.code = .ok () code') {p : Nat} {i : Instruction} {op : Opcode}
    (hi : code.toList[p]? = some i) (hop : i.opcode? = some op) (hjump : op.isJump = true) :
    ∃ j t, code'.toList[f p]? = some j ∧ j.opcode? = some op ∧ i.jumpTarget? p = some t
      ∧ t ≤ code.toList.length ∧ j.jumpTarget? (f p) = some (f t) := by
  obtain ⟨l, q, hu, hq, htarget⟩ := hs.use_of_reconcile hcode hi hop hjump
  have hu' : s'.labels.Uses l ⟨f p, op⟩ := (hb.uses l _).mpr ⟨_, hu, rfl⟩
  obtain ⟨q', hq', hlo, hhi, hj⟩ :=
    Labels.getElem?_of_reconcile hcode' hs'.single (fun _ _ => hs'.position_le) hu'
  rw [hb.position l, hq, Option.map_some] at hq'
  obtain rfl := Option.some.inj hq'
  have hinside := hb.inside l q hq
  rw [← Labels.size_of_reconcile hcode, ← Array.length_toList] at hinside
  exact ⟨_, q, by rw [Array.getElem?_toList]; exact hj,
    Instruction.opcode?_pack (Instruction.signedField_lt _), htarget, hinside,
    Instruction.jumpTarget?_distance hjump hlo hhi⟩

end Finish

end StackCode
