import StackCode.Proofs.LineMarks
import StackCode.Proofs.Relocation

/-!
# Scopes with and without line marks

Two scopes are written side by side. One marks lines, the other one does not. Everything that holds a
position holds the one to which it has moved on the other side, and the stack has the same height.

* `Scope.Unlined`: code, labels, records and heights of two scopes;
* `Scope.Unlined.line`: one side marks a line;
* `Scope.Unlined.after`: both sides do the same;
* `Scope.Held`, `Scope.Sealed`: how a code ends whose last value is dropped;
* `Scope.Unlined.endsInSpareDup_eq`, `elide`: both sides take a duplication back, or none does;
* `Scope.Unlined.linesDropped`, `unlined`: both units end.

A label in front of a line mark and a label behind it move to the same position. So a duplication may
be spare on one side only, if a line mark stands right before it; a code that is sealed has none there.
-/

namespace StackCode

/-! ### Both scopes -/

/-- Two scopes correspond, the second one without line marks. No position behind `bound` is recorded. -/
structure Scope.Unlined (bound : Nat) (s s' : Scope) : Prop
    extends s.Relocated (rank s.code.toList) bound s' where
  coded : s'.code.toList = withoutLines s.code.toList
  known : ∀ i ∈ s.code.toList, ∃ op, i.opcode? = some op
  /-- A line mark has no effect on the height, nor then on the peak. -/
  high : s.depth ≤ s.peak

namespace Scope.Unlined

variable {bound : Nat} {s s' t t' : Scope} {i j : Instruction} {before : List Instruction}

theorem new {n n' : Nat} {kind : ScopeKind} {signature : Signature} {record : Bool} :
    (Scope.new n kind signature record).Unlined 0 (Scope.new n' kind signature record) :=
  ⟨.new rfl, rfl, fun _ hi => absurd hi List.not_mem_nil, Nat.le_refl 0⟩

/-- Tables and children are of no account. -/
theorem congr (h : s.Unlined bound s') (hcode : t.code = s.code) (hlabels : t.labels = s.labels)
    (hrecorder : t.recorder = s.recorder) (hdepth : t.depth = s.depth) (hpeak : t.peak = s.peak)
    (hcode' : t'.code = s'.code) (hlabels' : t'.labels = s'.labels)
    (hrecorder' : t'.recorder = s'.recorder) (hdepth' : t'.depth = s'.depth)
    (hpeak' : t'.peak = s'.peak) : t.Unlined bound t' := by
  refine ⟨?_, ?_, ?_, ?_⟩
  · rw [hcode]
    exact h.toRelocated.congr hcode hlabels hrecorder hdepth hpeak hcode' hlabels' hrecorder' hdepth'
      hpeak'
  · rw [hcode, hcode']; exact h.coded
  · rw [hcode]; exact h.known
  · rw [hdepth, hpeak]; exact h.high

theorem high_appended (s : Scope) (i : Instruction) : (s.appended i).depth ≤ (s.appended i).peak := by
  rw [peak_appended]
  exact Nat.le_max_right _ _

theorem known_concat (h : s.Unlined bound s') {op : Opcode} (hi : i.opcode? = some op) :
    ∀ j ∈ s.code.toList ++ [i], ∃ op, j.opcode? = some op := by
  intro j hj
  obtain hj | hj := List.mem_append.mp hj
  · exact h.known j hj
  · rw [List.mem_singleton.mp hj]
    exact ⟨op, hi⟩

/-- Positions in the code do not move when an instruction is appended. -/
theorem rank_concat (s : Scope) (i : Instruction) :
    ∀ p ≤ s.code.size, rank (s.code.toList ++ [i]) p = rank s.code.toList p := by
  intro p hp
  exact rank_append (by rw [Array.length_toList]; exact hp)

/-- One side marks a line. -/
theorem line (h : s.Unlined bound s') {n : Nat} (hn : n ≤ Instruction.maxUnsigned) :
    (s.appended (.pack .line n)).Unlined bound s' := by
  have hop : (Instruction.pack .line n).opcode? = some .line :=
    Instruction.opcode?_pack (Nat.lt_succ_of_le hn)
  have hline : (Instruction.pack .line n).isLine = true := by rw [Instruction.isLine, hop]; rfl
  have hcode : (s.appended (.pack .line n)).code.toList = s.code.toList ++ [.pack .line n] :=
    Array.toList_push
  have hsize : (s.appended (.pack .line n)).code.size
      = (s.code.toList ++ [Instruction.pack .line n]).length := by
    rw [← hcode, Array.length_toList]
  have hdepth : (s.appended (.pack .line n)).depth = s.depth := by
    rw [depth_appended, Instruction.net, Instruction.effect?, hop]
    simp [Instruction.effectOf]
  refine ⟨?_, ?_, ?_, high_appended s _⟩
  · rw [hcode]
    refine h.toRelocated.grow (rank_concat s _) ?_ ?_ rfl rfl rfl rfl ?_ ?_
    · rw [hcode]
      exact List.prefix_append _ _
    · rw [hsize, rank_length, withoutLines_concat_line hline, ← h.coded, Array.length_toList]
    · rw [hdepth, h.depth]
    · rw [peak_appended, hdepth, Nat.max_eq_left h.high, h.peak]
  · rw [hcode, withoutLines_concat_line hline, h.coded]
  · rw [hcode]
    exact h.known_concat hop

/-- Both sides append the same instruction, which is no line mark; labels are taken care of. -/
theorem append (h : s.Unlined bound s') {op : Opcode} (hi : i.opcode? = some op)
    (hline : i.isLine = false) (hcode : t.code = s.code.push i) (hcode' : t'.code = s'.code.push i)
    (ht : t.Relocated (rank (s.code.toList ++ [i])) bound t') (hhigh : t.depth ≤ t.peak) :
    t.Unlined bound t' := by
  have hcode : t.code.toList = s.code.toList ++ [i] := by rw [hcode, Array.toList_push]
  have hcode' : t'.code.toList = s'.code.toList ++ [i] := by rw [hcode', Array.toList_push]
  refine ⟨?_, ?_, ?_, hhigh⟩
  · rw [hcode]
    exact ht
  · rw [hcode, hcode', withoutLines_concat hline, h.coded]
  · rw [hcode]
    exact h.known_concat hi

theorem rank_size (hline : i.isLine = false) :
    rank (s.code.toList ++ [i]) (s.code.size + 1) = rank s.code.toList s.code.size + 1 := by
  have hlast : (s.code.toList ++ [i])[s.code.size]? = some i := by
    rw [← Array.length_toList, List.getElem?_concat_length]
  rw [rank_succ hlast hline, rank_concat s i _ (Nat.le_refl _)]

/-- Both sides append the same instruction, which is no line mark. -/
theorem write (h : s.Unlined bound s') {op : Opcode} (hi : i.opcode? = some op)
    (hline : i.isLine = false) : (s.appended i).Unlined bound (s'.appended i) :=
  h.append hi hline rfl rfl (h.toRelocated.write (rank_concat s i) (rank_size hline))
    (high_appended s i)

/-- Both sides append the same instructions, none of which is a line mark. -/
theorem writeAll {is : List Instruction} (h : s.Unlined bound s')
    (his : ∀ i ∈ is, ∃ op, i.opcode? = some op ∧ op ≠ .line) :
    (s.appendedAll is).Unlined bound (s'.appendedAll is) := by
  induction is generalizing s s' with
  | nil => exact h
  | cons i is ih =>
    obtain ⟨⟨op, hi, hop⟩, his⟩ := List.forall_mem_cons.mp his
    exact ih (h.write hi (Instruction.isLine_eq_false hi hop)) his

/-- Both sides do the same, and no line is marked. -/
theorem after (h : s.Unlined bound s') {action : Action} (hfits : action.Fits s)
    (hline : ∀ i, action = .write i → i.isLine = false) :
    (s.after action).Unlined (action.boundAfter s bound) (s'.after action) := by
  cases action with
  | idle => exact h
  | write i =>
    obtain ⟨op, hi, -⟩ := hfits
    exact h.write hi (hline i rfl)
  | receive => exact { h with toRelocated := h.toRelocated.receive, high := Nat.le_max_right _ _ }
  | newLabel => exact { h with toRelocated := h.toRelocated.newLabel }
  | jump op l =>
    have hne : op ≠ .line := by
      rintro rfl
      cases hfits.1
    have hplain := Instruction.isLine_eq_false (Instruction.opcode?_plain op) hne
    exact h.append (Instruction.opcode?_plain op) hplain rfl rfl
      (h.toRelocated.jump hfits.1 hfits.2 (rank_concat s _) (rank_size hplain)) (high_appended s _)
  | place l => exact { h with toRelocated := h.toRelocated.place hfits }
  | declare name fresh => exact { h with toRelocated := h.toRelocated.declare name fresh }
  | leave count => exact { h with toRelocated := h.toRelocated.leave count }

end Scope.Unlined

/-! ### Before a value is dropped -/

/-- Position `p` is behind an instruction that is no line mark, or a label is set there. -/
def Scope.Held (s : Scope) (p : Nat) : Prop :=
  (∃ q i, p = q + 1 ∧ s.code.toList[q]? = some i ∧ i.isLine = false)
    ∨ ∃ l, s.labels.position? l = some p

/-- What is held stays so when an instruction is appended. -/
theorem Scope.Held.concat {s t : Scope} {p : Nat} {i : Instruction} (h : s.Held p)
    (hcode : t.code.toList = s.code.toList ++ [i]) (hlabels : t.labels = s.labels) : t.Held p := by
  obtain ⟨q, j, hq, hj, hline⟩ | ⟨l, hl⟩ := h
  · refine .inl ⟨q, j, hq, ?_, hline⟩
    rw [hcode]
    exact getElem?_of_initial (List.prefix_append _ _) hj
  · refine .inr ⟨l, ?_⟩
    rw [hlabels]
    exact hl

/-- The code ends in the same way without its line marks: at a label, in an instruction that is no store,
or in two instructions with no line mark before them. -/
inductive Scope.Sealed (s : Scope) : Prop where
  | label (l : Label) (h : s.labels.position? l = some s.code.size)
  | firm {before : List Instruction} {i : Instruction} {op : Opcode}
      (hcode : s.code.toList = before ++ [i]) (hi : i.opcode? = some op) (hop : op.isStore = false)
      (hline : op ≠ .line)
  | stored {before : List Instruction} {i j : Instruction} (hcode : s.code.toList = before ++ [i] ++ [j])
      (hi : i.isLine = false) (hj : j.isLine = false) (hbefore : s.Held before.length)

theorem Scope.held_of_last {s : Scope} {before : List Instruction} {i : Instruction}
    (hcode : s.code.toList = before ++ [i]) (hi : i.isLine = false) : s.Held s.code.size := by
  have hsize : s.code.size = before.length + 1 := by
    rw [← Array.length_toList, hcode, List.length_append]
    rfl
  exact .inl ⟨before.length, i, hsize, by rw [hcode, List.getElem?_concat_length], hi⟩

/-- No line mark is at the end of a code that is sealed. -/
theorem Scope.Sealed.held {s : Scope} (h : s.Sealed) : s.Held s.code.size := by
  cases h with
  | label l h => exact .inr ⟨l, h⟩
  | firm hcode hi _ hline => exact held_of_last hcode (Instruction.isLine_eq_false hi hline)
  | stored hcode _ hj _ => exact held_of_last hcode hj

namespace Scope.Unlined

variable {bound : Nat} {s s' t t' : Scope} {i j : Instruction} {before : List Instruction}

/-- All labels are set before a position that is held, if they are so on the other side. -/
theorem positions_lt_iff (h : s.Unlined bound s') {p : Nat} (hp : s.Held p) :
    (∀ l q, s'.labels.position? l = some q → q < rank s.code.toList p)
      ↔ ∀ l q, s.labels.position? l = some q → q < p := by
  constructor
  · intro hbefore l q hq
    have hlt := hbefore l (rank s.code.toList q) (by rw [h.position l, hq, Option.map_some])
    refine Nat.not_le.mp fun hle => ?_
    exact absurd hlt (Nat.not_lt.mpr (rank_le_rank hle))
  · intro hbefore l q' hq'
    rw [h.position l] at hq'
    obtain ⟨q, hq, rfl⟩ := Option.map_eq_some_iff.mp hq'
    obtain ⟨r, i, rfl, hi, hline⟩ | ⟨k, hk⟩ := hp
    · rw [rank_succ hi hline]
      exact Nat.lt_succ_of_le (rank_le_rank (Nat.le_of_lt_succ (hbefore l q hq)))
    · exact absurd (hbefore k p hk) (Nat.lt_irrefl p)

/-- A code that is sealed has a spare duplication if and only if it has one without line marks. -/
theorem endsInSpareDup_eq (h : s.Unlined bound s') (hs : s.Sealed) :
    s'.endsInSpareDup = s.endsInSpareDup := by
  cases hs with
  | label l hl =>
    rw [endsInSpareDup_of_label hl]
    refine endsInSpareDup_of_label (l := l) ?_
    rw [h.position l, hl, Option.map_some, h.size]
  | firm hcode hi hop hline =>
    have hcode' := h.coded
    rw [hcode, withoutLines_concat (Instruction.isLine_eq_false hi hline)] at hcode'
    rw [endsInSpareDup_of_last hcode hi hop, endsInSpareDup_of_last hcode' hi hop]
  | @stored before i j hcode hi hj hbefore =>
    have hcode' := h.coded
    rw [hcode, withoutLines_concat hj, withoutLines_concat hi] at hcode'
    have hrank : (withoutLines before).length = rank s.code.toList before.length := by
      rw [hcode, List.append_assoc, rank_append (Nat.le_refl _), rank_length]
    have hpair : ∀ {t : Scope} {front : List Instruction}, t.code.toList = front ++ [i] ++ [j] →
        (t.endsInSpareDup = true ↔ i.opcode? = some .dup
          ∧ (∃ op, j.opcode? = some op ∧ op.isStore = true)
          ∧ ∀ l q, t.labels.position? l = some q → q < front.length) := by
      intro t front ht
      rw [endsInSpareDup_iff_exists]
      constructor
      · rintro ⟨front', i', j', op, ht', hdup, hop, hst, hpos⟩
        obtain ⟨heq, hj⟩ := List.append_inj' (ht.symm.trans ht') rfl
        obtain ⟨rfl, hi⟩ := List.append_inj' heq rfl
        obtain rfl := List.singleton_inj.mp hi
        obtain rfl := List.singleton_inj.mp hj
        exact ⟨hdup, ⟨op, hop, hst⟩, hpos⟩
      · rintro ⟨hdup, ⟨op, hop, hst⟩, hpos⟩
        exact ⟨front, i, j, op, ht, hdup, hop, hst, hpos⟩
    rw [Bool.eq_iff_iff, hpair hcode', hpair hcode, hrank, h.positions_lt_iff hbefore]

/-- Both sides take a duplication back. -/
theorem elide (h : s.Unlined bound s') (hspare : s.endsInSpareDup = true)
    (hbound : bound + 2 ≤ s.code.size) :
    s.withoutSpareDup.Unlined s.withoutSpareDup.code.size s'.withoutSpareDup := by
  obtain ⟨before, i, j, op, hcode, hdup, hop, hst, hpos⟩ := endsInSpareDup_iff_exists.mp hspare
  have hsize : s.code.size = before.length + 2 := by
    rw [← Array.length_toList, hcode]
    simp
  have hi : i.isLine = false := Instruction.isLine_eq_false hdup nofun
  have hj : j.isLine = false := Instruction.isLine_eq_false hop (by rintro rfl; cases hst)
  have hcode' := h.coded
  rw [hcode, withoutLines_concat hj, withoutLines_concat hi] at hcode'
  have hafter := toList_withoutSpareDup hcode
  have hafter' := toList_withoutSpareDup hcode'
  have hcoded : s'.withoutSpareDup.code.toList = withoutLines s.withoutSpareDup.code.toList := by
    rw [hafter, hafter', withoutLines_concat hj]
  refine ⟨h.toRelocated.elide hcode hdup hop hst hpos ?_ (by omega) ?_ rfl rfl ?_ ?_, hcoded, ?_,
    Nat.le_max_right _ _⟩
  · intro p hp
    rw [hafter, hcode, List.append_assoc, rank_append hp, rank_append hp]
  · rw [← Array.length_toList, hcoded, ← rank_length, hafter, List.length_append]
    rfl
  · show ((s'.depth : Int) + -1).toNat = ((s.depth : Int) + -1).toNat
    rw [h.depth]
  · show max s'.peak ((s'.depth : Int) + -1).toNat = max s.peak ((s.depth : Int) + -1).toNat
    rw [h.depth, h.peak]
  · intro w hw
    refine h.known w ?_
    rw [hafter] at hw
    rw [hcode, List.append_assoc]
    obtain hw | hw := List.mem_append.mp hw
    · exact List.mem_append_left _ hw
    · exact List.mem_append_right _ (List.mem_cons_of_mem _ hw)

end Scope.Unlined

/-! ### The end of both units -/

section Finish

variable {bound : Nat} {s s' t t' : Scope} {h h' : History} {begins begins' : Step → Nat → Prop}
  {code code' : Buffer}

/-- Overwriting the placeholders leaves the operations as they are. -/
theorem Logged.opcodes_of_reconcile (hs : Logged h begins s)
    (hcode : s.labels.reconcile s.code = .ok () code) :
    code.toList.map Instruction.opcode? = s.code.toList.map Instruction.opcode? := by
  refine List.ext_getElem? fun p => ?_
  rw [List.getElem?_map, List.getElem?_map]
  cases hi : s.code.toList[p]? with
  | none =>
    have hnone : code.toList[p]? = none := by
      rw [List.getElem?_eq_none_iff] at hi ⊢
      rwa [Array.length_toList, Labels.size_of_reconcile hcode, ← Array.length_toList]
    rw [hnone]
  | some i =>
    obtain ⟨j, hj, hop⟩ := hs.getElem?_of_reconcile hcode hi
    rw [hj, Option.map_some, Option.map_some, hop]

/-- The codes correspond when their placeholders are overwritten. -/
theorem Scope.Unlined.linesDropped (hb : s.Unlined bound s') (hs : Logged h begins s)
    (hs' : Logged h' begins' s') (hcode : s.labels.reconcile s.code = .ok () code)
    (hcode' : s'.labels.reconcile s'.code = .ok () code') :
    LinesDropped code.toList code'.toList := by
  have hrank : ∀ p, rank code.toList p = rank s.code.toList p :=
    fun p => rank_congr (hs.opcodes_of_reconcile hcode)
  have hsize : code.toList.length = s.code.size := by
    rw [Array.length_toList, Labels.size_of_reconcile hcode]
  refine ⟨?_, ?_, ?_, ?_, ?_⟩
  · intro j hj
    obtain ⟨p, hp⟩ := List.mem_iff_getElem?.mp hj
    obtain ⟨i, hi, hop⟩ := hs'.exists_before hcode' hp
    have hmem := List.mem_of_getElem? hi
    rw [hb.coded, withoutLines, List.mem_filter] at hmem
    rw [Instruction.isLine, hop]
    simpa [Instruction.isLine] using hmem.2
  · rw [hrank, hsize, ← hb.size, Array.length_toList, Labels.size_of_reconcile hcode']
  · intro p i op hi hop hjump
    simp only [hrank]
    exact hb.toRelocated.jump_of_reconcile hs hs' hcode hcode' hi hop hjump
  · intro p i op hi hop hjump hne
    have hw := getElem?_withoutLines (hs.stayed hcode hi hop hjump)
      (Instruction.isLine_eq_false hop hne)
    rw [← hb.coded] at hw
    rw [hrank]
    exact hs'.stays hcode' hw hop hjump
  · intro p i hi
    obtain ⟨j, hj, hsame⟩ := hs.exists_before hcode hi
    obtain ⟨op, hop⟩ := hb.known j (List.mem_of_getElem? hj)
    exact ⟨op, hsame.trans hop⟩

/-- The units that two scopes become, which agree in all tables but the last line marked. -/
theorem Scope.Unlined.unlined (hb : s.Unlined bound s') {line : Option Nat}
    (htables : s.SameTables { s' with lastLine := line })
    (hchildren : List.Forall₂ StackCode.Unlined s.children.toList s'.children.toList)
    (hs : Logged h begins s) (hs' : Logged h' begins' s') (ht : Scope.reconcile s = .ok () t)
    (ht' : Scope.reconcile s' = .ok () t') (outers : Outers) :
    StackCode.Unlined { t with outers }.toCodeObject { t' with outers }.toCodeObject := by
  obtain ⟨-, code, hcode, rfl⟩ := Scope.reconcile_eq_ok.mp ht
  obtain ⟨-, code', hcode', rfl⟩ := Scope.reconcile_eq_ok.mp ht'
  have hdropped := hb.linesDropped hs hs' hcode hcode'
  have hsize : code.size = s.code.size := Labels.size_of_reconcile hcode
  have hrank : rank code.toList = rank s.code.toList :=
    funext fun p => rank_congr (hs.opcodes_of_reconcile hcode)
  have hsize' : code'.size = rank s.code.toList s.code.size := by
    rw [← hb.size, Labels.size_of_reconcile hcode']
  have hlocals : s'.locals = s.locals := htables.locals
  have hconstants : s'.constants = s.constants := htables.constants
  have hsignature : s'.signature = s.signature := htables.signature
  have hprotects : s'.protects = s.protects := htables.protects
  refine .intro ⟨?_, ?_, ?_, ?_, rfl, ?_, ?_, hdropped, ?_⟩ hchildren
  · show s'.constants.values.toList = s.constants.values.toList
    rw [hconstants]
  · simp only [Scope.toCodeObject, hb.peak, hsignature, hlocals, hconstants]
  · simp only [Scope.toCodeObject, Scope.flags, hb.recorder.isSome_eq, hprotects, hsignature]
  · show s'.signature.params.length = s.signature.params.length
    rw [hsignature]
  · show s'.locals.count = s.locals.count
    rw [hlocals]
  · show s'.signature.params.map some = s.signature.params.map some
    rw [hsignature]
  · show Option.Rel (List.Forall₂ (Lifetime.Moved (rank code.toList) code.toList.length))
      (s.recorder.map (·.finish code.size)) (s'.recorder.map (·.finish code'.size))
    rw [hsize', hrank, Array.length_toList, hsize]
    exact hb.recorder.map fun _ _ hr => hr.finish hb.bounded

end Finish

end StackCode
