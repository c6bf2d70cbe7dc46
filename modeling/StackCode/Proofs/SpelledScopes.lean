import StackCode.Proofs.Relocation

/-!
# Scopes with and without spare duplications

Two scopes are written side by side. One takes duplications back, the other one emits pops instead.
Everything that holds a position holds the one that it has moved to on the other side, and the stack has
the same height.

* `Scope.Spelled`: code, labels, records and heights of two scopes;
* `Scope.Spelled.after`: both sides do the same;
* `Scope.Spelled.elide`: one side takes a duplication back, the other one emits a pop;
* `Scope.Spelled.dupsElided`: both units end.

A duplication is taken back only if neither a recorded position nor a store that was marked before is
behind it. Hence the bound on both.
-/

namespace StackCode

/-! ### Both scopes -/

/-- Two scopes correspond, the first one without the duplications around the stores that are marked. No
position behind `bound` is recorded, and no store from there on is marked. -/
structure Scope.Spelled (marks : List Bool) (bound : Nat) (s s' : Scope) : Prop
    extends s.Relocated (offset marks) bound s' where
  length : marks.length = s.code.toList.length
  coded : s'.code.toList = spelled marks s.code.toList
  stores : ∀ p : Nat, marks[p]? = some true → p < bound
    ∧ ∃ i op, s.code.toList[p]? = some i ∧ Instruction.opcode? i = some op ∧ op.isStore = true
  known : ∀ i ∈ s.code.toList, ∃ op, Instruction.opcode? i = some op ∧ (op = .dup → i = .plain .dup)

namespace Scope.Spelled

variable {marks : List Bool} {bound : Nat} {s s' t t' : Scope}

theorem new {n n' : Nat} {kind : ScopeKind} {signature : Signature} {record : Bool} :
    (Scope.new n kind signature record).Spelled [] 0 (Scope.new n' kind signature record) := by
  refine ⟨.new rfl, rfl, rfl, ?_, ?_⟩
  · intro p hp
    rw [List.getElem?_nil] at hp
    cases hp
  · exact fun i hi => absurd hi List.not_mem_nil

/-- Tables and children are of no account. -/
theorem congr (h : s.Spelled marks bound s') (hcode : t.code = s.code) (hlabels : t.labels = s.labels)
    (hrecorder : t.recorder = s.recorder) (hdepth : t.depth = s.depth) (hpeak : t.peak = s.peak)
    (hcode' : t'.code = s'.code) (hlabels' : t'.labels = s'.labels)
    (hrecorder' : t'.recorder = s'.recorder) (hdepth' : t'.depth = s'.depth)
    (hpeak' : t'.peak = s'.peak) : t.Spelled marks bound t' := by
  refine ⟨h.toRelocated.congr hcode hlabels hrecorder hdepth hpeak hcode' hlabels' hrecorder' hdepth'
    hpeak', ?_, ?_, ?_, ?_⟩
  · rw [hcode]; exact h.length
  · rw [hcode, hcode']; exact h.coded
  · rw [hcode]; exact h.stores
  · rw [hcode]; exact h.known

/-- Both sides append the same instruction; labels are taken care of. -/
theorem append (h : s.Spelled marks bound s') {i : Instruction} {op : Opcode}
    (hi : i.opcode? = some op) (hdup : op = .dup → i = .plain .dup)
    (hcode : t.code = s.code.push i) (hcode' : t'.code = s'.code.push i)
    (ht : t.Relocated (offset (marks ++ [false])) bound t') :
    t.Spelled (marks ++ [false]) bound t' := by
  have hcode : t.code.toList = s.code.toList ++ [i] := by rw [hcode, Array.toList_push]
  have hcode' : t'.code.toList = s'.code.toList ++ [i] := by rw [hcode', Array.toList_push]
  refine ⟨ht, ?_, ?_, ?_, ?_⟩
  · rw [hcode, List.length_append, List.length_append, h.length]
    rfl
  · rw [hcode, hcode', spelled_concat h.length, h.coded]
    rfl
  · intro p hp
    have hlt : p < marks.length := by
      refine Nat.not_le.mp fun hle => ?_
      rw [List.getElem?_append_right hle] at hp
      cases hn : p - marks.length with
      | zero => rw [hn] at hp; cases hp
      | succ n => rw [hn] at hp; cases hp
    rw [List.getElem?_append_left hlt] at hp
    obtain ⟨hbound, j, o, hj, ho, hst⟩ := h.stores p hp
    refine ⟨hbound, j, o, ?_, ho, hst⟩
    rw [hcode]
    exact getElem?_of_initial (List.prefix_append _ _) hj
  · rw [hcode]
    intro j hj
    obtain hj | hj := List.mem_append.mp hj
    · exact h.known j hj
    · rw [List.mem_singleton.mp hj]
      exact ⟨op, hi, hdup⟩

/-- Positions in the code do not move when an instruction is appended. -/
theorem offset_concat (h : s.Spelled marks bound s') :
    (∀ p ≤ s.code.size, offset (marks ++ [false]) p = offset marks p)
      ∧ offset (marks ++ [false]) (s.code.size + 1) = offset marks s.code.size + 1 := by
  have hlength : marks.length = s.code.size := by rw [h.length, Array.length_toList]
  have hold : ∀ p ≤ s.code.size, offset (marks ++ [false]) p = offset marks p :=
    fun p hp => offset_append (by omega)
  refine ⟨hold, ?_⟩
  rw [offset_succ (b := false) (by rw [← hlength, List.getElem?_concat_length]), hold _ (Nat.le_refl _)]
  rfl

/-- Both sides append the same instruction. -/
theorem write (h : s.Spelled marks bound s') {i : Instruction} {op : Opcode}
    (hi : i.opcode? = some op) (hdup : op = .dup → i = .plain .dup) :
    (s.appended i).Spelled (marks ++ [false]) bound (s'.appended i) :=
  h.append hi hdup rfl rfl (h.toRelocated.write h.offset_concat.1 h.offset_concat.2)

/-- Both sides append the same instructions. -/
theorem writeAll {is : List Instruction} (h : s.Spelled marks bound s')
    (his : ∀ i ∈ is, ∃ op, i.opcode? = some op ∧ op ≠ .dup) :
    ∃ marks', (s.appendedAll is).Spelled marks' bound (s'.appendedAll is) := by
  induction is generalizing s s' marks with
  | nil => exact ⟨marks, h⟩
  | cons i is ih =>
    obtain ⟨⟨op, hi, hop⟩, his⟩ := List.forall_mem_cons.mp his
    exact ih (h.write hi fun heq => absurd heq hop) his

/-- Both sides record a position, which is behind all stores that are marked. -/
theorem recorded (h : s.Spelled marks bound s') (hcode : t.code = s.code) (hcode' : t'.code = s'.code)
    (ht : t.Relocated (offset marks) s.code.size t') : t.Spelled marks s.code.size t' := by
  refine ⟨ht, ?_, ?_, ?_, ?_⟩
  · rw [hcode]; exact h.length
  · rw [hcode, hcode']; exact h.coded
  · rw [hcode]
    exact fun p hp => ⟨Nat.lt_of_lt_of_le (h.stores p hp).1 h.bounded, (h.stores p hp).2⟩
  · rw [hcode]; exact h.known

/-- Both sides do the same. -/
theorem after (h : s.Spelled marks bound s') {action : Action} (hfits : action.Fits s) :
    ∃ marks', (s.after action).Spelled marks' (action.boundAfter s bound) (s'.after action) := by
  cases action with
  | idle => exact ⟨marks, h⟩
  | write i =>
    obtain ⟨op, hi, hdup⟩ := hfits
    exact ⟨_, h.write hi hdup⟩
  | receive => exact ⟨marks, { h with toRelocated := h.toRelocated.receive }⟩
  | newLabel => exact ⟨marks, { h with toRelocated := h.toRelocated.newLabel }⟩
  | jump op l =>
    have hplain : op = .dup → Instruction.plain op = .plain .dup := fun heq => by rw [heq]
    exact ⟨_, h.append (Instruction.opcode?_plain op) hplain rfl rfl
      (h.toRelocated.jump hfits.1 hfits.2 h.offset_concat.1 h.offset_concat.2)⟩
  | place l => exact ⟨marks, { h with toRelocated := h.toRelocated.place hfits }⟩
  | declare name fresh => exact ⟨marks, h.recorded rfl rfl (h.toRelocated.declare name fresh)⟩
  | leave count => exact ⟨marks, h.recorded rfl rfl (h.toRelocated.leave count)⟩

/-! ### One side takes a duplication back -/

/-- The last two instructions are not marked, if they are behind the bound. -/
theorem exists_unmarked (h : s.Spelled marks bound s') {before : List Instruction} {i j : Instruction}
    (hcode : s.code.toList = before ++ [i] ++ [j]) (hbound : bound ≤ before.length) :
    ∃ rest, marks = rest ++ [false] ++ [false] ∧ rest.length = before.length
      ∧ s'.code.toList = spelled rest before ++ [i] ++ [j] := by
  have hlength := h.length
  rw [hcode] at hlength
  have hfalse : ∀ (p : Nat) b, before.length ≤ p → marks[p]? = some b → b = false := by
    intro p b hp hb
    refine Bool.eq_false_iff.mpr fun htrue => ?_
    rw [htrue] at hb
    have hlt := (h.stores p hb).1
    omega
  rcases List.eq_nil_or_concat' marks with rfl | ⟨most, b₂, rfl⟩
  · simp at hlength
  rcases List.eq_nil_or_concat' most with rfl | ⟨rest, b₁, rfl⟩
  · simp at hlength
  have hrest : rest.length = before.length := by simpa using hlength
  obtain rfl := hfalse (rest.length + 1) b₂ (by omega) (by simp)
  obtain rfl := hfalse rest.length b₁ (by omega) (by simp)
  refine ⟨rest, rfl, hrest, ?_⟩
  rw [h.coded, hcode, spelled_concat (by simp [hrest]), spelled_concat hrest]
  rfl

/-- One side takes a duplication back, and the other one emits a pop. -/
theorem elide (h : s.Spelled marks bound s') (hspare : s.endsInSpareDup = true)
    (hbound : bound + 2 ≤ s.code.size) :
    ∃ marks', s.withoutSpareDup.Spelled marks' s.withoutSpareDup.code.size
      (s'.appended (.plain .pop)) := by
  obtain ⟨before, i, j, op, hcode, hdup, hop, hst, hpos⟩ := endsInSpareDup_iff_exists.mp hspare
  have hsize : s.code.size = before.length + 2 := by
    rw [← Array.length_toList, hcode]
    simp
  obtain ⟨rest, rfl, hrest, hcode'⟩ := h.exists_unmarked hcode (by omega)
  have hplain : i = .plain .dup := by
    obtain ⟨o, ho, hi⟩ := h.known i (by rw [hcode]; simp)
    exact hi (Option.some.inj (ho.symm.trans hdup))
  have hafter := toList_withoutSpareDup hcode
  have hafter' : (s'.appended (.plain .pop)).code.toList
      = spelled rest before ++ [i] ++ [j] ++ [.plain .pop] := by
    rw [← hcode']
    exact Array.toList_push
  have hsize' : s.withoutSpareDup.code.size = before.length + 1 := by
    rw [← Array.length_toList, hafter, List.length_append]
    rfl
  have hcoded : (s'.appended (.plain .pop)).code.toList
      = spelled (rest ++ [true]) (before ++ [j]) := by
    rw [hafter', spelled_concat hrest, hplain]
    simp [spelledOut]
  have hlength : (rest ++ [true]).length = (before ++ [j]).length := by
    rw [List.length_append, List.length_append, hrest]
    rfl
  refine ⟨rest ++ [true], h.toRelocated.elide hcode hdup hop hst hpos ?_ (by omega) ?_ rfl rfl ?_ ?_,
    ?_, ?_, ?_, ?_⟩
  · intro p hp
    rw [List.append_assoc, offset_append (by omega), offset_append (by omega)]
  · rw [← Array.length_toList, hcoded, length_spelled hlength, List.length_append]
    rfl
  · rw [depth_appended, h.depth]
    rfl
  · rw [peak_appended, depth_appended, h.depth, h.peak]
    rfl
  · rw [hafter, hlength]
  · rw [hafter, hcoded]
  · intro p hp
    have hle : p ≤ before.length := by
      have hlt := (List.getElem?_eq_some_iff.mp hp).1
      rw [List.length_append, hrest] at hlt
      exact Nat.le_of_lt_succ hlt
    refine ⟨by omega, ?_⟩
    rw [hafter]
    obtain rfl | hlt := Nat.eq_or_lt_of_le hle
    · exact ⟨j, op, List.getElem?_concat_length, hop, hst⟩
    · rw [List.getElem?_append_left (by omega)] at hp
      obtain ⟨-, w, o, hw, ho⟩ := h.stores p (by
        rw [List.append_assoc, List.getElem?_append_left (by omega)]
        exact hp)
      rw [hcode, List.append_assoc, List.getElem?_append_left hlt] at hw
      exact ⟨w, o, by rw [List.getElem?_append_left hlt]; exact hw, ho⟩
  · intro w hw
    refine h.known w ?_
    rw [hafter] at hw
    rw [hcode, List.append_assoc]
    obtain hw | hw := List.mem_append.mp hw
    · exact List.mem_append_left _ hw
    · exact List.mem_append_right _ (List.mem_cons_of_mem _ hw)

end Scope.Spelled

/-! ### The end of both units -/

section Finish

variable {marks : List Bool} {bound : Nat} {s s' t t' : Scope} {h h' : History}
  {begins begins' : Step → Nat → Prop} {code code' : Buffer}

/-- The codes correspond when their placeholders are overwritten. -/
theorem Scope.Spelled.dupsElided (hb : s.Spelled marks bound s') (hs : Logged h begins s)
    (hs' : Logged h' begins' s') (hcode : s.labels.reconcile s.code = .ok () code)
    (hcode' : s'.labels.reconcile s'.code = .ok () code') :
    DupsElided marks code.toList code'.toList := by
  have hsize : code.toList.length = s.code.toList.length := by
    rw [Array.length_toList, Array.length_toList, Labels.size_of_reconcile hcode]
  have hmoved : ∀ (p k : Nat) i b j, s.code.toList[p]? = some i → marks[p]? = some b →
      (spelledOut b i)[k]? = some j → s'.code.toList[offset marks p + k]? = some j := by
    intro p k i b j hi hmark hj
    rw [hb.coded, getElem?_spelled hb.length hi hmark (List.getElem?_eq_some_iff.mp hj).1]
    exact hj
  have hstore : ∀ (p : Nat) i, marks[p]? = some true → code.toList[p]? = some i →
      s.code.toList[p]? = some i ∧ ∃ op, i.opcode? = some op ∧ op.isStore = true := by
    intro p i hp hi
    obtain ⟨-, w, op, hw, hop, hst⟩ := hb.stores p hp
    have hjump := (Instruction.effectOf_store hst w).2.2.1
    obtain rfl := Option.some.inj (hi.symm.trans (hs.stays hcode hw hop hjump))
    exact ⟨hw, op, hop, hst⟩
  refine ⟨?_, ?_, ?_, ?_, ?_, ?_, ?_, ?_⟩
  · rw [hsize, hb.length]
  · intro p hp
    obtain ⟨-, w, op, hw, hop, hst⟩ := hb.stores p hp
    exact ⟨w, op, hs.stays hcode hw hop (Instruction.effectOf_store hst w).2.2.1, hop, hst⟩
  · rw [Array.length_toList, Labels.size_of_reconcile hcode', hb.size, hsize, Array.length_toList]
  · intro p i hp hi
    obtain ⟨hw, op, hop, hst⟩ := hstore p i hp hi
    have hjump := (Instruction.effectOf_store hst i).2.2.1
    exact ⟨hs'.stays hcode' (hmoved p 0 i true _ hw hp rfl) (Instruction.opcode?_plain .dup) rfl,
      hs'.stays hcode' (hmoved p 1 i true _ hw hp rfl) hop hjump,
      hs'.stays hcode' (hmoved p 2 i true _ hw hp rfl) (Instruction.opcode?_plain .pop) rfl⟩
  · intro p i op hi hop hjump
    obtain ⟨j, t, hj, hop', ht, -, ht'⟩ :=
      hb.toRelocated.jump_of_reconcile hs hs' hcode hcode' hi hop hjump
    exact ⟨j, t, hj, hop', ht, ht'⟩
  · intro p i op hi hop hjump hp
    have hw := hs.stayed hcode hi hop hjump
    exact hs'.stays hcode' (hmoved p 0 i false _ hw hp rfl) hop hjump
  · intro p i hi
    obtain ⟨j, hj, hsame⟩ := hs.exists_before hcode hi
    obtain ⟨op, hop, -⟩ := hb.known j (List.mem_of_getElem? hj)
    exact ⟨op, hsame.trans hop⟩
  · intro q j target hj htarget p hp
    -- a jump leads to a label, and labels have moved like instructions
    obtain ⟨op, hop, hjump⟩ := Instruction.isJump_of_jumpTarget? htarget
    obtain ⟨l, t, -, ht, ht'⟩ := hs'.use_of_reconcile hcode' hj hop hjump
    obtain rfl := Option.some.inj (htarget.symm.trans ht')
    rw [hb.position l] at ht
    obtain ⟨t, -, rfl⟩ := Option.map_eq_some_iff.mp ht
    exact ⟨offset_ne_offset_add hp (by decide) (by decide),
      offset_ne_offset_add hp (by decide) (by decide)⟩

/-- The units that two scopes become. -/
theorem Scope.Spelled.elided (hb : s.Spelled marks bound s') (htables : s.SameTables s')
    (hchildren : ElidedAll s.children.toList s'.children.toList) (hs : Logged h begins s)
    (hs' : Logged h' begins' s') (ht : Scope.reconcile s = .ok () t)
    (ht' : Scope.reconcile s' = .ok () t') (outers : Outers) :
    Elided { t with outers }.toCodeObject { t' with outers }.toCodeObject := by
  obtain ⟨-, code, hcode, rfl⟩ := Scope.reconcile_eq_ok.mp ht
  obtain ⟨-, code', hcode', rfl⟩ := Scope.reconcile_eq_ok.mp ht'
  have helided := hb.dupsElided hs hs' hcode hcode'
  have hsize : code.size = s.code.size := Labels.size_of_reconcile hcode
  have hsize' : code'.size = offset marks code.size := by
    rw [← Array.length_toList, helided.length', Array.length_toList]
  refine .intro ⟨?_, ?_, ?_, ?_, rfl, ?_, ?_, marks, helided, ?_⟩ hchildren
  · show s'.constants.values.toList = s.constants.values.toList
    rw [htables.constants]
  · simp only [Scope.toCodeObject, hb.peak, htables.signature, htables.locals, htables.constants]
  · simp only [Scope.toCodeObject, Scope.flags, hb.recorder.isSome_eq, htables.protects,
      htables.signature]
  · show s'.signature.params.length = s.signature.params.length
    rw [htables.signature]
  · show s'.locals.count = s.locals.count
    rw [htables.locals]
  · show s'.signature.params.map some = s.signature.params.map some
    rw [htables.signature]
  · show Option.Rel _ (s.recorder.map (·.finish code.size)) (s'.recorder.map (·.finish code'.size))
    have hbounded := hb.bounded
    rw [← hsize] at hbounded
    rw [hsize', show (Scope.toCodeObject _).code.length = code.size from Array.length_toList]
    exact hb.recorder.map fun _ _ hr => hr.finish hbounded

end Finish

end StackCode
