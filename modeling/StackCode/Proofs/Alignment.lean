import StackCode.Proofs.Returns

/-!
# Aligned positions

Two scopes are written side by side, one with tail calls and one without. Everything that holds a
position, that is labels, placeholders and the record of lifetimes, holds the shifted position on the
other side.

* `Recorder.Shifted`: two records of lifetimes;
* `Aligned`: code, labels and records of two scopes;
* `Aligned.push`, `newLabel`, `jump`, `place`, `recorded`: both sides do the same, or one emits a tail
  call where the other one emits a call;
* `Aligned.spare`, `Aligned.drop`: both sides take a duplication back, or none does.

When a duplication is taken back, the store behind it moves, and a position that was recorded since
then would be off by one. Hence the bound on what was recorded.
-/

theorem Option.Rel.imp {α β : Type} {R S : α → β → Prop} {x : Option α} {y : Option β}
    (h : Option.Rel R x y) (hRS : ∀ a b, R a b → S a b) : Option.Rel S x y := by
  cases h with
  | none => exact .none
  | some h => exact .some (hRS _ _ h)

theorem Option.Rel.map {α β γ δ : Type} {R : α → β → Prop} {S : γ → δ → Prop} {x : Option α}
    {y : Option β} {f : α → γ} {g : β → δ} (h : Option.Rel R x y)
    (hfg : ∀ a b, R a b → S (f a) (g b)) : Option.Rel S (x.map f) (y.map g) := by
  cases h with
  | none => exact .none
  | some h => exact .some (hfg _ _ h)

theorem Option.Rel.isSome_eq {α β : Type} {R : α → β → Prop} {x : Option α} {y : Option β}
    (h : Option.Rel R x y) : y.isSome = x.isSome := by
  cases h <;> rfl

namespace StackCode

/-! ### Recorded positions -/

theorem Shifted.mono {extra : List Bool} {b b' x x' : Nat} (h : Shifted extra b x x')
    (hb : b ≤ b') : Shifted extra b' x x' := by
  obtain ⟨p, hp, hx⟩ := h
  exact ⟨p, Nat.le_trans hp hb, hx⟩

theorem Shifted.congr {extra extra' : List Bool} {b x x' : Nat} (h : Shifted extra b x x')
    (hs : ∀ p ≤ b, shift extra' p = shift extra p) : Shifted extra' b x x' := by
  obtain ⟨p, hp, hx, hx'⟩ := h
  exact ⟨p, hp, hx, by rw [hs p hp]; exact hx'⟩

theorem Shifted.cut {extra : List Bool} {b p : Nat} (hp : p ≤ b) :
    Shifted extra b (Recorder.cut p) (Recorder.cut (shift extra p)) := ⟨p, hp, rfl, rfl⟩

/-- Two records of lifetimes hold corresponding positions, none of which is behind `bound`. -/
structure Recorder.Shifted (extra : List Bool) (bound : Nat) (r r' : Recorder) : Prop where
  alive : r'.alive = r.alive
  size : r'.lifetimes.size = r.lifetimes.size
  each : ∀ (k : Nat) v, r.lifetimes[k]? = some v → ∃ v', r'.lifetimes[k]? = some v'
    ∧ v'.name = v.name ∧ StackCode.Shifted extra bound v.start v'.start
    ∧ (k ∈ r.alive ∨ StackCode.Shifted extra bound v.stop v'.stop)

namespace Recorder

/-- The variables that die get their end, the others stay as they are. -/
theorem getElem?_foldl_endAt (dying : List Nat) (lifetimes : Array Lifetime) (position k : Nat) :
    (dying.foldl (endAt · position) lifetimes)[k]?
      = lifetimes[k]?.map fun v => if k ∈ dying then { v with stop := cut position } else v := by
  induction dying generalizing lifetimes with
  | nil => simp
  | cons i dying ih =>
    rw [List.foldl_cons, ih, endAt, Array.getElem?_modify]
    by_cases hi : i = k
    · subst hi
      rw [if_pos rfl, Option.map_map]
      refine Option.map_congr fun v _ => ?_
      simp only [Function.comp_apply, List.mem_cons, true_or, if_true]
      split <;> rfl
    · have hne : k ≠ i := fun h => hi h.symm
      rw [if_neg hi]
      refine Option.map_congr fun v _ => ?_
      simp only [List.mem_cons, hne, false_or]

theorem size_foldl_endAt (dying : List Nat) (lifetimes : Array Lifetime) (position : Nat) :
    (dying.foldl (endAt · position) lifetimes).size = lifetimes.size := by
  induction dying generalizing lifetimes with
  | nil => rfl
  | cons i dying ih => rw [List.foldl_cons, ih, endAt, Array.size_modify]

namespace Shifted

variable {extra extra' : List Bool} {bound bound' p count : Nat} {r r' : Recorder}

theorem imp (h : Shifted extra bound r r')
    (hs : ∀ x x', StackCode.Shifted extra bound x x' → StackCode.Shifted extra' bound' x x') :
    Shifted extra' bound' r r' := by
  refine ⟨h.alive, h.size, fun k v hv => ?_⟩
  obtain ⟨v', hv', hname, hstart, hstop⟩ := h.each k v hv
  exact ⟨v', hv', hname, hs _ _ hstart, hstop.imp_right (hs _ _)⟩

theorem start {name : String} (h : Shifted extra bound r r') (hp : p ≤ bound) :
    Shifted extra bound (r.start name p) (r'.start name (shift extra p)) := by
  refine ⟨?_, ?_, fun k v hv => ?_⟩
  · simp only [Recorder.start, h.alive, h.size]
  · simp only [Recorder.start, Array.size_push, h.size]
  · simp only [Recorder.start, Array.getElem?_push] at hv ⊢
    rw [h.size]
    by_cases hk : k = r.lifetimes.size
    · rw [if_pos hk] at hv ⊢
      obtain rfl := Option.some.inj hv
      exact ⟨_, rfl, rfl, .cut hp, .inl (by rw [hk]; exact List.mem_cons_self)⟩
    · rw [if_neg hk] at hv ⊢
      obtain ⟨v', hv', hname, hstart, hstop⟩ := h.each k v hv
      exact ⟨v', hv', hname, hstart, hstop.imp_left (List.mem_cons_of_mem _)⟩

theorem stop (h : Shifted extra bound r r') (hp : p ≤ bound) :
    Shifted extra bound (r.stop count p) (r'.stop count (shift extra p)) := by
  refine ⟨?_, ?_, fun k v hv => ?_⟩
  · simp only [Recorder.stop, h.alive]
  · simp only [Recorder.stop, size_foldl_endAt, h.size]
  · simp only [Recorder.stop, getElem?_foldl_endAt, h.alive] at hv ⊢
    obtain ⟨w, hw, rfl⟩ := Option.map_eq_some_iff.mp hv
    obtain ⟨w', hw', hname, hstart, hstop⟩ := h.each k w hw
    rw [hw']
    refine ⟨_, rfl, ?_⟩
    by_cases hk : k ∈ r.alive.take count
    · simp only [if_pos hk]
      exact ⟨hname, hstart, .inr (.cut hp)⟩
    · simp only [if_neg hk]
      refine ⟨hname, hstart, hstop.imp_left fun hmem => ?_⟩
      rw [← List.take_append_drop count r.alive] at hmem
      exact (List.mem_append.mp hmem).resolve_left hk

/-- All variables die at the end of the code. -/
theorem finish (h : Shifted extra bound r r') (hb : bound ≤ extra.length) :
    List.Forall₂ (Lifetime.Shifted extra) (r.finish extra.length)
      (r'.finish (shift extra extra.length)) := by
  have hstop : Shifted extra extra.length (r.stop r.alive.length extra.length)
      (r'.stop r'.alive.length (shift extra extra.length)) := by
    rw [h.alive]
    exact (h.imp fun _ _ hx => hx.mono hb).stop (Nat.le_refl _)
  rw [List.forall₂_iff_get]
  refine ⟨?_, fun k h₁ h₂ => ?_⟩
  · simp only [Recorder.finish, Array.length_toList]
    exact hstop.size.symm
  simp only [Recorder.finish, List.get_eq_getElem, Array.getElem_toList] at h₁ h₂ ⊢
  rw [Array.length_toList] at h₁
  obtain ⟨v', hv', hname, hstart, hdone⟩ := hstop.each k _ (Array.getElem?_eq_getElem h₁)
  obtain ⟨hk, rfl⟩ := Array.getElem?_eq_some_iff.mp hv'
  refine ⟨hname, hstart, hdone.resolve_left ?_⟩
  simp [Recorder.stop]

end Shifted

end Recorder

/-! ### Both sides -/

/-- The code, the labels and the records of two scopes correspond. `extra` marks where returns are
inserted and `calls` are the marks of the tail calls; a tail call without a return owes one, at the
position behind it. -/
structure Aligned (owes : Nat → Prop) (extra calls : List Bool) (bound : Nat)
    (code code' : List Instruction) (labels labels' : Labels) (r r' : Option Recorder) : Prop where
  length : extra.length = code.length
  coded : code' = untailed extra code
  marked : tailMarks extra code = calls
  only : ∀ p : Nat, extra[p]? = some true →
    ∃ i, code[p]? = some i ∧ Instruction.opcode? i = some .tailCall
  known : ∀ (p : Nat) i, code[p]? = some i → ∃ op, Instruction.opcode? i = some op
  owed : ∀ (p : Nat) i, code[p]? = some i → i.opcode? = some .tailCall → extra[p]? = some false →
    owes (shift extra p + 1)
  marks : labels'.marks.size = labels.marks.size
  inside : ∀ l q, labels.position? l = some q → q ≤ code.length
  position : ∀ l, labels'.position? l = (labels.position? l).map (shift extra)
  before : ∀ l u, labels.Uses l u → code[u.position]? = some (.plain u.op) ∧ u.op.isJump = true
  uses : ∀ l u', labels'.Uses l u' ↔
    ∃ u, labels.Uses l u ∧ u' = ⟨shift extra u.position, u.op⟩
  bounded : bound ≤ code.length
  recorder : Option.Rel (Recorder.Shifted extra bound) r r'

namespace Aligned

variable {owes : Nat → Prop} {extra calls : List Bool} {bound : Nat} {code code' : List Instruction}
  {labels labels' : Labels} {r r' : Option Recorder}

/-- Nothing was written. -/
theorem new {record : Bool} :
    Aligned owes [] [] 0 [] [] {} {} (if record then some {} else none)
      (if record then some {} else none) := by
  refine ⟨rfl, rfl, rfl, fun p hp => by simp at hp, fun p i hi => by simp at hi,
    fun p i hi => by simp at hi, rfl,
    fun l q hq => by simp [Labels.position?] at hq, fun l => by simp [Labels.position?],
    fun l u hu => absurd hu Labels.not_uses_empty,
    fun l u => ⟨fun hu => absurd hu Labels.not_uses_empty,
      fun ⟨v, hv, _⟩ => absurd hv Labels.not_uses_empty⟩,
    Nat.le_refl 0, ?_⟩
  split
  · exact .some ⟨rfl, rfl, fun k v hv => by simp at hv⟩
  · exact .none

theorem length' (h : Aligned owes extra calls bound code code' labels labels' r r') :
    code'.length = shift extra code.length := by
  rw [h.coded, length_untailed h.length]

/-- A position inside the code does not move when more is written. -/
theorem shift_push (h : Aligned owes extra calls bound code code' labels labels' r r') (b : Bool)
    {p : Nat} (hp : p ≤ code.length) : shift (extra ++ [b]) p = shift extra p :=
  shift_append (by rw [h.length]; exact hp)

/-- One side emits an instruction; the other side emits it with a call for a tail call, and with a
return where `b` says so. -/
theorem push (h : Aligned owes extra calls bound code code' labels labels' r r') {b : Bool}
    {i : Instruction} {op : Opcode} (hi : i.opcode? = some op) (hb : b = true → op = .tailCall)
    (howe : op = .tailCall → b = false → owes (code'.length + 1)) :
    Aligned owes (extra ++ [b]) (calls ++ tailMarks [b] [i]) bound (code ++ [i])
      (code' ++ untailed [b] [i]) labels labels' r r' := by
  have hlast : ∀ p : Nat, ∀ {α : Type} {xs : List α} {x y : α}, (xs ++ [x])[p]? = some y →
      xs[p]? = some y ∨ (p = xs.length ∧ y = x) := by
    intro p α xs x y hp
    rcases Nat.lt_trichotomy p xs.length with hlt | rfl | hgt
    · rw [List.getElem?_append_left hlt] at hp
      exact .inl hp
    · rw [List.getElem?_concat_length] at hp
      exact .inr ⟨rfl, (Option.some.inj hp).symm⟩
    · rw [List.getElem?_eq_none (by rw [List.length_append]; exact hgt)] at hp
      cases hp
  have hold : ∀ (p : Nat) j, code[p]? = some j → (code ++ [i])[p]? = some j :=
    fun p j hj => getElem?_of_initial (List.prefix_append _ _) hj
  have hinside : ∀ (p : Nat) j, code[p]? = some j → p < code.length :=
    fun p j hj => (List.getElem?_eq_some_iff.mp hj).1
  refine ⟨?_, ?_, ?_, ?_, ?_, ?_, h.marks, ?_, ?_, ?_, ?_, ?_, ?_⟩
  · rw [List.length_append, List.length_append, h.length]
    rfl
  · rw [untailed_append h.length, h.coded]
  · rw [tailMarks_append h.length, h.marked]
  · intro p hp
    obtain hp | ⟨rfl, hb'⟩ := hlast p hp
    · obtain ⟨j, hj, hop⟩ := h.only p hp
      exact ⟨j, hold p j hj, hop⟩
    · exact ⟨i, by rw [h.length, List.getElem?_concat_length], by rw [hi, hb hb'.symm]⟩
  · intro p j hj
    obtain hj | ⟨-, rfl⟩ := hlast p hj
    · exact h.known p j hj
    · exact ⟨op, hi⟩
  · intro p j hj hop hp
    obtain hj | ⟨rfl, rfl⟩ := hlast p hj
    · have hlt := hinside p j hj
      rw [List.getElem?_append_left (by rw [h.length]; exact hlt)] at hp
      rw [h.shift_push b (Nat.le_of_lt hlt)]
      exact h.owed p j hj hop hp
    · rw [← h.length, List.getElem?_concat_length] at hp
      rw [h.shift_push b (Nat.le_refl _), ← h.length']
      exact howe (Option.some.inj (hi.symm.trans hop)) (Option.some.inj hp)
  · intro l q hq
    rw [List.length_append]
    exact Nat.le_trans (h.inside l q hq) (Nat.le_add_right _ _)
  · intro l
    rw [h.position l]
    refine Option.map_congr fun q hq => ?_
    rw [h.shift_push b (h.inside l q hq)]
  · intro l u hu
    obtain ⟨hi, hj⟩ := h.before l u hu
    exact ⟨hold _ _ hi, hj⟩
  · intro l u'
    rw [h.uses l u']
    refine exists_congr fun u => and_congr_right fun hu => ?_
    rw [h.shift_push b (Nat.le_of_lt (hinside _ _ (h.before l u hu).1))]
  · rw [List.length_append]
    exact Nat.le_trans h.bounded (Nat.le_add_right _ _)
  · refine h.recorder.imp fun r r' hr => hr.imp fun x x' hx => hx.congr fun p hp => ?_
    exact h.shift_push b (Nat.le_trans hp h.bounded)

/-- Both sides emit the same instruction. -/
theorem push_same (h : Aligned owes extra calls bound code code' labels labels' r r')
    {i : Instruction} {op : Opcode} (hi : i.opcode? = some op) (hop : op ≠ .tailCall) :
    Aligned owes (extra ++ [false]) calls bound (code ++ [i]) (code' ++ [i]) labels labels' r r' := by
  have hpush := h.push (b := false) hi (fun hb => absurd hb Bool.false_ne_true)
    (fun heq => absurd heq hop)
  have hmarks : tailMarks [false] [i] = [] := by simp [tailMarks, hi, hop]
  have hcode : untailed [false] [i] = [i] := by simp [untailed, Instruction.untailed, hi, hop]
  rw [hmarks, List.append_nil, hcode] at hpush
  exact hpush

/-- The last instruction is taken away from both sides. -/
theorem pop {i : Instruction} {op : Opcode}
    (h : Aligned owes (extra ++ [false]) calls bound (code ++ [i]) (code' ++ [i]) labels labels' r r')
    (hlen : extra.length = code.length) (hi : i.opcode? = some op) (hop : op ≠ .tailCall)
    (hjump : op.isJump = false) (hinside : ∀ l q, labels.position? l = some q → q ≤ code.length)
    (hbound : bound ≤ code.length) :
    Aligned owes extra calls bound code code' labels labels' r r' := by
  have hold : ∀ (p : Nat) j, code[p]? = some j → (code ++ [i])[p]? = some j :=
    fun p j hj => getElem?_of_initial (List.prefix_append _ _) hj
  have hmark : ∀ (p : Nat) b, extra[p]? = some b → (extra ++ [false])[p]? = some b :=
    fun p b hb => getElem?_of_initial (List.prefix_append _ _) hb
  have hlast : untailed [false] [i] = [i] := by simp [untailed, Instruction.untailed, hi, hop]
  refine ⟨hlen, ?_, ?_, ?_, fun p j hj => h.known p j (hold p j hj), ?_, h.marks, hinside, ?_, ?_, ?_,
    hbound, ?_⟩
  · have hcoded := h.coded
    rw [untailed_append hlen, hlast] at hcoded
    exact (List.append_inj' hcoded rfl).1
  · have hmarked := h.marked
    rw [tailMarks_append hlen, show tailMarks [false] [i] = [] by simp [tailMarks, hi, hop],
      List.append_nil] at hmarked
    exact hmarked
  · intro p hp
    obtain ⟨j, hj, htail⟩ := h.only p (hmark p true hp)
    have hlt := (List.getElem?_eq_some_iff.mp hp).1
    rw [List.getElem?_append_left (by rw [← hlen]; exact hlt)] at hj
    exact ⟨j, hj, htail⟩
  · intro p j hj htail hp
    rw [← shift_concat_false]
    exact h.owed p j (hold p j hj) htail (hmark p false hp)
  · intro l
    rw [h.position l]
    exact Option.map_congr fun q _ => shift_concat_false
  · intro l u hu
    obtain ⟨hj, hu⟩ := h.before l u hu
    have hne : u.position ≠ code.length := by
      intro hp
      rw [hp, List.getElem?_concat_length] at hj
      rw [Option.some.inj hj, Instruction.opcode?_plain] at hi
      rw [Option.some.inj hi, hjump] at hu
      cases hu
    have hlt := (List.getElem?_eq_some_iff.mp hj).1
    rw [List.length_append, List.length_singleton] at hlt
    rw [List.getElem?_append_left (by omega)] at hj
    exact ⟨hj, hu⟩
  · intro l u'
    rw [h.uses l u']
    simp only [shift_concat_false]
  · exact h.recorder.imp fun r r' hr => hr.imp fun x x' hx => hx.congr fun p _ =>
      shift_concat_false.symm

/-- Both sides make a label. -/
theorem newLabel (h : Aligned owes extra calls bound code code' labels labels' r r') :
    Aligned owes extra calls bound code code' ⟨labels.marks.push {}⟩ ⟨labels'.marks.push {}⟩ r r' :=
  { h with
    marks := by rw [Array.size_push, Array.size_push, h.marks]
    inside := fun l q hq => h.inside l q (by rw [← Labels.position?_push]; exact hq)
    position := fun l => by rw [Labels.position?_push, Labels.position?_push]; exact h.position l
    before := fun l u hu => h.before l u (Labels.uses_push.mp hu)
    uses := fun l u' => by
      rw [Labels.uses_push, h.uses l u']
      simp only [Labels.uses_push] }

/-- Both sides emit a placeholder. -/
theorem jump (h : Aligned owes extra calls bound code code' labels labels' r r') {op : Opcode}
    {l : Label} (hop : op.isJump = true) (hl : l < labels.marks.size) :
    Aligned owes (extra ++ [false]) calls bound (code ++ [.plain op]) (code' ++ [.plain op])
      ⟨labels.marks.modify l (·.used ⟨code.length, op⟩)⟩
      ⟨labels'.marks.modify l (·.used ⟨code'.length, op⟩)⟩ r r' := by
  have hne : op ≠ .tailCall := by
    rintro rfl
    cases hop
  have hp := h.push_same (Instruction.opcode?_plain op) hne
  have hl' : l < labels'.marks.size := by rw [h.marks]; exact hl
  refine { hp with marks := ?_, inside := ?_, position := ?_, before := ?_, uses := ?_ }
  · rw [Array.size_modify, Array.size_modify, h.marks]
  · intro k q hq
    rw [Labels.position?_used] at hq
    exact hp.inside k q hq
  · intro k
    rw [Labels.position?_used, Labels.position?_used]
    exact hp.position k
  · intro k u hu
    obtain hu | ⟨-, rfl⟩ := (Labels.uses_used hl).mp hu
    · exact hp.before k u hu
    · exact ⟨List.getElem?_concat_length, hop⟩
  · intro k u'
    rw [Labels.uses_used hl', hp.uses k u']
    simp only [Labels.uses_used hl]
    constructor
    · rintro (⟨u, hu, rfl⟩ | ⟨rfl, rfl⟩)
      · exact ⟨u, .inl hu, rfl⟩
      · refine ⟨⟨code.length, op⟩, .inr ⟨rfl, rfl⟩, ?_⟩
        rw [h.shift_push false (Nat.le_refl _), h.length']
    · rintro ⟨u, hu | ⟨rfl, rfl⟩, rfl⟩
      · exact .inl ⟨u, hu, rfl⟩
      · refine .inr ⟨rfl, ?_⟩
        rw [h.shift_push false (Nat.le_refl _), h.length']

/-- Both sides set a label. -/
theorem place (h : Aligned owes extra calls bound code code' labels labels' r r') {l : Label}
    (hl : l < labels.marks.size) :
    Aligned owes extra calls bound code code' ⟨labels.marks.modify l (·.placed code.length)⟩
      ⟨labels'.marks.modify l (·.placed code'.length)⟩ r r' := by
  have hl' : l < labels'.marks.size := by rw [h.marks]; exact hl
  refine { h with marks := ?_, inside := ?_, position := ?_, before := ?_, uses := ?_ }
  · rw [Array.size_modify, Array.size_modify, h.marks]
  · intro k q hq
    rw [Labels.position?_placed hl] at hq
    split at hq
    · exact Nat.le_of_eq (Option.some.inj hq).symm
    · exact h.inside k q hq
  · intro k
    rw [Labels.position?_placed hl, Labels.position?_placed hl']
    split
    · rw [Option.map_some, h.length']
    · exact h.position k
  · intro k u hu
    exact h.before k u (Labels.uses_placed.mp hu)
  · intro k u'
    rw [Labels.uses_placed, h.uses k u']
    simp only [Labels.uses_placed]

/-- Both sides record a position. -/
theorem recorded (h : Aligned owes extra calls bound code code' labels labels' r r')
    (change change' : Recorder → Recorder)
    (hc : ∀ x x', Recorder.Shifted extra code.length x x' →
      Recorder.Shifted extra code.length (change x) (change' x')) :
    Aligned owes extra calls code.length code code' labels labels' (r.map change)
      (r'.map change') := by
  refine { h with bounded := Nat.le_refl _, recorder := ?_ }
  exact h.recorder.map fun x x' hr => hc x x' (hr.imp fun _ _ hx => hx.mono h.bounded)

end Aligned

/-! ### Taking a duplication back -/

theorem Instruction.unsigned_lt (i : Instruction) : i.unsigned < 0x1000000 := by
  have h : i.word.toNat < 4294967296 := i.word.toNat_lt
  unfold unsigned
  omega

section Spare

variable {extra : List Bool} {code before before' : List Instruction} {i j : Instruction}

/-- If the code ends in anything but a tail call, so does the other code. -/
theorem untailed_concat (h : extra.length = (before ++ [i]).length)
    (hlast : extra[before.length]? ≠ some true) (hi : i.opcode? ≠ some .tailCall) :
    ∃ rest, extra = rest ++ [false] ∧ rest.length = before.length
      ∧ untailed extra (before ++ [i]) = untailed rest before ++ [i] := by
  rcases List.eq_nil_or_concat' extra with rfl | ⟨rest, b, rfl⟩
  · simp at h
  have hlen : rest.length = before.length := by simpa using h
  rw [← hlen, List.getElem?_concat_length] at hlast
  obtain rfl : b = false := Bool.eq_false_iff.mpr fun hb => hlast (by rw [hb])
  refine ⟨rest, rfl, hlen, ?_⟩
  rw [untailed_append hlen]
  simp [untailed, Instruction.untailed, hi]

/-- If the other code ends in an instruction that no tail call leaves, so does the code. -/
theorem concat_of_untailed (h : extra.length = code.length)
    (hu : untailed extra code = before' ++ [j]) (hret : j.opcode? ≠ some .ret)
    (hcall : j.opcode? ≠ some .call) :
    ∃ rest before, extra = rest ++ [false] ∧ code = before ++ [j] ∧ rest.length = before.length
      ∧ untailed rest before = before' := by
  rcases List.eq_nil_or_concat' code with rfl | ⟨before, i, rfl⟩
  · cases extra <;> simp [untailed] at hu
  rcases List.eq_nil_or_concat' extra with rfl | ⟨rest, b, rfl⟩
  · simp at h
  have hlen : rest.length = before.length := by simpa using h
  rw [untailed_append hlen] at hu
  cases b with
  | true =>
    have hlast : untailed [true] [i] = [i.untailed] ++ [.plain .ret] := rfl
    rw [hlast, ← List.append_assoc] at hu
    have hj := (List.append_inj' hu rfl).2
    rw [← List.singleton_inj.mp hj, Instruction.opcode?_plain] at hret
    exact absurd rfl hret
  | false =>
    have hlast : untailed [false] [i] = [i.untailed] := rfl
    rw [hlast] at hu
    obtain ⟨hbefore, hj⟩ := List.append_inj' hu rfl
    have hj := List.singleton_inj.mp hj
    refine ⟨rest, before, rfl, ?_, hlen, hbefore⟩
    unfold Instruction.untailed at hj
    split at hj
    · rw [← hj, Instruction.opcode?_pack i.unsigned_lt] at hcall
      exact absurd rfl hcall
    · rw [hj]

end Spare

namespace Scope

variable {s s' : Scope}

/-- The two instructions at the end of a code with a spare duplication. -/
theorem endsInSpareDup_iff_exists :
    s.endsInSpareDup = true ↔
      ∃ before i j op, s.code.toList = before ++ [i] ++ [j] ∧ Instruction.opcode? i = some .dup
        ∧ Instruction.opcode? j = some op ∧ op.isStore = true
        ∧ ∀ l q, s.labels.position? l = some q → q < before.length := by
  rw [endsInSpareDup_iff]
  constructor
  · rintro ⟨hn, ⟨j, op, hj, hop, hst⟩, ⟨i, hi, hdup⟩, hpos⟩
    have hlen : s.code.toList.length = s.code.size := Array.length_toList
    rw [← Array.getElem?_toList] at hi hj
    refine ⟨s.code.toList.take (s.code.size - 2), i, j, op, ?_, hdup, hop, hst, ?_⟩
    · have hlast := List.take_add_one (i := s.code.size - 1) (l := s.code.toList)
      have hnext := List.take_add_one (i := s.code.size - 2) (l := s.code.toList)
      rw [hj, show s.code.size - 1 + 1 = s.code.toList.length by omega, List.take_length] at hlast
      rw [hi, show s.code.size - 2 + 1 = s.code.size - 1 by omega] at hnext
      rw [hnext] at hlast
      exact hlast
    · rw [List.length_take, hlen, Nat.min_eq_left (Nat.sub_le _ _)]
      exact hpos
  · rintro ⟨before, i, j, op, hc, hdup, hop, hst, hpos⟩
    have hsize : s.code.size = before.length + 2 := by
      rw [← Array.length_toList, hc]
      simp
    refine ⟨by omega, ⟨j, op, ?_, hop, hst⟩, ⟨i, ?_, hdup⟩, ?_⟩
    · rw [← Array.getElem?_toList, hc, hsize]
      simp
    · rw [← Array.getElem?_toList, hc, hsize]
      simp
    · rw [hsize]
      exact hpos

theorem toList_withoutSpareDup {before : List Instruction} {i j : Instruction}
    (h : s.code.toList = before ++ [i] ++ [j]) :
    s.withoutSpareDup.code.toList = before ++ [j] := by
  have hsize : s.code.size = before.length + 2 := by
    rw [← Array.length_toList, h]
    simp
  show (s.code.eraseIdxIfInBounds (s.code.size - 2)).toList = _
  rw [Array.eraseIdxIfInBounds, dif_pos (by omega), Array.toList_eraseIdx, h, hsize,
    List.append_assoc, List.eraseIdx_append_of_length_le (by omega)]
  simp

end Scope

namespace Aligned

variable {owes : Nat → Prop} {extra calls : List Bool} {bound : Nat} {s s' : Scope}
  {r r' : Option Recorder}

/-- Where one side has a spare duplication, the other side has it too, between corresponding code. -/
theorem spare (h : Aligned owes extra calls bound s.code.toList s'.code.toList s.labels s'.labels r r')
    (hs : s.endsInSpareDup = true ∨ s'.endsInSpareDup = true) :
    ∃ rest before i j, extra = rest ++ [false] ++ [false] ∧ rest.length = before.length
      ∧ s.code.toList = before ++ [i] ++ [j]
      ∧ s'.code.toList = untailed rest before ++ [i] ++ [j]
      ∧ s.endsInSpareDup = true ∧ s'.endsInSpareDup = true := by
  have hlength := h.length
  have hcoded := h.coded
  rcases hs with hs | hs
  · obtain ⟨before, i, j, op, hc, hdup, hop, hst, hpos⟩ := Scope.endsInSpareDup_iff_exists.mp hs
    have hplain : ∀ (p : Nat) k o, s.code.toList[p]? = some k → k.opcode? = some o → o ≠ .tailCall →
        extra[p]? ≠ some true := by
      intro p k o hk ho hne hp
      obtain ⟨k', hk', htail⟩ := h.only p hp
      obtain rfl := Option.some.inj (hk.symm.trans hk')
      exact hne (Option.some.inj (ho.symm.trans htail))
    have hj := hplain (before ++ [i]).length j op (by rw [hc]; simp) hop
      (by rintro rfl; cases hst)
    have hi := hplain before.length i .dup (by rw [hc]; simp) hdup (by decide)
    rw [hc] at hlength hcoded
    obtain ⟨rest, rfl, hlen, hu⟩ := untailed_concat hlength hj (by
      rw [hop]
      rintro ⟨⟩
      cases hst)
    rw [List.getElem?_append_left (by rw [hlen, List.length_append]; simp)] at hi
    obtain ⟨rest, rfl, hlen', hu'⟩ := untailed_concat hlen hi (by
      rw [hdup]
      decide)
    have hc' : s'.code.toList = untailed rest before ++ [i] ++ [j] := by
      rw [hcoded, hu, hu']
    refine ⟨rest, before, i, j, rfl, hlen', hc, hc', hs, ?_⟩
    refine Scope.endsInSpareDup_iff_exists.mpr ⟨_, i, j, op, hc', hdup, hop, hst, ?_⟩
    intro l q hq
    rw [h.position l] at hq
    obtain ⟨p, hp, rfl⟩ := Option.map_eq_some_iff.mp hq
    have hlt := hpos l p hp
    rw [length_untailed hlen', shift_concat_false, shift_concat_false]
    exact shift_lt_shift hlt
  · obtain ⟨before', i, j, op, hc', hdup, hop, hst, hpos⟩ := Scope.endsInSpareDup_iff_exists.mp hs
    rw [hc'] at hcoded
    obtain ⟨rest, before, rfl, hc, hlen, hu⟩ := concat_of_untailed hlength hcoded.symm
      (by rw [hop]; rintro ⟨⟩; cases hst) (by rw [hop]; rintro ⟨⟩; cases hst)
    obtain ⟨rest, before, rfl, rfl, hlen', rfl⟩ := concat_of_untailed hlen hu
      (by rw [hdup]; decide) (by rw [hdup]; decide)
    refine ⟨rest, before, i, j, rfl, hlen', hc, hc', ?_, hs⟩
    refine Scope.endsInSpareDup_iff_exists.mpr ⟨_, i, j, op, hc, hdup, hop, hst, ?_⟩
    intro l q hq
    have hlt := hpos l _ (by rw [h.position l, hq, Option.map_some])
    rw [length_untailed hlen'] at hlt
    rw [shift_concat_false, shift_concat_false] at hlt
    exact shift_lt_shift_iff.mp hlt

/-- Both sides take a duplication back. -/
theorem drop (h : Aligned owes extra calls bound s.code.toList s'.code.toList s.labels s'.labels r r')
    (hs : s.endsInSpareDup = true) (hbound : bound + 2 ≤ s.code.size) :
    ∃ extra', Aligned owes extra' calls bound s.withoutSpareDup.code.toList
      s'.withoutSpareDup.code.toList s.labels s'.labels r r' := by
  obtain ⟨rest, before, i, j, rfl, hlen, hc, hc', -⟩ := h.spare (.inl hs)
  obtain ⟨before₁, i₁, j₁, op, hc₁, hdup, hop, hst, hpos⟩ := Scope.endsInSpareDup_iff_exists.mp hs
  obtain ⟨heq, hj⟩ := List.append_inj' (hc₁.symm.trans hc) rfl
  obtain ⟨rfl, hi⟩ := List.append_inj' heq rfl
  obtain rfl := List.singleton_inj.mp hi
  obtain rfl := List.singleton_inj.mp hj
  have hsize : before₁.length + 2 = s.code.size := by
    rw [← Array.length_toList, hc]
    simp
  have hne : op ≠ .tailCall := by
    rintro rfl
    cases hst
  rw [hc, hc'] at h
  have hpop := h.pop (by simp [hlen]) hop hne (Instruction.effectOf_store hst j₁).2.2.1
    (fun l q hq => by
      have := hpos l q hq
      simp only [List.length_append, List.length_singleton]
      omega)
    (by
      simp only [List.length_append, List.length_singleton]
      omega)
  have hpop' := hpop.pop hlen hdup (by decide) rfl (fun l q hq => Nat.le_of_lt (hpos l q hq))
    (by omega)
  refine ⟨rest ++ [false], ?_⟩
  rw [Scope.toList_withoutSpareDup hc, Scope.toList_withoutSpareDup hc']
  exact hpop'.push_same hop hne

end Aligned

end StackCode
