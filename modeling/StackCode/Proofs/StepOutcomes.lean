import StackCode.Proofs.Climbs
import StackCode.Proofs.Outcomes

/-!
# What a step does, however it ends

A step that fails may have written something before. This file says what any step does to the code and
the height of the unit that is written, without asking whether it succeeds.

* `Scope.Grown`: a scope to which instructions were appended;
* `Scope.Appends`, `Scope.Silent`: edits of a scope that append at most one instruction, or none;
* `Step.Leads`: the instruction with which a step begins what it appends;
* `Step.Outcome`: all that a step can do;
* `Step.ends_run`: every step does one of these.
-/

namespace StackCode

open Edit (left Ends)
open Instruction (effectOf)

/-! ### Scopes that grow -/

/-- Some instructions were appended to the code, and the height followed them. -/
structure Scope.Grown (is : List Instruction) (s t : Scope) : Prop where
  code : t.code.toList = s.code.toList ++ is
  depth : t.depth = heightAfter s.depth is

theorem heightAfter_append (depth : Nat) (front back : List Instruction) :
    heightAfter depth (front ++ back) = heightAfter (heightAfter depth front) back :=
  List.foldl_append

theorem heightAfter_cons (depth : Nat) (i : Instruction) (is : List Instruction) :
    heightAfter depth (i :: is) = heightAfter ((depth : Int) + i.net).toNat is := rfl

namespace Scope.Grown

variable {s t u : Scope} {is js : List Instruction}

theorem same (hcode : t.code = s.code) (hdepth : t.depth = s.depth) : Grown [] s t := by
  refine ⟨?_, hdepth⟩
  rw [hcode, List.append_nil]

theorem refl (s : Scope) : Grown [] s s := same rfl rfl

theorem trans (h : Grown is s t) (h' : Grown js t u) : Grown (is ++ js) s u := by
  refine ⟨?_, ?_⟩
  · rw [h'.code, h.code, List.append_assoc]
  · rw [h'.depth, h.depth, heightAfter_append]

theorem appended (s : Scope) (i : Instruction) : Grown [i] s (s.appended i) := by
  refine ⟨?_, rfl⟩
  show (s.code.push i).toList = _
  rw [Array.toList_push]

theorem appendedAll (s : Scope) (is : List Instruction) : Grown is s (s.appendedAll is) := by
  induction is generalizing s with
  | nil => exact .refl s
  | cons i is ih => exact (Grown.appended s i).trans (ih (s.appended i))

end Scope.Grown

/-! ### Edits that append at most one instruction -/

/-- However the edit ends, it has appended nothing or one instruction for which `W` holds. -/
def Scope.Appends (W : Instruction → Prop) {α : Type} (edit : Edit Scope α) : Prop :=
  ∀ s, Ends edit s fun t => Grown [] s t ∨ ∃ i, W i ∧ Grown [i] s t

/-- The edit appends nothing. -/
abbrev Scope.Silent {α : Type} (edit : Edit Scope α) : Prop := Scope.Appends (fun _ => False) edit

namespace Scope

variable {α β : Type} {W : Instruction → Prop}

theorem silent_of {edit : Edit Scope α}
    (h : ∀ s, Ends edit s fun t => t.code = s.code ∧ t.depth = s.depth) : Silent edit := by
  intro s
  obtain ⟨hcode, hdepth⟩ := h s
  exact .inl (.same hcode hdepth)

theorem Appends.ends {edit : Edit Scope α} (h : Silent edit) (s : Scope) :
    Ends edit s (Grown [] s) := by
  rcases h s with hs | ⟨_, hfalse, _⟩
  · exact hs
  · exact hfalse.elim

namespace Appends

theorem pure (a : α) : Appends W (Pure.pure a : Edit Scope α) := fun s => .inl (.refl s)

theorem silent_bind {x : Edit Scope α} {f : α → Edit Scope β} (hx : Silent x)
    (hf : ∀ a, Appends W (f a)) : Appends W (x >>= f) := by
  intro s
  apply Ends.seq (hx.ends s)
  · intro t h
    exact .inl h
  · intro a t h
    rcases hf a t with h' | ⟨i, hi, h'⟩
    · exact .inl (h.trans h')
    · exact .inr ⟨i, hi, h.trans h'⟩

theorem bind_silent {x : Edit Scope α} {f : α → Edit Scope β} (hx : Appends W x)
    (hf : ∀ a, Silent (f a)) : Appends W (x >>= f) := by
  intro s
  apply Ends.seq (hx s) (fun _ h => h)
  intro a t h
  have h' := (hf a).ends t
  rcases h with h | ⟨i, hi, h⟩
  · exact .inl (h.trans h')
  · exact .inr ⟨i, hi, h.trans h'⟩

theorem ofExcept_bind {x : Except Error α} {f : α → Edit Scope β}
    (hf : ∀ a, x = .ok a → Appends W (f a)) : Appends W (Edit.ofExcept x >>= f) :=
  fun s => Ends.ofExcept_bind (.inl (.refl s)) fun a ha => hf a ha s

theorem ignore {x : Edit Scope α} (hx : Appends W x) : Appends W (Edit.ignore x) :=
  bind_silent hx fun _ => pure _

end Appends

theorem appends_emit {i : Instruction} (hi : W i) : Appends W (emit i) := by
  intro s
  unfold Ends
  rw [left_emit]
  split
  · exact .inl (.refl s)
  · exact .inr ⟨i, hi, .appended s i⟩

theorem appends_emitUnsigned {op : Opcode} {n : Nat}
    (hi : n ≤ Instruction.maxUnsigned → W (.pack op n)) : Appends W (emitUnsigned op n) := by
  apply Appends.ofExcept_bind
  intro i h
  obtain ⟨hn, rfl⟩ := Instruction.withUnsigned_eq_ok_iff.mp h
  exact appends_emit (hi hn)

theorem appends_emitPair {op : Opcode} {a b : Nat}
    (hi : a ≤ Instruction.maxPair ∧ b ≤ Instruction.maxPair → W (.pack op (a + 0x1000 * b))) :
    Appends W (emitPair op a b) := by
  apply Appends.ofExcept_bind
  intro i h
  obtain ⟨hab, rfl⟩ := Instruction.withPair_eq_ok_iff.mp h
  exact appends_emit (hi hab)

theorem silent_onLabels (edit : Edit Labels α) : Silent (onLabels edit) :=
  silent_of fun _ => Ends.within ⟨rfl, rfl⟩

theorem silent_placeLabel (l : Label) : Silent (placeLabel l) :=
  fun s => silent_onLabels (Labels.place l s.code.size) s

theorem appends_emitJump {op : Opcode} {l : Label} (hi : W (.plain op)) :
    Appends W (emitJump op l) := by
  apply Appends.bind_silent (appends_emit hi)
  intro p
  exact Appends.silent_bind (silent_onLabels _) fun _ => .pure p

theorem silent_constant (v : Value) : Silent (constant v) :=
  silent_of fun _ => Ends.get_bind (Ends.ofExcept_bind ⟨rfl, rfl⟩ fun _ _ => Ends.set_bind ⟨rfl, rfl⟩)

theorem silent_nameConstant (name : String) : Silent (nameConstant name) :=
  silent_of fun _ => Ends.get_bind (Ends.ofExcept_bind ⟨rfl, rfl⟩ fun _ _ => Ends.set_bind ⟨rfl, rfl⟩)

theorem appends_loadConst {v : Value}
    (hi : ∀ n, n ≤ Instruction.maxUnsigned → W (.pack .loadConst n)) : Appends W (loadConst v) :=
  .silent_bind (silent_constant v) fun n => .ignore (appends_emitUnsigned (hi n))

theorem appends_emitNamed {op : Opcode} {name : String}
    (hi : ∀ n, n ≤ Instruction.maxUnsigned → W (.pack op n)) : Appends W (emitNamed op name) :=
  .silent_bind (silent_nameConstant name) fun n => .ignore (appends_emitUnsigned (hi n))

theorem appends_emitSlot {op : Opcode} {name : String}
    (hi : ∀ n, n ≤ Instruction.maxUnsigned → W (.pack op n)) : Appends W (emitSlot op name) := by
  intro s
  apply Ends.get_bind
  cases s.locals.lookup? name with
  | none => exact Ends.throw (.inl (.refl s))
  | some n => exact Appends.ignore (appends_emitUnsigned (hi n)) s

theorem appends_markLine {line : Nat}
    (hi : line ≤ Instruction.maxUnsigned → W (.pack .line line)) : Appends W (markLine line) := by
  intro s
  apply Ends.get_bind
  split
  · exact Ends.pure (.inl (.refl s))
  · apply Ends.set_bind
    rcases Appends.ignore (appends_emitUnsigned hi) { s with lastLine := some line } with h | h
    · exact .inl ⟨h.code, h.depth⟩
    · obtain ⟨i, hi, h⟩ := h
      exact .inr ⟨i, hi, h.code, h.depth⟩

theorem silent_record (change : Recorder → Recorder) : Silent (record change) :=
  silent_of fun _ => Ends.within ⟨rfl, rfl⟩

theorem silent_declare (name : String) : Silent (declare name) := by
  intro s
  apply Ends.get_bind
  apply Ends.ofExcept_bind (.inl (.refl s))
  rintro ⟨⟨slot, fresh⟩, locals⟩ -
  apply Ends.set_bind
  cases fresh with
  | false => exact .inl (.same rfl rfl)
  | true =>
    have h := (Appends.bind_silent (silent_record (·.start name s.code.size))
      fun _ => .pure slot).ends { s with locals }
    exact .inl ⟨h.code, h.depth⟩

theorem silent_leaveBlock : Silent leaveBlock := by
  intro s
  apply Ends.get_bind
  cases s.blocks with
  | nil => exact Ends.throw (.inl (.refl s))
  | cons marker blocks =>
    apply Ends.set_bind
    have h := (silent_record (·.stop (s.locals.rollback marker).1 s.code.size)).ends
      { s with blocks, locals := (s.locals.rollback marker).2 }
    exact .inl ⟨h.code, h.depth⟩

/-- However the captures end, some of them were appended. -/
theorem ends_emitCaptures (captures : List Capture) (s : Scope) :
    Ends (Assembler.emitCaptures captures) s fun t => ∃ done : List Capture,
      (∀ c ∈ done, c.operand ≤ Instruction.maxUnsigned) ∧ Grown (done.map Capture.word) s t := by
  induction captures generalizing s with
  | nil => exact ⟨[], fun c hc => absurd hc List.not_mem_nil, .refl s⟩
  | cons c cs ih =>
    apply Ends.ofExcept_bind ⟨[], fun c hc => absurd hc List.not_mem_nil, .refl s⟩
    intro i h
    obtain ⟨hc, rfl⟩ := Capture.instruction_eq_ok.mp h
    apply Ends.bind
    · intro p t ht
      obtain ⟨-, -, rfl⟩ := emit_eq_ok.mp ht
      obtain ⟨done, hdone, hgrown⟩ := ih (s.appended c.word)
      exact ⟨c :: done, List.forall_mem_cons.mpr ⟨hc, hdone⟩, (Grown.appended s c.word).trans hgrown⟩
    · intro e t ht
      have hleft := left_emit (s := s) c.word
      rw [Edit.left_of_error ht] at hleft
      split at hleft
      · exact ⟨[], fun c hc => absurd hc List.not_mem_nil, hleft ▸ .refl s⟩
      · refine ⟨[c], by simpa using hc, ?_⟩
        rw [hleft]
        exact .appended s c.word

end Scope

/-! ### What a step does, however it ends -/

/-- The instruction with which a step begins what it appends. -/
def Step.Leads : Step → Instruction → Prop
  | .markLine _, i => ∃ n, n ≤ Instruction.maxUnsigned ∧ i = .pack .line n
  | .jump o _, i => i = .plain o
  | .discard, i => i = .plain .pop
  | .unit o _ _ _, i => ∃ n, n ≤ Instruction.maxUnsigned ∧ i = .pack o n
  | x, i => x.Writes i

/-- All that a step can do to the code and the height of the unit that is written. -/
inductive Step.Outcome (x : Step) (a b : Assembler) : Prop where
  | none (he : b.enclosing = a.enclosing) (hg : Scope.Grown [] a.current b.current)
  /-- The instruction of the step, and captures behind it. -/
  | some {i : Instruction} {captures : List Capture} (hi : x.Leads i)
      (hc : ∀ c ∈ captures, c.operand ≤ Instruction.maxUnsigned) (he : b.enclosing = a.enclosing)
      (hg : Scope.Grown (i :: captures.map Capture.word) a.current b.current)
  | received (hx : x = .receive) (he : b.enclosing = a.enclosing)
      (hb : b.current = a.current.raised 1)
  | elided (hx : x = .discard) (hd : a.current.endsInSpareDup = true)
      (he : b.enclosing = a.enclosing) (hb : b.current = a.current.withoutSpareDup)
  /-- A unit inside this one has failed. -/
  | inside (h : a.enclosing.length < b.enclosing.length)

namespace Assembler

variable {α : Type} {a : Assembler}

theorem ends_onCurrent {edit : Edit Scope α} {Q : Assembler → Prop}
    (h : Ends edit a.current fun s => Q { a with current := s }) : Ends (onCurrent edit) a Q := by
  obtain ⟨config, current, enclosing, gone, entered⟩ := a
  unfold Ends Edit.left at h ⊢
  simp only [onCurrent] at h ⊢
  cases hr : edit current with
  | ok x s =>
    rw [hr] at h
    exact h
  | error e s =>
    rw [hr] at h
    exact h

theorem outcome_onCurrent {x : Step} {edit : Edit Scope α} (h : Scope.Appends x.Leads edit) :
    Ends (onCurrent edit) a (x.Outcome a) := by
  apply ends_onCurrent
  rcases h a.current with hg | ⟨i, hi, hg⟩
  · exact .none rfl hg
  · exact .some hi (fun c hc => absurd hc List.not_mem_nil) rfl hg

theorem outcome_silent {x : Step} {edit : Edit Scope α} (h : Scope.Silent edit) :
    Ends (onCurrent edit) a (x.Outcome a) :=
  ends_onCurrent (.none rfl (h.ends a.current))

/-- Resolving a name appends nothing. -/
theorem ends_resolve (name : String) (a : Assembler) :
    Ends (resolve name) a fun b => b.enclosing = a.enclosing
      ∧ Scope.Grown [] a.current b.current := by
  apply Ends.get_bind
  cases a.current.locals.lookup? name with
  | some slot => exact ⟨rfl, .refl _⟩
  | none =>
    apply Ends.ofExcept_bind ⟨rfl, .refl _⟩
    intro found _
    cases found with
    | some o =>
      apply Ends.ofExcept_bind ⟨rfl, .refl _⟩
      intro found _
      exact Ends.set_bind ⟨rfl, .same rfl rfl⟩
    | none =>
      show Ends (onCurrent (Scope.nameConstant name) >>= fun n => pure (Place.global n)) a _
      apply Ends.seq (P := fun b => b.enclosing = a.enclosing ∧ Scope.Grown [] a.current b.current)
      · exact ends_onCurrent ⟨rfl, (Scope.silent_nameConstant name).ends a.current⟩
      · exact fun _ h => h
      · exact fun _ _ h => h

/-- Loads and stores differ in the operation alone. -/
theorem outcome_emitPlace {x : Step} {name : String} {op : Place → Opcode}
    (hx : ∀ place : Place, place.operand ≤ Instruction.maxUnsigned →
      x.Leads (.pack (op place) place.operand)) :
    Ends (resolve name >>= fun place =>
      Edit.ignore (onCurrent (Scope.emitUnsigned (op place) place.operand))) a (x.Outcome a) := by
  apply Ends.seq (ends_resolve name a)
  · rintro b ⟨he, hg⟩
    exact .none he hg
  · rintro place b ⟨he, hg⟩
    apply Ends.ignore
    apply ends_onCurrent
    rcases Scope.appends_emitUnsigned (hx place) b.current with hg' | ⟨i, hi, hg'⟩
    · exact .none he (hg.trans hg')
    · exact .some hi (fun c hc => absurd hc List.not_mem_nil) he (hg.trans hg')

theorem loadName_eq (name : String) : loadName name = resolve name >>= fun place =>
    Edit.ignore (onCurrent (Scope.emitUnsigned place.loadOp place.operand)) := by
  unfold loadName
  congr 1
  funext place
  cases place <;> rfl

theorem storeName_eq (name : String) : storeName name = resolve name >>= fun place =>
    Edit.ignore (onCurrent (Scope.emitUnsigned place.storeOp place.operand)) := by
  unfold storeName
  congr 1
  funext place
  cases place <;> rfl

theorem ends_enterScope (kind : ScopeKind) (signature : Signature) (a : Assembler) :
    Ends (enterScope kind signature) a fun b => b.enclosing = a.current :: a.enclosing := rfl

/-- Leaving a unit fails inside it, or comes back to the unit around it. -/
theorem ends_leaveScope (a : Assembler) : Ends leaveScope a fun b => b.enclosing = a.enclosing
    ∨ ∃ parent rest, a.enclosing = parent :: rest ∧ b.enclosing = rest
      ∧ Scope.Grown [] parent b.current := by
  apply Ends.get_bind
  split
  · exact Ends.throw (.inl rfl)
  · next parent rest h =>
    split
    · exact Ends.throw (.inl rfl)
    · apply Ends.seq (P := fun b => b.enclosing = a.enclosing)
      · apply ends_onCurrent
        exact rfl
      · exact fun b hb => .inl hb
      · intro _ b hb
        apply Ends.get_bind
        apply Ends.ofExcept_bind (.inl hb)
        intro relay _
        apply Ends.seq (P := fun c => c.enclosing = rest ∧ Scope.Grown [] parent c.current)
        · obtain ⟨config, current, enclosing, gone, entered⟩ := b
          obtain rfl : enclosing = parent :: rest := hb.trans h
          exact ⟨rfl, .same rfl rfl⟩
        · exact fun c hc => .inr ⟨parent, rest, h, hc⟩
        · exact fun _ c hc => Ends.pure (.inr ⟨parent, rest, h, hc⟩)

/-- Instantiating a unit appends its instruction and captures behind it, or fails on the way. -/
theorem ends_emitChild (op : Opcode) (child : Child) (a : Assembler) :
    Ends (emitChild op child) a fun b => b.enclosing = a.enclosing
      ∧ (Scope.Grown [] a.current b.current ∨ ∃ captures : List Capture,
        child.index ≤ Instruction.maxUnsigned
          ∧ (∀ c ∈ captures, c.operand ≤ Instruction.maxUnsigned)
          ∧ Scope.Grown (.pack op child.index :: captures.map Capture.word) a.current b.current) := by
  apply ends_onCurrent
  let W : Instruction → Prop := fun i =>
    child.index ≤ Instruction.maxUnsigned ∧ i = .pack op child.index
  have hemit : Scope.Appends W (Scope.emitUnsigned op child.index) :=
    Scope.appends_emitUnsigned fun hn => ⟨hn, rfl⟩
  apply Ends.bind
  · intro p s hs
    obtain ⟨hn, -, -, rfl⟩ := Scope.emitUnsigned_eq_ok.mp hs
    obtain ⟨captures, hc, hg⟩ := Scope.ends_emitCaptures child.captures
      (a.current.appended (.pack op child.index))
    exact ⟨rfl, .inr ⟨captures, hn, hc, (Scope.Grown.appended _ _).trans hg⟩⟩
  · intro e s hs
    have hleft := hemit a.current
    unfold Ends at hleft
    rw [Edit.left_of_error hs] at hleft
    rcases hleft with hg | ⟨_, ⟨hn, rfl⟩, hg⟩
    · exact ⟨rfl, .inl hg⟩
    · exact ⟨rfl, .inr ⟨[], hn, fun c hc => absurd hc List.not_mem_nil, hg⟩⟩

end Assembler

namespace Step

open Assembler

variable {x : Step} {a b : Assembler}

theorem Outcome.length_le (h : x.Outcome a b) : a.enclosing.length ≤ b.enclosing.length := by
  cases h with
  | none he | some _ _ he | received _ he | elided _ _ he => exact Nat.le_of_eq (by rw [he])
  | inside h => exact Nat.le_of_lt h

theorem ends_discard (a : Assembler) : Ends (run .discard) a (Outcome .discard a) := by
  apply ends_onCurrent
  apply Ends.get_bind
  split
  · next hd => exact Ends.set (.elided rfl hd rfl rfl)
  · have h := Scope.Appends.ignore (Scope.appends_emit (W := Step.discard.Leads) rfl)
    rcases h a.current with hg | ⟨i, hi, hg⟩
    · exact .none rfl hg
    · exact .some hi (fun c hc => absurd hc List.not_mem_nil) rfl hg

/-- A unit is entered, written and left; whatever fails before it is left fails inside it. -/
theorem ends_unit {op : Opcode} {kind : ScopeKind} {signature : Signature} {body : Script}
    (hbody : ∀ b, Ends (runAll body) b fun c => b.enclosing.length ≤ c.enclosing.length)
    (a : Assembler) :
    Ends (run (.unit op kind signature body)) a (Outcome (.unit op kind signature body) a) := by
  have inner : ∀ b : Assembler, b.enclosing = a.current :: a.enclosing →
      Outcome (.unit op kind signature body) a b := by
    intro b hb
    apply Outcome.inside
    rw [hb]
    exact Nat.lt_succ_self _
  apply Ends.seq (ends_enterScope kind signature a) inner
  intro _ b hb
  apply Ends.seq (P := fun c => c.enclosing = a.current :: a.enclosing) ?_ inner ?_
  · apply ends_onCurrent
    exact hb
  intro _ c hc
  apply Ends.bind
  · intro _ d hd
    have hframe : d.enclosing = a.current :: a.enclosing := (frame_of_runAll body hd).1.trans hc
    apply Ends.seq (ends_leaveScope d)
    · rintro t (ht | ⟨parent, rest, hp, ht, hg⟩)
      · exact inner t (ht.trans hframe)
      · obtain ⟨rfl, rfl⟩ := List.cons.inj (hp.symm.trans hframe)
        exact .none ht hg
    · intro child t ht
      have hchild := ends_emitChild op child t
      rcases ht with ht | ⟨parent, rest, hp, ht, hg⟩
      · exact inner _ (hchild.1.trans (ht.trans hframe))
      · obtain ⟨rfl, rfl⟩ := List.cons.inj (hp.symm.trans hframe)
        rcases hchild.2 with hg' | ⟨captures, hn, hcaptures, hg'⟩
        · exact .none (hchild.1.trans ht) (hg.trans hg')
        · exact .some ⟨_, hn, rfl⟩ hcaptures (hchild.1.trans ht) (hg.trans hg')
  · intro e d hd
    have hle := hbody c
    unfold Ends at hle
    rw [Edit.left_of_error hd, hc] at hle
    exact .inside hle

mutual

/-- What a step does, however it ends. -/
theorem ends_run (x : Step) (a : Assembler) : Ends (run x) a (x.Outcome a) := by
  cases x with
  | unit op kind signature body => exact ends_unit (fun b => length_le_of_runAll body b) a
  | fail e => exact Ends.throw (.none rfl (.refl _))
  | markLine line =>
    apply Ends.get_bind
    split
    · exact outcome_onCurrent (Scope.appends_markLine fun hn => ⟨line, hn, rfl⟩)
    · exact Ends.pure (.none rfl (.refl _))
  | op o => exact .ignore (outcome_onCurrent (Scope.appends_emit rfl))
  | count o n => exact .ignore (outcome_onCurrent (Scope.appends_emitUnsigned fun hn => ⟨hn, rfl⟩))
  | pair o m n => exact .ignore (outcome_onCurrent (Scope.appends_emitPair fun hn => ⟨hn, rfl⟩))
  | newLabel => exact .ignore (outcome_silent (Scope.silent_onLabels _))
  | jump o l => exact .ignore (outcome_onCurrent (Scope.appends_emitJump rfl))
  | place l => exact outcome_silent (Scope.silent_placeLabel l)
  | receive =>
    rw [run]
    apply ends_onCurrent
    exact Outcome.received rfl rfl rfl
  | discard => exact ends_discard a
  | loadConst v => exact outcome_onCurrent (Scope.appends_loadConst fun n hn => ⟨n, hn, rfl⟩)
  | named o name => exact outcome_onCurrent (Scope.appends_emitNamed fun n hn => ⟨n, hn, rfl⟩)
  | declare name => exact .ignore (outcome_silent (Scope.silent_declare name))
  | slot o name => exact outcome_onCurrent (Scope.appends_emitSlot fun n hn => ⟨n, hn, rfl⟩)
  | loadName name =>
    rw [run, loadName_eq]
    exact outcome_emitPlace fun place hn => ⟨place, hn, rfl⟩
  | storeName name =>
    rw [run, storeName_eq]
    exact outcome_emitPlace fun place hn => ⟨place, hn, rfl⟩
  | enterBlock =>
    rw [run]
    apply ends_onCurrent
    exact Outcome.none rfl (.same rfl rfl)
  | leaveBlock => exact outcome_silent Scope.silent_leaveBlock
  | protect =>
    rw [run]
    apply ends_onCurrent
    exact Outcome.none rfl (.same rfl rfl)
termination_by structural x

theorem length_le_of_runAll (xs : Script) (a : Assembler) :
    Ends (runAll xs) a fun b => a.enclosing.length ≤ b.enclosing.length := by
  cases xs with
  | nil => exact Ends.pure (Nat.le_refl _)
  | cons x rest =>
    rw [runAll]
    apply Ends.seq (P := fun b => a.enclosing.length ≤ b.enclosing.length)
    · exact (ends_run x a).length_le
    · exact fun b hb => hb
    · exact fun _ b hb => Nat.le_trans hb (length_le_of_runAll rest b)
termination_by structural xs

end

end Step

end StackCode
