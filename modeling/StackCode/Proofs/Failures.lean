import StackCode.Proofs.Descriptors
import StackCode.Proofs.Placeholders

/-!
# How an edit can fail

`Runs` says what an edit does when it succeeds. This file says with which errors it fails, once for
every edit: a number may always be too large for its field, and each fault has its condition on the
state.

* `Edit.Raises`: every error of an edit has a given property;
* `Scope.raises_emit`, `raises_placeLabel`, `raises_reconcile`, …: one statement for each edit of a
  scope;
* `Assembler.raises_loadName`, `raises_leaveScope`, `raises_finish`, …: one for each edit of the whole
  assembly.

A property that holds of all faults asks for nothing; one that holds of no fault asks that none of
the conditions is met.
-/

namespace StackCode

/-! ### Combinators -/

/-- Every error of the edit, from this state, has the property. -/
def Edit.Raises {σ α : Type} (P : Error → Prop) (x : Edit σ α) (s : σ) : Prop :=
  ∀ e t, x s = .error e t → P e

namespace Edit

variable {σ τ α β : Type} {P : Error → Prop} {s : σ}

theorem raises_pure {a : α} : Raises P (pure a : Edit σ α) s := by
  intro e t h
  cases h

theorem raises_get : Raises P (get : Edit σ σ) s := by
  intro e t h
  cases h

theorem raises_set {t : σ} : Raises P (set t : Edit σ PUnit) s := by
  intro e u h
  cases h

theorem raises_modify {f : σ → σ} : Raises P (modify f : Edit σ PUnit) s := by
  intro e t h
  cases h

theorem raises_throw {e : Error} (he : P e) : Raises P (throw e : Edit σ α) s := by
  intro e' t h
  cases h
  exact he

theorem raises_ofExcept {x : Except Error α} (hx : ∀ e, x = .error e → P e) :
    Raises P (ofExcept x : Edit σ α) s := by
  cases x with
  | ok a => exact raises_pure
  | error e => exact raises_throw (hx e rfl)

theorem raises_bind {x : Edit σ α} {f : α → Edit σ β} (hx : Raises P x s)
    (hf : ∀ a t, x s = .ok a t → Raises P (f a) t) : Raises P (x >>= f) s := by
  intro e t h
  change EStateM.bind x f s = _ at h
  unfold EStateM.bind at h
  cases hr : x s with
  | ok a u =>
    rw [hr] at h
    exact hf a u hr e t h
  | error e' u =>
    rw [hr] at h
    cases h
    exact hx e t hr

/-- An edit that reads the state first. -/
theorem raises_get_bind {f : σ → Edit σ β} (hf : Raises P (f s) s) : Raises P (get >>= f) s := by
  refine raises_bind raises_get ?_
  intro a t h
  obtain ⟨rfl, rfl⟩ := get_eq_ok.mp h
  exact hf

/-- An edit that ends before it begins. -/
theorem raises_throw_bind {e : Error} {f : α → Edit σ β} (he : P e) :
    Raises P ((throw e : Edit σ α) >>= f) s :=
  raises_bind (raises_throw he) fun _ _ h => absurd h throw_ne_ok

theorem raises_map {x : Edit σ α} {f : α → β} (hx : Raises P x s) : Raises P (f <$> x) s := by
  intro e t h
  change EStateM.map f x s = _ at h
  unfold EStateM.map at h
  cases hr : x s with
  | ok a u =>
    rw [hr] at h
    cases h
  | error e' u =>
    rw [hr] at h
    cases h
    exact hx e t hr

theorem raises_ignore {x : Edit σ α} (hx : Raises P x s) : Raises P (ignore x) s :=
  raises_bind hx fun _ _ _ => raises_pure

theorem raises_within {focus : σ → τ × (τ → σ)} {edit : Edit τ α}
    (h : Raises P edit (focus s).1) : Raises P (within focus edit) s := by
  intro e t he
  simp only [within] at he
  cases hr : edit (focus s).1 with
  | ok a u =>
    simp only [hr] at he
    cases he
  | error e' u =>
    simp only [hr] at he
    cases he
    exact h e u hr

end Edit

/-- An overflow has the property. -/
def Overflows (P : Error → Prop) : Prop := ∀ what value limit, P (.overflow what value limit)

section Tables

variable {P : Error → Prop} (hP : Overflows P)

include hP

theorem Instruction.raises_withUnsigned {op : Opcode} {n : Nat} {e : Error}
    (h : withUnsigned op n = .error e) : P e := by
  unfold withUnsigned at h
  split at h
  · cases h
  · cases h
    exact hP _ _ _

theorem Instruction.raises_withPair {op : Opcode} {a b : Nat} {e : Error}
    (h : withPair op a b = .error e) : P e := by
  unfold withPair at h
  split at h
  · cases h
    exact hP _ _ _
  · split at h
    · cases h
      exact hP _ _ _
    · cases h

theorem Instruction.raises_withSigned {op : Opcode} {n : Int} {e : Error}
    (h : withSigned op n = .error e) : P e := by
  unfold withSigned at h
  split at h
  · cases h
  · cases h
    exact hP _ _ _

theorem Capture.raises_instruction {c : Capture} {e : Error} (h : c.instruction = .error e) :
    P e := by
  cases c with
  | slot n => exact Instruction.raises_withUnsigned hP h
  | outer n => exact Instruction.raises_withUnsigned hP h

theorem Pool.raises_add {pool : Pool} {v : Value} {e : Error} (h : pool.add v = .error e) :
    P e := by
  unfold add at h
  split at h
  · cases h
  · split at h
    · cases h
      exact hP _ _ _
    · cases h

theorem Pool.raises_addName {pool : Pool} {name : String} {e : Error}
    (h : pool.addName name = .error e) : P e := by
  unfold addName at h
  split at h
  · cases h
  · exact raises_add hP h

theorem Slots.raises_declare {slots : Slots} {name : String} {e : Error}
    (h : slots.declare name = .error e) : P e := by
  unfold declare at h
  split at h
  · cases h
  · split at h
    · cases h
      exact hP _ _ _
    · cases h

theorem Outers.raises_add {outers : Outers} {o : Outer} {e : Error}
    (h : outers.add o = .error e) : P e := by
  unfold add at h
  split at h
  · cases h
  · split at h
    · cases h
      exact hP _ _ _
    · cases h

theorem Outers.raises_relay {parent : Outers} {os : List Outer} {e : Error}
    (h : parent.relay os = .error e) : P e := by
  induction os generalizing parent with
  | nil => cases h
  | cons o os ih =>
    unfold relay at h
    split at h
    · cases hr : parent.relay os with
      | ok r =>
        rw [hr] at h
        cases h
      | error e' =>
        rw [hr] at h
        cases h
        exact ih hr
    · cases ha : parent.add ⟨o.slot, o.up - 1⟩ with
      | ok r =>
        obtain ⟨index, after⟩ := r
        rw [ha] at h
        change (after.relay os >>= fun r => _) = _ at h
        cases hr : after.relay os with
        | ok r =>
          rw [hr] at h
          cases h
        | error e' =>
          rw [hr] at h
          cases h
          exact ih hr
      | error e' =>
        rw [ha] at h
        cases h
        exact raises_add hP ha

theorem Labels.raises_resolved {size target : Nat} {u : Use} {e : Error}
    (h : resolved size target u = .error e) : P e := by
  simp only [resolved] at h
  split at h
  · cases h
    exact hP _ _ _
  · exact Instruction.raises_withSigned hP h

end Tables

/-! ### Placeholders -/

namespace Labels

open Edit

variable {P : Error → Prop}

/-- Overwriting a placeholder needs the code to reach that far. -/
theorem raises_patchUses (hP : Overflows P) {target : Nat} {us : List Use} {code : Buffer}
    (hu : ∀ u ∈ us, code.size ≤ u.position → P (.fault (.placeholderPastEnd u.position))) :
    Raises P (patchUses target us) code := by
  induction us generalizing code with
  | nil => exact raises_pure
  | cons u us ih =>
    unfold patchUses
    refine raises_get_bind (raises_bind (raises_ofExcept fun e => raises_resolved hP) ?_)
    intro i code' hi
    obtain ⟨-, rfl⟩ := ofExcept_eq_ok.mp hi
    split
    · refine raises_bind raises_modify ?_
      intro x after hx
      obtain rfl := modify_eq_ok.mp hx
      refine ih fun v hv hle => hu v (List.mem_cons_of_mem _ hv) ?_
      rw [Array.size_setIfInBounds] at hle
      exact hle
    · next hpos => exact raises_throw_bind (hu u List.mem_cons_self (Nat.not_lt.mp hpos))

theorem raises_reconcileFrom (hP : Overflows P) {l : Label} {marks : List Mark} {code : Buffer}
    (hset : ∀ m ∈ marks, m.uses.isEmpty = false → m.position = none →
      ∀ k, P (.fault (.labelNeverSet k m.uses.size)))
    (hin : ∀ m ∈ marks, ∀ u ∈ m.uses.toList, code.size ≤ u.position →
      P (.fault (.placeholderPastEnd u.position))) :
    Raises P (reconcileFrom l marks) code := by
  induction marks generalizing l code with
  | nil => exact raises_pure
  | cons m ms ih =>
    have hset' := fun k (hk : k ∈ ms) => hset k (List.mem_cons_of_mem _ hk)
    have hin' := fun k (hk : k ∈ ms) => hin k (List.mem_cons_of_mem _ hk)
    unfold reconcileFrom
    split
    · exact ih hset' hin'
    · next hu =>
      cases hm : m.position with
      | none =>
        exact raises_throw_bind (hset m List.mem_cons_self (Bool.eq_false_iff.mpr hu) hm l)
      | some t =>
        refine raises_bind (raises_patchUses hP (hin m List.mem_cons_self)) ?_
        intro x after hx
        refine ih hset' ?_
        rw [(patched_of_patchUses hx).size_eq]
        exact hin'

/-- The placeholders can be overwritten where every label in use is set and every placeholder is
inside the code. -/
theorem raises_reconcile (hP : Overflows P) {labels : Labels} {code : Buffer}
    (hset : ∀ l u, labels.Uses l u → labels.position? l = none →
      ∀ k n, P (.fault (.labelNeverSet k n)))
    (hin : ∀ l u, labels.Uses l u → code.size ≤ u.position →
      P (.fault (.placeholderPastEnd u.position))) :
    Raises P labels.reconcile code := by
  have hlabel : ∀ m ∈ labels.marks.toList, ∃ l : Label, labels.marks[l]? = some m := by
    intro m hm
    obtain ⟨l, hl⟩ := List.getElem?_of_mem hm
    rw [Array.getElem?_toList] at hl
    exact ⟨l, hl⟩
  refine raises_reconcileFrom hP ?_ ?_
  · intro m hm hu hpos k
    obtain ⟨l, hl⟩ := hlabel m hm
    obtain ⟨u, hu⟩ : ∃ u, u ∈ m.uses.toList := by
      refine List.exists_mem_of_ne_nil _ fun hn => ?_
      rw [Array.toList_eq_nil_iff.mp hn] at hu
      cases hu
    refine hset l u ⟨m, hl, hu⟩ ?_ k _
    rw [position?, hl]
    exact hpos
  · intro m hm u hu
    obtain ⟨l, hl⟩ := hlabel m hm
    exact hin l u ⟨m, hl, hu⟩

end Labels

/-! ### Edits of a scope -/

namespace Scope

open Edit

variable {P : Error → Prop} {s : Scope}

theorem raises_emit {i : Instruction} (he : s.ended = true → P (.fault .emitIntoEnded)) :
    Raises P (emit i) s := by
  refine raises_get_bind ?_
  split
  · next hend => exact raises_throw_bind (he hend)
  · exact raises_bind raises_set fun _ _ _ => raises_pure

theorem raises_emitUnsigned (hP : Overflows P) {op : Opcode} {n : Nat}
    (he : s.ended = true → P (.fault .emitIntoEnded)) : Raises P (emitUnsigned op n) s := by
  refine raises_bind (raises_ofExcept fun e => Instruction.raises_withUnsigned hP) ?_
  intro i t h
  obtain ⟨-, rfl⟩ := ofExcept_eq_ok.mp h
  exact raises_emit he

theorem raises_emitPair (hP : Overflows P) {op : Opcode} {a b : Nat}
    (he : s.ended = true → P (.fault .emitIntoEnded)) : Raises P (emitPair op a b) s := by
  refine raises_bind (raises_ofExcept fun e => Instruction.raises_withPair hP) ?_
  intro i t h
  obtain ⟨-, rfl⟩ := ofExcept_eq_ok.mp h
  exact raises_emit he

theorem raises_newLabel : Raises P newLabel s := by
  intro e t h
  cases h

theorem raises_emitJump {op : Opcode} {l : Label}
    (he : s.ended = true → P (.fault .emitIntoEnded))
    (hl : s.labels.marks.size ≤ l → P (.fault (.unknownLabel l))) :
    Raises P (emitJump op l) s := by
  refine raises_bind (raises_emit he) ?_
  intro p t h
  obtain ⟨-, -, rfl⟩ := emitOp_eq_ok.mp h
  refine raises_bind (raises_within ?_) fun _ _ _ => raises_pure
  intro e labels hu
  simp only [Labels.use] at hu
  split at hu
  · cases hu
  · next hn =>
    cases hu
    exact hl (Nat.not_lt.mp hn)

theorem raises_placeLabel {l : Label} (hl : s.labels.marks.size ≤ l → P (.fault (.unknownLabel l)))
    (hp : (s.labels.position? l).isSome = true → P (.fault (.labelSetTwice l))) :
    Raises P (placeLabel l) s := by
  refine raises_get_bind (raises_within ?_)
  intro e labels h
  simp only [Labels.place] at h
  split at h
  · split at h
    · next hs =>
      cases h
      exact hp hs
    · cases h
  · next hn =>
    cases h
    exact hl (Nat.not_lt.mp hn)

theorem raises_markLine (hP : Overflows P) {line : Nat}
    (he : s.ended = true → P (.fault .emitIntoEnded)) : Raises P (markLine line) s := by
  refine raises_get_bind ?_
  split
  · exact raises_pure
  · refine raises_bind raises_set ?_
    intro x t h
    obtain rfl := set_eq_ok.mp h
    exact raises_ignore (raises_emitUnsigned hP he)

theorem raises_discard (he : s.ended = true → P (.fault .emitIntoEnded)) : Raises P discard s := by
  refine raises_get_bind ?_
  split
  · exact raises_set
  · exact raises_ignore (raises_emit he)

theorem raises_nameConstant (hP : Overflows P) {name : String} :
    Raises P (nameConstant name) s :=
  raises_get_bind (raises_bind (raises_ofExcept fun _ => Pool.raises_addName hP) fun _ _ _ =>
    raises_bind raises_set fun _ _ _ => raises_pure)

theorem raises_loadConst (hP : Overflows P) {v : Value}
    (he : s.ended = true → P (.fault .emitIntoEnded)) : Raises P (loadConst v) s := by
  have hc : Raises P (constant v) s :=
    raises_get_bind (raises_bind (raises_ofExcept fun _ => Pool.raises_add hP) fun _ _ _ =>
      raises_bind raises_set fun _ _ _ => raises_pure)
  refine raises_bind hc ?_
  intro index t h
  obtain ⟨constants, -, rfl⟩ := constant_eq_ok.mp h
  exact raises_ignore (raises_emitUnsigned hP he)

theorem raises_emitNamed (hP : Overflows P) {op : Opcode} {name : String}
    (he : s.ended = true → P (.fault .emitIntoEnded)) : Raises P (emitNamed op name) s := by
  refine raises_bind (raises_nameConstant hP) ?_
  intro index t h
  obtain ⟨constants, -, rfl⟩ := nameConstant_eq_ok.mp h
  exact raises_ignore (raises_emitUnsigned hP he)

theorem raises_record {change : Recorder → Recorder} : Raises P (record change) s :=
  raises_within raises_modify

theorem raises_declare (hP : Overflows P) {name : String} : Raises P (declare name) s := by
  refine raises_get_bind (raises_bind (raises_ofExcept fun _ => Slots.raises_declare hP) ?_)
  intro r t h
  obtain ⟨⟨slot, fresh⟩, locals⟩ := r
  refine raises_bind raises_set ?_
  intro x u hu
  cases fresh with
  | true => exact raises_bind raises_record fun _ _ _ => raises_pure
  | false => exact raises_pure

theorem raises_declareAll (hP : Overflows P) {names : List String} :
    Raises P (declareAll names) s := by
  induction names generalizing s with
  | nil => exact raises_pure
  | cons name names ih => exact raises_bind (raises_declare hP) fun _ _ _ => ih

theorem raises_emitSlot (hP : Overflows P) {op : Opcode} {name : String}
    (he : s.ended = true → P (.fault .emitIntoEnded))
    (hs : s.locals.lookup? name = none → P (.fault (.missingSlot name))) :
    Raises P (emitSlot op name) s := by
  refine raises_get_bind ?_
  cases hl : s.locals.lookup? name with
  | some slot => exact raises_ignore (raises_emitUnsigned hP he)
  | none => exact raises_throw (hs hl)

theorem raises_leaveBlock (hb : s.blocks = [] → P (.fault .unmatchedBlockEnd)) :
    Raises P leaveBlock s := by
  refine raises_get_bind ?_
  cases hs : s.blocks with
  | nil => exact raises_throw (hb hs)
  | cons marker blocks => exact raises_bind raises_set fun _ _ _ => raises_record

theorem raises_reconcile (hP : Overflows P)
    (hb : s.blocks ≠ [] → P (.fault (.openBlocks s.blocks.length)))
    (hset : ∀ l u, s.labels.Uses l u → s.labels.position? l = none →
      ∀ k n, P (.fault (.labelNeverSet k n)))
    (hin : ∀ l u, s.labels.Uses l u → s.code.size ≤ u.position →
      P (.fault (.placeholderPastEnd u.position))) :
    Raises P reconcile s := by
  refine raises_get_bind ?_
  split
  · exact raises_within (Labels.raises_reconcile hP hset hin)
  · next hne => exact raises_throw_bind (hb fun h => hne (List.isEmpty_iff.mpr h))

end Scope

/-! ### Edits of an assembly -/

namespace Assembler

open Edit

variable {P : Error → Prop} {a : Assembler}

theorem raises_onCurrent {α : Type} {edit : Edit Scope α} (h : Raises P edit a.current) :
    Raises P (onCurrent edit) a := by
  obtain ⟨config, current, enclosing, left, entered⟩ := a
  intro e t he
  simp only [onCurrent] at he
  cases hr : edit current with
  | ok x u =>
    simp only [hr] at he
    cases he
  | error e' u =>
    simp only [hr] at he
    cases he
    exact h e u hr

theorem raises_enterScope {kind : ScopeKind} {signature : Signature} :
    Raises P (enterScope kind signature) a :=
  raises_get_bind (raises_bind raises_set fun _ _ _ => raises_pure)

theorem raises_leaveScope (hP : Overflows P)
    (hroot : a.enclosing = [] → P (.fault .leavingRoot))
    (hend : ∀ s ∈ a.enclosing, s.ended = true →
      P (.fault (.relayIntoEnded a.current.number s.number)))
    (hrec : Raises P Scope.reconcile a.current) : Raises P leaveScope a := by
  refine raises_get_bind ?_
  cases he : a.enclosing with
  | nil => exact raises_throw (hroot he)
  | cons parent rest =>
    simp only
    split
    · next hp =>
      exact raises_throw_bind (hend parent (by rw [he]; exact List.mem_cons_self) hp)
    · refine raises_bind (raises_onCurrent hrec) fun _ b _ => raises_get_bind ?_
      exact raises_bind (raises_ofExcept fun _ => Outers.raises_relay hP) fun _ _ _ =>
        raises_bind raises_modify fun _ _ _ => raises_pure

theorem raises_finish (hopen : a.enclosing ≠ [] → P (.fault (.scopeStillOpen a.current.number)))
    (hrec : Raises P Scope.reconcile a.current)
    (hout : a.current.outers.descriptors ≠ [] → P (.fault .rootHasOuters)) :
    Raises P finish a := by
  refine raises_get_bind ?_
  split
  · refine raises_bind (raises_onCurrent hrec) ?_
    intro x b hb
    obtain ⟨s, hs, rfl⟩ := onCurrent_eq_ok.mp hb
    obtain ⟨-, code, -, rfl⟩ := Scope.reconcile_eq_ok.mp hs
    refine raises_get_bind ?_
    simp only
    split
    · exact raises_onCurrent (raises_get_bind (raises_bind raises_set fun _ _ _ => raises_pure))
    · next hne => exact raises_throw_bind (hout fun h => hne (List.isEmpty_iff.mpr h))
  · next hne => exact raises_throw_bind (hopen fun h => hne (List.isEmpty_iff.mpr h))

theorem raises_markLine (hP : Overflows P) {line : Nat}
    (he : a.current.ended = true → P (.fault .emitIntoEnded)) : Raises P (markLine line) a := by
  refine raises_get_bind ?_
  split
  · exact raises_onCurrent (Scope.raises_markLine hP he)
  · exact raises_pure

theorem raises_findOuter {name : String} {up : Nat} {scopes : List Scope} {e : Error}
    (hend : ∀ s ∈ scopes, s.ended = true → P (.fault (.captureThroughEnded name s.number)))
    (h : findOuter name up scopes = .error e) : P e := by
  induction scopes generalizing up with
  | nil => cases h
  | cons s rest ih =>
    simp only [findOuter] at h
    split at h
    · next hs =>
      cases h
      exact hend s List.mem_cons_self hs
    · split at h
      · cases h
      · exact ih (fun t ht => hend t (List.mem_cons_of_mem _ ht)) h

theorem raises_resolve (hP : Overflows P) {name : String}
    (hend : ∀ s ∈ a.enclosing, s.ended = true →
      P (.fault (.captureThroughEnded name s.number))) : Raises P (resolve name) a := by
  refine raises_get_bind ?_
  cases a.current.locals.lookup? name with
  | some slot => exact raises_pure
  | none =>
    refine raises_bind (raises_ofExcept fun e => raises_findOuter hend) ?_
    intro found b hb
    obtain ⟨-, rfl⟩ := ofExcept_eq_ok.mp hb
    cases found with
    | some o =>
      exact raises_bind (raises_ofExcept fun _ => Outers.raises_add hP) fun _ _ _ =>
        raises_bind raises_set fun _ _ _ => raises_pure
    | none => exact raises_map (raises_onCurrent (Scope.raises_nameConstant hP))

/-- Finding a name changes neither the scopes around it nor whether the current one has ended. -/
theorem ended_of_resolve {name : String} {place : Place} {b : Assembler}
    (h : resolve name a = .ok place b) : b.current.ended = a.current.ended := by
  obtain ⟨-, -, -, rfl⟩ | ⟨-, -, -, -, -, -, -, rfl⟩ | ⟨-, -, -, -, -, -, rfl⟩ :=
    resolve_eq_ok.mp h
  · rfl
  · rfl
  · rfl

theorem raises_loadName (hP : Overflows P) {name : String}
    (he : a.current.ended = true → P (.fault .emitIntoEnded))
    (hend : ∀ s ∈ a.enclosing, s.ended = true →
      P (.fault (.captureThroughEnded name s.number))) : Raises P (loadName name) a := by
  refine raises_bind (raises_resolve hP hend) ?_
  intro place b hb
  rw [← ended_of_resolve hb] at he
  cases place <;> exact raises_ignore (raises_onCurrent (Scope.raises_emitUnsigned hP he))

theorem raises_storeName (hP : Overflows P) {name : String}
    (he : a.current.ended = true → P (.fault .emitIntoEnded))
    (hend : ∀ s ∈ a.enclosing, s.ended = true →
      P (.fault (.captureThroughEnded name s.number))) : Raises P (storeName name) a := by
  refine raises_bind (raises_resolve hP hend) ?_
  intro place b hb
  rw [← ended_of_resolve hb] at he
  cases place <;> exact raises_ignore (raises_onCurrent (Scope.raises_emitUnsigned hP he))

theorem raises_emitCaptures (hP : Overflows P) {captures : List Capture} {s : Scope}
    (he : s.ended = true → P (.fault .emitIntoEnded)) : Raises P (emitCaptures captures) s := by
  induction captures generalizing s with
  | nil => exact raises_pure
  | cons c cs ih =>
    refine raises_bind (raises_ofExcept fun _ => Capture.raises_instruction hP) ?_
    intro i t h
    obtain ⟨-, rfl⟩ := ofExcept_eq_ok.mp h
    refine raises_bind (Scope.raises_emit he) ?_
    intro p u h
    obtain ⟨-, -, rfl⟩ := Scope.emit_eq_ok.mp h
    exact ih he

theorem raises_emitChild (hP : Overflows P) {op : Opcode} {child : Child}
    (he : a.current.ended = true → P (.fault .emitIntoEnded)) : Raises P (emitChild op child) a := by
  refine raises_onCurrent (raises_bind (Scope.raises_emitUnsigned hP he) ?_)
  intro p u h
  obtain ⟨-, -, -, rfl⟩ := Scope.emitUnsigned_eq_ok.mp h
  exact raises_emitCaptures hP he

end Assembler

/-- An error of a compilation is one of the assembly. -/
theorem exists_of_compile_eq_error {config : Config} {program : List Stmt} {e : Error}
    (h : compile config program = .error e) :
    ∃ t, assemble (Program.script config program) (Assembler.start config) = .error e t := by
  unfold compile at h
  cases ha : assemble (Program.script config program) (Assembler.start config) with
  | ok c t =>
    rw [ha] at h
    cases h
  | error e' t =>
    rw [ha] at h
    cases h
    exact ⟨t, rfl⟩

end StackCode
