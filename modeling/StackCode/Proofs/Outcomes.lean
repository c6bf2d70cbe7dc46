import StackCode.Proofs.Runs

/-!
# What an edit leaves, however it ends

An edit that fails keeps what it changed before. This file speaks of the state that an edit leaves,
without asking whether it succeeded.

* `Edit.left`: the state that an edit leaves;
* `Edit.Ends`: a property of that state, with a rule for each combinator;
* `Scope.left_emit`, `Scope.leaveBlock_of_nil`: edits of a scope whose result is one equation.
-/

namespace StackCode

namespace Edit

variable {σ τ α β : Type} {s t : σ} {Q : σ → Prop}

/-- The state that an edit leaves, whether it succeeds or fails. -/
def left (edit : Edit σ α) (s : σ) : σ :=
  match edit s with
  | .ok _ t => t
  | .error _ t => t

theorem left_of_ok {edit : Edit σ α} {a : α} (h : edit s = .ok a t) : left edit s = t := by
  simp only [left, h]

theorem left_of_error {edit : Edit σ α} {e : Error} (h : edit s = .error e t) :
    left edit s = t := by
  simp only [left, h]

/-- However the edit ends, `Q` holds of the state that it leaves. -/
def Ends (edit : Edit σ α) (s : σ) (Q : σ → Prop) : Prop := Q (left edit s)

namespace Ends

theorem pure {a : α} (h : Q s) : Ends (Pure.pure a : Edit σ α) s Q := h

theorem throw {e : Error} (h : Q s) : Ends (throw e : Edit σ α) s Q := h

theorem set {t : σ} (h : Q t) : Ends (set t : Edit σ PUnit) s Q := h

theorem get_bind {f : σ → Edit σ β} (h : Ends (f s) s Q) :
    Ends ((get : Edit σ σ) >>= f) s Q := h

theorem set_bind {t : σ} {f : PUnit → Edit σ β} (h : Ends (f ⟨⟩) t Q) :
    Ends ((MonadStateOf.set t : Edit σ PUnit) >>= f) s Q := h

theorem ofExcept_bind {x : Except Error α} {f : α → Edit σ β} (hs : Q s)
    (hf : ∀ a, x = .ok a → Ends (f a) s Q) : Ends (ofExcept x >>= f) s Q := by
  cases x with
  | ok a => exact hf a rfl
  | error e => exact hs

/-- The second edit starts where the first one succeeds; otherwise the first one ends both. -/
theorem bind {x : Edit σ α} {f : α → Edit σ β} (hok : ∀ a t, x s = .ok a t → Ends (f a) t Q)
    (herror : ∀ e t, x s = .error e t → Q t) : Ends (x >>= f) s Q := by
  unfold Ends left
  show Q (match EStateM.bind x f s with | .ok _ t => t | .error _ t => t)
  unfold EStateM.bind
  cases h : x s with
  | ok a t => exact hok a t h
  | error e t => exact herror e t h

/-- One edit after the other, when the second one does not ask for the first one's answer. -/
theorem seq {x : Edit σ α} {f : α → Edit σ β} {P : σ → Prop} (hx : Ends x s P)
    (hPQ : ∀ t, P t → Q t) (hf : ∀ a t, P t → Ends (f a) t Q) : Ends (x >>= f) s Q := by
  apply bind
  · intro a t h
    apply hf a t
    rw [← left_of_ok h]
    exact hx
  · intro e t h
    apply hPQ t
    rw [← left_of_error h]
    exact hx

theorem ignore {x : Edit σ α} (hx : Ends x s Q) : Ends (ignore x) s Q :=
  seq hx (fun _ h => h) fun _ _ h => pure h

theorem within {focus : σ → τ × (τ → σ)} {edit : Edit τ α}
    (h : Ends edit (focus s).1 fun t => Q ((focus s).2 t)) : Ends (within focus edit) s Q := by
  unfold Ends left at h ⊢
  simp only [Edit.within]
  cases hr : edit (focus s).1 with
  | ok a t =>
    rw [hr] at h
    exact h
  | error e t =>
    rw [hr] at h
    exact h

end Ends

end Edit

namespace Scope

open Edit

variable {s : Scope}

theorem left_emit (i : Instruction) :
    left (emit i) s = if s.ended = true then s else s.appended i := by
  cases h : s.ended with
  | true =>
    obtain ⟨_, _, _, _, _, _, _, _, _, _, _, _, _, _, _, ended⟩ := s
    obtain rfl : ended = true := h
    rfl
  | false => exact left_of_ok (emit_eq_ok.mpr ⟨h, rfl, rfl⟩)

theorem leaveBlock_of_nil (h : s.blocks = []) :
    leaveBlock s = .error (.fault .unmatchedBlockEnd) s := by
  obtain ⟨_, _, _, _, _, _, _, _, _, _, _, _, blocks, _, _, _⟩ := s
  obtain rfl : blocks = [] := h
  rfl

end Scope

end StackCode
