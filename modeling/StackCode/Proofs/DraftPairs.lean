import StackCode.Proofs.Drafts
import StackCode.Proofs.ScriptPairs

/-!
# Drafts with and without tail calls

How two drafts correspond, one with tail calls and one without, and how pairs of drafts are put
together.

* `Draft.Calm`, `Draft.EndsInPlace`: how a draft ends before its value is dropped;
* `Script.Joins`: what follows a label leads to a return;
* `Draft.Untails`: a pair of drafts, and the returned calls in it;
* `Draft.Untails.append`, `withLabel`, `block`, `unit`, …: how pairs are put together;
* `Draft.Untails.branch`, `Draft.Untails.whole`: the two kinds of tail calls;
* `Draft.Untails.jumpTo`, `Draft.Untails.join`, `Draft.Untails.ret`: what follows a branch.
-/

namespace StackCode

open Draft

namespace Draft

/-! ### Drafts one after the other -/

theorem ext {a b : Draft} (h : ∀ s done, a.draw s done = b.draw s done) : a = b := by
  obtain ⟨f, hf⟩ := a
  obtain ⟨g, hg⟩ := b
  obtain rfl : f = g := funext fun s => funext fun done => h s done
  rfl

theorem append_assoc (a b c : Draft) : a ++ b ++ c = a ++ (b ++ c) := by
  refine ext fun s done => ?_
  show (append (append a b) c).draw s done = (append a (append b c)).draw s done
  simp only [append]
  cases a.draw s done with
  | mk xs r => cases r <;> rfl

theorem append_nil (a : Draft) : a ++ nil = a := by
  refine ext fun s done => ?_
  show (append a nil).draw s done = _
  simp only [append]
  cases a.draw s done with
  | mk xs r => cases r <;> rfl

/-- Both parts of a draft that is complete are complete. -/
theorem exists_of_append {a b : Draft} {s s₂ : Supply} (h : (a ++ b).rest? s = some s₂) :
    ∃ s₁, a.rest? s = some s₁ ∧ b.rest? s₁ = some s₂ := by
  cases hr : a.rest? s with
  | none =>
    rw [rest?_append_of_none b hr] at h
    cases h
  | some s₁ =>
    rw [rest?_append_of_some b hr] at h
    exact ⟨s₁, rfl, h⟩

/-! ### How drafts end -/

/-- The draft is complete and ends in a label that is set. -/
def EndsInPlace (d : Draft) : Prop :=
  ∀ s s₁, d.rest? s = some s₁ → ∃ before l, d.steps s = before ++ [.place l]

namespace EndsInPlace

variable {d e : Draft}

theorem place {l : Label} : (d ++ place l).EndsInPlace := by
  intro s s₂ h
  obtain ⟨s₁, hd, -⟩ := exists_of_append h
  exact ⟨d.steps s, l, steps_append_of_some _ hd⟩

theorem append (he : e.EndsInPlace) : (d ++ e).EndsInPlace := by
  intro s s₂ h
  obtain ⟨s₁, hd, h⟩ := exists_of_append h
  obtain ⟨before, l, hs⟩ := he s₁ s₂ h
  exact ⟨d.steps s ++ before, l, by rw [steps_append_of_some e hd, hs, List.append_assoc]⟩

theorem withLabel {F : Label → Draft} (hF : ∀ l, (F l).EndsInPlace) :
    (Draft.withLabel F).EndsInPlace := by
  intro s s₁ h
  rw [rest?_withLabel] at h
  obtain ⟨before, l, hs⟩ := hF _ _ _ h
  exact ⟨.newLabel :: before, l, by rw [steps_withLabel, hs]; rfl⟩

theorem withLabels {n : Nat} {F : Label → Draft} (hF : ∀ l, (F l).EndsInPlace) :
    (Draft.withLabels n F).EndsInPlace := by
  intro s s₁ h
  rw [rest?_withLabels] at h
  obtain ⟨before, l, hs⟩ := hF _ _ _ h
  exact ⟨List.replicate n .newLabel ++ before, l, by rw [steps_withLabels, hs, List.append_assoc]⟩

theorem withHidden {what : String} {F : String → Draft} (hF : ∀ x, (F x).EndsInPlace) :
    (Draft.withHidden what F).EndsInPlace := by
  intro s s₁ h
  rw [rest?_withHidden] at h
  rw [steps_withHidden]
  exact hF _ _ _ h

end EndsInPlace

/-- After the draft, nothing was recorded since the value on top of the stack was pushed. -/
def Calm (d : Draft) : Prop :=
  ∀ s s₁, d.rest? s = some s₁ → ∀ done, Script.Calm (done ++ d.steps s)

namespace Calm

variable {d e : Draft}

theorem step {x : Step} (hx : x.isFirm = true) : (Draft.step x).Calm :=
  fun _ _ _ _ => .firm hx

theorem of_none (h : ∀ s, d.rest? s = none) : d.Calm := by
  intro s s₁ hs
  rw [h] at hs
  cases hs

theorem refuse {line : Nat} {cause : Misuse} : (refuse line cause).Calm := of_none fun _ => rfl

theorem append (he : e.Calm) : (d ++ e).Calm := by
  intro s s₂ h done
  obtain ⟨s₁, hd, h⟩ := exists_of_append h
  rw [steps_append_of_some e hd, ← List.append_assoc]
  exact he s₁ s₂ h _

theorem assign {x : String} (h : d.Calm) : (d ++ plain .dup ++ Draft.step (.storeName x)).Calm := by
  intro s s₂ hs done
  obtain ⟨s₁, h₁, -⟩ := exists_of_append hs
  obtain ⟨s₀, h₀, -⟩ := exists_of_append h₁
  rw [steps_append_of_some _ h₁, steps_append_of_some _ h₀, ← List.append_assoc,
    ← List.append_assoc]
  exact .stored (h s s₀ h₀ done)

theorem place (h : d.EndsInPlace) : d.Calm := by
  intro s s₁ hs done
  obtain ⟨before, l, heq⟩ := h s s₁ hs
  rw [heq, ← List.append_assoc]
  exact .firm rfl

theorem block (h : d.EndsInPlace) : (Draft.block d).Calm := by
  intro s s₂ hs done
  obtain ⟨s₁, h₁, -⟩ := exists_of_append hs
  obtain ⟨s₀, h₀, hd⟩ := exists_of_append h₁
  obtain ⟨before, l, heq⟩ := h s₀ s₁ hd
  rw [Draft.block, steps_append_of_some _ h₁, steps_append_of_some _ h₀, heq]
  have hend : done ++ ([.enterBlock] ++ (before ++ [.place l]) ++ [.leaveBlock])
      = done ++ .enterBlock :: before ++ [.place l] ++ [.leaveBlock] := by simp
  exact hend ▸ .placed

end Calm

end Draft

/-! ### Pairs of drafts -/

/-- Where the function returns at the label `l`, what follows the label leads to a return. -/
def Script.Joins (returned : Bool) (l : Label) (body : Script) : Prop :=
  returned = true → ∃ before after, body = before ++ .place l :: after ∧ Script.Leads body after

/-- The draft `d'` comes from `d` by turning tail calls into calls, whatever follows. The script `body`
of the whole unit, without tail calls, has to be such that `P` holds, and where the value is `returned`,
what follows the draft has to lead to a return. -/
def Draft.Untails (P : Script → Prop) (returned : Bool) (d d' : Draft) (tails : Tails) : Prop :=
  ∀ s s₁, d.rest? s = some s₁ → d'.rest? s = some s₁
    ∧ ∀ body before done xs ys rest, body = before ++ (d'.steps s ++ ys) → P body →
      (returned = true → Script.Leads body ys) →
      Script.Untails body (done ++ d.steps s) xs ys rest →
      Script.Untails body done (d.steps s ++ xs) (d'.steps s ++ ys) (tails ++ rest)

namespace Draft.Untails

variable {P Q : Script → Prop} {r r' : Bool} {a a' b b' d d' : Draft} {tails tails' : Tails}

theorem of_none (h : ∀ s, d.rest? s = none) : Untails P r d d' tails := by
  intro s s₁ hs
  rw [h] at hs
  cases hs

theorem congr (h : Untails P r d d' tails) (ht : tails' = tails) : Untails P r d d' tails' := by
  rw [ht]
  exact h

theorem refuse {line : Nat} {cause : Misuse} : Untails P r (refuse line cause) d' tails :=
  of_none fun _ => rfl

theorem final {x : Step} : Untails P r (Draft.final x) d' tails := of_none fun _ => rfl

theorem nil : Untails P r Draft.nil Draft.nil .none := by
  intro s s₁ hs
  refine ⟨hs, fun body before done xs ys rest _ _ _ h => ?_⟩
  rw [steps_nil, List.append_nil] at h
  rw [Tails.none_append]
  exact h

/-- Both sides take the same step. -/
theorem step {x : Step} (hx : x.isShared = true) : Untails P r (Draft.step x) (Draft.step x) .none := by
  intro s s₁ hs
  refine ⟨hs, fun body before done xs ys rest _ _ _ h => ?_⟩
  rw [Tails.none_append]
  exact .same hx h

/-- A pair after a pair. What follows the first one is the second one. -/
theorem append_of (ha : Untails Q r' a a' tails) (hb : Untails P r b b' tails')
    (hlead : ∀ body before ys s s₁, b'.rest? s = some s₁ → body = before ++ (b'.steps s ++ ys) →
      P body → (r = true → Script.Leads body ys) →
      Q body ∧ (r' = true → Script.Leads body (b'.steps s ++ ys))) :
    Untails P r (a ++ b) (a' ++ b') (tails ++ tails') := by
  intro s s₂ h
  obtain ⟨s₁, h₁, h₂⟩ := exists_of_append h
  obtain ⟨h₁', ha⟩ := ha s s₁ h₁
  obtain ⟨h₂', hb⟩ := hb s₁ s₂ h₂
  refine ⟨by rw [rest?_append_of_some b' h₁', h₂'], ?_⟩
  rw [steps_append_of_some b h₁, steps_append_of_some b' h₁']
  intro body before done xs ys rest hbody hP hr h
  rw [List.append_assoc] at hbody ⊢
  rw [List.append_assoc, Tails.append_assoc]
  rw [← List.append_assoc] at h
  have hbody' := hbody.trans (List.append_assoc _ _ _).symm
  obtain ⟨hQ, hr'⟩ := hlead body _ ys s₁ s₂ h₂' hbody' hP hr
  exact ha body before done _ _ _ hbody hQ hr' (hb body _ _ xs ys rest hbody' hP hr h)

theorem append (ha : Untails P false a a' tails) (hb : Untails P r b b' tails') :
    Untails P r (a ++ b) (a' ++ b') (tails ++ tails') :=
  ha.append_of hb fun _ _ _ _ _ _ _ hP _ => ⟨hP, fun h => absurd h Bool.false_ne_true⟩

/-- Nothing is returned in what comes after. -/
theorem before (ha : Untails P false a a' tails) (hb : Untails P r b b' .none) :
    Untails P r (a ++ b) (a' ++ b') tails := by
  have h := ha.append hb
  rwa [Tails.append_none] at h

/-- Nothing is returned in what comes before. -/
theorem after (ha : Untails P false a a' .none) (hb : Untails P r b b' tails) :
    Untails P r (a ++ b) (a' ++ b') tails := by
  have h := ha.append hb
  rwa [Tails.none_append] at h

theorem withLabel {F F' : Label → Draft} (h : ∀ l, Untails P r (F l) (F' l) tails) :
    Untails P r (Draft.withLabel F) (Draft.withLabel F') tails := by
  intro s s₁ hs
  rw [rest?_withLabel] at hs ⊢
  obtain ⟨hs', h⟩ := h _ _ _ hs
  refine ⟨hs', ?_⟩
  rw [steps_withLabel, steps_withLabel]
  intro body before done xs ys rest hbody hP hr hrest
  refine .same rfl (h body (before ++ [.newLabel]) _ xs ys rest ?_ hP hr ?_)
  · rw [hbody, List.append_assoc]
    rfl
  · rwa [List.append_assoc]

theorem withLabels {n : Nat} {F F' : Label → Draft} (h : ∀ l, Untails P r (F l) (F' l) tails) :
    Untails P r (Draft.withLabels n F) (Draft.withLabels n F') tails := by
  have hnew : ∀ n body done xs ys rest,
      Script.Untails body (done ++ List.replicate n .newLabel) xs ys rest →
      Script.Untails body done (List.replicate n .newLabel ++ xs) (List.replicate n .newLabel ++ ys)
        rest := by
    intro n body
    induction n with
    | zero =>
      intro done xs ys rest hrest
      rwa [List.replicate_zero, List.append_nil] at hrest
    | succ n ih =>
      intro done xs ys rest hrest
      refine .same rfl (ih _ xs ys rest ?_)
      rwa [List.append_assoc]
  intro s s₁ hs
  rw [rest?_withLabels] at hs ⊢
  obtain ⟨hs', h⟩ := h _ _ _ hs
  refine ⟨hs', ?_⟩
  rw [steps_withLabels, steps_withLabels]
  intro body before done xs ys rest hbody hP hr hrest
  rw [List.append_assoc, List.append_assoc]
  refine hnew n body done _ _ _ (h body (before ++ List.replicate n .newLabel) _ xs ys rest ?_ hP hr ?_)
  · rw [hbody, List.append_assoc, List.append_assoc]
  · rwa [List.append_assoc]

theorem withHidden {what : String} {F F' : String → Draft}
    (h : ∀ x, Untails P r (F x) (F' x) tails) :
    Untails P r (Draft.withHidden what F) (Draft.withHidden what F') tails := by
  intro s s₁ hs
  rw [rest?_withHidden] at hs ⊢
  rw [steps_withHidden, steps_withHidden]
  exact h _ _ _ hs

/-- A block ends behind its body, and so does what leads to a return. -/
theorem block (h : Untails P r d d' tails) :
    Untails P r (Draft.block d) (Draft.block d') tails := by
  have hopen : Untails P r (Draft.step .enterBlock ++ d) (Draft.step .enterBlock ++ d') tails :=
    after (step rfl) h
  have hleave : Untails P r (Draft.step .leaveBlock) (Draft.step .leaveBlock) .none := step rfl
  have hclose := hopen.append_of hleave fun body before ys s s₁ _ _ hP hr =>
    ⟨hP, fun h => .leaveBlock (hr h)⟩
  rwa [Tails.append_none] at hclose

/-- A unit of its own. -/
theorem unit {op : Opcode} {kind : ScopeKind} {signature : Signature} (hop : op.isProper = true)
    (hne : op ≠ .tailCall) (h : Untails (fun _ => True) false d d' tails) :
    Untails P r (Draft.unit op kind signature d) (Draft.unit op kind signature d') (.unit tails) := by
  intro s s₂ hs
  rw [rest?_unit] at hs ⊢
  obtain ⟨s₁, h₁, rfl⟩ := Option.map_eq_some_iff.mp hs
  obtain ⟨h₁', h⟩ := h _ _ h₁
  refine ⟨by rw [h₁', Option.map_some], ?_⟩
  rw [steps_unit, steps_unit]
  intro body before done xs ys rest _ _ _ hrest
  have hinner := h (d'.steps { s with labels := 0 }) [] [] [] [] .none (by simp) trivial
    (fun h => absurd h Bool.false_ne_true) .done
  rw [List.append_nil, List.append_nil, Tails.append_none] at hinner
  exact .unit hop hne hinner hrest

/-- A value is dropped. -/
theorem discard (h : Untails P false d d' tails) (hd : d.Calm) :
    Untails P r (d ++ Draft.step .discard) (d' ++ Draft.step .discard) tails := by
  intro s s₂ hs
  obtain ⟨s₁, h₁, hlast⟩ := exists_of_append hs
  obtain ⟨h₁', h⟩ := h s s₁ h₁
  refine ⟨by rw [rest?_append_of_some _ h₁', hlast], ?_⟩
  rw [steps_append_of_some _ h₁, steps_append_of_some _ h₁', steps_step]
  intro body before done xs ys rest hbody hP _ hrest
  rw [List.append_assoc] at hbody ⊢
  rw [List.append_assoc]
  rw [← List.append_assoc] at hrest
  exact h body before done _ _ rest hbody hP (fun h => absurd h Bool.false_ne_true)
    (.discard (hd s s₁ h₁ done) hrest)

/-! ### Tail calls and what follows them -/

/-- A tail call in a branch of the returned expression. -/
theorem branch {n : Nat} :
    Untails P true (Draft.step (.count .tailCall n)) (Draft.step (.count .call n)) (.call false) := by
  intro s s₁ hs
  exact ⟨hs, fun body before done xs ys rest _ _ hr h => .branch (hr rfl) h⟩

/-- A tail call that is the whole returned expression. -/
theorem whole {n : Nat} :
    Untails P r (Draft.step (.count .tailCall n)) (Draft.step (.count .call n) ++ plain .ret)
      (.call true) := by
  intro s s₁ hs
  exact ⟨hs, fun body before done xs ys rest _ _ _ h => .whole h⟩

/-- A returned value is taken to a label. -/
theorem jumpTo {l : Label} (h : Untails P r d d' tails) (hP : ∀ body, P body → Script.Joins r l body) :
    Untails P false (d ++ jump .jump l) (d' ++ jump .jump l) tails := by
  have hjump : Untails P false (jump .jump l) (jump .jump l) .none := step rfl
  have hboth := h.append_of hjump fun body before ys s s₁ _ _ hbody _ => by
    refine ⟨hbody, fun hr => ?_⟩
    obtain ⟨before, after, heq, hleads⟩ := hP body hbody hr
    exact .jump heq hleads
  rwa [Tails.append_none] at hboth

/-- Returned values meet at a label. -/
theorem join {l : Label} (h : Untails (Script.Joins r l) r d d' tails) :
    Untails P r (d ++ place l) (d' ++ place l) tails := by
  have hplace : Untails P r (place l) (place l) .none := step rfl
  have hboth := h.append_of hplace fun body before ys s s₁ _ hbody _ hr =>
    ⟨fun h => ⟨before, ys, hbody, hr h⟩, fun h => .place (hr h)⟩
  rwa [Tails.append_none] at hboth

/-- A value is returned. -/
theorem ret (h : Untails P r d d' tails) :
    Untails P false (d ++ plain .ret) (d' ++ plain .ret) tails := by
  have hret : Untails P false (plain .ret) (plain .ret) .none := step rfl
  have hboth := h.append_of hret fun body before ys s s₁ _ _ hP _ => ⟨hP, fun _ => .ret⟩
  rwa [Tails.append_none] at hboth

end Draft.Untails

end StackCode
