import StackCode.Proofs.Counterparts

/-!
# Scripts with and without tail calls

Two scripts that differ only in their tail calls are run, and the code objects that come of them
differ only in their tail calls.

* `Script.Calm`: the script has not recorded anything since the value on top of the stack was pushed;
* `Script.Poised`, `Script.Poised.step`: what this means for the scope;
* `Script.Untails`: how the two scripts correspond;
* `Script.Owes`: where a return is owed;
* `Script.Untails.finish`, `Script.Untails.runUnit`: the units end, and are made children;
* `Script.Untails.run`: the scripts are run.
-/

namespace StackCode

/-! ### Before a value is dropped -/

/-- Whether the code ends in no store after a step. -/
def Step.isFirm : Step → Bool
  | op o | count o _ | pair o _ _ | named o _ | unit o _ _ _ => !o.isStore
  | loadConst _ | loadName _ | place _ => true
  | _ => false

/-- Nothing was recorded since the value on top of the stack was pushed, or no duplication can be taken
back. The same holds of a value when it is duplicated. -/
inductive Script.Calm : Script → Prop where
  | firm {before : Script} {x : Step} (hx : x.isFirm = true) : Calm (before ++ [x])
  | stored {before : Script} {x : String} (h : Calm before) :
      Calm (before ++ [.op .dup] ++ [.storeName x])
  | placed {before : Script} {l : Label} : Calm (before ++ [.place l] ++ [.leaveBlock])

theorem Script.calm_iff {xs : Script} :
    Script.Calm xs ↔ (∃ before x, xs = before ++ [x] ∧ Step.isFirm x = true)
      ∨ (∃ before x, xs = before ++ [.op .dup] ++ [.storeName x] ∧ Script.Calm before)
      ∨ ∃ before l, xs = before ++ [.place l] ++ [.leaveBlock] := by
  constructor
  · intro h
    cases h with
    | firm hx => exact .inl ⟨_, _, rfl, hx⟩
    | stored h => exact .inr (.inl ⟨_, _, rfl, h⟩)
    | placed => exact .inr (.inr ⟨_, _, rfl⟩)
  · rintro (⟨before, x, rfl, hx⟩ | ⟨before, x, rfl, h⟩ | ⟨before, l, rfl⟩)
    · exact .firm hx
    · exact .stored h
    · exact .placed

/-- A script that has just dropped a value is not calm. -/
theorem Script.not_calm_discard {done : Script} : ¬ Script.Calm (done ++ [.discard]) := by
  rw [Script.calm_iff]
  rintro (⟨before, x, h, hx⟩ | ⟨before, x, h, -⟩ | ⟨before, l, h⟩)
  · rw [← List.singleton_inj.mp (List.append_inj' h rfl).2] at hx
    cases hx
  · exact absurd (List.singleton_inj.mp (List.append_inj' h rfl).2) nofun
  · exact absurd (List.singleton_inj.mp (List.append_inj' h rfl).2) nofun

/-- What the last steps of a script mean for the scope; no position behind `bound` is recorded. -/
structure Script.Poised (done : Script) (s : Scope) (bound : Nat) : Prop where
  calm : Script.Calm done → s.endsInSpareDup = true → bound + 2 ≤ s.code.size
  dup : ∀ before, done = before ++ [.op .dup] → bound + 1 ≤ s.code.size
  place : ∀ before l, done = before ++ [.place l] → s.endsInSpareDup = false

namespace Scope

variable {s : Scope}

/-- A code that ends in no store has no spare duplication. -/
theorem endsInSpareDup_of_last {before : List Instruction} {i : Instruction} {op : Opcode}
    (hcode : s.code.toList = before ++ [i]) (hi : i.opcode? = some op) (hop : op.isStore = false) :
    s.endsInSpareDup = false := by
  refine Bool.eq_false_iff.mpr fun hs => ?_
  obtain ⟨before', j, k, op', hcode', -, hk, hst, -⟩ := endsInSpareDup_iff_exists.mp hs
  have hlast := List.singleton_inj.mp (List.append_inj' (hcode.symm.trans hcode') rfl).2
  rw [hlast, hk] at hi
  rw [Option.some.inj hi, hop] at hst
  cases hst

/-- Nor has a code with a label at its end. -/
theorem endsInSpareDup_of_label {l : Label} (h : s.labels.position? l = some s.code.size) :
    s.endsInSpareDup = false := by
  refine Bool.eq_false_iff.mpr fun hs => ?_
  obtain ⟨-, -, -, hpos⟩ := endsInSpareDup_iff.mp hs
  have := hpos l _ h
  omega

end Scope

namespace Step

variable {x : Step} {a b : Assembler}

/-- A firm step writes no store. -/
theorem Writes.isStore {i : Instruction} (hx : x.isFirm = true) (h : x.Writes i) :
    ∃ op, i.opcode? = some op ∧ op.isStore = false := by
  cases x with
  | op o =>
    obtain rfl := h
    exact ⟨o, Instruction.opcode?_plain o, Bool.not_eq_true' _ |>.mp hx⟩
  | count o n =>
    obtain ⟨hn, rfl⟩ := h
    exact ⟨o, Instruction.opcode?_pack (Nat.lt_succ_of_le hn), Bool.not_eq_true' _ |>.mp hx⟩
  | pair o m n =>
    obtain ⟨⟨hm, hn⟩, rfl⟩ := h
    unfold Instruction.maxPair at hm hn
    exact ⟨o, Instruction.opcode?_pack (by omega), Bool.not_eq_true' _ |>.mp hx⟩
  | named o name =>
    obtain ⟨n, hn, rfl⟩ := h
    exact ⟨o, Instruction.opcode?_pack (Nat.lt_succ_of_le hn), Bool.not_eq_true' _ |>.mp hx⟩
  | loadConst v =>
    obtain ⟨n, hn, rfl⟩ := h
    exact ⟨.loadConst, Instruction.opcode?_pack (Nat.lt_succ_of_le hn), rfl⟩
  | loadName name =>
    obtain ⟨place, hn, rfl⟩ := h
    exact ⟨place.loadOp, Instruction.opcode?_pack (Nat.lt_succ_of_le hn), by cases place <;> rfl⟩
  | slot o name | storeName name => cases hx
  | _ => exact h.elim

theorem endsInSpareDup_of_isWrite (hw : x.isWrite = true) (hx : x.isFirm = true)
    (h : run x a = .ok () b) : b.current.endsInSpareDup = false := by
  obtain ⟨-, t, i, -, hi, hb⟩ := run_write hw h
  obtain ⟨op, hop, hst⟩ := hi.isStore hx
  rw [hb]
  have hlast : (t.appended i).code.toList = t.code.toList ++ [i] := Array.toList_push
  exact Scope.endsInSpareDup_of_last hlast hop hst

/-- The code ends in the instance that was made, or in one of its captures. -/
theorem last_of_unit {op : Opcode} {kind : ScopeKind} {signature : Signature} {body : Script}
    (h : run (.unit op kind signature body) a = .ok () b) :
    ∃ before i o, b.current.code.toList = before ++ [i] ∧ Instruction.opcode? i = some o
      ∧ (o = op ∨ o.isCapture = true) := by
  obtain ⟨n, e, s, c, child, d, -, -, -, -, hc⟩ := run_unit_eq_ok.mp h
  obtain ⟨hn, hcaptures, rfl⟩ := Assembler.eq_of_emitChild hc
  have hcode : (d.current.appendedAll (.pack op child.index :: child.captures.map Capture.word)).code.toList
      = d.current.code.toList ++ .pack op child.index :: child.captures.map Capture.word :=
    Scope.code_appendedAll _ _
  rcases List.eq_nil_or_concat' child.captures with hnil | ⟨captures, k, hconcat⟩
  · rw [hnil, List.map_nil] at hcode ⊢
    exact ⟨_, _, op, hcode, Instruction.opcode?_pack (Nat.lt_succ_of_le hn), .inl rfl⟩
  · have hk := hcaptures k (by rw [hconcat]; exact List.mem_append_right _ List.mem_cons_self)
    have hlast : d.current.code.toList ++ .pack op child.index :: child.captures.map Capture.word
        = d.current.code.toList ++ (.pack op child.index :: captures.map Capture.word) ++ [k.word] := by
      rw [hconcat, List.map_append, List.append_assoc, List.cons_append]
      rfl
    exact ⟨_, _, k.op, hcode.trans hlast, Capture.opcode?_word hk, .inr (by cases k <;> rfl)⟩

theorem endsInSpareDup_of_unit {op : Opcode} {kind : ScopeKind} {signature : Signature}
    {body : Script} (hop : op.isStore = false) (h : run (.unit op kind signature body) a = .ok () b) :
    b.current.endsInSpareDup = false := by
  obtain ⟨before, i, o, hcode, hi, rfl | ho⟩ := last_of_unit h
  · exact Scope.endsInSpareDup_of_last hcode hi hop
  · exact Scope.endsInSpareDup_of_last hcode hi (by cases o <;> first | rfl | cases ho)

/-- A firm step leaves no spare duplication. -/
theorem endsInSpareDup_of_isFirm (hx : x.isFirm = true) (h : run x a = .ok () b) :
    b.current.endsInSpareDup = false := by
  cases x with
  | op _ | count _ _ | pair _ _ _ | named _ _ | loadConst _ | loadName _ =>
    exact endsInSpareDup_of_isWrite rfl hx h
  | unit op kind signature body => exact endsInSpareDup_of_unit (Bool.not_eq_true' _ |>.mp hx) h
  | place l =>
    obtain ⟨s, hs, rfl⟩ := Assembler.onCurrent_eq_ok.mp h
    obtain ⟨hl, -, rfl⟩ := Scope.placeLabel_eq_ok.mp hs
    refine Scope.endsInSpareDup_of_label (l := l) ?_
    rw [Labels.position?_placed hl, if_pos rfl]
  | _ => cases hx

theorem eq_of_run_count {o : Opcode} {n : Nat} (h : run (.count o n) a = .ok () b) :
    n ≤ Instruction.maxUnsigned ∧ b = { a with current := a.current.appended (.pack o n) } := by
  obtain ⟨p, h⟩ := Edit.ignore_eq_ok.mp h
  obtain ⟨s, hs, rfl⟩ := Assembler.onCurrent_eq_ok.mp h
  obtain ⟨hn, -, -, rfl⟩ := Scope.emitUnsigned_eq_ok.mp hs
  exact ⟨hn, rfl⟩

theorem eq_of_run_op {o : Opcode} (h : run (.op o) a = .ok () b) :
    b = { a with current := a.current.appended (.plain o) } := by
  obtain ⟨p, h⟩ := Edit.ignore_eq_ok.mp h
  obtain ⟨s, hs, rfl⟩ := Assembler.onCurrent_eq_ok.mp h
  obtain ⟨-, -, rfl⟩ := Scope.emitOp_eq_ok.mp hs
  rfl

/-- A step that writes makes the code one instruction longer. -/
theorem size_of_isWrite (hw : x.isWrite = true) (h : run x a = .ok () b) :
    b.current.code.size = a.current.code.size + 1 := by
  obtain ⟨-, t, i, ht, -, hb⟩ := run_write hw h
  rw [hb, ← ht.code]
  exact Array.size_push _

end Step

namespace Script.Poised

variable {done : Script} {s : Scope} {bound : Nat} {a b : Assembler} {x : Step}

theorem nil (s : Scope) (bound : Nat) : Poised [] s bound := by
  refine ⟨?_, fun before h => by simp at h, fun before l h => by simp at h⟩
  rw [calm_iff]
  rintro (⟨before, x, h, -⟩ | ⟨before, x, h, -⟩ | ⟨before, l, h⟩) <;> simp at h

/-- One more step. -/
theorem step (h : Poised done a.current bound) (hbound : bound ≤ a.current.code.size)
    (hr : Step.run x a = .ok () b) :
    Poised (done ++ [x]) b.current (x.boundAfter a.current bound) := by
  refine ⟨?_, ?_, ?_⟩
  · rw [calm_iff]
    rintro (⟨before, y, heq, hy⟩ | ⟨before, y, heq, -⟩ | ⟨before, l, heq⟩) hs
    · obtain rfl := List.singleton_inj.mp (List.append_inj' heq rfl).2
      rw [Step.endsInSpareDup_of_isFirm hy hr] at hs
      cases hs
    · obtain ⟨hdone, hx⟩ := List.append_inj' heq rfl
      obtain rfl := List.singleton_inj.mp hx
      have hdup := h.dup before hdone
      rw [Step.size_of_isWrite rfl hr]
      exact Nat.succ_le_succ hdup
    · obtain ⟨hdone, hx⟩ := List.append_inj' heq rfl
      obtain rfl := List.singleton_inj.mp hx
      have hplace := h.place before l hdone
      obtain ⟨s, hs', rfl⟩ := Assembler.onCurrent_eq_ok.mp hr
      obtain ⟨marker, blocks, -, rfl⟩ := Scope.leaveBlock_eq_ok.mp hs'
      exact absurd (hplace.symm.trans hs) Bool.false_ne_true
  · intro before heq
    obtain rfl := List.singleton_inj.mp (List.append_inj' heq rfl).2
    rw [Step.size_of_isWrite rfl hr]
    exact Nat.succ_le_succ hbound
  · intro before l heq
    obtain rfl := List.singleton_inj.mp (List.append_inj' heq rfl).2
    exact Step.endsInSpareDup_of_isFirm rfl hr

/-- A value was dropped: nothing is known of what the code ends in. -/
theorem discard : Poised (done ++ [.discard]) s bound := by
  refine ⟨fun h => absurd h not_calm_discard, fun before h => ?_, fun before l h => ?_⟩
  · exact absurd (List.singleton_inj.mp (List.append_inj' h rfl).2) nofun
  · exact absurd (List.singleton_inj.mp (List.append_inj' h rfl).2) nofun

end Script.Poised

/-! ### Corresponding scripts -/

/-- The script `ys` comes from `xs` by turning tail calls into calls. It is the rest of the script
`body` of its unit, and `done` is what the other side has done before. -/
inductive Script.Untails : (body done xs ys : Script) → Tails → Prop where
  | done {body done : Script} : Untails body done [] [] .none
  | same {body done xs ys : Script} {tails : Tails} {x : Step} (hx : x.isShared = true)
      (h : Untails body (done ++ [x]) xs ys tails) : Untails body done (x :: xs) (x :: ys) tails
  | discard {body done xs ys : Script} {tails : Tails} (hdone : Script.Calm done)
      (h : Untails body (done ++ [.discard]) xs ys tails) :
      Untails body done (.discard :: xs) (.discard :: ys) tails
  /-- The result of the call is returned further on. -/
  | branch {body done xs ys : Script} {tails : Tails} {n : Nat} (hleads : Script.Leads body ys)
      (h : Untails body (done ++ [.count .tailCall n]) xs ys tails) :
      Untails body done (.count .tailCall n :: xs) (.count .call n :: ys) (.call false ++ tails)
  | whole {body done xs ys : Script} {tails : Tails} {n : Nat}
      (h : Untails body (done ++ [.count .tailCall n]) xs ys tails) :
      Untails body done (.count .tailCall n :: xs) (.count .call n :: .op .ret :: ys)
        (.call true ++ tails)
  | unit {body done xs ys inner inner' : Script} {tails tails' : Tails} {op : Opcode}
      {kind : ScopeKind} {signature : Signature} (hop : op.isProper = true) (hne : op ≠ .tailCall)
      (hinner : Untails inner' [] inner inner' tails')
      (h : Untails body (done ++ [.unit op kind signature inner]) xs ys tails) :
      Untails body done (.unit op kind signature inner :: xs) (.unit op kind signature inner' :: ys)
        (.unit tails' ++ tails)

/-- A return is owed at position `k`: from there on the script does nothing but jump until it
returns. -/
def Script.Owes (body : Script) (start : Assembler) (k : Nat) : Prop :=
  ∃ before after a, body = before ++ after ∧ Step.runAll before start = .ok () a
    ∧ a.current.code.size = k ∧ Script.Leads body after

namespace Script.Untails

variable {body done xs ys : Script} {tails : Tails}

/-- The steps of both scripts are proper ones. -/
theorem isProper (h : Untails body done xs ys tails) :
    (∀ x ∈ xs, x.isProper = true) ∧ ∀ y ∈ ys, y.isProper = true := by
  induction h with
  | done => exact ⟨fun _ h => absurd h List.not_mem_nil, fun _ h => absurd h List.not_mem_nil⟩
  | same hx _ ih =>
    have hx := Step.isProper_of_isShared hx
    exact ⟨List.forall_mem_cons.mpr ⟨hx, ih.1⟩, List.forall_mem_cons.mpr ⟨hx, ih.2⟩⟩
  | discard _ _ ih | branch _ _ ih =>
    exact ⟨List.forall_mem_cons.mpr ⟨rfl, ih.1⟩, List.forall_mem_cons.mpr ⟨rfl, ih.2⟩⟩
  | whole _ ih =>
    exact ⟨List.forall_mem_cons.mpr ⟨rfl, ih.1⟩,
      List.forall_mem_cons.mpr ⟨rfl, List.forall_mem_cons.mpr ⟨rfl, ih.2⟩⟩⟩
  | unit hop _ _ _ _ ih =>
    exact ⟨List.forall_mem_cons.mpr ⟨hop, ih.1⟩, List.forall_mem_cons.mpr ⟨hop, ih.2⟩⟩

variable {start start' b b' : Assembler} {bound : Nat}

/-- Both units end. -/
theorem finish {t t' : Scope} (h : Untails ys [] xs ys tails)
    (hb : b.Beside (Owes ys start') tails bound b')
    (hs : Logged {} (Step.BeginsAt [] start) start.current)
    (hs' : Logged {} (Step.BeginsAt [] start') start'.current)
    (hr : Step.runAll xs start = .ok () b) (hr' : Step.runAll ys start' = .ok () b')
    (ht : Scope.reconcile b.current = .ok () t) (ht' : Scope.reconcile b'.current = .ok () t')
    (outers : Outers) :
    Untailed tails { t with outers }.toCodeObject { t' with outers }.toCodeObject := by
  obtain ⟨hx, hy⟩ := h.isProper
  have hlog := Logged.run [] hs rfl hx hr
  have hlog' := Logged.run [] hs' rfl hy hr'
  refine hb.current.finish hlog hlog' ht ht' ?_ outers
  rintro k ⟨before, after, a, hbody, ha, rfl, hleads⟩
  obtain ⟨-, code, hcode, rfl⟩ := Scope.reconcile_eq_ok.mp ht'
  exact hleads.reachesReturn hy hlog' hr' hcode hbody ha

end Script.Untails

/-! ### Both scripts are run -/

namespace Assembler.Beside

variable {owes owes' : Nat → Prop} {tails tails' : Tails} {bound bound' n n' : Nat}
  {a a' c c' d d' e e' : Assembler} {kind : ScopeKind} {signature : Signature} {s s' : Scope}
  {child child' : Child}

/-- Both sides enter a unit. -/
theorem entered (h : a.Beside owes tails bound a')
    (he : Assembler.enterScope kind signature a = .ok n e)
    (he' : Assembler.enterScope kind signature a' = .ok n' e')
    (hd : declareAll signature.params e.current = .ok () s)
    (hd' : declareAll signature.params e'.current = .ok () s') :
    Assembler.Beside owes' .none 0 { e with current := s } { e' with current := s' } := by
  obtain ⟨-, rfl⟩ := Assembler.enterScope_eq_ok.mp he
  obtain ⟨-, rfl⟩ := Assembler.enterScope_eq_ok.mp he'
  simp only [h.debugInfo] at hd'
  have hnew : s.Beside owes' .none 0 s' := Scope.Beside.declareAll .new hd hd' rfl
  exact ⟨hnew, .cons ⟨h.current.tables.locals, h.current.tables.ended⟩ h.enclosing, h.lineMarkers,
    h.debugInfo⟩

/-- Both sides leave a unit, which becomes a child of the unit around it. -/
theorem left (h : a.Beside owes tails bound a') (hc : c.Beside owes' tails' bound' c')
    (henc : c.enclosing = a.current :: a.enclosing)
    (henc' : c'.enclosing = a'.current :: a'.enclosing)
    (hl : Assembler.leaveScope c = .ok child d) (hl' : Assembler.leaveScope c' = .ok child' d')
    (hunit : ∀ t t' outers, Scope.reconcile c.current = .ok () t →
      Scope.reconcile c'.current = .ok () t' →
      Untailed tails' { t with outers }.toCodeObject { t' with outers }.toCodeObject) :
    child' = child ∧ d.Beside owes (tails ++ .unit tails') bound d' := by
  obtain ⟨parent, rest, t, relay, hp, -, ht, hr, rfl, rfl⟩ := Assembler.leaveScope_eq_ok.mp hl
  obtain ⟨parent', rest', t', relay', hp', -, ht', hr', rfl, rfl⟩ :=
    Assembler.leaveScope_eq_ok.mp hl'
  obtain ⟨rfl, rfl⟩ := List.cons.inj (hp.symm.trans henc)
  obtain ⟨rfl, rfl⟩ := List.cons.inj (hp'.symm.trans henc')
  have houters : t'.outers = t.outers := by
    obtain ⟨-, code, -, rfl⟩ := Scope.reconcile_eq_ok.mp ht
    obtain ⟨-, code', -, rfl⟩ := Scope.reconcile_eq_ok.mp ht'
    exact hc.current.tables.outers
  rw [houters, h.current.tables.outers, hr] at hr'
  obtain rfl := Except.ok.inj hr'
  have hsize : a'.current.children.size = a.current.children.size := by
    rw [← Array.length_toList, ← Array.length_toList]
    exact h.current.children.length_eq
  have hchildren := h.current.children.concat (hunit t t' ⟨relay.settled⟩ ht ht')
  rw [hsize]
  refine ⟨rfl, ⟨⟨{ h.current.tables with outers := rfl }, ?_, ?_⟩, h.enclosing, hc.lineMarkers,
    hc.debugInfo⟩⟩
  · rw [Tails.calls_append, show (Tails.unit tails').calls = [] from rfl, List.append_nil]
    exact h.current.aligned
  · show UntailedAll _ (a.current.children.push _).toList (a'.current.children.push _).toList
    rw [Array.toList_push, Array.toList_push]
    exact hchildren

end Assembler.Beside

namespace Script.Untails

/-- Both sides write a unit, given what comes of its body. -/
theorem runUnit {owes : Nat → Prop} {inner inner' : Script} {tails tails₀ : Tails} {bound : Nat}
    {op : Opcode} {kind : ScopeKind} {signature : Signature} {a a' c c' : Assembler}
    (h : Untails inner' [] inner inner' tails) (hne : op ≠ .tailCall)
    (ha : a.Beside owes tails₀ bound a')
    (hc : Step.run (.unit op kind signature inner) a = .ok () c)
    (hc' : Step.run (.unit op kind signature inner') a' = .ok () c')
    (hrun : ∀ e e' f f', Assembler.Beside (Owes inner' e') .none 0 e e' →
      Step.runAll inner e = .ok () f → Step.runAll inner' e' = .ok () f' →
      ∃ bound', f.Beside (Owes inner' e') tails bound' f') :
    c.Beside owes (tails₀ ++ .unit tails) bound c' := by
  obtain ⟨n, e, s, f, child, g, he, hd, hf, hl, hg⟩ := Step.run_unit_eq_ok.mp hc
  obtain ⟨n', e', s', f', child', g', he', hd', hf', hl', hg'⟩ := Step.run_unit_eq_ok.mp hc'
  obtain ⟨bound', hinside⟩ := hrun _ _ f f' (ha.entered he he' hd hd') hf hf'
  have henc : f.enclosing = a.current :: a.enclosing := by
    rw [(Step.frame_of_runAll _ hf).1]
    obtain ⟨-, rfl⟩ := Assembler.enterScope_eq_ok.mp he
    rfl
  have henc' : f'.enclosing = a'.current :: a'.enclosing := by
    rw [(Step.frame_of_runAll _ hf').1]
    obtain ⟨-, rfl⟩ := Assembler.enterScope_eq_ok.mp he'
    rfl
  obtain ⟨rfl, hleft⟩ := ha.left hinside henc henc' hl hl' fun t t' outers ht ht' =>
    h.finish hinside (.entered he hd) (.entered he' hd') hf hf' ht ht' outers
  obtain ⟨hn, hcaptures, rfl⟩ := Assembler.eq_of_emitChild hg
  obtain ⟨-, -, rfl⟩ := Assembler.eq_of_emitChild hg'
  -- the instance and its captures are the same on both sides
  have hwords : ∀ i ∈ .pack op child'.index :: child'.captures.map Capture.word,
      ∃ o, i.opcode? = some o ∧ o ≠ .tailCall := by
    refine List.forall_mem_cons.mpr
      ⟨⟨op, Instruction.opcode?_pack (Nat.lt_succ_of_le hn), hne⟩, fun i hi => ?_⟩
    obtain ⟨k, hk, rfl⟩ := List.mem_map.mp hi
    exact ⟨k.op, Capture.opcode?_word (hcaptures k hk), by cases k <;> simp [Capture.op]⟩
  exact hleft.withCurrent (hleft.current.appendedAll hwords)

/-- The code that both scripts leave corresponds. The induction is on the correspondence of the scripts;
`before` is what the side without tail calls has done in its unit. -/
theorem run {body done xs ys before : Script} {tails tails₀ : Tails} {bound : Nat}
    {start' a a' b b' : Assembler} (h : Untails body done xs ys tails)
    (ha : a.Beside (Owes body start') tails₀ bound a') (hp : Poised done a.current bound)
    (hbody : body = before ++ ys) (hbefore : Step.runAll before start' = .ok () a')
    (hr : Step.runAll xs a = .ok () b) (hr' : Step.runAll ys a' = .ok () b') :
    ∃ bound', b.Beside (Owes body start') (tails₀ ++ tails) bound' b' := by
  induction h generalizing before tails₀ bound start' a a' b b' with
  | done =>
    obtain ⟨-, rfl⟩ := Edit.pure_eq_ok.mp hr
    obtain ⟨-, rfl⟩ := Edit.pure_eq_ok.mp hr'
    rw [Tails.append_none]
    exact ⟨bound, ha⟩
  | @same body done xs ys tails x hx _ ih =>
    obtain ⟨c, hc, hr⟩ := Step.runAll_cons_eq_ok.mp hr
    obtain ⟨c', hc', hr'⟩ := Step.runAll_cons_eq_ok.mp hr'
    exact ih (ha.step hx hc hc') (hp.step ha.current.size_bound hc)
      (hbody.trans (List.append_cons _ _ _)) (Step.runAll_concat hbefore hc') hr hr'
  | @discard body done xs ys tails hdone _ ih =>
    obtain ⟨c, hc, hr⟩ := Step.runAll_cons_eq_ok.mp hr
    obtain ⟨c', hc', hr'⟩ := Step.runAll_cons_eq_ok.mp hr'
    have hstep : c.Beside (Owes body start') tails₀ bound c' :=
      ha.onCurrent Scope.discard hc hc' fun s s' hs hs' =>
        ha.current.discard hs hs' (hp.calm hdone)
    exact ih hstep (hp.step ha.current.size_bound hc)
      (hbody.trans (List.append_cons _ _ _)) (Step.runAll_concat hbefore hc') hr hr'
  | @branch body done xs ys tails n hleads _ ih =>
    obtain ⟨c, hc, hr⟩ := Step.runAll_cons_eq_ok.mp hr
    obtain ⟨c', hc', hr'⟩ := Step.runAll_cons_eq_ok.mp hr'
    obtain ⟨hn, rfl⟩ := Step.eq_of_run_count hc
    obtain ⟨-, rfl⟩ := Step.eq_of_run_count hc'
    have hbody' := hbody.trans (List.append_cons _ _ _)
    have howe : Owes body start' (a'.current.code.size + 1) :=
      ⟨_, ys, _, hbody', Step.runAll_concat hbefore hc', Array.size_push _, hleads⟩
    have hstep := ha.withCurrent (ha.current.tailCall false hn fun _ => howe)
    have hrest := ih hstep (hp.step ha.current.size_bound hc) hbody'
      (Step.runAll_concat hbefore hc') hr hr'
    rwa [Tails.append_assoc] at hrest
  | @whole body done xs ys tails n _ ih =>
    obtain ⟨c, hc, hr⟩ := Step.runAll_cons_eq_ok.mp hr
    obtain ⟨c', hc', hr'⟩ := Step.runAll_cons_eq_ok.mp hr'
    obtain ⟨d', hd', hr'⟩ := Step.runAll_cons_eq_ok.mp hr'
    obtain ⟨hn, rfl⟩ := Step.eq_of_run_count hc
    obtain ⟨-, rfl⟩ := Step.eq_of_run_count hc'
    obtain rfl := Step.eq_of_run_op hd'
    have hstep := ha.withCurrent
      (ha.current.tailCall true hn fun hb => absurd hb.symm Bool.false_ne_true)
    have hrest := ih hstep (hp.step ha.current.size_bound hc)
      ((hbody.trans (List.append_cons _ _ _)).trans (List.append_cons _ _ _))
      (Step.runAll_concat (Step.runAll_concat hbefore hc') hd') hr hr'
    rwa [Tails.append_assoc] at hrest
  | @unit body done xs ys inner inner' tails tails' op kind signature hop hne hinner _ ihinner ih =>
    obtain ⟨c, hc, hr⟩ := Step.runAll_cons_eq_ok.mp hr
    obtain ⟨c', hc', hr'⟩ := Step.runAll_cons_eq_ok.mp hr'
    have hstep := hinner.runUnit hne ha hc hc' fun e e' f f' hin hf hf' => by
      obtain ⟨bound', hinside⟩ := ihinner hin (.nil _ _) (List.nil_append _).symm rfl hf hf'
      rw [Tails.none_append] at hinside
      exact ⟨bound', hinside⟩
    have hrest := ih hstep (hp.step ha.current.size_bound hc)
      (hbody.trans (List.append_cons _ _ _)) (Step.runAll_concat hbefore hc') hr hr'
    rwa [Tails.append_assoc] at hrest

end Script.Untails

end StackCode
