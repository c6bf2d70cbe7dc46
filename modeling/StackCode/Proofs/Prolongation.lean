import StackCode.Proofs.Consistency
import StackCode.Proofs.Landing

/-!
# Programs that go on

What the first statements of a program are compiled to does not depend on the statements behind them,
although all of them are written into one scope.

* `Scope.Precedes`: a scope from which another one comes by writing behind it;
* `Scope.Precedes.step`, `Script.Regular.precedes`: a step, and a script of its own statements, write
  behind what is there;
* `Scope.Precedes.getElem?_of_reconcile`: the placeholders in front get the displacements they had;
* `Program.run_of_compile`: the run of a program, parted behind its first statements;
* `code_initial_of_compile`: the code, the constants and the children of a program that goes on.

A later statement looks back only where it drops a value, and the value was pushed by the statement itself.
So a duplication that is taken back is one of its own.
-/

namespace StackCode

open Draft

/-! ### Statements one after the other -/

theorem Stmt.lowerAll_append (p q : List Stmt) (ctx : Context) :
    Stmt.lowerAll (p ++ q) ctx = Stmt.lowerAll p ctx ++ Stmt.lowerAll q ctx := by
  induction p with
  | nil => rfl
  | cons s p ih => rw [List.cons_append, Stmt.lowerAll, Stmt.lowerAll, ih, append_assoc]

/-! ### Writing behind a scope -/

/-- All that the scope `s` holds is in `t`, and what else is in `t` is behind it. -/
structure Scope.Precedes (s t : Scope) : Prop where
  code : s.code.toList <+: t.code.toList
  uses : ∀ l u, t.labels.Uses l u → s.labels.Uses l u ∨ s.code.size ≤ u.position
  used : ∀ l u, s.labels.Uses l u → t.labels.Uses l u
  position : ∀ l q, s.labels.position? l = some q → t.labels.position? l = some q
  constants : s.constants.values.toList <+: t.constants.values.toList
  children : s.children.toList <+: t.children.toList

section Tables

variable {x : Step} {a b : Assembler}

/-- Resolving a name may give it a constant. -/
theorem Assembler.constants_of_resolve {name : String} {place : Place}
    (h : Assembler.resolve name a = .ok place b) :
    a.current.constants.values.toList <+: b.current.constants.values.toList := by
  obtain ⟨_, -, -, rfl⟩ | ⟨-, _, _, _, -, -, -, rfl⟩ | ⟨-, -, _, _, hc, -, rfl⟩ :=
    Assembler.resolve_eq_ok.mp h
  · exact List.prefix_refl _
  · exact List.prefix_refl _
  · exact (Pool.of_addName hc).1

/-- No step moves a constant. -/
theorem Step.constants_of_run (hx : ∀ op kind signature body, x ≠ .unit op kind signature body)
    (h : Step.run x a = .ok () b) :
    a.current.constants.values.toList <+: b.current.constants.values.toList := by
  have hsame : b.current.constants = a.current.constants →
      a.current.constants.values.toList <+: b.current.constants.values.toList :=
    fun hb => ⟨[], by rw [List.append_nil, hb]⟩
  cases x with
  | unit op kind signature body => exact absurd rfl (hx op kind signature body)
  | fail e => exact absurd h Edit.throw_ne_ok
  | loadConst v =>
    obtain ⟨s, hs, rfl⟩ := Assembler.onCurrent_eq_ok.mp h
    obtain ⟨_, _, hc, -, -, rfl⟩ := Scope.loadConst_eq_ok.mp hs
    exact Pool.initial_of_add hc
  | named o name =>
    obtain ⟨s, hs, rfl⟩ := Assembler.onCurrent_eq_ok.mp h
    obtain ⟨_, _, hc, -, -, rfl⟩ := Scope.emitNamed_eq_ok.mp hs
    exact (Pool.of_addName hc).1
  | loadName name =>
    obtain ⟨place, c, hr, -, -, rfl⟩ := Assembler.loadName_eq_ok.mp h
    exact Assembler.constants_of_resolve (b := c) hr
  | storeName name =>
    obtain ⟨place, c, hr, -, -, rfl⟩ := Assembler.storeName_eq_ok.mp h
    exact Assembler.constants_of_resolve (b := c) hr
  | op o =>
    rw [Step.eq_of_run_op h]
    exact List.prefix_refl _
  | count o n =>
    rw [(Step.eq_of_run_count h).2]
    exact List.prefix_refl _
  | pair o m n =>
    obtain ⟨p, h⟩ := Edit.ignore_eq_ok.mp h
    obtain ⟨s, hs, rfl⟩ := Assembler.onCurrent_eq_ok.mp h
    obtain ⟨-, -, -, rfl⟩ := Scope.emitPair_eq_ok.mp hs
    exact hsame rfl
  | newLabel =>
    obtain ⟨p, h⟩ := Edit.ignore_eq_ok.mp h
    obtain ⟨s, hs, rfl⟩ := Assembler.onCurrent_eq_ok.mp h
    obtain ⟨-, rfl⟩ := Scope.newLabel_eq_ok.mp hs
    exact hsame rfl
  | jump o l =>
    obtain ⟨p, h⟩ := Edit.ignore_eq_ok.mp h
    obtain ⟨s, hs, rfl⟩ := Assembler.onCurrent_eq_ok.mp h
    obtain ⟨-, -, -, rfl⟩ := Scope.emitJump_eq_ok.mp hs
    exact hsame rfl
  | place l =>
    obtain ⟨s, hs, rfl⟩ := Assembler.onCurrent_eq_ok.mp h
    obtain ⟨-, -, rfl⟩ := Scope.placeLabel_eq_ok.mp hs
    exact hsame rfl
  | receive =>
    simp only [Step.run] at h
    obtain ⟨s, hs, rfl⟩ := Assembler.onCurrent_eq_ok.mp h
    obtain rfl := Scope.receive_eq_ok.mp hs
    exact hsame rfl
  | discard =>
    obtain ⟨s, hs, rfl⟩ := Assembler.onCurrent_eq_ok.mp h
    obtain ⟨-, rfl⟩ | ⟨-, -, rfl⟩ := Scope.discard_eq_ok.mp hs
    · exact hsame rfl
    · exact hsame rfl
  | declare name =>
    obtain ⟨p, h⟩ := Edit.ignore_eq_ok.mp h
    obtain ⟨s, hs, rfl⟩ := Assembler.onCurrent_eq_ok.mp h
    obtain ⟨fresh, locals, -, rfl⟩ := Scope.declare_eq_ok.mp hs
    exact hsame rfl
  | slot o name =>
    obtain ⟨s, hs, rfl⟩ := Assembler.onCurrent_eq_ok.mp h
    obtain ⟨n, -, -, -, rfl⟩ := Scope.emitSlot_eq_ok.mp hs
    exact hsame rfl
  | enterBlock =>
    simp only [Step.run] at h
    obtain ⟨s, hs, rfl⟩ := Assembler.onCurrent_eq_ok.mp h
    obtain rfl := Scope.enterBlock_eq_ok.mp hs
    exact hsame rfl
  | leaveBlock =>
    obtain ⟨s, hs, rfl⟩ := Assembler.onCurrent_eq_ok.mp h
    obtain ⟨marker, blocks, -, rfl⟩ := Scope.leaveBlock_eq_ok.mp hs
    exact hsame rfl
  | protect =>
    simp only [Step.run] at h
    obtain ⟨s, hs, rfl⟩ := Assembler.onCurrent_eq_ok.mp h
    obtain rfl := Scope.protect_eq_ok.mp hs
    exact hsame rfl
  | markLine line =>
    obtain ⟨-, rfl⟩ | ⟨-, s, hs, rfl⟩ := Assembler.markLine_eq_ok.mp h
    · exact hsame rfl
    · obtain ⟨-, rfl⟩ | ⟨-, -, -, rfl⟩ := Scope.markLine_eq_ok.mp hs
      · exact hsame rfl
      · exact hsame rfl

/-- A unit becomes one more child. -/
theorem Step.tables_of_unit {op : Opcode} {kind : ScopeKind} {signature : Signature} {body : Script}
    (h : Step.run (.unit op kind signature body) a = .ok () b) :
    b.current.constants = a.current.constants
      ∧ ∃ u, b.current.children.toList = a.current.children.toList ++ [u] := by
  obtain ⟨n, e, s, c, child, d, he, hd, hb, hl, hc⟩ := Step.run_unit_eq_ok.mp h
  obtain ⟨-, rfl⟩ := Assembler.enterScope_eq_ok.mp he
  obtain ⟨parent, rest, t, relay, hparent, -, -, -, rfl, rfl⟩ := Assembler.leaveScope_eq_ok.mp hl
  obtain ⟨rfl, rfl⟩ := List.cons.inj (hparent.symm.trans (Step.frame_of_runAll body hb).1)
  obtain ⟨-, -, rfl⟩ := Assembler.eq_of_emitChild hc
  obtain ⟨code, depth, peak, happ⟩ := Scope.exists_appendedAll
    { a.current with
      outers := relay.parent
      children := a.current.children.push { t with outers := ⟨relay.settled⟩ }.toCodeObject }
    (.pack op a.current.children.size :: relay.captures.map Capture.word)
  simp only [happ]
  exact ⟨trivial, _, Array.toList_push⟩

/-- No step moves a constant or a child. -/
theorem Step.tables_of_run (h : Step.run x a = .ok () b) :
    a.current.constants.values.toList <+: b.current.constants.values.toList
      ∧ a.current.children.toList <+: b.current.children.toList := by
  by_cases hunit : ∃ op kind signature body, x = .unit op kind signature body
  · obtain ⟨op, kind, signature, body, rfl⟩ := hunit
    obtain ⟨hconstants, u, hchildren⟩ := Step.tables_of_unit h
    rw [hconstants, hchildren]
    exact ⟨List.prefix_refl _, List.prefix_append _ _⟩
  · have hne : ∀ op kind signature body, x ≠ .unit op kind signature body :=
      fun op kind signature body hx => hunit ⟨op, kind, signature, body, hx⟩
    rw [Step.children_of_run hne h]
    exact ⟨Step.constants_of_run hne h, List.prefix_refl _⟩

end Tables

namespace Scope.Precedes

variable {s t r : Scope} {x : Step}

theorem refl (s : Scope) : s.Precedes s :=
  ⟨List.prefix_refl _, fun _ _ hu => .inl hu, fun _ _ hu => hu, fun _ _ hq => hq,
    List.prefix_refl _, List.prefix_refl _⟩

theorem size_le (h : s.Precedes t) : s.code.size ≤ t.code.size := by
  have hlen := h.code.length_le
  rwa [Array.length_toList, Array.length_toList] at hlen

/-- What a step writes is behind the scope, and a duplication that it takes back was behind it. -/
theorem code_of_change (h : s.Precedes t) (hx : x.Change t r)
    (hdrop : x = .discard → t.endsInSpareDup = true → s.code.size + 2 ≤ t.code.size) :
    s.code.toList <+: r.code.toList := by
  cases hx with
  | keep hcode _ | label hcode _ | place _ _ _ _ hcode _ =>
    rw [hcode]
    exact h.code
  | write i captures _ _ _ _ hcode _ =>
    rw [hcode]
    exact h.code.trans (List.prefix_append _ _)
  | jump op _ _ _ _ hcode _ =>
    rw [hcode]
    exact h.code.trans (List.prefix_append _ _)
  | drop hdiscard hspare hcode _ =>
    have hbehind := hdrop hdiscard hspare
    rw [List.prefix_iff_getElem?]
    intro p hp
    have hlt : p < t.code.size - 2 := by
      rw [Array.length_toList] at hp
      omega
    rw [hcode, Array.getElem?_toList, Scope.getElem?_withoutSpareDup (by omega), if_pos hlt,
      ← Array.getElem?_toList]
    exact List.prefix_iff_getElem?.mp h.code p hp

/-- A placeholder that a step writes is behind the scope. -/
theorem uses_of_change (h : s.Precedes t) (hx : x.Change t r) {l : Label} {u : Use}
    (hu : r.labels.Uses l u) : s.labels.Uses l u ∨ s.code.size ≤ u.position := by
  cases hx with
  | keep _ hlabels | write _ _ _ _ _ _ _ hlabels | drop _ _ _ hlabels =>
    rw [hlabels] at hu
    exact h.uses l u hu
  | label _ hlabels =>
    rw [hlabels, Labels.uses_push] at hu
    exact h.uses l u hu
  | jump op k _ _ hk _ hlabels =>
    rw [hlabels, Labels.uses_used hk] at hu
    obtain hu | ⟨-, rfl⟩ := hu
    · exact h.uses l u hu
    · exact .inr h.size_le
  | place k _ _ _ _ hlabels =>
    rw [hlabels, Labels.uses_placed] at hu
    exact h.uses l u hu

/-- One more step. -/
theorem step {a b : Assembler} (h : s.Precedes a.current) (hproper : x.isProper = true)
    (hx : Step.run x a = .ok () b)
    (hdrop : x = .discard → a.current.endsInSpareDup = true →
      s.code.size + 2 ≤ a.current.code.size) : s.Precedes b.current := by
  have hchange := Step.change hproper hx
  obtain ⟨hconstants, hchildren⟩ := Step.tables_of_run hx
  exact ⟨h.code_of_change hchange hdrop, fun _ _ => h.uses_of_change hchange,
    fun l u hu => hchange.lasts.uses l u (h.used l u hu),
    fun l q hq => hchange.lasts.position l q (h.position l q hq),
    h.constants.trans hconstants, h.children.trans hchildren⟩

end Scope.Precedes

/-- The placeholders of a scope are overwritten as they are when its labels are all that there are: by the
same displacements, and no others stand in front of its end. -/
theorem Scope.Precedes.getElem?_of_reconcile {s t r : Scope} {code code' : Buffer}
    {history history' : History} {begins begins' : Step → Nat → Prop} (ht : s.Precedes t)
    (hr : s.Precedes r) (hlog : Logged history begins t) (hlog' : Logged history' begins' r)
    (hlabels : t.labels = s.labels) (hcode : t.labels.reconcile t.code = .ok () code)
    (hcode' : r.labels.reconcile r.code = .ok () code') {p : Nat} (hp : p < s.code.size) :
    code'.toList[p]? = code.toList[p]? := by
  rw [Array.getElem?_toList, Array.getElem?_toList]
  by_cases huse : ∃ l u, s.labels.Uses l u ∧ u.position = p
  · obtain ⟨l, u, hu, rfl⟩ := huse
    obtain ⟨q, hq, -, -, hword⟩ :=
      Labels.getElem?_of_reconcile hcode hlog.single (fun _ _ => hlog.position_le) (ht.used l u hu)
    obtain ⟨q', hq', -, -, hword'⟩ :=
      Labels.getElem?_of_reconcile hcode' hlog'.single (fun _ _ => hlog'.position_le) (hr.used l u hu)
    rw [hlabels] at hq
    obtain rfl := Option.some.inj ((hr.position l q hq).symm.trans hq')
    rw [hword, hword']
  · have hfree : ∀ {v : Scope}, s.Precedes v → ∀ l u, v.labels.Uses l u → u.position ≠ p := by
      rintro v hv l u hu rfl
      obtain hu | hu := hv.uses l u hu
      · exact huse ⟨l, u, hu, rfl⟩
      · omega
    have hlt : p < s.code.toList.length := by rwa [Array.length_toList]
    rw [Labels.getElem?_of_reconcile_of_ne hcode (hfree ht),
      Labels.getElem?_of_reconcile_of_ne hcode' (hfree hr), ← Array.getElem?_toList,
      ← Array.getElem?_toList, List.prefix_iff_getElem?.mp ht.code p hlt,
      List.prefix_iff_getElem?.mp hr.code p hlt]

/-- What ends a code without a jump is not overwritten. -/
theorem Logged.append_of_reconcile {s : Scope} {code : Buffer} {history : History}
    {begins : Step → Nat → Prop} {before is : List Instruction} (hs : Logged history begins s)
    (hcode : s.labels.reconcile s.code = .ok () code) (hend : s.code.toList = before ++ is)
    (his : ∀ i ∈ is, ∀ op, i.opcode? = some op → op.isJump = false) :
    ∃ front, code.toList = front ++ is ∧ front.length = before.length := by
  have hsize : code.toList.length = before.length + is.length := by
    rw [Array.length_toList, Labels.size_of_reconcile hcode, ← Array.length_toList, hend,
      List.length_append]
  have hfree : ∀ k l u, s.labels.Uses l u → u.position ≠ before.length + k := by
    rintro k l u hu hk
    obtain ⟨hword, hjump⟩ := hs.uses l u hu
    rw [hend, hk, List.getElem?_append_right (Nat.le_add_right _ _)] at hword
    rw [his _ (List.mem_of_getElem? hword) u.op (Instruction.opcode?_plain u.op)] at hjump
    cases hjump
  have hdrop : code.toList.drop before.length = is := by
    refine List.ext_getElem? fun k => ?_
    rw [List.getElem?_drop, Array.getElem?_toList, Labels.getElem?_of_reconcile_of_ne hcode (hfree k),
      ← Array.getElem?_toList, hend, List.getElem?_append_right (Nat.le_add_right _ _),
      Nat.add_sub_cancel_left]
  refine ⟨code.toList.take before.length, ?_, ?_⟩
  · conv_lhs => rw [← List.take_append_drop before.length code.toList, hdrop]
  · rw [List.length_take, hsize]
    omega

/-! ### Statements of their own -/

theorem Step.le_boundAfter {s : Scope} {bound : Nat} (x : Step) (h : bound ≤ s.code.size) :
    bound ≤ x.boundAfter s bound := by
  cases x with
  | declare _ | leaveBlock => exact h
  | _ => exact Nat.le_refl _

theorem Script.Poised.mono {done : Script} {s : Scope} {bound n : Nat}
    (h : Script.Poised done s bound) (hn : n ≤ bound) : Script.Poised done s n := by
  refine ⟨fun hcalm hspare => ?_, fun before hdone => ?_, h.place⟩
  · exact Nat.le_trans (Nat.add_le_add_right hn 2) (h.calm hcalm hspare)
  · exact Nat.le_trans (Nat.add_le_add_right hn 1) (h.dup before hdone)

/-- A script that is regular by itself, whatever was done before it, writes behind what is there. The
invariant is that the code of the scope, which stays where it is, has not been looked at. -/
theorem Script.Regular.precedes {generator : Bool} {args : Nat} {done xs : Script} {s : Scope}
    {a b : Assembler} (h : Script.Regular generator args done xs)
    (hp : Script.Poised done a.current s.code.size) (hs : s.Precedes a.current)
    (hr : Step.runAll xs a = .ok () b) : s.Precedes b.current := by
  induction xs generalizing done a with
  | nil =>
    obtain ⟨-, rfl⟩ := Edit.pure_eq_ok.mp hr
    exact hs
  | cons x xs ih =>
    obtain ⟨c, hx, hr⟩ := Step.runAll_cons_eq_ok.mp hr
    obtain ⟨hproper, hcalm, h⟩ := h.uncons
    have hp' := (hp.step hs.size_le hx).mono (x.le_boundAfter hs.size_le)
    exact ih h hp' (hs.step hproper hx fun hx => hp.calm (hcalm hx)) hr

/-! ### Programs -/

/-- The draft of a program, parted behind its first statements. -/
theorem Program.draft_append (config : Config) (p q : List Stmt) :
    Program.draft config (p ++ q)
      = Stmt.lowerAll p { config } ++ (Stmt.lowerAll q { config } ++ returnNil) := by
  rw [Program.draft, Stmt.lowerAll_append, append_assoc]

/-- The state in which the first statements of a program have been compiled. -/
def Program.Pauses (config : Config) (p : List Stmt) (s : Supply) (a : Assembler) : Prop :=
  (Stmt.lowerAll p { config }).rest? {} = some s
    ∧ Step.runAll ((Stmt.lowerAll p { config }).steps {}) (Assembler.start config) = .ok () a

/-- A program is compiled from where its first statements have been compiled, and what is there stays. -/
theorem Program.run_of_compile {config : Config} {p q : List Stmt} {d : CodeObject}
    (h : compile config (p ++ q) = .ok d) :
    ∃ s a b t, Program.Pauses config p s a
      ∧ Step.runAll ((Stmt.lowerAll q { config } ++ returnNil).steps s) a = .ok () b
      ∧ Scope.reconcile b.current = .ok () t ∧ d = t.toCodeObject
      ∧ a.current.Precedes b.current
      ∧ ∃ history begins, Logged history begins b.current := by
  obtain ⟨s₂, hs₂⟩ := Option.ne_none_iff_exists'.mp (Program.rest?_of_compile h)
  have hregular := (Program.regular h).1
  obtain ⟨_, hfinal⟩ := compile_eq_ok.mp h
  obtain ⟨b, t, hb, -, ht, -, rfl, -⟩ := assemble_eq_ok.mp hfinal
  have hstart : Logged {} (Step.BeginsAt [] (Assembler.start config))
      (Assembler.start config).current := .new
  have hlog := Logged.run [] hstart rfl hregular.isProper hb
  rw [Program.draft_append] at hs₂
  obtain ⟨s, hs, hs₂⟩ := exists_of_append hs₂
  have hsteps : Program.script config (p ++ q)
      = (Stmt.lowerAll p { config }).steps {} ++ (Stmt.lowerAll q { config } ++ returnNil).steps s := by
    rw [Program.script_of_compile h, Program.draft_append, steps_append_of_some _ hs]
  rw [hsteps] at hb
  obtain ⟨a, ha, hb⟩ := Step.runAll_append_eq_ok.mp hb
  have hrest : (Stmt.lowerAll q { config } ++ returnNil).Regular false 0 :=
    (Stmt.conforms_lowerAll q { config } (Context.sound_of_regions rfl)).append .returnNil
  have hprecedes := (hrest.fits s s₂ hs₂ []).precedes (.nil _ _) (.refl a.current) hb
  exact ⟨s, a, b, t, ⟨hs, ha⟩, hb, ht, rfl, hprecedes, _, _, hlog⟩

/-- A program that ends here returns nil. -/
theorem Program.ends_of_run_nil {config : Config} {s : Supply} {a b : Assembler}
    (h : Step.runAll ((Stmt.lowerAll [] { config } ++ returnNil).steps s) a = .ok () b) :
    b.current.code.toList = a.current.code.toList ++ [.plain .pushNil, .plain .ret]
      ∧ b.current.labels = a.current.labels ∧ b.current.constants = a.current.constants
      ∧ b.current.children = a.current.children := by
  have hsteps : (Stmt.lowerAll [] { config } ++ returnNil).steps s = [.op .pushNil, .op .ret] := rfl
  rw [hsteps] at h
  obtain ⟨c, hc, h⟩ := Step.runAll_cons_eq_ok.mp h
  obtain ⟨e, he, h⟩ := Step.runAll_cons_eq_ok.mp h
  obtain ⟨-, rfl⟩ := Edit.pure_eq_ok.mp h
  obtain rfl := Step.eq_of_run_op hc
  obtain rfl := Step.eq_of_run_op he
  refine ⟨?_, rfl, rfl, rfl⟩
  show ((a.current.code.push _).push _).toList = _
  rw [Array.toList_push, Array.toList_push, List.append_assoc]
  rfl

/-- A program that goes on is compiled to code that goes on: the code of the first statements, without the
return of nil that ends it, comes first, jumps included, and so do their constants and their children. -/
theorem code_initial_of_compile {config : Config} {p q : List Stmt} {c d : CodeObject}
    (hc : compile config p = .ok c) (hd : compile config (p ++ q) = .ok d) :
    ∃ front, c.code = front ++ [.plain .pushNil, .plain .ret] ∧ front <+: d.code
      ∧ c.constants <+: d.constants ∧ c.children <+: d.children := by
  rw [← List.append_nil p] at hc
  obtain ⟨s, a, b, t, ⟨hs, ha⟩, hb, ht, rfl, hab, _, _, hlog⟩ := Program.run_of_compile hc
  obtain ⟨s', a', b', t', ⟨hs', ha'⟩, hb', ht', rfl, hab', _, _, hlog'⟩ := Program.run_of_compile hd
  -- both programs are in the same state behind their first statements
  obtain rfl := Option.some.inj (hs.symm.trans hs')
  obtain ⟨-, rfl⟩ := EStateM.Result.ok.inj (ha.symm.trans ha')
  obtain ⟨hend, hlabels, hconstants, hchildren⟩ := Program.ends_of_run_nil hb
  obtain ⟨-, code, hcode, rfl⟩ := Scope.reconcile_eq_ok.mp ht
  obtain ⟨-, code', hcode', rfl⟩ := Scope.reconcile_eq_ok.mp ht'
  obtain ⟨front, hfront, hlen⟩ := hlog.append_of_reconcile hcode hend (by decide)
  have hsize : front.length = a.current.code.size := hlen.trans Array.length_toList
  refine ⟨front, hfront, ?_, ?_, ?_⟩
  · show front <+: code'.toList
    rw [List.prefix_iff_getElem?]
    intro k hk
    rw [hab.getElem?_of_reconcile hab' hlog hlog' hlabels hcode hcode' (hsize ▸ hk), hfront,
      List.getElem?_append_left hk, List.getElem?_eq_getElem hk]
  · show b.current.constants.values.toList <+: b'.current.constants.values.toList
    rw [hconstants]
    exact hab'.constants
  · show b.current.children.toList <+: b'.current.children.toList
    rw [hchildren]
    exact hab'.children

/-- A loop, and an assignment whose duplication is taken back:

      while (a) { b; } b = true; -/
def briefLoop : List Stmt :=
  [onFirstLine (.whileDo (.name "a") (onFirstLine (.expr (.name "b")))),
    onFirstLine (.expr (.assign 1 (.name "b") (.literal (.bool true))))]

theorem code_initial_briefLoop :
    ∃ c d front, compile .plain briefLoop = .ok c ∧ compile .plain (briefLoop ++ guardedLoop) = .ok d
      ∧ c.code = front ++ [.plain .pushNil, .plain .ret] ∧ front <+: d.code
      ∧ c.constants <+: d.constants ∧ c.children <+: d.children := by
  have hok : (compile .plain briefLoop).toOption.isSome = true
      ∧ (compile .plain (briefLoop ++ guardedLoop)).toOption.isSome = true := by decide +kernel
  obtain ⟨c, hc⟩ := Option.isSome_iff_exists.mp hok.1
  obtain ⟨d, hd⟩ := Option.isSome_iff_exists.mp hok.2
  have hc := eq_ok_of_toOption hc
  have hd := eq_ok_of_toOption hd
  obtain ⟨front, hfront⟩ := code_initial_of_compile hc hd
  exact ⟨c, d, front, hc, hd, hfront⟩

end StackCode
