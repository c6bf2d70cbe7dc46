import StackCode.Proofs.HandlerBalance
import StackCode.Proofs.Units

/-!
# Where jumps land

Every jump of compiled code leads to the first instruction that was emitted after its label was set.

* `JumpsLand`: what is asked of the code of a unit, given its script;
* `Orderly.uncons`, `Orderly.isProper`: the steps of an orderly script that succeeds;
* `Orderly.of_performs`: the scripts of the units inside are orderly as well;
* `Logged.jumpsLand`: a unit that is logged to its end;
* `jumpsLand_of_compile`: every unit of a compiled program.

A label is set to the position behind the last instruction, and a duplication is taken back only where
no label is set from there on. So the first instruction that is emitted behind a label never moves. It
is no capture, for captures only follow the instruction that makes the instance; and there is one, for
the last step of a unit leaves it.
-/

namespace StackCode

/-- The jumps in the code of a unit, whose script is run from the state `start`, land where they
should, and nothing runs off the end. -/
structure JumpsLand (script : Script) (start : Assembler) (code : List Instruction) : Prop where
  /-- A jump leads to an instruction that is no capture; it is the first one that was emitted after
  the label of the jump was set. -/
  lands : ∀ ip i op, code[ip]? = some i → i.opcode? = some op → op.isJump = true →
    ∃ l t j, i.jumpTarget? ip = some t ∧ code[t]? = some j ∧ j.capture? = none
      ∧ Step.LandsAt script start (.jump op l) ip ∧ Step.LandsAt script start (.place l) t
  /-- The last instruction leaves the unit. -/
  ends : ∃ i, code.getLast? = some i ∧ (i.opcode? = some .ret ∨ i.opcode? = some .tailCall)

/-! ### The steps of an orderly script -/

theorem Step.isProper_of_isPlain {x : Step} (h : x.isPlain = true) : x.isProper = true := by
  cases x with
  | op o | count o _ | pair o _ _ | named o _ => exact h
  | slot o _ | jump o _ | unit o _ _ _ => exact absurd h Bool.false_ne_true
  | _ => rfl

section Orderly

variable {markers : Bool} {L L' : Ledger} {a b : Assembler} {xs : Script}

/-- The first step of an orderly script, if it succeeds, and what remains. -/
theorem Orderly.uncons {x : Step} (h : Orderly markers (x :: xs) L L') (ha : a.Tidy L)
    (hm : a.config.lineMarkers = markers) (hx : Step.run x.cut a = .ok () b) :
    x.isProper = true ∧ ∃ K, Orderly markers xs K L' ∧ b.Tidy K ∧ b.config.lineMarkers = markers := by
  have hsafe : ∀ {K}, Safe False markers (Step.run x.cut) L K →
      b.Tidy K ∧ b.config.lineMarkers = markers := by
    intro K hs
    obtain ⟨ht, -, hc⟩ := (hs a ha hm).2 b hx
    exact ⟨ht, by rw [hc]; exact hm⟩
  cases h with
  | stuck hs =>
    rw [hs.cut_eq] at hx
    exact absurd hx (Safe.ne_ok (fun K => @Step.safe_stuck False _ _ K _ hs) ha hm)
  | plain hp h =>
    refine ⟨Step.isProper_of_isPlain hp, L, h, hsafe ?_⟩
    rw [Step.cut_of_isPlain hp]
    exact Step.safe_plain hp
  | newLabel h => exact ⟨rfl, _, h, hsafe Step.safe_newLabel⟩
  | jump hop hl h => exact ⟨hop, _, h, hsafe (Step.safe_jump hop hl)⟩
  | place hl hp h => exact ⟨rfl, _, h, hsafe (Step.safe_place hl hp False.elim)⟩
  | declare h => exact ⟨rfl, _, h, hsafe Step.safe_declare⟩
  | slot hop hy h => exact ⟨hop, _, h, hsafe (Step.safe_slot hy)⟩
  | enterBlock h => exact ⟨rfl, _, h, hsafe Step.safe_enterBlock⟩
  | leaveBlock hb h => exact ⟨rfl, _, h, hsafe (Step.safe_leaveBlock hb)⟩
  | @unit op kind signature body _ _ _ _ hop hb hK _ h =>
    refine ⟨hop, _, h, hsafe ?_⟩
    rw [Step.cut_unit]
    exact Step.safe_unit (hb.safe False.elim) hK
  | unitStuck hb =>
    rw [Step.cut_unit] at hx
    exact absurd hx (Safe.ne_ok (fun K => @Step.safe_unitStuck False _ _ K _ _ _ _
      fun K' => (hb K').safe False.elim) ha hm)

/-- The body of a unit is orderly, whether it succeeds or not. -/
theorem Orderly.inner {op : Opcode} {kind : ScopeKind} {signature : Signature} {body : Script}
    (h : Orderly markers (.unit op kind signature body :: xs) L L') :
    ∃ K, Orderly markers body (.entry signature.params) K := by
  cases h with
  | stuck hs => cases hs
  | plain hp _ => exact absurd hp Bool.false_ne_true
  | unit _ hb _ _ _ => exact ⟨_, hb⟩
  | unitStuck hb => exact ⟨L, hb L⟩

/-- Only a unit is cut to a unit. -/
theorem Step.eq_of_cut_eq_unit {x : Step} {op : Opcode} {kind : ScopeKind} {signature : Signature}
    {body : Script} (h : .unit op kind signature body = x.cut) :
    ∃ inner, x = .unit op kind signature inner ∧ body = Script.cut inner := by
  cases x with
  | unit o k s inner =>
    rw [Step.cut_unit] at h
    obtain ⟨rfl, rfl, rfl, rfl⟩ := Step.unit.inj h
    exact ⟨inner, rfl, rfl⟩
  | _ => cases h

/-- A step that is performed, in this unit or in one inside it, begins an orderly script. -/
theorem Orderly.of_performs {ys : Script} {y : Step} {c d : Assembler}
    (hp : Step.Performs ys a y c d) (hcut : Script.cut xs = ys) (h : Orderly markers xs L L')
    (ha : a.Tidy L) (hm : a.config.lineMarkers = markers) :
    ∃ x zs K K', y = x.cut ∧ Orderly markers (x :: zs) K K' ∧ c.Tidy K
      ∧ c.config.lineMarkers = markers := by
  induction hp generalizing xs L L' with
  | here =>
    obtain ⟨x, zs, rfl, hx, -⟩ := Script.exists_of_cut_eq_cons hcut
    exact ⟨x, zs, L, L', hx, h, ha, hm⟩
  | later hx _ ih =>
    obtain ⟨x, zs, rfl, rfl, rfl⟩ := Script.exists_of_cut_eq_cons hcut
    obtain ⟨-, K, hrest, hc, hmc⟩ := h.uncons ha hm hx
    exact ih rfl hrest hc hmc
  | inside he hd _ ih =>
    obtain ⟨x, zs, rfl, hx, -⟩ := Script.exists_of_cut_eq_cons hcut
    obtain ⟨inner, rfl, rfl⟩ := Step.eq_of_cut_eq_unit hx
    obtain ⟨K, hbody⟩ := h.inner
    obtain ⟨hs, -, hconf⟩ := ha.entered he hd
    exact ih rfl hbody hs (by rw [hconf]; exact hm)

/-- The body of a unit that is run to its end. -/
theorem Orderly.body {op : Opcode} {kind : ScopeKind} {signature : Signature} {body : Script}
    (h : Orderly markers (.unit op kind signature body :: xs) L L') (ha : a.Tidy L)
    (hm : a.config.lineMarkers = markers)
    (hx : Step.run (.unit op kind signature (Script.cut body)) a = .ok () b) :
    ∃ K, Orderly markers body (.entry signature.params) K ∧ Script.Exits body := by
  cases h with
  | stuck hs => cases hs
  | plain hp _ => exact absurd hp Bool.false_ne_true
  | unit _ hb _ he _ => exact ⟨_, hb, he⟩
  | unitStuck hb =>
    exact absurd hx (Safe.ne_ok (fun K => @Step.safe_unitStuck False _ _ K _ _ _ _
      fun K' => (hb K').safe False.elim) ha hm)

theorem Step.isProper_cut (x : Step) : x.cut.isProper = x.isProper := by
  cases x with
  | unit op kind signature body => rw [Step.cut_unit]; rfl
  | _ => rfl

/-- An orderly script that succeeds writes jumps only for labels, and captures only behind the
instruction that makes the instance. -/
theorem Orderly.isProper (h : Orderly markers xs L L') (ha : a.Tidy L)
    (hm : a.config.lineMarkers = markers) (hr : Step.runAll (Script.cut xs) a = .ok () b) :
    ∀ x ∈ Script.cut xs, x.isProper = true := by
  induction xs generalizing a L with
  | nil => exact fun x hx => absurd hx List.not_mem_nil
  | cons x xs ih =>
    rw [Script.cut_cons] at hr ⊢
    obtain ⟨c, hx, hr⟩ := Step.runAll_cons_eq_ok.mp hr
    obtain ⟨hp, K, h, hc, hm⟩ := h.uncons ha hm hx
    exact List.forall_mem_cons.mpr ⟨by rw [Step.isProper_cut]; exact hp, ih h hc hm hr⟩

/-- A script leaves its unit whatever the numbers of its labels. -/
theorem Script.Exits.cut (h : Script.Exits xs) : Script.Exits (Script.cut xs) := by
  obtain ⟨before, x, rfl, hx⟩ := h
  refine ⟨Script.cut before, x.cut, Script.cut_append _ _, ?_⟩
  obtain rfl | ⟨n, rfl⟩ := hx
  · exact .inl rfl
  · exact .inr ⟨n, rfl⟩

end Orderly

/-! ### A unit at its end -/

/-- The last step of a script that leaves its unit. -/
theorem Script.Exits.last {body : Script} {start b : Assembler} (h : Script.Exits body)
    (hr : Step.runAll body start = .ok () b) :
    ∃ before x a t i, body = before ++ [x] ∧ Step.runAll before start = .ok () a
      ∧ Scope.Alike a.current t ∧ b.current = t.appended i
      ∧ (i.opcode? = some .ret ∨ i.opcode? = some .tailCall) := by
  obtain ⟨before, x, rfl, hx⟩ := h
  obtain ⟨a, ha, hr⟩ := Step.runAll_append_eq_ok.mp hr
  obtain ⟨c, hc, hr⟩ := Step.runAll_cons_eq_ok.mp hr
  obtain ⟨-, rfl⟩ := Edit.pure_eq_ok.mp hr
  have hwrite : x.isWrite = true := by
    obtain rfl | ⟨n, rfl⟩ := hx
    · rfl
    · rfl
  obtain ⟨-, t, i, ht, hw, hb⟩ := Step.run_write hwrite hc
  refine ⟨before, x, a, t, i, rfl, ha, ht, hb, ?_⟩
  obtain rfl | ⟨n, rfl⟩ := hx
  · obtain rfl := hw
    exact .inl (Instruction.opcode?_plain .ret)
  · obtain ⟨hn, rfl⟩ := hw
    exact .inr (Instruction.opcode?_pack (Nat.lt_succ_of_le hn))

theorem Instruction.capture?_of_opcode? {i : Instruction} {op : Opcode} (h : i.opcode? = some op)
    (hop : op.isCapture = false) : i.capture? = none := by
  unfold capture?
  rw [h]
  cases op <;> first | rfl | cases hop

namespace Logged

variable {h : History} {begins : Step → Nat → Prop} {s : Scope}

/-- An instruction stays as it is when the placeholders are overwritten, unless it is one of them. -/
theorem getElem?_of_reconcile (hs : Logged h begins s) {code : Buffer} {p : Nat} {i : Instruction}
    (hcode : s.labels.reconcile s.code = .ok () code) (hi : s.code.toList[p]? = some i) :
    ∃ j, code.toList[p]? = some j ∧ j.opcode? = i.opcode? := by
  by_cases hp : ∃ l u, s.labels.Uses l u ∧ u.position = p
  · obtain ⟨l, u, hu, rfl⟩ := hp
    obtain ⟨q, -, -, -, ha⟩ :=
      Labels.getElem?_of_reconcile hcode hs.single (fun _ _ => hs.position_le) hu
    refine ⟨_, by rw [Array.getElem?_toList]; exact ha, ?_⟩
    rw [Option.some.inj (hi.symm.trans (hs.uses l u hu).1), Instruction.opcode?_plain]
    exact Instruction.opcode?_pack (Instruction.signedField_lt _)
  · refine ⟨i, ?_, rfl⟩
    rw [Array.getElem?_toList] at hi ⊢
    rw [Labels.getElem?_of_reconcile_of_ne hcode fun l u hu hup => hp ⟨l, u, hu, hup⟩]
    exact hi

/-- A jump that was overwritten belongs to a label. -/
theorem use_of_reconcile (hs : Logged h begins s) {code : Buffer} {p : Nat} {i : Instruction}
    {op : Opcode} (hcode : s.labels.reconcile s.code = .ok () code)
    (hi : code.toList[p]? = some i) (hop : i.opcode? = some op) (hj : op.isJump = true) :
    ∃ l t, s.labels.Uses l ⟨p, op⟩ ∧ s.labels.position? l = some t ∧ i.jumpTarget? p = some t := by
  have hsize := Labels.size_of_reconcile hcode
  have hlt : p < s.code.toList.length := by
    rw [Array.length_toList, ← hsize, ← Array.length_toList]
    exact (List.getElem?_eq_some_iff.mp hi).1
  -- the operation was the same before
  obtain ⟨j, hj', hsame⟩ := hs.getElem?_of_reconcile hcode (List.getElem?_eq_getElem hlt)
  obtain rfl := Option.some.inj (hi.symm.trans hj')
  obtain ⟨l, hu⟩ := hs.jumps p _ op (List.getElem?_eq_getElem hlt) (hsame.symm.trans hop) hj
  obtain ⟨t, ht, hlo, hhi, ha⟩ :=
    Labels.getElem?_of_reconcile hcode hs.single (fun _ _ => hs.position_le) hu
  rw [Array.getElem?_toList] at hi
  obtain rfl := Option.some.inj (hi.symm.trans ha)
  exact ⟨l, t, hu, ht, Instruction.jumpTarget?_distance hj hlo hhi⟩

/-- A unit that is logged to its end. -/
theorem jumpsLand {script : Script} {start b : Assembler} {u : CodeObject}
    (hfirst : Logged {} (Step.BeginsAt [] start) start.current)
    (hproper : ∀ x ∈ script, x.isProper = true) (hexits : Script.Exits script)
    (hr : Step.runAll script start = .ok () b) (hu : b.Becomes u) :
    JumpsLand script start u.code := by
  obtain ⟨s, outers, hrec, rfl⟩ := hu
  have hlog : Logged (Step.history script start {}) (Step.BeginsAt script start) b.current :=
    Logged.run [] hfirst rfl hproper hr
  obtain ⟨-, code, hcode, rfl⟩ := Scope.reconcile_eq_ok.mp hrec
  show JumpsLand script start code.toList
  have hsize : code.toList.length = b.current.code.size := by
    rw [Array.length_toList, Labels.size_of_reconcile hcode]
  obtain ⟨before, x, a, t, last, rfl, ha, hat, hb, hlast⟩ := hexits.last hr
  have hgrown : b.current.code.size = a.current.code.size + 1 := by
    rw [hb, ← hat.code]
    exact Array.size_push _
  -- labels are set inside the code: the last step writes an instruction behind all of them
  have hinside : ∀ l q, b.current.labels.position? l = some q → q < b.current.code.size := by
    intro l q hq
    rw [hb] at hq
    replace hq : a.current.labels.position? l = some q := by
      rw [← hat.labels]
      exact hq
    have hbefore := Logged.run [] hfirst rfl
      (fun y hy => hproper y (List.mem_append_left _ hy)) ha
    rw [hgrown]
    exact Nat.lt_succ_of_le (hbefore.position_le hq)
  refine ⟨?_, ?_⟩
  · intro ip i op hi hop hj
    obtain ⟨l, q, hu, hq, hq'⟩ := hlog.use_of_reconcile hcode hi hop hj
    have hlt := hinside l q hq
    have hin : b.current.code.toList[q]? = some b.current.code[q] := by
      rw [Array.getElem?_toList, Array.getElem?_eq_getElem hlt]
    obtain ⟨j, hj', hsame⟩ := hlog.getElem?_of_reconcile hcode hin
    obtain ⟨o, ho, hcapture⟩ := hlog.leading l q _ hq hin
    obtain ⟨k, hk, hline⟩ := hlog.placed l q hq
    rw [History.line, List.getElem?_append_left (by rw [hlog.length]; exact hlt)] at hline
    exact ⟨l, q, j, hq', hj', Instruction.capture?_of_opcode? (hsame.trans ho) hcapture,
      hlog.used l ⟨ip, op⟩ hu, k, hk, hline⟩
  · have hin : b.current.code.toList[a.current.code.size]? = some last := by
      rw [Array.getElem?_toList, hb, ← hat.code]
      exact Array.getElem?_push_size
    obtain ⟨j, hj, hsame⟩ := hlog.getElem?_of_reconcile hcode hin
    refine ⟨j, ?_, by rw [hsame]; exact hlast⟩
    rw [List.getLast?_eq_getElem?, hsize, hgrown]
    exact hj

end Logged

/-! ### All units -/

/-- A unit is logged from its start. -/
theorem Logged.entered {a b : Assembler} {kind : ScopeKind} {signature : Signature} {n : Nat}
    {s : Scope} {begins : Step → Nat → Prop}
    (he : Assembler.enterScope kind signature a = .ok n b)
    (hd : declareAll signature.params b.current = .ok () s) : Logged {} begins s := by
  obtain ⟨-, rfl⟩ := Assembler.enterScope_eq_ok.mp he
  have halike := Scope.alike_of_declareAll hd
  exact Logged.new.congr halike.code halike.labels

/-- The jumps land in all units that an orderly script makes. -/
theorem Orderly.jumpsLand {markers : Bool} {xs body : Script} {L L' : Ledger}
    {a start b : Assembler} {u : CodeObject} (h : Orderly markers xs L L') (ha : a.Tidy L)
    (hm : a.config.lineMarkers = markers) (hr : Step.RunsInside (Script.cut xs) a body start b)
    (hu : b.Becomes u) : JumpsLand body start u.code := by
  cases hr with
  | intro hp he hd hb =>
    obtain ⟨x, zs, K, K', hx, hunit, hc, hmc⟩ := Orderly.of_performs hp rfl h ha hm
    obtain ⟨inner, rfl, rfl⟩ := Step.eq_of_cut_eq_unit hx
    obtain ⟨K'', hbody, hexits⟩ := hunit.body hc hmc hp.run
    obtain ⟨hs, -, hconf⟩ := hc.entered he hd
    have hproper := hbody.isProper hs (by rw [hconf]; exact hmc) hb
    exact Logged.jumpsLand (.entered he hd) hproper hexits.cut hb hu

/-- In every unit of a compiled program each jump has a target inside the code. The target is no
capture, and it is the first instruction that was emitted after the label of the jump was set. The last
instruction leaves the unit. -/
theorem jumpsLand_of_compile {config : Config} {program : List Stmt} {c : CodeObject}
    (hc : compile config program = .ok c) (u : CodeObject) (hu : c.Contains u) :
    ∃ script start b,
      Step.RunsUnit (Program.script config program) (Assembler.start config) script start b
        ∧ b.Becomes u ∧ JumpsLand script start u.code := by
  obtain ⟨L, ho, -⟩ := Program.orderly config program
  have htidy := Assembler.tidy_start config
  obtain ⟨script, start, b, hruns, hbecomes⟩ := exists_runsUnit_of_compile hc hu
  refine ⟨script, start, b, hruns, hbecomes, ?_⟩
  cases hruns with
  | whole hb =>
    obtain ⟨s', hs'⟩ := Option.ne_none_iff_exists'.mp (Program.rest?_of_compile hc)
    have hexits : Script.Exits ((Program.draft config program).steps {}) :=
      Draft.Exits.append Draft.Exits.returnNil {} s' hs'
    exact Logged.jumpsLand .new (ho.isProper htidy rfl hb) hexits.cut hb hbecomes
  | inside hr => exact ho.jumpsLand htidy rfl hr hbecomes

theorem jumpsLand_guardedLoop :
    ∃ c, compile .plain guardedLoop = .ok c ∧ ∀ u, c.Contains u →
      ∃ script start b,
        Step.RunsUnit (Program.script .plain guardedLoop) (Assembler.start .plain) script start b
          ∧ b.Becomes u ∧ JumpsLand script start u.code := by
  have hok : (compile .plain guardedLoop).toOption.isSome = true := by decide +kernel
  obtain ⟨c, hc⟩ := Option.isSome_iff_exists.mp hok
  have hc := eq_ok_of_toOption hc
  exact ⟨c, hc, fun u hu => jumpsLand_of_compile hc u hu⟩

end StackCode
