import StackCode.Proofs.LoweredOrder
import StackCode.Proofs.Wiring

/-!
# The order of emission

Instructions are numbered in the order in which they are emitted, those that are taken back included.
An instruction stays where it was emitted, until a duplication right before it is taken back.

* `History`, `Step.history`: which instruction, in the order of emission, stands at each position;
* `Step.BeginsAt`, `Step.LandsAt`: the first instruction emitted from a step of the script on, and
  where it is in the end;
* `Step.Change`, `Step.change`: what a step does to the code and the labels of its unit;
* `Logged`: every placeholder and every label that is set belongs to a step of the script, and no
  capture stands where a label is set;
* `Logged.step`, `Logged.run`: a step, and a whole script, keep it so.
-/

namespace StackCode

/-! ### Histories -/

/-- What was emitted in one unit. -/
structure History where
  /-- How many instructions were emitted. -/
  emitted : Nat := 0
  /-- Which one each instruction of the code was. -/
  order : List Nat := []

namespace History

/-- The history after `n` more instructions. -/
def grown (h : History) (n : Nat) : History :=
  ⟨h.emitted + n, h.order ++ List.range' h.emitted n⟩

/-- The history after the scope changed from `s` to `t`. Code gets shorter only where the last
instruction but one is taken out. -/
def next (h : History) (s t : Scope) : History :=
  if t.code.size < s.code.size then { h with order := h.order.eraseIdx (s.code.size - 2) }
  else h.grown (t.code.size - s.code.size)

/-- The instructions of the code, and the one that comes next. -/
def line (h : History) : List Nat := h.order ++ [h.emitted]

end History

theorem Scope.labels_appendedAll (s : Scope) (is : List Instruction) :
    (s.appendedAll is).labels = s.labels := by
  induction is generalizing s with
  | nil => rfl
  | cons i is ih => exact ih (s.appended i)

namespace Step

/-- The history of a unit after a script was run, whose steps succeed one after the other. -/
def history : Script → Assembler → History → History
  | [], _, h => h
  | x :: xs, a, h =>
    match run x a with
    | .ok _ b => history xs b (h.next a.current b.current)
    | .error _ _ => h

/-- When a step `y` of the script begins, `k` instructions were emitted. -/
def BeginsAt (script : Script) (a : Assembler) (y : Step) (k : Nat) : Prop :=
  ∃ before after, script = before ++ y :: after ∧ (history before a {}).emitted = k

/-- The first instruction that is emitted from a step `y` of the script on is at position `p` when the
script was run. -/
def LandsAt (script : Script) (a : Assembler) (y : Step) (p : Nat) : Prop :=
  ∃ k, BeginsAt script a y k ∧ (history script a {}).order[p]? = some k

theorem BeginsAt.append {script : Script} {a : Assembler} {y : Step} {k : Nat}
    (h : BeginsAt script a y k) (more : Script) : BeginsAt (script ++ more) a y k := by
  obtain ⟨before, after, rfl, hk⟩ := h
  exact ⟨before, after ++ more, by rw [List.append_assoc, List.cons_append], hk⟩

theorem history_append {xs ys : Script} {a b : Assembler} {h : History}
    (hr : runAll xs a = .ok () b) : history (xs ++ ys) a h = history ys b (history xs a h) := by
  induction xs generalizing a h with
  | nil =>
    obtain ⟨-, rfl⟩ := Edit.pure_eq_ok.mp hr
    rfl
  | cons x xs ih =>
    obtain ⟨c, hx, hr⟩ := runAll_cons_eq_ok.mp hr
    simp only [List.cons_append, history, hx]
    exact ih hr

/-- The history after one more step. -/
theorem history_concat {xs : Script} {x : Step} {a b c : Assembler} {h : History}
    (hr : runAll xs a = .ok () b) (hx : run x b = .ok () c) :
    history (xs ++ [x]) a h = (history xs a h).next b.current c.current := by
  rw [history_append hr]
  simp only [history, hx]

/-- One more step of a script. -/
theorem runAll_concat {xs : Script} {x : Step} {a b c : Assembler} (hr : runAll xs a = .ok () b)
    (hx : run x b = .ok () c) : runAll (xs ++ [x]) a = .ok () c := by
  rw [runAll_append]
  exact Edit.bind_eq_ok.mpr ⟨_, _, hr, runAll_cons_eq_ok.mpr ⟨c, hx, rfl⟩⟩

/-! ### What a step does -/

/-- Resolving a name concerns the current scope alone. -/
theorem frame_of_resolve {name : String} {place : Place} {a b : Assembler}
    (h : Assembler.resolve name a = .ok place b) :
    b.enclosing = a.enclosing ∧ b.config = a.config := by
  obtain ⟨_, -, -, rfl⟩ | ⟨-, _, _, _, -, -, -, rfl⟩ | ⟨-, -, _, _, -, -, rfl⟩ :=
    Assembler.resolve_eq_ok.mp h
  all_goals exact ⟨rfl, rfl⟩

mutual

/-- A step leaves the scopes around its unit and the configuration as they are. -/
theorem frame_of_run {a b : Assembler} (x : Step) (h : run x a = .ok () b) :
    b.enclosing = a.enclosing ∧ b.config = a.config := by
  cases x with
  | unit op kind signature body =>
    obtain ⟨n, e, s, c, child, d, he, hd, hb, hl, hc⟩ := run_unit_eq_ok.mp h
    obtain ⟨-, rfl⟩ := Assembler.enterScope_eq_ok.mp he
    obtain ⟨parent, rest, t, relay, hparent, -, -, -, -, rfl⟩ := Assembler.leaveScope_eq_ok.mp hl
    obtain ⟨-, -, rfl⟩ := Assembler.eq_of_emitChild hc
    obtain ⟨henc, hconf⟩ := frame_of_runAll body hb
    exact ⟨(List.cons.inj (hparent.symm.trans henc)).2, hconf⟩
  | fail e => exact absurd h Edit.throw_ne_ok
  | newLabel | jump _ _ | op _ | count _ _ | pair _ _ _ | declare _ =>
    obtain ⟨_, h⟩ := Edit.ignore_eq_ok.mp h
    obtain ⟨s, -, rfl⟩ := Assembler.onCurrent_eq_ok.mp h
    exact ⟨rfl, rfl⟩
  | place _ | receive | discard | loadConst _ | named _ _ | slot _ _ | enterBlock | leaveBlock
  | protect =>
    simp only [run] at h
    obtain ⟨s, -, rfl⟩ := Assembler.onCurrent_eq_ok.mp h
    exact ⟨rfl, rfl⟩
  | markLine _ =>
    obtain ⟨-, rfl⟩ | ⟨-, s, -, rfl⟩ := Assembler.markLine_eq_ok.mp h
    · exact ⟨rfl, rfl⟩
    · exact ⟨rfl, rfl⟩
  | loadName _ =>
    obtain ⟨place, c, hr, -, -, rfl⟩ := Assembler.loadName_eq_ok.mp h
    exact frame_of_resolve (b := c) hr
  | storeName _ =>
    obtain ⟨place, c, hr, -, -, rfl⟩ := Assembler.storeName_eq_ok.mp h
    exact frame_of_resolve (b := c) hr

theorem frame_of_runAll {a b : Assembler} (xs : Script) (h : runAll xs a = .ok () b) :
    b.enclosing = a.enclosing ∧ b.config = a.config := by
  cases xs with
  | nil =>
    obtain ⟨-, rfl⟩ := Edit.pure_eq_ok.mp h
    exact ⟨rfl, rfl⟩
  | cons x xs =>
    obtain ⟨c, hx, h⟩ := runAll_cons_eq_ok.mp h
    obtain ⟨henc, hconf⟩ := frame_of_run x hx
    obtain ⟨henc', hconf'⟩ := frame_of_runAll xs h
    exact ⟨henc'.trans henc, hconf'.trans hconf⟩

end

/-- Whether the instructions of a step stand for themselves, those that jump to labels apart. -/
def isProper : Step → Bool
  | op o | count o _ | pair o _ _ | named o _ | slot o _ | unit o _ _ _ => o.isProper
  | jump o _ => o.isJump
  | _ => true

/-- What a step does to the code and the labels of the unit that is being written. -/
inductive Change (x : Step) (s t : Scope) : Prop where
  | keep (hcode : t.code = s.code) (hlabels : t.labels = s.labels)
  /-- An instance is made together with its captures. -/
  | write (i : Instruction) (captures : List Instruction) (op : Opcode) (hi : i.opcode? = some op)
      (hop : op.isProper = true)
      (hcaptures : ∀ j ∈ captures, ∃ o, j.opcode? = some o ∧ o.isCapture = true)
      (hcode : t.code.toList = s.code.toList ++ i :: captures) (hlabels : t.labels = s.labels)
  | label (hcode : t.code = s.code) (hlabels : t.labels = ⟨s.labels.marks.push {}⟩)
  | jump (op : Opcode) (l : Label) (hx : x = .jump op l) (hop : op.isJump = true)
      (hl : l < s.labels.marks.size) (hcode : t.code.toList = s.code.toList ++ [.plain op])
      (hlabels : t.labels = ⟨s.labels.marks.modify l (·.used ⟨s.code.size, op⟩)⟩)
  | place (l : Label) (hx : x = .place l) (hl : l < s.labels.marks.size)
      (hnew : s.labels.position? l = none) (hcode : t.code = s.code)
      (hlabels : t.labels = ⟨s.labels.marks.modify l (·.placed s.code.size)⟩)
  | drop (hx : x = .discard) (hspare : s.endsInSpareDup = true) (hcode : t.code = s.withoutSpareDup.code)
      (hlabels : t.labels = s.labels)

variable {x : Step} {a b : Assembler}

/-- What a step writes is what it says. -/
theorem Writes.isProper {i : Instruction} (hx : x.isProper = true) (h : x.Writes i) :
    ∃ op, i.opcode? = some op ∧ op.isProper = true := by
  cases x with
  | op o =>
    obtain rfl := h
    exact ⟨o, Instruction.opcode?_plain o, hx⟩
  | count o n =>
    obtain ⟨hn, rfl⟩ := h
    exact ⟨o, Instruction.opcode?_pack (Nat.lt_succ_of_le hn), hx⟩
  | pair o m n =>
    obtain ⟨⟨hm, hn⟩, rfl⟩ := h
    unfold Instruction.maxPair at hm hn
    exact ⟨o, Instruction.opcode?_pack (by omega), hx⟩
  | loadConst v =>
    obtain ⟨n, hn, rfl⟩ := h
    exact ⟨.loadConst, Instruction.opcode?_pack (Nat.lt_succ_of_le hn), rfl⟩
  | named o name | slot o name =>
    obtain ⟨n, hn, rfl⟩ := h
    exact ⟨o, Instruction.opcode?_pack (Nat.lt_succ_of_le hn), hx⟩
  | loadName name =>
    obtain ⟨place, hn, rfl⟩ := h
    exact ⟨place.loadOp, Instruction.opcode?_pack (Nat.lt_succ_of_le hn), by cases place <;> rfl⟩
  | storeName name =>
    obtain ⟨place, hn, rfl⟩ := h
    exact ⟨place.storeOp, Instruction.opcode?_pack (Nat.lt_succ_of_le hn), by cases place <;> rfl⟩
  | _ => exact h.elim

theorem change_of_quiet (hx : x.isQuiet = true) (h : run x a = .ok () b) :
    x.Change a.current b.current := by
  obtain ⟨-, t, ht, hb | ⟨line, hn, hb⟩⟩ := run_quiet hx h
  · rw [hb]
    exact .keep ht.code ht.labels
  · rw [hb]
    refine .write (.pack .line line) [] .line (Instruction.opcode?_pack (Nat.lt_succ_of_le hn)) rfl
      (fun _ hj => absurd hj List.not_mem_nil) ?_ ht.labels
    show (t.code.push _).toList = _
    rw [Array.toList_push, ht.code]

theorem change_of_write (hx : x.isWrite = true) (hp : x.isProper = true)
    (h : run x a = .ok () b) : x.Change a.current b.current := by
  obtain ⟨-, t, i, ht, hw, hb⟩ := run_write hx h
  obtain ⟨op, hi, hop⟩ := hw.isProper hp
  rw [hb]
  refine .write i [] op hi hop (fun _ hj => absurd hj List.not_mem_nil) ?_ ht.labels
  show (t.code.push _).toList = _
  rw [Array.toList_push, ht.code]

theorem change_of_unit {op : Opcode} {kind : ScopeKind} {signature : Signature} {body : Script}
    (hop : op.isProper = true) (h : run (.unit op kind signature body) a = .ok () b) :
    (Step.unit op kind signature body).Change a.current b.current := by
  obtain ⟨n, e, s, c, child, d, he, hd, hb, hl, hc⟩ := run_unit_eq_ok.mp h
  obtain ⟨-, rfl⟩ := Assembler.enterScope_eq_ok.mp he
  obtain ⟨parent, rest, t, relay, hparent, -, -, -, rfl, rfl⟩ := Assembler.leaveScope_eq_ok.mp hl
  obtain ⟨rfl, rfl⟩ := List.cons.inj (hparent.symm.trans (frame_of_runAll body hb).1)
  obtain ⟨hn, hcaptures, rfl⟩ := Assembler.eq_of_emitChild hc
  refine .write (.pack op a.current.children.size) (relay.captures.map Capture.word) op
    (Instruction.opcode?_pack (Nat.lt_succ_of_le hn)) hop ?_ (Scope.code_appendedAll _ _)
    (Scope.labels_appendedAll _ _)
  intro j hj
  obtain ⟨k, hk, rfl⟩ := List.mem_map.mp hj
  exact ⟨k.op, Capture.opcode?_word (hcaptures k hk), by cases k <;> rfl⟩

/-- Every step that succeeds is of one of these kinds. -/
theorem change (hx : x.isProper = true) (h : run x a = .ok () b) :
    x.Change a.current b.current := by
  cases x with
  | unit op kind signature body => exact change_of_unit hx h
  | fail e => exact absurd h Edit.throw_ne_ok
  | newLabel =>
    obtain ⟨l, h⟩ := Edit.ignore_eq_ok.mp h
    obtain ⟨s, hs, rfl⟩ := Assembler.onCurrent_eq_ok.mp h
    obtain ⟨-, rfl⟩ := Scope.newLabel_eq_ok.mp hs
    exact .label rfl rfl
  | jump op l =>
    obtain ⟨p, h⟩ := Edit.ignore_eq_ok.mp h
    obtain ⟨s, hs, rfl⟩ := Assembler.onCurrent_eq_ok.mp h
    obtain ⟨-, hl, -, rfl⟩ := Scope.emitJump_eq_ok.mp hs
    exact .jump op l rfl hx hl Array.toList_push rfl
  | place l =>
    obtain ⟨s, hs, rfl⟩ := Assembler.onCurrent_eq_ok.mp h
    obtain ⟨hl, hnew, rfl⟩ := Scope.placeLabel_eq_ok.mp hs
    exact .place l rfl hl hnew rfl rfl
  | receive =>
    simp only [run] at h
    obtain ⟨s, hs, rfl⟩ := Assembler.onCurrent_eq_ok.mp h
    obtain rfl := Scope.receive_eq_ok.mp hs
    exact .keep rfl rfl
  | discard =>
    obtain ⟨s, hs, rfl⟩ := Assembler.onCurrent_eq_ok.mp h
    obtain ⟨hspare, rfl⟩ | ⟨-, -, rfl⟩ := Scope.discard_eq_ok.mp hs
    · exact .drop rfl hspare rfl rfl
    · exact .write _ [] .pop (Instruction.opcode?_plain .pop) rfl
        (fun _ hj => absurd hj List.not_mem_nil) Array.toList_push rfl
  | markLine _ | declare _ | enterBlock | leaveBlock | protect => exact change_of_quiet rfl h
  | op _ | count _ _ | pair _ _ _ | loadConst _ | named _ _ | slot _ _ | loadName _ | storeName _ =>
    exact change_of_write rfl hx h

end Step

/-! ### Logs -/

namespace History

variable {h : History} {s t : Scope}

theorem next_of_append {is : List Instruction} (hc : t.code.toList = s.code.toList ++ is) :
    h.next s t = h.grown is.length := by
  have hsize : t.code.size = s.code.size + is.length := by
    rw [← Array.length_toList, hc, List.length_append, Array.length_toList]
  unfold next
  rw [if_neg (by omega), show t.code.size - s.code.size = is.length by omega]

theorem next_of_drop (hn : 2 ≤ s.code.size) (hc : t.code = s.withoutSpareDup.code) :
    h.next s t = { h with order := h.order.eraseIdx (s.code.size - 2) } := by
  have hsize : t.code.size = s.code.size - 1 := by rw [hc, Scope.size_withoutSpareDup hn]
  unfold next
  rw [if_pos (by omega)]

theorem order_initial_grown (h : History) (n : Nat) : h.order <+: (h.grown n).order :=
  List.prefix_append _ _

/-- What came next is there now, or still comes next. -/
theorem line_initial_grown (h : History) (n : Nat) : h.line <+: (h.grown n).line := by
  unfold line grown
  rw [List.append_assoc]
  refine (List.prefix_append_right_inj _).mpr ?_
  cases n with
  | zero => exact List.prefix_refl _
  | succ n => exact ⟨_, rfl⟩

theorem length_grown (h : History) (n : Nat) :
    (h.grown n).order.length = h.order.length + n := by
  rw [grown, List.length_append, List.length_range']

end History

/-- The history `h` is that of the scope. Every placeholder and every label that is set belongs to a
step; `begins` tells how many instructions were emitted when a step began. -/
structure Logged (h : History) (begins : Step → Nat → Prop) (s : Scope) : Prop where
  length : h.order.length = s.code.size
  uses : ∀ l u, s.labels.Uses l u →
    s.code.toList[u.position]? = some (.plain u.op) ∧ u.op.isJump = true
  single : ∀ l l' u u', s.labels.Uses l u → s.labels.Uses l' u' → u.position = u'.position →
    l = l' ∧ u = u'
  jumps : ∀ p i op, s.code.toList[p]? = some i → i.opcode? = some op → op.isJump = true →
    ∃ l, s.labels.Uses l ⟨p, op⟩
  leading : ∀ l q i, s.labels.position? l = some q → s.code.toList[q]? = some i →
    ∃ op, i.opcode? = some op ∧ op.isCapture = false
  used : ∀ l u, s.labels.Uses l u →
    ∃ k, begins (.jump u.op l) k ∧ h.order[u.position]? = some k
  placed : ∀ l q, s.labels.position? l = some q →
    ∃ k, begins (.place l) k ∧ h.line[q]? = some k

namespace Logged

variable {h : History} {begins begins' : Step → Nat → Prop} {s t : Scope} {x : Step}

theorem new {number : Nat} {kind : ScopeKind} {signature : Signature} {record : Bool} :
    Logged {} begins (Scope.new number kind signature record) := by
  have huse : ∀ l u, ¬ (Scope.new number kind signature record).labels.Uses l u := by
    rintro l u ⟨m, hm, -⟩
    simp [Scope.new] at hm
  have hset : ∀ l q, (Scope.new number kind signature record).labels.position? l ≠ some q := by
    intro l q hq
    simp [Scope.new, Labels.position?] at hq
  refine ⟨rfl, fun l u hu => absurd hu (huse l u), fun l l' u u' hu => absurd hu (huse l u), ?_,
    fun l q i hq => absurd hq (hset l q), fun l u hu => absurd hu (huse l u),
    fun l q hq => absurd hq (hset l q)⟩
  intro p i op hi
  simp [Scope.new] at hi

theorem congr (hs : Logged h begins s) (hcode : t.code = s.code) (hlabels : t.labels = s.labels) :
    Logged h begins t := by
  refine ⟨?_, ?_, ?_, ?_, ?_, ?_, ?_⟩
  · rw [hcode]; exact hs.length
  · rw [hcode, hlabels]; exact hs.uses
  · rw [hlabels]; exact hs.single
  · rw [hcode, hlabels]; exact hs.jumps
  · rw [hcode, hlabels]; exact hs.leading
  · rw [hlabels]; exact hs.used
  · rw [hlabels]; exact hs.placed

/-- A label that is set is inside the code or at its end. -/
theorem position_le (hs : Logged h begins s) {l : Label} {q : Nat}
    (hq : s.labels.position? l = some q) : q ≤ s.code.size := by
  obtain ⟨k, -, hk⟩ := hs.placed l q hq
  have hlt := (List.getElem?_eq_some_iff.mp hk).1
  rw [History.line, List.length_append, hs.length] at hlt
  exact Nat.le_of_lt_succ hlt

/-- More instructions, the first of which may be the placeholder of a label. -/
theorem extend {is : List Instruction} (hs : Logged h begins s) (op : Opcode)
    (hb : ∀ y k, begins y k → begins' y k) (new : Label → Prop)
    (hcode : t.code.toList = s.code.toList ++ is)
    (huses : ∀ l u, t.labels.Uses l u ↔ s.labels.Uses l u ∨ (new l ∧ u = ⟨s.code.size, op⟩))
    (hnew : ∀ l, new l → is = [.plain op] ∧ op.isJump = true ∧ begins' (.jump op l) h.emitted)
    (hone : ∀ l l', new l → new l' → l = l')
    (hpos : ∀ l q, t.labels.position? l = some q → s.labels.position? l = some q
      ∨ (q = s.code.size ∧ begins' (.place l) h.emitted))
    (hjumps : ∀ j i o, is[j]? = some i → i.opcode? = some o → o.isJump = true →
      ∃ l, new l ∧ j = 0 ∧ o = op)
    (hlead : ∀ i, is[0]? = some i → ∃ o, i.opcode? = some o ∧ o.isCapture = false) :
    Logged (h.grown is.length) begins' t := by
  have hlen : s.code.toList.length = s.code.size := Array.length_toList
  have hold : ∀ (p : Nat) i, s.code.toList[p]? = some i → t.code.toList[p]? = some i := by
    intro p i hi
    rw [hcode]
    exact getElem?_of_initial (List.prefix_append _ _) hi
  have hbefore : ∀ l u, s.labels.Uses l u → u.position < s.code.size := by
    intro l u hu
    rw [← hlen]
    exact (List.getElem?_eq_some_iff.mp (hs.uses l u hu).1).1
  refine ⟨?_, ?_, ?_, ?_, ?_, ?_, ?_⟩
  · rw [History.length_grown, hs.length, ← Array.length_toList, ← Array.length_toList, hcode,
      List.length_append]
  · intro l u hu
    obtain hu | ⟨hl, rfl⟩ := (huses l u).mp hu
    · obtain ⟨hi, hj⟩ := hs.uses l u hu
      exact ⟨hold _ _ hi, hj⟩
    · obtain ⟨rfl, hj, -⟩ := hnew l hl
      refine ⟨?_, hj⟩
      rw [hcode, List.getElem?_append_right (Nat.le_of_eq hlen), hlen, Nat.sub_self]
      rfl
  · intro l l' u u' hu hu' hp
    obtain hu | ⟨hl, rfl⟩ := (huses l u).mp hu
    · obtain hu' | ⟨hl', rfl⟩ := (huses l' u').mp hu'
      · exact hs.single l l' u u' hu hu' hp
      · exact absurd hp (Nat.ne_of_lt (hbefore l u hu))
    · obtain hu' | ⟨hl', rfl⟩ := (huses l' u').mp hu'
      · exact absurd hp.symm (Nat.ne_of_lt (hbefore l' u' hu'))
      · exact ⟨hone l l' hl hl', rfl⟩
  · intro p i o hi ho hj
    rw [hcode] at hi
    by_cases hp : p < s.code.size
    · rw [List.getElem?_append_left (by rw [hlen]; exact hp)] at hi
      obtain ⟨l, hl⟩ := hs.jumps p i o hi ho hj
      exact ⟨l, (huses l _).mpr (.inl hl)⟩
    · rw [List.getElem?_append_right (by rw [hlen]; exact Nat.not_lt.mp hp), hlen] at hi
      obtain ⟨l, hl, hzero, rfl⟩ := hjumps _ i o hi ho hj
      obtain rfl : p = s.code.size := by omega
      exact ⟨l, (huses l _).mpr (.inr ⟨hl, rfl⟩)⟩
  · intro l q i hq hi
    have hle : q ≤ s.code.size := by
      obtain hq | ⟨rfl, -⟩ := hpos l q hq
      · exact hs.position_le hq
      · exact Nat.le_refl _
    rw [hcode] at hi
    by_cases hlt : q < s.code.size
    · rw [List.getElem?_append_left (by rw [hlen]; exact hlt)] at hi
      obtain hq | ⟨rfl, -⟩ := hpos l q hq
      · exact hs.leading l q i hq hi
      · exact absurd hlt (Nat.lt_irrefl _)
    · obtain rfl : q = s.code.size := Nat.le_antisymm hle (Nat.not_lt.mp hlt)
      rw [List.getElem?_append_right (Nat.le_of_eq hlen), hlen, Nat.sub_self] at hi
      exact hlead i hi
  · intro l u hu
    obtain hu | ⟨hl, rfl⟩ := (huses l u).mp hu
    · obtain ⟨k, hk, hu⟩ := hs.used l u hu
      exact ⟨k, hb _ _ hk, getElem?_of_initial (h.order_initial_grown _) hu⟩
    · obtain ⟨rfl, -, hk⟩ := hnew l hl
      refine ⟨h.emitted, hk, ?_⟩
      show (h.order ++ [h.emitted])[s.code.size]? = _
      rw [List.getElem?_append_right (Nat.le_of_eq hs.length), hs.length, Nat.sub_self]
      rfl
  · intro l q hq
    obtain hq | ⟨rfl, hk⟩ := hpos l q hq
    · obtain ⟨k, hk, hq⟩ := hs.placed l q hq
      exact ⟨k, hb _ _ hk, getElem?_of_initial (h.line_initial_grown _) hq⟩
    · refine ⟨h.emitted, hk, getElem?_of_initial (h.line_initial_grown _) ?_⟩
      rw [History.line, List.getElem?_append_right (Nat.le_of_eq hs.length), hs.length, Nat.sub_self]
      rfl

/-- A duplication is taken back: no label is set there or behind, and no placeholder stands there. -/
theorem drop (hs : Logged h begins s) (hb : ∀ y k, begins y k → begins' y k)
    (hspare : s.endsInSpareDup = true) (hcode : t.code = s.withoutSpareDup.code)
    (hlabels : t.labels = s.labels) :
    Logged { h with order := h.order.eraseIdx (s.code.size - 2) } begins' t := by
  obtain ⟨hn, ⟨i, op, hi, hop, hst⟩, ⟨j, hj, hdup⟩, hpos⟩ := Scope.endsInSpareDup_iff.mp hspare
  have hlen : s.code.toList.length = s.code.size := Array.length_toList
  have hat : ∀ p : Nat, t.code.toList[p]?
      = if p < s.code.size - 2 then s.code.toList[p]? else s.code.toList[p + 1]? := by
    intro p
    simp only [hcode, Array.getElem?_toList]
    exact Scope.getElem?_withoutSpareDup hn
  rw [← Array.getElem?_toList] at hi hj
  have hplain : ∀ (p : Nat) k o, s.code.size - 2 ≤ p → s.code.toList[p]? = some k → k.opcode? = some o →
      o.isJump = false := by
    intro p k o hp hk ho
    have hlt := (List.getElem?_eq_some_iff.mp hk).1
    by_cases hlast : p = s.code.size - 1
    · rw [hlast, hi] at hk
      obtain rfl := Option.some.inj hk
      obtain rfl := Option.some.inj (hop.symm.trans ho)
      exact (Instruction.effectOf_store hst i).2.2.1
    · obtain rfl : p = s.code.size - 2 := by omega
      obtain rfl := Option.some.inj (hj.symm.trans hk)
      obtain rfl := Option.some.inj (hdup.symm.trans ho)
      rfl
  have hbefore : ∀ l u, s.labels.Uses l u → u.position < s.code.size - 2 := by
    intro l u hu
    obtain ⟨hk, hj⟩ := hs.uses l u hu
    refine Nat.not_le.mp fun hp => ?_
    rw [hplain _ _ _ hp hk (Instruction.opcode?_plain u.op)] at hj
    cases hj
  refine ⟨?_, ?_, ?_, ?_, ?_, ?_, ?_⟩
  · show (h.order.eraseIdx _).length = _
    rw [List.length_eraseIdx_of_lt (by rw [hs.length]; omega), hs.length, hcode,
      Scope.size_withoutSpareDup hn]
  · intro l u hu
    rw [hlabels] at hu
    rw [hat, if_pos (hbefore l u hu)]
    exact hs.uses l u hu
  · rw [hlabels]
    exact hs.single
  · intro p k o hk ho hjump
    rw [hlabels]
    rw [hat] at hk
    split at hk
    · exact hs.jumps p k o hk ho hjump
    · rw [hplain (p + 1) k o (by omega) hk ho] at hjump
      cases hjump
  · intro l q k hq hk
    rw [hlabels] at hq
    rw [hat, if_pos (hpos l q hq)] at hk
    exact hs.leading l q k hq hk
  · intro l u hu
    rw [hlabels] at hu
    obtain ⟨k, hk, hu'⟩ := hs.used l u hu
    refine ⟨k, hb _ _ hk, ?_⟩
    show (h.order.eraseIdx _)[u.position]? = _
    rw [List.getElem?_eraseIdx_of_lt (hbefore l u hu)]
    exact hu'
  · intro l q hq
    rw [hlabels] at hq
    have hlt := hpos l q hq
    obtain ⟨k, hk, hq'⟩ := hs.placed l q hq
    refine ⟨k, hb _ _ hk, ?_⟩
    rw [History.line, List.getElem?_append_left (by rw [hs.length]; omega)] at hq'
    show (h.order.eraseIdx _ ++ [h.emitted])[q]? = _
    rw [List.getElem?_append_left (by
      rw [List.length_eraseIdx_of_lt (by rw [hs.length]; omega), hs.length]
      omega), List.getElem?_eraseIdx_of_lt hlt]
    exact hq'

/-- One step keeps the log. -/
theorem step (hs : Logged h begins s) (hx : x.Change s t)
    (hb : ∀ y k, begins y k → begins' y k) (hnow : begins' x h.emitted) :
    Logged (h.next s t) begins' t := by
  have hproper : ∀ {o : Opcode}, o.isProper = true → o.isCapture = false ∧ o.isJump = false := by
    intro o ho
    simpa [Opcode.isProper] using ho
  cases hx with
  | keep hcode hlabels =>
    have hc : t.code.toList = s.code.toList ++ [] := by rw [hcode, List.append_nil]
    rw [History.next_of_append hc]
    exact hs.extend .nop hb (fun _ => False) hc (by simp [hlabels]) (fun _ hl => hl.elim)
      (fun _ _ hl => hl.elim) (fun l q hq => .inl (by rw [← hlabels]; exact hq)) (by simp) (by simp)
  | write i captures op hi hop hcaptures hc hlabels =>
    rw [History.next_of_append hc]
    refine hs.extend .nop hb (fun _ => False) hc (by simp [hlabels]) (fun _ hl => hl.elim)
      (fun _ _ hl => hl.elim) (fun l q hq => .inl (by rw [← hlabels]; exact hq)) ?_ ?_
    · -- neither the first instruction nor a capture is a jump
      intro n j o hj ho hjump
      obtain rfl | hj := List.mem_cons.mp (List.mem_of_getElem? hj)
      · obtain rfl := Option.some.inj (hi.symm.trans ho)
        rw [(hproper hop).2] at hjump
        cases hjump
      · obtain ⟨o', ho', hcapture⟩ := hcaptures j hj
        obtain rfl := Option.some.inj (ho.symm.trans ho')
        cases o <;> simp [Opcode.isCapture] at hcapture <;> cases hjump
    · intro j hj
      obtain rfl := Option.some.inj hj
      exact ⟨op, hi, (hproper hop).1⟩
  | label hcode hlabels =>
    have hc : t.code.toList = s.code.toList ++ [] := by rw [hcode, List.append_nil]
    rw [History.next_of_append hc]
    refine hs.extend .nop hb (fun _ => False) hc ?_ (fun _ hl => hl.elim)
      (fun _ _ hl => hl.elim) ?_ (by simp) (by simp)
    · intro l u
      rw [hlabels, Labels.uses_push]
      simp
    · intro l q hq
      rw [hlabels, Labels.position?_push] at hq
      exact .inl hq
  | jump op l hx hop hl hc hlabels =>
    subst hx
    rw [History.next_of_append hc]
    refine hs.extend op hb (· = l) hc ?_ ?_ (fun k k' hk hk' => hk.trans hk'.symm) ?_ ?_ ?_
    · intro k u
      rw [hlabels, Labels.uses_used hl]
    · rintro k rfl
      exact ⟨rfl, hop, hnow⟩
    · intro k q hq
      rw [hlabels, Labels.position?_used] at hq
      exact .inl hq
    · intro n j o hj ho _
      have hlt := (List.getElem?_eq_some_iff.mp hj).1
      obtain rfl : n = 0 := by simpa using hlt
      obtain rfl := Option.some.inj hj
      exact ⟨l, rfl, rfl, (Option.some.inj ((Instruction.opcode?_plain op).symm.trans ho)).symm⟩
    · intro j hj
      obtain rfl := Option.some.inj hj
      refine ⟨op, Instruction.opcode?_plain op, ?_⟩
      cases op <;> first | rfl | cases hop
  | place l hx hl _ hcode hlabels =>
    subst hx
    have hc : t.code.toList = s.code.toList ++ [] := by rw [hcode, List.append_nil]
    rw [History.next_of_append hc]
    refine hs.extend .nop hb (fun _ => False) hc ?_ (fun _ hl => hl.elim)
      (fun _ _ hl => hl.elim) ?_ (by simp) (by simp)
    · intro k u
      rw [hlabels, Labels.uses_placed]
      simp
    · intro k q hq
      rw [hlabels, Labels.position?_placed hl] at hq
      split at hq
      · next hk =>
        obtain rfl := Option.some.inj hq
        rw [hk]
        exact .inr ⟨rfl, hnow⟩
      · exact .inl hq
  | drop _ hspare hcode hlabels =>
    rw [History.next_of_drop (Scope.endsInSpareDup_iff.mp hspare).1 hcode]
    exact hs.drop hb hspare hcode hlabels

/-- A whole script keeps the log. -/
theorem run (done : Script) {start a b : Assembler} {xs : Script}
    (hs : Logged (Step.history done start {}) (Step.BeginsAt done start) a.current)
    (hdone : Step.runAll done start = .ok () a) (hx : ∀ x ∈ xs, x.isProper = true)
    (h : Step.runAll xs a = .ok () b) :
    Logged (Step.history (done ++ xs) start {}) (Step.BeginsAt (done ++ xs) start) b.current := by
  induction xs generalizing done a with
  | nil =>
    obtain ⟨-, rfl⟩ := Edit.pure_eq_ok.mp h
    rw [List.append_nil]
    exact hs
  | cons x xs ih =>
    obtain ⟨hx, hxs⟩ := List.forall_mem_cons.mp hx
    obtain ⟨c, hc, h⟩ := Step.runAll_cons_eq_ok.mp h
    have hdone' := Step.runAll_concat hdone hc
    have hstep := hs.step (Step.change hx hc) (fun _ _ hy => hy.append [x])
      ⟨done, [], rfl, rfl⟩
    rw [← Step.history_concat hdone hc] at hstep
    have := ih _ hstep hdone' hxs h
    rwa [List.append_assoc] at this

end Logged

end StackCode
