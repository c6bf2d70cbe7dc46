import StackCode.Proofs.Consistency
import StackCode.Proofs.Lifetimes
import StackCode.Proofs.Units

/-!
# Names of variables in compiled code

The table of lifetimes of a unit names its slots at each instruction. The name that it gives is that of
the variable that had the slot when the instruction was emitted, although instructions move when a
duplication is taken back.

* `Step.Emits`: the instruction with a given number is emitted by a step, in a given state;
* `Step.Means`: the variable that a step is about;
* `NamesExact`: what is asked of the table of a unit;
* `Scope.Names`: the record of a scope holds the variables that live in it, and those that have died;
* `Chronicle`: every instruction so far was emitted while the variables lived that live at its position;
* `Script.Regular.chronicle`: a whole script;
* `namesExact_of_compile`: every unit of a compiled program.

Positions are recorded as words of 32 bits, so a unit must not have more instructions than such a word
can count.
-/

namespace StackCode

/-! ### What is emitted, and what is meant -/

/-- While a script is run, the step `y` changes the state `a` to `b` and emits the instruction `w`, which
is number `k` in the order of emission. -/
inductive Step.Emits (script : Script) (start : Assembler) :
    Nat → Instruction → Step → Assembler → Assembler → Prop where
  | intro {before after : Script} {y : Step} {a b : Assembler} {is : List Instruction}
      {w : Instruction} {j : Nat} (hscript : script = before ++ y :: after)
      (hbefore : Step.runAll before start = .ok () a) (hy : Step.run y a = .ok () b)
      (hcode : b.current.code.toList = a.current.code.toList ++ is) (hw : is[j]? = some w) :
      Emits script start ((Step.history before start {}).emitted + j) w y a b

/-- The variable that a step is about, in a unit with the parameters `params`. -/
inductive Step.Means (params : List String) : Step → String → Prop where
  | load (name : String) : Means params (.loadName name) name
  | store (name : String) : Means params (.storeName name) name
  | slot (op : Opcode) (name : String) : Means params (.slot op name) name
  | argument (op : Opcode) {n : Nat} {name : String} (h : params[n]? = some name) :
      Means params (.count op n) name

/-- Whether the operand is the slot of a variable of the unit itself. -/
def Opcode.isLocalAccess : Opcode → Bool
  | loadLocal | storeLocal | hasArg | paramEnd => true
  | _ => false

/-- At position `ip` of the unit `u`, whose instruction `i` was emitted when the step `y` changed the state
`a` to `b`, the slots have the names that they had at that moment. -/
structure NamedAt (params : List String) (u : CodeObject) (table : List Lifetime) (ip : Nat)
    (i : Instruction) (y : Step) (a b : Assembler) : Prop where
  /-- The variables are the same before and after the instruction. -/
  still : b.current.locals = a.current.locals
  names : ∀ slot, Lifetime.nameForSlot? table slot ip = a.current.locals.active[slot]?
  /-- An operand that is a slot is listed with the variable that was meant. -/
  meant : ∀ op, i.opcode? = some op → op.isLocalAccess = true →
    ∃ name, y.Means params name ∧ u.localName? u.slots i.unsigned ip = some name

/-- The names in a unit, whose script is run from the state `start`, are exact. -/
structure NamesExact (script : Script) (start : Assembler) (u : CodeObject) (table : List Lifetime) :
    Prop where
  named : ∀ ip i, u.code[ip]? = some i → ∃ k w y a b,
    (Step.history script start {}).order[ip]? = some k ∧ Step.Emits script start k w y a b
      ∧ w.opcode? = i.opcode? ∧ NamedAt start.current.signature.params u table ip i y a b
  /-- Arguments live everywhere, so both ways to find a name agree. -/
  arguments : ∀ ip slot name, ip < u.code.length → u.argNames[slot]? = some (some name) →
    Lifetime.nameForSlot? table slot ip = some name

theorem Step.Emits.append {script : Script} {start a b : Assembler} {k : Nat} {w : Instruction}
    {y : Step} (h : Step.Emits script start k w y a b) (more : Script) :
    Step.Emits (script ++ more) start k w y a b := by
  cases h with
  | @intro before after _ _ _ _ _ _ hscript hbefore hy hcode hw =>
    have hmore : script ++ more = before ++ y :: (after ++ more) := by
      rw [hscript, List.append_assoc, List.cons_append]
    exact .intro hmore hbefore hy hcode hw

/-! ### Steps and variables -/

/-- Whether a step leaves the variables of its unit as they are. -/
def Step.keepsNames : Step → Bool
  | declare _ | enterBlock | leaveBlock => false
  | _ => true

/-- The variables of two states of a scope are the same. -/
structure Scope.SameNames (s t : Scope) : Prop where
  signature : t.signature = s.signature
  locals : t.locals = s.locals
  recorder : t.recorder = s.recorder
  blocks : t.blocks = s.blocks

theorem Assembler.sameNames_of_resolve {name : String} {place : Place} {a b : Assembler}
    (h : resolve name a = .ok place b) : a.current.SameNames b.current := by
  obtain ⟨_, -, -, rfl⟩ | ⟨-, _, _, _, -, -, -, rfl⟩ | ⟨-, -, _, _, -, -, rfl⟩ :=
    resolve_eq_ok.mp h
  all_goals exact ⟨rfl, rfl, rfl, rfl⟩

/-- A unit that is written inside another one does not touch its variables. -/
theorem Step.sameNames_of_unit {op : Opcode} {kind : ScopeKind} {signature : Signature}
    {body : Script} {a b : Assembler} (h : Step.run (.unit op kind signature body) a = .ok () b) :
    a.current.SameNames b.current := by
  obtain ⟨n, e, s, c, child, d, he, hd, hb, hl, hemit⟩ := Step.run_unit_eq_ok.mp h
  obtain ⟨-, rfl⟩ := Assembler.enterScope_eq_ok.mp he
  obtain ⟨parent, rest, t, relay, hparent, -, -, -, rfl, rfl⟩ := Assembler.leaveScope_eq_ok.mp hl
  obtain ⟨rfl, rfl⟩ := List.cons.inj (hparent.symm.trans (Step.frame_of_runAll body hb).1)
  obtain ⟨-, -, rfl⟩ := Assembler.eq_of_emitChild hemit
  obtain ⟨code, depth, peak, happended⟩ := Scope.exists_appendedAll
    { a.current with
      outers := relay.parent
      children := a.current.children.push { t with outers := ⟨relay.settled⟩ }.toCodeObject }
    (.pack op a.current.children.size :: relay.captures.map Capture.word)
  show a.current.SameNames (Scope.appendedAll _ _)
  rw [happended]
  exact ⟨rfl, rfl, rfl, rfl⟩

theorem Step.sameNames {x : Step} {a b : Assembler} (hx : x.keepsNames = true)
    (h : Step.run x a = .ok () b) : a.current.SameNames b.current := by
  cases x with
  | declare _ | enterBlock | leaveBlock => cases hx
  | fail e => exact absurd h Edit.throw_ne_ok
  | unit op kind signature body => exact Step.sameNames_of_unit h
  | markLine line =>
    obtain ⟨-, rfl⟩ | ⟨-, s, hs, rfl⟩ := Assembler.markLine_eq_ok.mp h
    · exact ⟨rfl, rfl, rfl, rfl⟩
    · obtain ⟨-, rfl⟩ | ⟨-, -, -, rfl⟩ := Scope.markLine_eq_ok.mp hs
      · exact ⟨rfl, rfl, rfl, rfl⟩
      · exact ⟨rfl, rfl, rfl, rfl⟩
  | op o =>
    rw [Step.eq_of_run_op h]
    exact ⟨rfl, rfl, rfl, rfl⟩
  | count o n =>
    rw [(Step.eq_of_run_count h).2]
    exact ⟨rfl, rfl, rfl, rfl⟩
  | pair o m n =>
    obtain ⟨p, h⟩ := Edit.ignore_eq_ok.mp h
    obtain ⟨s, hs, rfl⟩ := Assembler.onCurrent_eq_ok.mp h
    obtain ⟨-, -, -, rfl⟩ := Scope.emitPair_eq_ok.mp hs
    exact ⟨rfl, rfl, rfl, rfl⟩
  | newLabel =>
    obtain ⟨l, h⟩ := Edit.ignore_eq_ok.mp h
    obtain ⟨s, hs, rfl⟩ := Assembler.onCurrent_eq_ok.mp h
    obtain ⟨-, rfl⟩ := Scope.newLabel_eq_ok.mp hs
    exact ⟨rfl, rfl, rfl, rfl⟩
  | jump o l =>
    obtain ⟨p, h⟩ := Edit.ignore_eq_ok.mp h
    obtain ⟨s, hs, rfl⟩ := Assembler.onCurrent_eq_ok.mp h
    obtain ⟨-, -, -, rfl⟩ := Scope.emitJump_eq_ok.mp hs
    exact ⟨rfl, rfl, rfl, rfl⟩
  | place l =>
    obtain ⟨s, hs, rfl⟩ := Assembler.onCurrent_eq_ok.mp h
    obtain ⟨-, -, rfl⟩ := Scope.placeLabel_eq_ok.mp hs
    exact ⟨rfl, rfl, rfl, rfl⟩
  | receive =>
    simp only [run] at h
    obtain ⟨s, hs, rfl⟩ := Assembler.onCurrent_eq_ok.mp h
    obtain rfl := Scope.receive_eq_ok.mp hs
    exact ⟨rfl, rfl, rfl, rfl⟩
  | discard =>
    obtain ⟨s, hs, rfl⟩ := Assembler.onCurrent_eq_ok.mp h
    obtain ⟨-, rfl⟩ | ⟨-, -, rfl⟩ := Scope.discard_eq_ok.mp hs
    · exact ⟨rfl, rfl, rfl, rfl⟩
    · exact ⟨rfl, rfl, rfl, rfl⟩
  | loadConst v =>
    obtain ⟨s, hs, rfl⟩ := Assembler.onCurrent_eq_ok.mp h
    obtain ⟨_, _, -, -, -, rfl⟩ := Scope.loadConst_eq_ok.mp hs
    exact ⟨rfl, rfl, rfl, rfl⟩
  | named o name =>
    obtain ⟨s, hs, rfl⟩ := Assembler.onCurrent_eq_ok.mp h
    obtain ⟨_, _, -, -, -, rfl⟩ := Scope.emitNamed_eq_ok.mp hs
    exact ⟨rfl, rfl, rfl, rfl⟩
  | slot o name =>
    obtain ⟨s, hs, rfl⟩ := Assembler.onCurrent_eq_ok.mp h
    obtain ⟨_, -, -, -, rfl⟩ := Scope.emitSlot_eq_ok.mp hs
    exact ⟨rfl, rfl, rfl, rfl⟩
  | loadName name =>
    obtain ⟨place, c, hr, -, -, rfl⟩ := Assembler.loadName_eq_ok.mp h
    obtain ⟨hsignature, hlocals, hrecorder, hblocks⟩ := Assembler.sameNames_of_resolve hr
    exact ⟨hsignature, hlocals, hrecorder, hblocks⟩
  | storeName name =>
    obtain ⟨place, c, hr, -, -, rfl⟩ := Assembler.storeName_eq_ok.mp h
    obtain ⟨hsignature, hlocals, hrecorder, hblocks⟩ := Assembler.sameNames_of_resolve hr
    exact ⟨hsignature, hlocals, hrecorder, hblocks⟩
  | protect =>
    simp only [run] at h
    obtain ⟨s, hs, rfl⟩ := Assembler.onCurrent_eq_ok.mp h
    obtain rfl := Scope.protect_eq_ok.mp hs
    exact ⟨rfl, rfl, rfl, rfl⟩

/-- A unit keeps its signature. -/
theorem Step.signature_of_runAll {xs : Script} {a b : Assembler} (h : Step.runAll xs a = .ok () b) :
    b.current.signature = a.current.signature := by
  induction xs generalizing a with
  | nil =>
    obtain ⟨-, rfl⟩ := Edit.pure_eq_ok.mp h
    rfl
  | cons x xs ih =>
    obtain ⟨c, hx, h⟩ := Step.runAll_cons_eq_ok.mp h
    refine (ih h).trans ?_
    cases x with
    | declare name =>
      obtain ⟨slot, hx⟩ := Edit.ignore_eq_ok.mp hx
      obtain ⟨s, hs, rfl⟩ := Assembler.onCurrent_eq_ok.mp hx
      obtain ⟨_, _, -, rfl⟩ := Scope.declare_eq_ok.mp hs
      rfl
    | enterBlock =>
      simp only [run] at hx
      obtain ⟨s, hs, rfl⟩ := Assembler.onCurrent_eq_ok.mp hx
      obtain rfl := Scope.enterBlock_eq_ok.mp hs
      rfl
    | leaveBlock =>
      obtain ⟨s, hs, rfl⟩ := Assembler.onCurrent_eq_ok.mp hx
      obtain ⟨_, _, -, rfl⟩ := Scope.leaveBlock_eq_ok.mp hs
      rfl
    | _ => exact (Step.sameNames rfl hx).signature

/-! ### The variables of a scope -/

/-- The record of a scope holds the variables `spans`, none of them at a position behind `bound`. The
parameters live as long as the unit is written. -/
structure Scope.Names (params : List String) (bound : Nat) (spans : List Span) (s : Scope) : Prop where
  recorded : ∃ r, s.recorder = some r ∧ r.Records spans
  active : s.locals.active = Span.active spans
  nested : spans.Pairwise Span.Nested
  bounded : ∀ v ∈ spans, v.Bounded bound
  inside : bound ≤ s.code.size
  initial : params <+: s.locals.active
  blocks : ∀ m ∈ s.blocks, params.length ≤ m

namespace Scope.Names

variable {params : List String} {bound : Nat} {spans : List Span} {s t : Scope}

/-- The variables that live from the last position on. -/
theorem activeAt_eq (h : s.Names params bound spans) {p : Nat} (hp : bound ≤ p) :
    Span.activeAt spans p = s.locals.active := by
  rw [h.active, Span.activeAt_eq h.bounded hp]

theorem congr (h : s.Names params bound spans) (hsame : s.SameNames t) (hsize : bound ≤ t.code.size) :
    t.Names params bound spans := by
  refine ⟨?_, ?_, h.nested, h.bounded, hsize, ?_, ?_⟩
  · rw [hsame.recorder]
    exact h.recorded
  · rw [hsame.locals]
    exact h.active
  · rw [hsame.locals]
    exact h.initial
  · rw [hsame.blocks]
    exact h.blocks

/-- A variable that is new starts at the last position. -/
theorem declare (h : s.Names params bound spans) {name : String} {slot : Nat}
    (hd : Scope.declare name s = .ok slot t) :
    ∃ spans', t.Names params s.code.size spans'
      ∧ ∀ p < s.code.size, Span.activeAt spans' p = Span.activeAt spans p := by
  obtain ⟨fresh, locals, hl, rfl⟩ := Scope.declare_eq_ok.mp hd
  obtain ⟨r, hr, hrecords⟩ := h.recorded
  have hbounded : ∀ v ∈ spans, v.Bounded s.code.size := fun v hv => (h.bounded v hv).mono h.inside
  unfold Slots.declare at hl
  split at hl
  · obtain ⟨hslot, rfl⟩ := Prod.mk.inj (Except.ok.inj hl)
    obtain ⟨-, rfl⟩ := Prod.mk.inj hslot
    exact ⟨spans, ⟨⟨r, hr, hrecords⟩, h.active, h.nested, hbounded, Nat.le_refl _, h.initial, h.blocks⟩,
      fun _ _ => rfl⟩
  · split at hl
    · cases hl
    · obtain ⟨hslot, rfl⟩ := Prod.mk.inj (Except.ok.inj hl)
      obtain ⟨-, rfl⟩ := Prod.mk.inj hslot
      refine ⟨spans ++ [⟨name, s.code.size, none⟩], ⟨?_, ?_, ?_, ?_, Nat.le_refl _, ?_, h.blocks⟩, ?_⟩
      · refine ⟨r.start name s.code.size, ?_, hrecords.start name s.code.size⟩
        simp [hr]
      · show s.locals.active ++ [name] = _
        rw [Span.active_concat, h.active]
      · refine List.pairwise_append.mpr ⟨h.nested, List.pairwise_singleton _ _, fun v hv w hw => ?_⟩
        rw [List.mem_singleton.mp hw]
        exact ⟨(hbounded v hv).1, fun q hq => .inl ((hbounded v hv).2 q hq)⟩
      · intro v hv
        obtain hv | hv := List.mem_append.mp hv
        · exact hbounded v hv
        · rw [List.mem_singleton.mp hv]
          exact ⟨Nat.le_refl _, nofun⟩
      · exact h.initial.trans (List.prefix_append _ _)
      · exact fun p hp => Span.activeAt_concat hp

theorem enterBlock (h : s.Names params bound spans) (he : Scope.enterBlock s = .ok () t) :
    t.Names params bound spans := by
  obtain rfl := Scope.enterBlock_eq_ok.mp he
  exact ⟨h.recorded, h.active, h.nested, h.bounded, h.inside, h.initial,
    List.forall_mem_cons.mpr ⟨h.initial.length_le, h.blocks⟩⟩

/-- The variables of a block die at the last position. -/
theorem leaveBlock (h : s.Names params bound spans) (hl : Scope.leaveBlock s = .ok () t) :
    ∃ spans', t.Names params s.code.size spans'
      ∧ ∀ p < s.code.size, Span.activeAt spans' p = Span.activeAt spans p := by
  obtain ⟨marker, blocks, hblocks, rfl⟩ := Scope.leaveBlock_eq_ok.mp hl
  obtain ⟨r, hr, hrecords⟩ := h.recorded
  have hmarks := h.blocks
  rw [hblocks] at hmarks
  obtain ⟨hmarker, hrest⟩ := List.forall_mem_cons.mp hmarks
  have hstop := hrecords.stop (s.locals.active.length - marker) s.code.size
  refine ⟨_, ⟨⟨_, ?_, hstop⟩, ?_, Span.nested_close h.nested h.bounded h.inside,
    Span.Bounded.close h.bounded h.inside, Nat.le_refl _, ?_, hrest⟩, fun p hp => Span.activeAt_close hp⟩
  · simp [hr, Slots.rollback]
  · show s.locals.active.take marker = _
    rw [Span.active_close, ← h.active]
    refine List.take_eq_take_iff.mpr ?_
    omega
  · exact List.prefix_take_iff.mpr ⟨h.initial, hmarker⟩

/-- The parameters of a unit are declared. -/
theorem declareAll {names : List String} (h : s.Names [] bound spans)
    (hd : StackCode.declareAll names s = .ok () t) :
    ∃ bound' spans', t.Names [] bound' spans' := by
  induction names generalizing s bound spans with
  | nil =>
    obtain ⟨-, rfl⟩ := Edit.pure_eq_ok.mp hd
    exact ⟨bound, spans, h⟩
  | cons name names ih =>
    obtain ⟨slot, r, hr, hd⟩ := Edit.bind_eq_ok.mp hd
    obtain ⟨spans', h', -⟩ := h.declare hr
    exact ih h' hd

end Scope.Names

theorem Scope.names_new {number : Nat} {kind : ScopeKind} {signature : Signature} :
    (Scope.new number kind signature true).Names [] 0 [] :=
  ⟨⟨{}, rfl, rfl, rfl⟩, rfl, .nil, fun _ hv => absurd hv List.not_mem_nil, Nat.le_refl 0,
    List.nil_prefix, fun _ hm => absurd hm List.not_mem_nil⟩

/-! ### The instructions of a scope -/

/-- Every instruction of a scope, for which the steps `done` were run, was emitted while the variables
lived that live at its position. -/
structure Chronicle (params : List String) (done : Script) (start : Assembler) (spans : List Span)
    (s : Scope) : Prop where
  length : (Step.history done start {}).order.length = s.code.size
  each : ∀ (p : Nat) w, s.code.toList[p]? = some w → ∃ k y a b,
    (Step.history done start {}).order[p]? = some k ∧ Step.Emits done start k w y a b
      ∧ b.current.locals = a.current.locals
      ∧ a.current.locals.active = Span.activeAt spans p ∧ params <+: a.current.locals.active

namespace Chronicle

variable {params : List String} {done : Script} {start a b : Assembler} {spans spans' : List Span}
  {x : Step} {bound : Nat}

/-- A step that does not write may change the variables, though not at the positions so far. -/
theorem keep (h : Chronicle params done start spans a.current)
    (hdone : Step.runAll done start = .ok () a) (hx : Step.run x a = .ok () b)
    (hcode : b.current.code = a.current.code)
    (hspans : ∀ p < a.current.code.size, Span.activeAt spans' p = Span.activeAt spans p) :
    Chronicle params (done ++ [x]) start spans' b.current := by
  have hhistory : Step.history (done ++ [x]) start {} = (Step.history done start {}).grown 0 := by
    have hnone : b.current.code.toList = a.current.code.toList ++ [] := by rw [hcode, List.append_nil]
    rw [Step.history_concat hdone hx]
    exact History.next_of_append hnone
  refine ⟨?_, fun p w hw => ?_⟩
  · rw [hhistory, History.length_grown, h.length, hcode, Nat.add_zero]
  · rw [hcode] at hw
    obtain ⟨k, y, c, d, hk, hemits, hstill, hactive, hparams⟩ := h.each p w hw
    have hp := (List.getElem?_eq_some_iff.mp hw).1
    rw [Array.length_toList] at hp
    refine ⟨k, y, c, d, ?_, hemits.append [x], hstill, hactive.trans (hspans p hp).symm, hparams⟩
    rw [hhistory]
    exact getElem?_of_initial (History.order_initial_grown _ _) hk

/-- A step that writes leaves the variables as they are. -/
theorem extend {is : List Instruction} (h : Chronicle params done start spans a.current)
    (hdone : Step.runAll done start = .ok () a) (hx : Step.run x a = .ok () b)
    (hcode : b.current.code.toList = a.current.code.toList ++ is)
    (hnames : a.current.Names params bound spans) (hsame : a.current.SameNames b.current) :
    Chronicle params (done ++ [x]) start spans b.current := by
  have hhistory : Step.history (done ++ [x]) start {} = (Step.history done start {}).grown is.length := by
    rw [Step.history_concat hdone hx]
    exact History.next_of_append hcode
  have hlen : a.current.code.toList.length = a.current.code.size := Array.length_toList
  refine ⟨?_, fun p w hw => ?_⟩
  · rw [hhistory, History.length_grown, h.length, ← hlen, ← List.length_append, ← hcode,
      Array.length_toList]
  rw [hcode] at hw
  by_cases hp : p < a.current.code.size
  · rw [List.getElem?_append_left (by omega)] at hw
    obtain ⟨k, y, c, d, hk, hemits, hrest⟩ := h.each p w hw
    refine ⟨k, y, c, d, ?_, hemits.append [x], hrest⟩
    rw [hhistory]
    exact getElem?_of_initial (History.order_initial_grown _ _) hk
  · rw [List.getElem?_append_right (by omega), hlen] at hw
    refine ⟨_, x, a, b, ?_, .intro rfl hdone hx hcode hw, hsame.locals, ?_, hnames.initial⟩
    · rw [hhistory, History.grown, List.getElem?_append_right (by rw [h.length]; omega), h.length,
        List.getElem?_range' (List.getElem?_eq_some_iff.mp hw).1, Nat.one_mul]
    · exact (hnames.activeAt_eq (Nat.le_trans hnames.inside (Nat.not_lt.mp hp))).symm

/-- A duplication is taken back. The store behind it moves, but no variable began or died since. -/
theorem drop (h : Chronicle params done start spans a.current)
    (hdone : Step.runAll done start = .ok () a) (hx : Step.run x a = .ok () b)
    (hspare : a.current.endsInSpareDup = true)
    (hcode : b.current.code = a.current.withoutSpareDup.code)
    (hnames : a.current.Names params bound spans) (hbound : bound + 2 ≤ a.current.code.size) :
    Chronicle params (done ++ [x]) start spans b.current := by
  have hn := (Scope.endsInSpareDup_iff.mp hspare).1
  have hhistory : (Step.history (done ++ [x]) start {}).order
      = (Step.history done start {}).order.eraseIdx (a.current.code.size - 2) := by
    rw [Step.history_concat hdone hx, History.next_of_drop hn hcode]
  refine ⟨?_, fun p w hw => ?_⟩
  · rw [hhistory, List.length_eraseIdx_of_lt (by rw [h.length]; omega), h.length, hcode,
      Scope.size_withoutSpareDup hn]
  · rw [Array.getElem?_toList, hcode, Scope.getElem?_withoutSpareDup hn] at hw
    rw [hhistory]
    split at hw
    · next hp =>
      obtain ⟨k, y, c, d, hk, hemits, hrest⟩ := h.each p w (by rw [Array.getElem?_toList]; exact hw)
      refine ⟨k, y, c, d, ?_, hemits.append [x], hrest⟩
      rw [List.getElem?_eraseIdx_of_lt hp]
      exact hk
    · next hp =>
      obtain ⟨k, y, c, d, hk, hemits, hstill, hactive, hparams⟩ :=
        h.each (p + 1) w (by rw [Array.getElem?_toList]; exact hw)
      refine ⟨k, y, c, d, ?_, hemits.append [x], hstill, hactive.trans ?_, hparams⟩
      · rw [List.getElem?_eraseIdx_of_ge (by omega)]
        exact hk
      · rw [hnames.activeAt_eq (by omega), hnames.activeAt_eq (by omega)]

/-- A step that leaves the variables as they are. -/
theorem of_keepsNames (h : Chronicle params done start spans a.current)
    (hdone : Step.runAll done start = .ok () a) (hx : Step.run x a = .ok () b)
    (hkeeps : x.keepsNames = true) (hproper : x.isProper = true)
    (hnames : a.current.Names params bound spans)
    (hdrop : x = .discard → a.current.endsInSpareDup = true → bound + 2 ≤ a.current.code.size) :
    b.current.Names params bound spans ∧ Chronicle params (done ++ [x]) start spans b.current := by
  have hsame := Step.sameNames hkeeps hx
  have hmore : ∀ is, b.current.code.toList = a.current.code.toList ++ is →
      b.current.Names params bound spans ∧ Chronicle params (done ++ [x]) start spans b.current := by
    intro is hcode
    refine ⟨hnames.congr hsame ?_, h.extend hdone hx hcode hnames hsame⟩
    rw [← Array.length_toList, hcode, List.length_append, Array.length_toList]
    exact Nat.le_trans hnames.inside (Nat.le_add_right _ _)
  cases Step.change hproper hx with
  | keep hcode _ | label hcode _ | place _ _ _ _ hcode _ =>
    exact hmore [] (by rw [hcode, List.append_nil])
  | write i captures _ _ _ _ hcode _ => exact hmore _ hcode
  | jump op _ _ _ _ hcode _ => exact hmore _ hcode
  | drop hdiscard hspare hcode _ =>
    have hbound := hdrop hdiscard hspare
    refine ⟨hnames.congr hsame ?_, h.drop hdone hx hspare hcode hnames hbound⟩
    rw [hcode, Scope.size_withoutSpareDup (by omega)]
    omega

/-- One more step. Three kinds of steps concern variables, and none of them writes. -/
theorem step (h : Chronicle params done start spans a.current)
    (hdone : Step.runAll done start = .ok () a) (hx : Step.run x a = .ok () b)
    (hproper : x.isProper = true) (hnames : a.current.Names params bound spans)
    (hdrop : x = .discard → a.current.endsInSpareDup = true → bound + 2 ≤ a.current.code.size) :
    ∃ spans', b.current.Names params (x.boundAfter a.current bound) spans'
      ∧ Chronicle params (done ++ [x]) start spans' b.current := by
  cases x with
  | declare name =>
    obtain ⟨slot, hrun⟩ := Edit.ignore_eq_ok.mp hx
    obtain ⟨s, hs, rfl⟩ := Assembler.onCurrent_eq_ok.mp hrun
    obtain ⟨spans', hnames', hspans⟩ := hnames.declare hs
    exact ⟨spans', hnames', h.keep hdone hx (Scope.alike_of_declare hs).code hspans⟩
  | enterBlock =>
    have hrun := hx
    simp only [Step.run] at hrun
    obtain ⟨s, hs, rfl⟩ := Assembler.onCurrent_eq_ok.mp hrun
    have hnames' := hnames.enterBlock hs
    obtain rfl := Scope.enterBlock_eq_ok.mp hs
    exact ⟨spans, hnames', h.keep hdone hx rfl fun _ _ => rfl⟩
  | leaveBlock =>
    obtain ⟨s, hs, rfl⟩ := Assembler.onCurrent_eq_ok.mp hx
    obtain ⟨spans', hnames', hspans⟩ := hnames.leaveBlock hs
    obtain ⟨marker, blocks, -, rfl⟩ := Scope.leaveBlock_eq_ok.mp hs
    exact ⟨spans', hnames', h.keep hdone hx rfl hspans⟩
  | _ => exact ⟨spans, h.of_keepsNames hdone hx rfl hproper hnames hdrop⟩

end Chronicle

/-! ### Whole scripts -/

/-- The configuration is the same everywhere. -/
theorem Step.Performs.config {xs : Script} {y : Step} {a c d : Assembler}
    (h : Step.Performs xs a y c d) : c.config = a.config := by
  induction h with
  | here => rfl
  | later hx _ ih => exact ih.trans (Step.frame_of_run _ hx).2
  | inside he _ _ ih =>
    obtain ⟨-, rfl⟩ := Assembler.enterScope_eq_ok.mp he
    exact ih

/-- A regular script keeps the chronicle. -/
theorem Script.Regular.chronicle {generator : Bool} {args bound : Nat} {done xs : Script}
    {params : List String} {spans : List Span} {start a b : Assembler}
    (h : Script.Regular generator args done xs) (hdone : Step.runAll done start = .ok () a)
    (hnames : a.current.Names params bound spans)
    (hc : Chronicle params done start spans a.current) (hp : Script.Poised done a.current bound)
    (hr : Step.runAll xs a = .ok () b) :
    ∃ bound' spans', b.current.Names params bound' spans'
      ∧ Chronicle params (done ++ xs) start spans' b.current := by
  induction xs generalizing done a bound spans with
  | nil =>
    obtain ⟨-, rfl⟩ := Edit.pure_eq_ok.mp hr
    rw [List.append_nil]
    exact ⟨bound, spans, hnames, hc⟩
  | cons x xs ih =>
    obtain ⟨c, hrun, hr⟩ := Step.runAll_cons_eq_ok.mp hr
    obtain ⟨hproper, hcalm, h⟩ := h.uncons
    obtain ⟨spans', hnames', hc'⟩ := hc.step hdone hrun hproper hnames fun hx => hp.calm (hcalm hx)
    rw [List.append_cons]
    exact ih h (Step.runAll_concat hdone hrun) hnames' hc' (hp.step hnames.inside hrun) hr

/-! ### What a step is about -/

theorem Assembler.lookup?_of_resolve {name : String} {n : Nat} {a b : Assembler}
    (h : resolve name a = .ok (.slot n) b) : a.current.locals.lookup? name = some n := by
  obtain ⟨slot, hl, hn, -⟩ | ⟨-, _, _, _, -, -, hn, -⟩ | ⟨-, -, _, _, -, hn, -⟩ := resolve_eq_ok.mp h
  · rw [Place.slot.inj hn]
    exact hl
  · cases hn
  · cases hn

section Words

variable {generator : Bool} {params : List String} {x : Step} {a b : Assembler}
  {is : List Instruction} {w : Instruction} {op : Opcode}

/-- A step that writes writes the word that is found behind the code. -/
theorem Scope.word_eq {s t u : Scope} {i : Instruction} (hcode : t.code.toList = s.code.toList ++ is)
    (hw : w ∈ is) (hu : u.code = s.code) (ht : t.code = u.code.push i) : w = i := by
  rw [ht, Array.toList_push, hu] at hcode
  rw [← List.append_cancel_left hcode] at hw
  exact List.mem_singleton.mp hw

/-- A name that is loaded or stored, and that lives in a slot, lives in the slot that is written. -/
theorem Assembler.getElem?_of_resolve {name : String} {place : Place} {c : Assembler}
    (opOf : Place → Opcode) (hr : Assembler.resolve name a = .ok place c)
    (hn : place.operand ≤ Instruction.maxUnsigned) (hw : w = .pack (opOf place) place.operand)
    (hop : w.opcode? = some op) (hlocal : op.isLocalAccess = true)
    (hslot : ∀ place, (opOf place).isLocalAccess = true → ∃ n, place = .slot n) :
    a.current.locals.active[w.unsigned]? = some name := by
  rw [hw, Instruction.opcode?_pack (Nat.lt_succ_of_le hn)] at hop
  obtain rfl := Option.some.inj hop
  obtain ⟨n, rfl⟩ := hslot place hlocal
  rw [hw, Instruction.unsigned_pack (Nat.lt_succ_of_le hn)]
  exact Slots.getElem?_of_lookup? (Assembler.lookup?_of_resolve hr)

/-- A step that reads or writes a variable of the unit, or asks for an argument, has the slot of the
variable as its operand. -/
theorem Step.means_of_isRegular (hx : x.isRegular generator params.length = true)
    (h : Step.run x a = .ok () b) (hcode : b.current.code.toList = a.current.code.toList ++ is)
    (hw : w ∈ is) (hop : w.opcode? = some op) (hlocal : op.isLocalAccess = true)
    (hparams : params <+: a.current.locals.active) :
    ∃ name, x.Means params name ∧ a.current.locals.active[w.unsigned]? = some name := by
  have hempty : b.current.code ≠ a.current.code := by
    intro hb
    rw [hb] at hcode
    rw [List.self_eq_append_right.mp hcode] at hw
    cases hw
  -- a step that appends one word, without regard to the scope
  have hwrites : x.isWrite = true → x.Writes w := by
    intro hwrite
    obtain ⟨-, t, i, ht, hi, hb⟩ := Step.run_write hwrite h
    rw [Scope.word_eq hcode hw ht.code (by rw [hb]; rfl)]
    exact hi
  cases x with
  | fail _ | discard | unit _ _ _ _ => cases hx
  | slot o name =>
    obtain ⟨s, hs, rfl⟩ := Assembler.onCurrent_eq_ok.mp h
    obtain ⟨slot, hl, hn, -, rfl⟩ := Scope.emitSlot_eq_ok.mp hs
    obtain rfl := Scope.word_eq hcode hw rfl rfl
    refine ⟨name, .slot o name, ?_⟩
    rw [Instruction.unsigned_pack (Nat.lt_succ_of_le hn)]
    exact Slots.getElem?_of_lookup? hl
  | loadName name =>
    obtain ⟨place, c, hr, hn, -, rfl⟩ := Assembler.loadName_eq_ok.mp h
    have hword := Scope.word_eq hcode hw (Assembler.alike_of_resolve hr).2.code rfl
    refine ⟨name, .load name, Assembler.getElem?_of_resolve Place.loadOp hr hn hword hop
      hlocal fun place hplace => ?_⟩
    cases place with
    | slot n => exact ⟨n, rfl⟩
    | outer _ | global _ => cases hplace
  | storeName name =>
    obtain ⟨place, c, hr, hn, -, rfl⟩ := Assembler.storeName_eq_ok.mp h
    have hword := Scope.word_eq hcode hw (Assembler.alike_of_resolve hr).2.code rfl
    refine ⟨name, .store name, Assembler.getElem?_of_resolve Place.storeOp hr hn hword hop
      hlocal fun place hplace => ?_⟩
    cases place with
    | slot n => exact ⟨n, rfl⟩
    | outer _ | global _ => cases hplace
  | count o n =>
    obtain ⟨hn, rfl⟩ := hwrites rfl
    rw [Instruction.opcode?_pack (Nat.lt_succ_of_le hn)] at hop
    obtain rfl := Option.some.inj hop
    simp only [isRegular, Bool.or_eq_true, Bool.and_eq_true, decide_eq_true_eq] at hx
    obtain hcount | ⟨-, hlt⟩ := hx
    · cases o <;> simp [Opcode.isLocalAccess] at hlocal <;> cases hcount
    · have hname := List.getElem?_eq_getElem hlt
      rw [Instruction.unsigned_pack (Nat.lt_succ_of_le hn)]
      exact ⟨_, .argument o hname, getElem?_of_initial hparams hname⟩
  | op o =>
    obtain rfl := hwrites rfl
    rw [Instruction.opcode?_plain] at hop
    obtain rfl := Option.some.inj hop
    simp only [isRegular, Bool.and_eq_true] at hx
    cases o <;> simp [Opcode.isLocalAccess] at hlocal <;> cases hx.1
  | pair o m n =>
    obtain ⟨⟨hm, hn⟩, rfl⟩ := hwrites rfl
    unfold Instruction.maxPair at hm hn
    rw [Instruction.opcode?_pack (by omega), beq_iff_eq.mp hx] at hop
    obtain rfl := Option.some.inj hop
    cases hlocal
  | named o name =>
    obtain ⟨n, hn, rfl⟩ := hwrites rfl
    rw [Instruction.opcode?_pack (Nat.lt_succ_of_le hn)] at hop
    obtain rfl := Option.some.inj hop
    cases o <;> simp [Opcode.isLocalAccess] at hlocal <;> cases hx
  | loadConst v =>
    obtain ⟨n, hn, rfl⟩ := hwrites rfl
    rw [Instruction.opcode?_pack (Nat.lt_succ_of_le hn)] at hop
    obtain rfl := Option.some.inj hop
    cases hlocal
  | jump o l =>
    obtain ⟨p, h⟩ := Edit.ignore_eq_ok.mp h
    obtain ⟨s, hs, rfl⟩ := Assembler.onCurrent_eq_ok.mp h
    obtain ⟨-, -, -, rfl⟩ := Scope.emitJump_eq_ok.mp hs
    rw [Scope.word_eq hcode hw rfl rfl, Instruction.opcode?_plain] at hop
    obtain rfl := Option.some.inj hop
    cases o <;> simp [Opcode.isLocalAccess] at hlocal <;> cases hx
  | markLine _ | declare _ | enterBlock | leaveBlock | protect =>
    obtain ⟨-, t, ht, hb | ⟨line, hn, hb⟩⟩ := Step.run_quiet rfl h
    · exact absurd (by rw [hb, ht.code]) hempty
    · rw [Scope.word_eq hcode hw ht.code (by rw [hb]; rfl),
        Instruction.opcode?_pack (Nat.lt_succ_of_le hn)] at hop
      obtain rfl := Option.some.inj hop
      cases hlocal
  | newLabel =>
    obtain ⟨l, h⟩ := Edit.ignore_eq_ok.mp h
    obtain ⟨s, hs, rfl⟩ := Assembler.onCurrent_eq_ok.mp h
    obtain ⟨-, rfl⟩ := Scope.newLabel_eq_ok.mp hs
    exact absurd rfl hempty
  | place l =>
    obtain ⟨s, hs, rfl⟩ := Assembler.onCurrent_eq_ok.mp h
    obtain ⟨-, -, rfl⟩ := Scope.placeLabel_eq_ok.mp hs
    exact absurd rfl hempty
  | receive =>
    simp only [run] at h
    obtain ⟨s, hs, rfl⟩ := Assembler.onCurrent_eq_ok.mp h
    obtain rfl := Scope.receive_eq_ok.mp hs
    exact absurd rfl hempty

/-- Neither instances and their captures nor dropped values have the slot of a variable of the unit that
was meant as their operand. -/
theorem Step.means (hx : x.isRegular generator params.length = true ∨ x = .discard
      ∨ ∃ op kind signature body, x = .unit op kind signature body ∧ op.instantiates = true)
    (h : Step.run x a = .ok () b) (hcode : b.current.code.toList = a.current.code.toList ++ is)
    (hw : w ∈ is) (hop : w.opcode? = some op) (hlocal : op.isLocalAccess = true)
    (hparams : params <+: a.current.locals.active) :
    ∃ name, x.Means params name ∧ a.current.locals.active[w.unsigned]? = some name := by
  obtain hx | rfl | ⟨o, kind, signature, body, rfl, ho⟩ := hx
  · exact Step.means_of_isRegular hx h hcode hw hop hlocal hparams
  · obtain ⟨s, hs, rfl⟩ := Assembler.onCurrent_eq_ok.mp h
    obtain ⟨hspare, rfl⟩ | ⟨-, -, rfl⟩ := Scope.discard_eq_ok.mp hs
    · have hsize : (Scope.withoutSpareDup a.current).code.toList.length < a.current.code.toList.length := by
        have hn := (Scope.endsInSpareDup_iff.mp hspare).1
        rw [Array.length_toList, Array.length_toList, Scope.size_withoutSpareDup hn]
        omega
      rw [hcode, List.length_append] at hsize
      omega
    · rw [Scope.word_eq hcode hw rfl rfl, Instruction.opcode?_plain] at hop
      obtain rfl := Option.some.inj hop
      cases hlocal
  · obtain ⟨n, e, s, c, child, d, he, hd, hb, hl, hemit⟩ := Step.run_unit_eq_ok.mp h
    obtain ⟨-, rfl⟩ := Assembler.enterScope_eq_ok.mp he
    obtain ⟨parent, rest, t, relay, hparent, -, -, -, rfl, rfl⟩ := Assembler.leaveScope_eq_ok.mp hl
    obtain ⟨rfl, rfl⟩ := List.cons.inj (hparent.symm.trans (Step.frame_of_runAll body hb).1)
    obtain ⟨hn, hcaptures, rfl⟩ := Assembler.eq_of_emitChild hemit
    have his := List.append_cancel_left ((Scope.code_appendedAll _ _).symm.trans hcode)
    rw [← his] at hw
    obtain rfl | hw := List.mem_cons.mp hw
    · rw [Instruction.opcode?_pack (Nat.lt_succ_of_le hn)] at hop
      obtain rfl := Option.some.inj hop
      cases o <;> simp [Opcode.isLocalAccess] at hlocal <;> cases ho
    · obtain ⟨k, hk, rfl⟩ := List.mem_map.mp hw
      rw [Capture.opcode?_word (hcaptures k hk)] at hop
      obtain rfl := Option.some.inj hop
      cases k <;> cases hlocal

end Words

/-! ### Whole units -/

/-- The parameters of a unit live from its start on. -/
theorem Scope.exists_names {kind : ScopeKind} {signature : Signature} {a b : Assembler} {n : Nat}
    {s : Scope} (hdebug : a.config.debugInfo = true) (hparams : signature.params.Nodup)
    (he : Assembler.enterScope kind signature a = .ok n b)
    (hd : declareAll signature.params b.current = .ok () s) :
    s.code = #[] ∧ s.signature = signature
      ∧ ∃ bound spans, s.Names signature.params bound spans := by
  obtain ⟨-, rfl⟩ := Assembler.enterScope_eq_ok.mp he
  simp only [hdebug] at hd
  obtain ⟨bound, spans, hnames⟩ := Scope.names_new.declareAll hd
  obtain ⟨locals, recorder, rfl, hactive, -⟩ := Scope.eq_of_declareAll hd hparams (Nat.le_refl 0)
  refine ⟨rfl, rfl, bound, spans, { hnames with initial := ?_, blocks := ?_ }⟩
  · exact ⟨[], by rw [List.append_nil]; exact hactive.symm⟩
  · exact fun m hm => absurd hm List.not_mem_nil

/-- Before a unit is written there is nothing to tell. -/
theorem Chronicle.nil {params : List String} {start : Assembler} {spans : List Span}
    (h : start.current.code = #[]) : Chronicle params [] start spans start.current := by
  refine ⟨?_, fun p w hw => ?_⟩
  · rw [h]
    rfl
  · rw [h] at hw
    cases hw

theorem Scope.param_of_argName {s : Scope} {slot : Nat} {name : String}
    (h : s.toCodeObject.argNames[slot]? = some (some name)) :
    s.signature.params[slot]? = some name := by
  simpa [Scope.toCodeObject] using h

/-- The name of an argument comes first, and that of the table second. -/
theorem CodeObject.localName?_eq {u : CodeObject} {table : List Lifetime} {slot ip : Nat}
    {name : String} (htable : u.lifetimes = some table)
    (hname : Lifetime.nameForSlot? table slot ip = some name)
    (hargs : ∀ x, u.argNames[slot]? = some (some x) → x = name) :
    u.localName? u.slots slot ip = some name := by
  unfold localName?
  split
  · next x hx => rw [hargs x hx]
  · rw [slots, htable]
    exact hname

section Units

variable {generator : Bool} {bound : Nat} {script : Script} {spans : List Span} {start b : Assembler}
  {u : CodeObject}

/-- The names are exact in a unit that has come to its end. -/
theorem Script.Regular.namesExact (params : List String)
    (h : Script.Regular generator params.length [] script)
    (hsignature : start.current.signature.params = params)
    (hnames : start.current.Names params bound spans) (hempty : start.current.code = #[])
    (hfirst : Logged {} (Step.BeginsAt [] start) start.current)
    (hr : Step.runAll script start = .ok () b) (hu : b.Becomes u)
    (hsize : u.code.length < UInt32.size) :
    ∃ table, u.lifetimes = some table ∧ NamesExact script start u table := by
  obtain ⟨s, outers, hrec, rfl⟩ := hu
  obtain ⟨-, code, hcode, rfl⟩ := Scope.reconcile_eq_ok.mp hrec
  obtain ⟨bound', spans', hnames', hc⟩ := h.chronicle rfl hnames (.nil hempty) (.nil _ _) hr
  rw [List.nil_append] at hc
  have hlog : Logged (Step.history script start {}) (Step.BeginsAt script start) b.current :=
    Logged.run [] hfirst rfl h.isProper hr
  obtain ⟨r, hrecorder, hrecords⟩ := hnames'.recorded
  have hsame : code.size = b.current.code.size := Labels.size_of_reconcile hcode
  have hargs : b.current.signature.params = params := by
    rw [Step.signature_of_runAll hr, hsignature]
  have hlifetimes : (Scope.toCodeObject { b.current with code, outers }).lifetimes
      = some (r.finish code.size) := by
    show b.current.recorder.map _ = _
    rw [hrecorder]
    rfl
  have hfinish : ∀ ip < code.size, ∀ slot,
      Lifetime.nameForSlot? (r.finish code.size) slot ip = (Span.activeAt spans' ip)[slot]? := by
    intro ip hip slot
    have hinside := hnames'.inside
    rw [← hsame] at hinside
    exact hrecords.nameForSlot?_finish hnames'.nested hnames'.bounded hinside
      (by rw [← Array.length_toList]; exact hsize) hip slot
  refine ⟨r.finish code.size, hlifetimes, fun ip i hi => ?_, fun ip slot name hip hname => ?_⟩
  · obtain ⟨w, hw, hop⟩ := hlog.exists_before hcode hi
    obtain ⟨k, y, a, c, hk, hemits, hstill, hactive, hinitial⟩ := hc.each ip w hw
    have hip : ip < code.size := by
      rw [← Array.length_toList]
      exact (List.getElem?_eq_some_iff.mp hi).1
    have hslots : ∀ slot, Lifetime.nameForSlot? (r.finish code.size) slot ip
        = a.current.locals.active[slot]? := by
      intro slot
      rw [hfinish ip hip, hactive]
    refine ⟨k, w, y, a, c, hk, hemits, hop.symm, hstill, hslots, fun op hop' hlocal => ?_⟩
    have hjump : op.isJump = false := by
      cases op <;> first | rfl | cases hlocal
    obtain rfl := Option.some.inj ((hlog.stayed hcode hi hop' hjump).symm.trans hw)
    rw [hsignature]
    cases hemits with
    | intro hscript hbefore hy hwords hword =>
      have hmem : y ∈ script := by
        rw [hscript]
        exact List.mem_append_right _ List.mem_cons_self
      obtain ⟨name, hmeans, hslot⟩ := Step.means (h.mem y hmem) hy hwords
        (List.mem_of_getElem? hword) hop' hlocal hinitial
      refine ⟨name, hmeans, CodeObject.localName?_eq hlifetimes ((hslots _).trans hslot) ?_⟩
      intro x hx
      have hparam : params[i.unsigned]? = some x := by
        rw [← hargs]
        exact Scope.param_of_argName hx
      exact Option.some.inj ((getElem?_of_initial hinitial hparam).symm.trans hslot)
  · have hlt : ip < code.size := by
      rw [← Array.length_toList]
      exact hip
    have hparam : params[slot]? = some name := by
      rw [← hargs]
      exact Scope.param_of_argName hname
    obtain ⟨k, y, a, c, -, -, -, hactive, hinitial⟩ := hc.each ip _
      (List.getElem?_eq_getElem (by rw [Array.length_toList, ← hsame]; exact hlt))
    rw [hfinish ip hlt, ← hactive]
    exact getElem?_of_initial hinitial hparam

end Units

/-- In every unit of a program that is compiled with debug information, the table of lifetimes gives each
slot at each instruction the name that it had when the instruction was emitted, and no name if it had
none. Where the operand of an instruction is a slot, the name that is listed is that of the variable that
was meant. -/
theorem namesExact_of_compile {config : Config} {program : List Stmt} {c : CodeObject}
    (hc : compile config program = .ok c) (hdebug : config.debugInfo = true) (u : CodeObject)
    (hu : c.Contains u) (hsize : u.code.length < UInt32.size) :
    ∃ script start b table,
      Step.RunsUnit (Program.script config program) (Assembler.start config) script start b
        ∧ b.Becomes u ∧ u.lifetimes = some table ∧ NamesExact script start u table := by
  obtain ⟨hregular, -⟩ := Program.regular hc
  obtain ⟨script, start, b, hruns, hbecomes⟩ := exists_runsUnit_of_compile hc hu
  refine ⟨script, start, b, ?_⟩
  suffices h : ∃ table, u.lifetimes = some table ∧ NamesExact script start u table by
    obtain ⟨table, htable, hexact⟩ := h
    exact ⟨table, hruns, hbecomes, htable, hexact⟩
  cases hruns with
  | whole hb =>
    have hnames : (Assembler.start config).current.Names [] 0 [] := by
      simp only [Assembler.start, hdebug]
      exact Scope.names_new
    exact Script.Regular.namesExact [] hregular rfl hnames rfl .new hb hbecomes hsize
  | inside hr =>
    cases hr with
    | @intro op kind signature body b a d e s n hp he hd hb =>
      obtain ⟨generator, args, done, ys, hunit⟩ := hregular.of_performs hp
      have hconfig : a.config.debugInfo = true := by
        rw [hp.config]
        exact hdebug
      cases hunit with
      | step hx _ => cases hx
      | unit _ hparams hbody _ _ _ =>
        obtain ⟨hempty, hsignature, bound, spans, hnames⟩ :=
          Scope.exists_names hconfig hparams he hd
        exact hbody.namesExact signature.params (by rw [hsignature]) hnames hempty (.entered he hd) hb
          hbecomes hsize

/-- A function in which two variables have the same slot one after the other; the duplication of the
assignment is taken back:

      fn f(a) { { var b = a; b = a; } { var c; c; } } -/
def reusedSlot : List Stmt :=
  [onFirstLine (.function "f" (.mk [.mk "a" none] false false
    [onFirstLine (.block
      [onFirstLine (.var "b" (some (.name "a"))),
        onFirstLine (.expr (.assign 1 (.name "b") (.name "a")))]),
      onFirstLine (.block [onFirstLine (.var "c" none), onFirstLine (.expr (.name "c"))])]))]

theorem namesExact_reusedSlot :
    ∃ c f, compile .debug reusedSlot = .ok c ∧ c.children = [f]
      ∧ f.lifetimes = some [⟨"a", 0, 11⟩, ⟨"b", 2, 5⟩, ⟨"c", 6, 9⟩]
      ∧ ∃ script start b table,
        Step.RunsUnit (Program.script .debug reusedSlot) (Assembler.start .debug) script start b
          ∧ b.Becomes f ∧ f.lifetimes = some table ∧ NamesExact script start f table := by
  have hok : (compile .debug reusedSlot).toOption.map (fun c => c.children.map fun f =>
      (f.lifetimes, f.code.length))
      = some [(some [⟨"a", 0, 11⟩, ⟨"b", 2, 5⟩, ⟨"c", 6, 9⟩], 11)] := by decide +kernel
  obtain ⟨c, hc, hf⟩ := Option.map_eq_some_iff.mp hok
  have hc := eq_ok_of_toOption hc
  obtain ⟨f, hchildren, hf⟩ := List.map_eq_singleton_iff.mp hf
  obtain ⟨htable, hlength⟩ := Prod.mk.inj hf
  have hmem : f ∈ c.children := by
    rw [hchildren]
    exact List.mem_cons_self
  exact ⟨c, f, hc, hchildren, htable,
    namesExact_of_compile hc rfl f (.child hmem (.self f)) (by rw [hlength]; decide)⟩

end StackCode
