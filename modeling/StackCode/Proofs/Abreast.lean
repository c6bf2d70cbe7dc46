import StackCode.Proofs.Counterparts
import StackCode.Proofs.Regular

/-!
# Two assemblies abreast

What a step does is settled by the tables of its unit and by the names in the units around it. Two
assemblies that agree on them take the same steps, whatever their code, labels and records are.

* `Action`, `Scope.after`: what a step may do to code, labels, record and height;
* `Scope.Acts`: a step has done just that;
* `Assembler.Abreast`: the tables agree;
* `Assembler.Abreast.step`: a regular step does the same on both sides.
-/

namespace StackCode

/-- What a step does to the code, the labels, the record and the height of its unit. -/
inductive Action where
  | idle
  | write (i : Instruction)
  | receive
  | newLabel
  | jump (op : Opcode) (l : Label)
  | place (l : Label)
  /-- A variable is declared, which may be there already. -/
  | declare (name : String) (fresh : Bool)
  /-- The last `count` variables die. -/
  | leave (count : Nat)

namespace Scope

/-- The scope after an action, without regard to its tables. -/
def after (s : Scope) : Action → Scope
  | .idle => s
  | .write i => s.appended i
  | .receive => s.raised 1
  | .newLabel => { s with labels := ⟨s.labels.marks.push {}⟩ }
  | .jump op l =>
    { s.appended (.plain op) with
      labels := ⟨s.labels.marks.modify l (·.used ⟨s.code.size, op⟩)⟩ }
  | .place l => { s with labels := ⟨s.labels.marks.modify l (·.placed s.code.size)⟩ }
  | .declare name fresh =>
    { s with
      recorder := if fresh then s.recorder.map (·.start name s.code.size) else s.recorder }
  | .leave count => { s with recorder := s.recorder.map (·.stop count s.code.size) }

/-- The scope `t` comes from `s` by an action, apart from its tables. For a result that is written out, all
fields hold by computation. -/
structure Acts (action : Action) (s t : Scope) : Prop where
  code : t.code = (s.after action).code := by rfl
  labels : t.labels = (s.after action).labels := by rfl
  recorder : t.recorder = (s.after action).recorder := by rfl
  depth : t.depth = (s.after action).depth := by rfl
  peak : t.peak = (s.after action).peak := by rfl
  children : t.children = s.children := by rfl

end Scope

namespace Action

/-- An instruction is known, and a duplication has no operand; a label exists. -/
def Fits (s : Scope) : Action → Prop
  | write i => ∃ op, i.opcode? = some op ∧ (op = .dup → i = .plain .dup)
  | jump op l => op.isJump = true ∧ l < s.labels.marks.size
  | place l => l < s.labels.marks.size
  | _ => True

/-- The bound on recorded positions after an action. -/
def boundAfter (s : Scope) (bound : Nat) : Action → Nat
  | declare _ _ | leave _ => s.code.size
  | _ => bound

/-- An instruction other than a duplication. -/
theorem Fits.pack {s : Scope} {op : Opcode} {n : Nat} (hn : n < 0x1000000) (hop : op ≠ .dup) :
    (Action.write (.pack op n)).Fits s :=
  ⟨op, Instruction.opcode?_pack hn, fun h => absurd h hop⟩

end Action

/-- Two assemblies agree on the tables of the unit that is being written, and on the names in the units
around it. -/
structure Assembler.Abreast (a a' : Assembler) : Prop where
  tables : a.current.SameTables a'.current
  enclosing : List.Forall₂ (fun s s' : Scope => s'.locals = s.locals ∧ s'.ended = s.ended)
    a.enclosing a'.enclosing
  lineMarkers : a'.config.lineMarkers = a.config.lineMarkers
  debugInfo : a'.config.debugInfo = a.config.debugInfo

/-- The step `x` leads from `a` to `b` and from `a'` to `b'` by the same action. -/
structure Step.Parallel (x : Step) (action : Action) (a b a' b' : Assembler) : Prop where
  fits : action.Fits a.current
  bound : ∀ bound, action.boundAfter a.current bound = x.boundAfter a.current bound
  left : a.current.Acts action b.current
  right : a'.current.Acts action b'.current
  abreast : b.Abreast b'

namespace Assembler.Abreast

variable {a a' b b' : Assembler} {s s' : Scope} {x : Step}

theorem withCurrent (h : a.Abreast a') (hs : s.SameTables s') :
    Assembler.Abreast { a with current := s } { a' with current := s' } :=
  ⟨hs, h.enclosing, h.lineMarkers, h.debugInfo⟩

/-- Both sides append an instruction, and nothing else. -/
theorem write (h : a.Abreast a') {op : Opcode} {n : Nat} (hn : n < 0x1000000)
    (hop : op = .dup → n = 0) (hx : ∀ bound, x.boundAfter a.current bound = bound) :
    x.Parallel (.write (.pack op n)) a { a with current := a.current.appended (.pack op n) } a'
      { a' with current := a'.current.appended (.pack op n) } := by
  refine ⟨⟨op, Instruction.opcode?_pack hn, ?_⟩, fun bound => (hx bound).symm, {}, {},
    h.withCurrent { h.tables with }⟩
  rintro rfl
  rw [hop rfl]
  rfl

/-- Both sides find the same constant and append an instruction. -/
theorem writeConstant (h : a.Abreast a') {op : Opcode} {n : Nat} (constants : Pool)
    (hn : n ≤ Instruction.maxUnsigned) (hop : op ≠ .dup)
    (hx : ∀ bound, x.boundAfter a.current bound = bound) :
    x.Parallel (.write (.pack op n)) a
      { a with current := { a.current with constants }.appended (.pack op n) } a'
      { a' with current := { a'.current with constants }.appended (.pack op n) } :=
  ⟨.pack (Nat.lt_succ_of_le hn) hop, fun bound => (hx bound).symm, {}, {},
    h.withCurrent { h.tables with constants := rfl }⟩

/-- A name lives at the same place on both sides. -/
theorem resolve (h : a.Abreast a') {name : String} {place place' : Place}
    (hb : Assembler.resolve name a = .ok place b) (hb' : Assembler.resolve name a' = .ok place' b') :
    place' = place ∧ b.Abreast b' ∧ a.current.Acts .idle b.current
      ∧ a'.current.Acts .idle b'.current := by
  have hlocals := h.tables.locals
  obtain ⟨slot, hl, rfl, rfl⟩ | ⟨hl, o, index, outers, hf, ho, rfl, rfl⟩ |
      ⟨hl, hf, index, constants, hc, rfl, rfl⟩ := Assembler.resolve_eq_ok.mp hb
  · obtain ⟨slot', hl', rfl, rfl⟩ | ⟨hl', -⟩ | ⟨hl', -⟩ := Assembler.resolve_eq_ok.mp hb'
    all_goals rw [hlocals, hl] at hl'
    · obtain rfl := Option.some.inj hl'
      exact ⟨rfl, h, {}, {}⟩
    · cases hl'
    · cases hl'
  · obtain ⟨slot', hl', -⟩ | ⟨-, o', index', outers', hf', ho', rfl, rfl⟩ | ⟨-, hf', -⟩ :=
      Assembler.resolve_eq_ok.mp hb'
    · rw [hlocals, hl] at hl'
      cases hl'
    · obtain rfl := Option.some.inj (found_eq h.enclosing hf hf')
      rw [h.tables.outers, ho] at ho'
      obtain ⟨rfl, rfl⟩ := Prod.mk.inj (Except.ok.inj ho')
      exact ⟨rfl, h.withCurrent { h.tables with outers := rfl }, {}, {}⟩
    · cases found_eq h.enclosing hf hf'
  · obtain ⟨slot', hl', -⟩ | ⟨-, o', index', outers', hf', -⟩ |
        ⟨-, -, index', constants', hc', rfl, rfl⟩ := Assembler.resolve_eq_ok.mp hb'
    · rw [hlocals, hl] at hl'
      cases hl'
    · cases found_eq h.enclosing hf hf'
    · rw [h.tables.constants, hc] at hc'
      obtain ⟨rfl, rfl⟩ := Prod.mk.inj (Except.ok.inj hc')
      exact ⟨rfl, h.withCurrent { h.tables with constants := rfl }, {}, {}⟩

/-- Both sides load or store a name. -/
theorem writePlace (h : a.Abreast a') {name : String} {place place' : Place} {op : Place → Opcode}
    (hb : Assembler.resolve name a = .ok place b) (hb' : Assembler.resolve name a' = .ok place' b')
    (hn : place.operand ≤ Instruction.maxUnsigned) (hop : op place ≠ .dup)
    (hx : ∀ bound, x.boundAfter a.current bound = bound) :
    x.Parallel (.write (.pack (op place) place.operand)) a
      { b with current := b.current.appended (.pack (op place) place.operand) } a'
      { b' with current := b'.current.appended (.pack (op place') place'.operand) } := by
  obtain ⟨rfl, habreast, hleft, hright⟩ := h.resolve hb hb'
  have hacts : ∀ {s t : Scope} (i : Instruction), s.Acts .idle t → s.Acts (.write i) (t.appended i) := by
    intro s t i hst
    refine ⟨?_, hst.labels, hst.recorder, ?_, ?_, hst.children⟩
    · show t.code.push i = s.code.push i
      rw [hst.code]
      rfl
    · rw [Scope.depth_appended, hst.depth]
      rfl
    · rw [Scope.peak_appended, Scope.depth_appended, hst.depth, hst.peak]
      rfl
  exact ⟨.pack (Nat.lt_succ_of_le hn) hop, fun bound => (hx bound).symm, hacts _ hleft, hacts _ hright,
    habreast.withCurrent { habreast.tables with }⟩

theorem markLine (h : a.Abreast a') {line : Nat} (hb : Step.run (.markLine line) a = .ok () b)
    (hb' : Step.run (.markLine line) a' = .ok () b') :
    ∃ action, (Step.markLine line).Parallel action a b a' b' := by
  have hidle : ∃ action, (Step.markLine line).Parallel action a a a' a' :=
    ⟨.idle, trivial, fun _ => rfl, {}, {}, h⟩
  have hlast := h.tables.lastLine
  obtain ⟨hm, rfl⟩ | ⟨hm, s, hs, rfl⟩ := Assembler.markLine_eq_ok.mp hb
  · obtain ⟨-, rfl⟩ | ⟨hm', -⟩ := Assembler.markLine_eq_ok.mp hb'
    · exact hidle
    · rw [h.lineMarkers, hm] at hm'
      cases hm'
  · obtain ⟨hm', -⟩ | ⟨-, s', hs', rfl⟩ := Assembler.markLine_eq_ok.mp hb'
    · rw [h.lineMarkers, hm] at hm'
      cases hm'
    obtain ⟨hl, rfl⟩ | ⟨hl, hn, -, rfl⟩ := Scope.markLine_eq_ok.mp hs
    · obtain ⟨-, rfl⟩ | ⟨hl', -⟩ := Scope.markLine_eq_ok.mp hs'
      · exact hidle
      · rw [hlast] at hl'
        exact absurd hl hl'
    · obtain ⟨hl', -⟩ | ⟨-, -, -, rfl⟩ := Scope.markLine_eq_ok.mp hs'
      · rw [hlast] at hl'
        exact absurd hl' hl
      · exact ⟨.write (.pack .line line), .pack (Nat.lt_succ_of_le hn) nofun, fun _ => rfl, {}, {},
          h.withCurrent { h.tables with lastLine := rfl }⟩

theorem declare (h : a.Abreast a') {name : String} {n n' : Nat}
    (hs : Scope.declare name a.current = .ok n s) (hs' : Scope.declare name a'.current = .ok n' s') :
    ∃ fresh, (Step.declare name).Parallel (.declare name fresh) a { a with current := s } a'
      { a' with current := s' } := by
  obtain ⟨fresh, locals, hl, rfl⟩ := Scope.declare_eq_ok.mp hs
  obtain ⟨fresh', locals', hl', rfl⟩ := Scope.declare_eq_ok.mp hs'
  rw [h.tables.locals, hl] at hl'
  obtain ⟨hslot, rfl⟩ := Prod.mk.inj (Except.ok.inj hl')
  obtain ⟨-, rfl⟩ := Prod.mk.inj hslot
  exact ⟨fresh, trivial, fun _ => rfl, {}, {}, h.withCurrent { h.tables with locals := rfl }⟩

theorem leaveBlock (h : a.Abreast a') (hs : Scope.leaveBlock a.current = .ok () s)
    (hs' : Scope.leaveBlock a'.current = .ok () s') :
    ∃ count, Step.leaveBlock.Parallel (.leave count) a { a with current := s } a'
      { a' with current := s' } := by
  obtain ⟨marker, blocks, hb, rfl⟩ := Scope.leaveBlock_eq_ok.mp hs
  obtain ⟨marker', blocks', hb', rfl⟩ := Scope.leaveBlock_eq_ok.mp hs'
  rw [h.tables.blocks, hb] at hb'
  obtain ⟨rfl, rfl⟩ := List.cons.inj hb'
  rw [h.tables.locals]
  exact ⟨_, trivial, fun _ => rfl, {}, {}, h.withCurrent { h.tables with locals := rfl, blocks := rfl }⟩

/-- A regular step does the same on both sides. -/
theorem step {generator : Bool} {args : Nat} (h : a.Abreast a')
    (hx : x.isRegular generator args = true) (hb : Step.run x a = .ok () b)
    (hb' : Step.run x a' = .ok () b') : ∃ action, x.Parallel action a b a' b' := by
  cases x with
  | fail _ | discard | unit _ _ _ _ => cases hx
  | markLine line => exact h.markLine hb hb'
  | op o =>
    rw [Step.eq_of_run_op hb, Step.eq_of_run_op hb']
    exact ⟨_, h.write (by decide) (fun _ => rfl) fun _ => rfl⟩
  | count o n =>
    obtain ⟨hn, rfl⟩ := Step.eq_of_run_count hb
    obtain ⟨-, rfl⟩ := Step.eq_of_run_count hb'
    refine ⟨_, h.write (Nat.lt_succ_of_le hn) ?_ fun _ => rfl⟩
    rintro rfl
    cases hx
  | pair o m n =>
    obtain ⟨p, hb⟩ := Edit.ignore_eq_ok.mp hb
    obtain ⟨p', hb'⟩ := Edit.ignore_eq_ok.mp hb'
    obtain ⟨s, hs, rfl⟩ := Assembler.onCurrent_eq_ok.mp hb
    obtain ⟨s', hs', rfl⟩ := Assembler.onCurrent_eq_ok.mp hb'
    obtain ⟨⟨hm, hn⟩, -, -, rfl⟩ := Scope.emitPair_eq_ok.mp hs
    obtain ⟨-, -, -, rfl⟩ := Scope.emitPair_eq_ok.mp hs'
    unfold Instruction.maxPair at hm hn
    refine ⟨_, h.write (by omega) ?_ fun _ => rfl⟩
    rintro rfl
    cases hx
  | newLabel =>
    obtain ⟨l, hb⟩ := Edit.ignore_eq_ok.mp hb
    obtain ⟨l', hb'⟩ := Edit.ignore_eq_ok.mp hb'
    obtain ⟨s, hs, rfl⟩ := Assembler.onCurrent_eq_ok.mp hb
    obtain ⟨s', hs', rfl⟩ := Assembler.onCurrent_eq_ok.mp hb'
    obtain ⟨-, rfl⟩ := Scope.newLabel_eq_ok.mp hs
    obtain ⟨-, rfl⟩ := Scope.newLabel_eq_ok.mp hs'
    exact ⟨.newLabel, trivial, fun _ => rfl, {}, {}, h.withCurrent { h.tables with }⟩
  | jump o l =>
    obtain ⟨p, hb⟩ := Edit.ignore_eq_ok.mp hb
    obtain ⟨p', hb'⟩ := Edit.ignore_eq_ok.mp hb'
    obtain ⟨s, hs, rfl⟩ := Assembler.onCurrent_eq_ok.mp hb
    obtain ⟨s', hs', rfl⟩ := Assembler.onCurrent_eq_ok.mp hb'
    obtain ⟨-, hl, -, rfl⟩ := Scope.emitJump_eq_ok.mp hs
    obtain ⟨-, -, -, rfl⟩ := Scope.emitJump_eq_ok.mp hs'
    exact ⟨.jump o l, ⟨hx, hl⟩, fun _ => rfl, {}, {}, h.withCurrent { h.tables with }⟩
  | place l =>
    obtain ⟨s, hs, rfl⟩ := Assembler.onCurrent_eq_ok.mp hb
    obtain ⟨s', hs', rfl⟩ := Assembler.onCurrent_eq_ok.mp hb'
    obtain ⟨hl, -, rfl⟩ := Scope.placeLabel_eq_ok.mp hs
    obtain ⟨-, -, rfl⟩ := Scope.placeLabel_eq_ok.mp hs'
    exact ⟨.place l, hl, fun _ => rfl, {}, {}, h.withCurrent { h.tables with }⟩
  | receive =>
    simp only [Step.run] at hb hb'
    obtain ⟨s, hs, rfl⟩ := Assembler.onCurrent_eq_ok.mp hb
    obtain ⟨s', hs', rfl⟩ := Assembler.onCurrent_eq_ok.mp hb'
    obtain rfl := Scope.receive_eq_ok.mp hs
    obtain rfl := Scope.receive_eq_ok.mp hs'
    exact ⟨.receive, trivial, fun _ => rfl, {}, {}, h.withCurrent { h.tables with }⟩
  | loadConst v =>
    obtain ⟨s, hs, rfl⟩ := Assembler.onCurrent_eq_ok.mp hb
    obtain ⟨s', hs', rfl⟩ := Assembler.onCurrent_eq_ok.mp hb'
    obtain ⟨index, constants, hc, hn, -, rfl⟩ := Scope.loadConst_eq_ok.mp hs
    obtain ⟨index', constants', hc', -, -, rfl⟩ := Scope.loadConst_eq_ok.mp hs'
    rw [h.tables.constants, hc] at hc'
    obtain ⟨rfl, rfl⟩ := Prod.mk.inj (Except.ok.inj hc')
    exact ⟨_, h.writeConstant constants hn nofun fun _ => rfl⟩
  | named o name =>
    obtain ⟨s, hs, rfl⟩ := Assembler.onCurrent_eq_ok.mp hb
    obtain ⟨s', hs', rfl⟩ := Assembler.onCurrent_eq_ok.mp hb'
    obtain ⟨index, constants, hc, hn, -, rfl⟩ := Scope.emitNamed_eq_ok.mp hs
    obtain ⟨index', constants', hc', -, -, rfl⟩ := Scope.emitNamed_eq_ok.mp hs'
    rw [h.tables.constants, hc] at hc'
    obtain ⟨rfl, rfl⟩ := Prod.mk.inj (Except.ok.inj hc')
    refine ⟨_, h.writeConstant constants hn ?_ fun _ => rfl⟩
    rintro rfl
    cases hx
  | declare name =>
    obtain ⟨n, hb⟩ := Edit.ignore_eq_ok.mp hb
    obtain ⟨n', hb'⟩ := Edit.ignore_eq_ok.mp hb'
    obtain ⟨s, hs, rfl⟩ := Assembler.onCurrent_eq_ok.mp hb
    obtain ⟨s', hs', rfl⟩ := Assembler.onCurrent_eq_ok.mp hb'
    obtain ⟨fresh, hparallel⟩ := h.declare hs hs'
    exact ⟨_, hparallel⟩
  | slot o name =>
    obtain ⟨s, hs, rfl⟩ := Assembler.onCurrent_eq_ok.mp hb
    obtain ⟨s', hs', rfl⟩ := Assembler.onCurrent_eq_ok.mp hb'
    obtain ⟨slot, hl, hn, -, rfl⟩ := Scope.emitSlot_eq_ok.mp hs
    obtain ⟨slot', hl', -, -, rfl⟩ := Scope.emitSlot_eq_ok.mp hs'
    rw [h.tables.locals, hl] at hl'
    obtain rfl := Option.some.inj hl'
    refine ⟨_, h.write (Nat.lt_succ_of_le hn) ?_ fun _ => rfl⟩
    rintro rfl
    cases hx
  | loadName name =>
    obtain ⟨place, c, hr, hn, -, rfl⟩ := Assembler.loadName_eq_ok.mp hb
    obtain ⟨place', c', hr', -, -, rfl⟩ := Assembler.loadName_eq_ok.mp hb'
    exact ⟨_, h.writePlace hr hr' hn (by cases place <;> nofun) fun _ => rfl⟩
  | storeName name =>
    obtain ⟨place, c, hr, hn, -, rfl⟩ := Assembler.storeName_eq_ok.mp hb
    obtain ⟨place', c', hr', -, -, rfl⟩ := Assembler.storeName_eq_ok.mp hb'
    exact ⟨_, h.writePlace hr hr' hn (by cases place <;> nofun) fun _ => rfl⟩
  | enterBlock =>
    simp only [Step.run] at hb hb'
    obtain ⟨s, hs, rfl⟩ := Assembler.onCurrent_eq_ok.mp hb
    obtain ⟨s', hs', rfl⟩ := Assembler.onCurrent_eq_ok.mp hb'
    obtain rfl := Scope.enterBlock_eq_ok.mp hs
    obtain rfl := Scope.enterBlock_eq_ok.mp hs'
    refine ⟨.idle, trivial, fun _ => rfl, {}, {}, h.withCurrent { h.tables with blocks := ?_ }⟩
    show a'.current.locals.mark :: a'.current.blocks = a.current.locals.mark :: a.current.blocks
    rw [h.tables.locals, h.tables.blocks]
  | leaveBlock =>
    obtain ⟨s, hs, rfl⟩ := Assembler.onCurrent_eq_ok.mp hb
    obtain ⟨s', hs', rfl⟩ := Assembler.onCurrent_eq_ok.mp hb'
    obtain ⟨count, hparallel⟩ := h.leaveBlock hs hs'
    exact ⟨_, hparallel⟩
  | protect =>
    simp only [Step.run] at hb hb'
    obtain ⟨s, hs, rfl⟩ := Assembler.onCurrent_eq_ok.mp hb
    obtain ⟨s', hs', rfl⟩ := Assembler.onCurrent_eq_ok.mp hb'
    obtain rfl := Scope.protect_eq_ok.mp hs
    obtain rfl := Scope.protect_eq_ok.mp hs'
    exact ⟨.idle, trivial, fun _ => rfl, {}, {}, h.withCurrent { h.tables with protects := rfl }⟩

end Assembler.Abreast

end StackCode
