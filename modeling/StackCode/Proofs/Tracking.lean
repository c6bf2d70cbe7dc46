import StackCode.Proofs.ControlFlow
import StackCode.Proofs.Placeholders

/-!
# Scripts with frames

A script can be followed with the handlers and the height of the stack in mind, before any slot or
displacement is known. A *frame* is that knowledge at one place of the script. A label gets its
frame when it is made; a jump has to come with the frame of its label, and behind an instruction
that never goes on the frame is free.

* `Frame`, `Guard`: frames; a handler is known by its label;
* `Passes`, `Branches`: the frames before and behind one instruction;
* `Flows`: the frames along a script;
* `Traced`: the frames of the instructions that a scope holds;
* `Flows.traced`: a script that flows leaves the scope traced, whatever slots, constants and
  captures the assembler has chosen.

Jumps out of a loop are compared with their label by a relation `M` between frames, so that handlers
and heights can be followed one without the other.
-/

namespace StackCode

open Instruction (effectOf)

/-! ### Frames -/

/-- A handler that is going to start at a label. -/
structure Guard where
  op : Opcode
  label : Label
  deriving DecidableEq, Repr

/-- The handlers that are installed, the innermost first, and the height of the stack. -/
structure Frame where
  guards : List Guard
  height : Nat
  deriving DecidableEq, Repr

/-- The frame at the start of a unit. -/
def Frame.start : Frame := ⟨[], 0⟩

/-- The frame after an effect on the stack. -/
def Frame.after (f : Frame) (e : Instruction.Effect) : Frame :=
  { f with height := f.height - e.pops + e.pushes }

/-- Each handler starts with the handlers around it, according to the frames of the labels. -/
def Coherent (labels : List Frame) : List Guard → Prop
  | [] => True
  | g :: gs => (∃ f, labels[g.label]? = some f ∧ f.guards = gs) ∧ Coherent labels gs

theorem Coherent.append {labels : List Frame} (more : List Frame) {gs : List Guard}
    (h : Coherent labels gs) : Coherent (labels ++ more) gs := by
  induction gs with
  | nil => trivial
  | cons g gs ih =>
    obtain ⟨⟨f, hf, hg⟩, h⟩ := h
    refine ⟨⟨f, ?_, hg⟩, ih h⟩
    rw [List.getElem?_append_left (List.getElem?_eq_some_iff.mp hf).1]
    exact hf

/-- An instruction that is no jump takes one frame to another. Behind an instruction that never
goes on, the frame is any other that is no higher. -/
structure Passes (labels : List Frame) (op : Opcode) (e : Instruction.Effect) (f g : Frame) :
    Prop where
  plain : op.isJump = false
  enough : e.pops ≤ f.height
  height_le : g.height ≤ f.height - e.pops + e.pushes
  height_eq : op.falls = true → g.height = f.height - e.pops + e.pushes
  keeps : op.falls = true → op ≠ .endTry → g.guards = f.guards
  removes : op = .endTry → ∃ x, f.guards = x :: g.guards
  anew : op.falls = false → Coherent labels g.guards
  exit : op = .ret ∨ op = .tailCall → f.guards = []

/-- A jump takes one frame to another, and meets the frame `t` of its label. -/
structure Branches (M : Frame → Frame → Prop) (labels : List Frame) (op : Opcode) (l : Label)
    (f t g : Frame) : Prop where
  jump : op.isJump = true
  enough : (effectOf op (.plain op)).pops ≤ f.height
  meets : op = .jump → M f t
  lands : op ≠ .jump → t = { f with height := op.landing f.height }
  height_eq : op ≠ .jump → g.height = (f.after (effectOf op (.plain op))).height
  keeps : op ≠ .jump → op.installs = false → g.guards = f.guards
  installs : op.installs = true → g.guards = ⟨op, l⟩ :: f.guards
  anew : op = .jump → Coherent labels g.guards

/-! ### The instructions of a step -/

/-- The instructions that a step may append, according to what the assembler finds. -/
def Step.Writes : Step → Instruction → Prop
  | op o, i => i = .plain o
  | count o n, i => n ≤ Instruction.maxUnsigned ∧ i = .pack o n
  | pair o a b, i =>
    (a ≤ Instruction.maxPair ∧ b ≤ Instruction.maxPair) ∧ i = .pack o (a + 0x1000 * b)
  | loadConst _, i => ∃ n, n ≤ Instruction.maxUnsigned ∧ i = .pack .loadConst n
  | named o _, i | slot o _, i => ∃ n, n ≤ Instruction.maxUnsigned ∧ i = .pack o n
  | loadName _, i =>
    ∃ place : Place, place.operand ≤ Instruction.maxUnsigned
      ∧ i = .pack place.loadOp place.operand
  | storeName _, i =>
    ∃ place : Place, place.operand ≤ Instruction.maxUnsigned
      ∧ i = .pack place.storeOp place.operand
  | _, _ => False

/-- A step that appends one instruction and touches no label. -/
def Step.isWrite : Step → Bool
  | op _ | count _ _ | pair _ _ _ | loadConst _ | named _ _ | slot _ _ | loadName _
  | storeName _ => true
  | _ => false

/-- A step that appends at most the mark of a line. -/
def Step.isQuiet : Step → Bool
  | markLine _ | declare _ | enterBlock | leaveBlock | protect => true
  | _ => false

/-! ### Frames along a script -/

/-- What is known on the way along a script: the frames of the labels made so far, the frame here,
and whether an instruction was appended since a value was last discarded. -/
structure Outlook where
  labels : List Frame
  now : Frame
  fresh : Bool

/-- The outlook at the start of a unit. -/
def Outlook.start : Outlook := ⟨[], .start, false⟩

/-- A script leads from one outlook to another. The three steps that begin a catch clause are taken
together: the exception is on the stack only where the clause is entered. -/
inductive Flows (M : Frame → Frame → Prop) : Script → Outlook → Outlook → Prop where
  | done {o : Outlook} : Flows M [] o o
  | fail {e : Error} {xs : Script} {o o' : Outlook} : Flows M (.fail e :: xs) o o'
  | quiet {x : Step} {xs : Script} {o o' : Outlook} (hx : x.isQuiet = true)
      (h : Flows M xs o o') : Flows M (x :: xs) o o'
  | write {x : Step} {xs : Script} {labels : List Frame} {f g : Frame} {b : Bool} {o : Outlook}
      (hx : x.isWrite = true)
      (hi : ∀ i, x.Writes i → ∃ op, i.opcode? = some op ∧ op.instantiates = false
        ∧ Passes labels op (effectOf op i) f g)
      (h : Flows M xs ⟨labels, g, true⟩ o) : Flows M (x :: xs) ⟨labels, f, b⟩ o
  | newLabel {xs : Script} {labels : List Frame} {f t : Frame} {b : Bool} {o : Outlook}
      (h : Flows M xs ⟨labels ++ [t], f, b⟩ o) : Flows M (.newLabel :: xs) ⟨labels, f, b⟩ o
  | jump {op : Opcode} {l : Label} {xs : Script} {labels : List Frame} {f t g : Frame} {b : Bool}
      {o : Outlook} (hl : labels[l]? = some t) (hb : Branches M labels op l f t g)
      (hh : g.height ≤ (f.after (effectOf op (.plain op))).height)
      (h : Flows M xs ⟨labels, g, true⟩ o) : Flows M (.jump op l :: xs) ⟨labels, f, b⟩ o
  | place {l : Label} {xs : Script} {labels : List Frame} {f : Frame} {b : Bool} {o : Outlook}
      (hl : labels[l]? = some f) (h : Flows M xs ⟨labels, f, b⟩ o) :
      Flows M (.place l :: xs) ⟨labels, f, b⟩ o
  | handler {l done : Label} {xs : Script} {labels : List Frame} {f t g : Frame} {b : Bool}
      {o : Outlook} (hd : labels[done]? = some t) (hm : M f t) (hl : labels[l]? = some g)
      (hg : Coherent labels g.guards) (hh : g.height ≤ f.height + 1)
      (h : Flows M xs ⟨labels, g, false⟩ o) :
      Flows M (.jump .jump done :: .place l :: .receive :: xs) ⟨labels, f, b⟩ o
  | discard {xs : Script} {labels : List Frame} {f : Frame} {o : Outlook} (hf : 1 ≤ f.height)
      (h : Flows M xs ⟨labels, { f with height := f.height - 1 }, false⟩ o) :
      Flows M (.discard :: xs) ⟨labels, f, true⟩ o
  | unit {op : Opcode} {kind : ScopeKind} {signature : Signature} {body xs : Script}
      {labels : List Frame} {f g : Frame} {b : Bool} {o o' : Outlook}
      (hop : op = .makeClosure ∨ op = .makeClass ∨ op = .makeNamespace)
      (hp : Passes labels op (effectOf op (.plain op)) f g) (hb : Flows M body .start o)
      (h : Flows M xs ⟨labels, g, true⟩ o') :
      Flows M (.unit op kind signature body :: xs) ⟨labels, f, b⟩ o'

theorem Flows.append {M : Frame → Frame → Prop} {xs ys : Script} {a b c : Outlook}
    (h : Flows M xs a b) (h' : Flows M ys b c) : Flows M (xs ++ ys) a c := by
  induction h with
  | done => exact h'
  | fail => exact .fail
  | quiet hx _ ih => exact .quiet hx (ih h')
  | write hx hi _ ih => exact .write hx hi (ih h')
  | newLabel _ ih => exact .newLabel (ih h')
  | jump hl hb hh _ ih => exact .jump hl hb hh (ih h')
  | place hl _ ih => exact .place hl (ih h')
  | handler hd hm hl hg hh _ ih => exact .handler hd hm hl hg hh (ih h')
  | discard hf _ ih => exact .discard hf (ih h')
  | unit hop hp hb _ _ ih => exact .unit hop hp hb (ih h')

/-! ### Facts about effects -/

namespace Instruction

/-- An instruction leaves at most one value more than it takes. -/
theorem pushes_le (op : Opcode) (i : Instruction) :
    (effectOf op i).pushes ≤ (effectOf op i).pops + 1 := by
  cases op <;> simp [effectOf]

theorem net_eq {i : Instruction} {op : Opcode} (h : i.opcode? = some op) :
    i.net = (effectOf op i).pushes - (effectOf op i).pops := by
  simp only [net, effect?, h, Option.map_some]

theorem opcode?_plain (op : Opcode) : (plain op).opcode? = some op := opcode?_pack (by decide)

theorem plain_injective {a b : Opcode} (h : plain a = plain b) : a = b := by
  have ha := opcode?_plain a
  rw [h, opcode?_plain b] at ha
  exact (Option.some.inj ha).symm

end Instruction

/-- A jump stays coherent on the way on. -/
theorem Branches.coherent {M : Frame → Frame → Prop} {labels : List Frame} {op : Opcode}
    {l : Label} {f t g : Frame} (h : Branches M labels op l f t g)
    (hl : labels[l]? = some t) (hf : Coherent labels f.guards) : Coherent labels g.guards := by
  by_cases hj : op = .jump
  · exact h.anew hj
  · cases hn : op.installs with
    | false =>
      rw [h.keeps hj hn]
      exact hf
    | true =>
      rw [h.installs hn]
      exact ⟨⟨t, hl, by rw [h.lands hj]⟩, hf⟩

theorem Passes.coherent {labels : List Frame} {op : Opcode} {e : Instruction.Effect} {f g : Frame}
    (h : Passes labels op e f g) (hf : Coherent labels f.guards) : Coherent labels g.guards := by
  cases hn : op.falls with
  | false => exact h.anew hn
  | true =>
    by_cases he : op = .endTry
    · obtain ⟨x, hx⟩ := h.removes he
      rw [hx] at hf
      exact hf.2
    · rw [h.keeps hn he]
      exact hf

/-! ### The frames of the code of a scope -/

/-- The instructions of a scope have the frames of `trail`, the last of which is the one here. -/
structure Traced (M : Frame → Frame → Prop) (s : Scope) (trail : List Frame) (o : Outlook) :
    Prop where
  marks : o.labels.length = s.labels.marks.size
  length : trail.length = s.code.size + 1
  last : trail[s.code.size]? = some o.now
  first : trail[0]? = some .start
  coherent : ∀ f ∈ trail, Coherent o.labels f.guards
  steps : ∀ p i, s.code[p]? = some i → ∃ op f g, i.opcode? = some op ∧ trail[p]? = some f
    ∧ trail[p + 1]? = some g
    ∧ (Passes o.labels op (effectOf op i) f g
      ∨ ∃ l t, s.labels.Uses l ⟨p, op⟩ ∧ o.labels[l]? = some t ∧ Branches M o.labels op l f t g)
  uses : ∀ l u, s.labels.Uses l u → s.code[u.position]? = some (.plain u.op) ∧ u.op.isJump = true
  single : ∀ l l' u u', s.labels.Uses l u → s.labels.Uses l' u' → u.position = u'.position →
    l = l'
  placed : ∀ l q, s.labels.position? l = some q → trail[q]? = o.labels[l]?
  height : o.now.height ≤ s.depth
  depth : s.depth ≤ s.peak
  heights : ∀ f ∈ trail, f.height ≤ s.peak
  room : s.peak ≤ 2 * s.code.size
  slack : o.fresh = true → s.depth + 1 ≤ 2 * s.code.size
    ∧ ∀ i op, s.code.back? = some i → i.opcode? = some op → op.isStore = true →
      s.peak + 2 ≤ 2 * s.code.size

section Traced

variable {M : Frame → Frame → Prop} {s s' : Scope} {trail : List Frame} {labels : List Frame}
  {f g t : Frame} {b : Bool} {o : Outlook}

/-- The frames concern the instructions, the labels and the height alone. -/
theorem Traced.congr (h : Traced M s trail o) (hc : s'.code = s.code) (hl : s'.labels = s.labels)
    (hd : s'.depth = s.depth) (hp : s'.peak = s.peak) : Traced M s' trail o := by
  refine ⟨?_, ?_, ?_, h.first, h.coherent, ?_, ?_, ?_, ?_, ?_, ?_, ?_, ?_, ?_⟩
  · rw [hl]; exact h.marks
  · rw [hc]; exact h.length
  · rw [hc]; exact h.last
  · rw [hc, hl]; exact h.steps
  · rw [hc, hl]; exact h.uses
  · rw [hl]; exact h.single
  · rw [hl]; exact h.placed
  · rw [hd]; exact h.height
  · rw [hd, hp]; exact h.depth
  · rw [hp]; exact h.heights
  · rw [hc, hp]; exact h.room
  · rw [hc, hd, hp]; exact h.slack

theorem Traced.now_mem (h : Traced M s trail o) : o.now ∈ trail := List.mem_of_getElem? h.last

/-- A label that is set is inside the code or at its end. -/
theorem Traced.position_lt (h : Traced M s trail o) {l : Label} {q : Nat}
    (hq : s.labels.position? l = some q) : q < trail.length := by
  obtain ⟨m, hm, -⟩ := Option.bind_eq_some_iff.mp hq
  have hl : l < o.labels.length := by
    rw [h.marks]
    exact (Array.getElem?_eq_some_iff.mp hm).1
  have hp := h.placed l q hq
  rw [List.getElem?_eq_getElem hl] at hp
  exact (List.getElem?_eq_some_iff.mp hp).1

/-- A new scope has no instructions. -/
theorem traced_new {number : Nat} {kind : ScopeKind} {signature : Signature} {record : Bool} :
    Traced M (Scope.new number kind signature record) [.start] .start := by
  refine ⟨rfl, rfl, rfl, rfl, ?_, ?_, ?_, ?_, ?_, Nat.le_refl 0, Nat.le_refl 0, ?_, Nat.le_refl 0,
    ?_⟩
  · intro f hf
    rw [List.mem_singleton.mp hf]
    trivial
  · intro p i hi
    simp [Scope.new] at hi
  · rintro l u ⟨m, hm, -⟩
    simp [Scope.new] at hm
  · rintro l l' u u' ⟨m, hm, -⟩
    simp [Scope.new] at hm
  · intro l q hq
    simp [Scope.new, Labels.position?] at hq
  · intro f hf
    rw [List.mem_singleton.mp hf]
    exact Nat.le_refl 0
  · intro hb
    exact absurd hb Bool.false_ne_true

/-- One more instruction. `new` are the labels whose placeholder it is; labels may be set behind it,
and `extra` values may be received there. -/
theorem Traced.extend {i : Instruction} {op : Opcode} {b' : Bool}
    (h : Traced M s trail ⟨labels, f, b⟩) (new : Label → Prop) (extra : Nat) (hc : s'.code = s.code.push i)
    (hop : i.opcode? = some op) (hd : s'.depth = (s.depth + i.net).toNat + extra)
    (hp : s'.peak = max s.peak s'.depth) (hx : extra ≤ 1) (hb' : b' = true → extra = 0)
    (hm : s'.labels.marks.size = s.labels.marks.size)
    (hpos : ∀ l q, s'.labels.position? l = some q →
      s.labels.position? l = some q ∨ (q = s.code.size + 1 ∧ labels[l]? = some g))
    (huses : ∀ l u, s'.labels.Uses l u ↔ s.labels.Uses l u ∨ (new l ∧ u = ⟨s.code.size, op⟩))
    (hnew : ∀ l, new l → i = .plain op ∧ op.isJump = true)
    (hone : ∀ l l', new l → new l' → l = l')
    (hpops : (effectOf op i).pops ≤ f.height)
    (hle : g.height ≤ f.height - (effectOf op i).pops + (effectOf op i).pushes + extra)
    (hg : Coherent labels g.guards)
    (hstep : Passes labels op (effectOf op i) f g
      ∨ ∃ l t, new l ∧ labels[l]? = some t ∧ Branches M labels op l f t g) :
    Traced M s' (trail ++ [g]) ⟨labels, g, b'⟩ := by
  have hlen := h.length
  have hlast : (trail ++ [g])[s.code.size + 1]? = some g := by
    rw [List.getElem?_append_right (by omega), hlen, Nat.sub_self]
    rfl
  have hold : ∀ q, q ≤ s.code.size → (trail ++ [g])[q]? = trail[q]? := by
    intro q hq
    exact List.getElem?_append_left (by omega)
  have hsize : s'.code.size = s.code.size + 1 := by rw [hc, Array.size_push]
  -- the position of an earlier placeholder is inside the earlier code
  have hbefore : ∀ l u, s.labels.Uses l u → u.position < s.code.size := by
    intro l u hu
    exact (Array.getElem?_eq_some_iff.mp (h.uses l u hu).1).1
  have hnet := Instruction.net_eq hop
  have hpushes := Instruction.pushes_le op i
  have hheight := h.height
  have hpeak := h.depth
  have hroom := h.room
  simp only at hheight
  have hgd : g.height ≤ s'.depth := by omega
  refine ⟨?_, ?_, ?_, ?_, ?_, ?_, ?_, ?_, ?_, hgd, ?_, ?_, ?_, ?_⟩
  · rw [hm]
    exact h.marks
  · rw [List.length_append, hlen, hsize]
    rfl
  · rw [hsize]
    exact hlast
  · rw [hold 0 (Nat.zero_le _)]
    exact h.first
  · intro x hx
    obtain hx | hx := List.mem_append.mp hx
    · exact h.coherent x hx
    · rw [List.mem_singleton.mp hx]
      exact hg
  · intro p j hj
    rw [hc, Array.getElem?_push] at hj
    by_cases hpe : p = s.code.size
    · rw [if_pos hpe] at hj
      obtain rfl := Option.some.inj hj
      refine ⟨op, f, g, hop, ?_, ?_, ?_⟩
      · rw [hold p (by omega), hpe]
        exact h.last
      · rw [hpe]
        exact hlast
      · refine hstep.imp_right ?_
        rintro ⟨l, t, hl, ht, hb⟩
        exact ⟨l, t, (huses l _).mpr (.inr ⟨hl, by rw [hpe]⟩), ht, hb⟩
    · rw [if_neg hpe] at hj
      have hlt : p < s.code.size := (Array.getElem?_eq_some_iff.mp hj).1
      obtain ⟨o, x, y, ho, hx, hy, hxy⟩ := h.steps p j hj
      refine ⟨o, x, y, ho, ?_, ?_, ?_⟩
      · rw [hold p (by omega)]
        exact hx
      · rw [hold (p + 1) (by omega)]
        exact hy
      · refine hxy.imp_right ?_
        rintro ⟨l, t, hl, ht, hb⟩
        exact ⟨l, t, (huses l _).mpr (.inl hl), ht, hb⟩
  · intro l u hu
    obtain hu | ⟨hl, rfl⟩ := (huses l u).mp hu
    · rw [hc, Array.getElem?_push_lt (hbefore l u hu), ← Array.getElem?_eq_getElem]
      exact h.uses l u hu
    · rw [hc]
      exact ⟨by rw [Array.getElem?_push_size, (hnew l hl).1], (hnew l hl).2⟩
  · intro l l' u u' hu hu' hpp
    obtain hu | ⟨hl, rfl⟩ := (huses l u).mp hu
    · obtain hu' | ⟨-, rfl⟩ := (huses l' u').mp hu'
      · exact h.single l l' u u' hu hu' hpp
      · have := hbefore l u hu
        simp only at hpp
        omega
    · obtain hu' | ⟨hl', -⟩ := (huses l' u').mp hu'
      · have := hbefore l' u' hu'
        simp only at hpp
        omega
      · exact hone l l' hl hl'
  · intro l q hq
    obtain hq | ⟨rfl, hl⟩ := hpos l q hq
    · have hin := h.position_lt hq
      rw [hold q (by omega)]
      exact h.placed l q hq
    · rw [hlast, hl]
  · rw [hp]
    exact Nat.le_max_right _ _
  · intro x hx
    obtain hx | hx := List.mem_append.mp hx
    · exact Nat.le_trans (h.heights x hx) (by rw [hp]; exact Nat.le_max_left _ _)
    · rw [List.mem_singleton.mp hx, hp]
      exact Nat.le_trans hgd (Nat.le_max_right _ _)
  · omega
  · intro hb
    have hextra := hb' hb
    refine ⟨by omega, ?_⟩
    intro j o hj ho hst
    rw [hc, Array.back?_push] at hj
    obtain rfl := Option.some.inj hj
    obtain rfl := Option.some.inj (hop.symm.trans ho)
    have hpp : (effectOf op i).pushes ≤ (effectOf op i).pops := by
      cases op <;> simp [Opcode.isStore] at hst <;> simp [effectOf]
    omega

theorem Scope.depth_appended (s : Scope) (i : Instruction) :
    (s.appended i).depth = (s.depth + i.net).toNat := rfl

theorem Scope.peak_appended (s : Scope) (i : Instruction) :
    (s.appended i).peak = max s.peak (s.appended i).depth := rfl

/-- An instruction that is no jump is appended. -/
theorem Traced.write {i : Instruction} {op : Opcode} (h : Traced M s trail ⟨labels, f, b⟩)
    (hop : i.opcode? = some op) (hi : Passes labels op (effectOf op i) f g) :
    Traced M (s.appended i) (trail ++ [g]) ⟨labels, g, true⟩ := by
  have hf : Coherent labels f.guards := h.coherent f h.now_mem
  exact h.extend (fun _ => False) 0 rfl hop rfl rfl (Nat.zero_le 1)
    (fun _ => rfl) rfl (fun l q hq => .inl hq) (fun l u => by simp only [false_and, or_false]; rfl)
    (fun l hl => hl.elim) (fun l l' hl => hl.elim) hi.enough hi.height_le (hi.coherent hf) (.inl hi)

theorem Passes.append {op : Opcode} {e : Instruction.Effect} (h : Passes labels op e f g)
    (more : List Frame) : Passes (labels ++ more) op e f g :=
  { h with anew := fun hf => (h.anew hf).append more }

theorem Branches.append {op : Opcode} {l : Label} (h : Branches M labels op l f t g)
    (more : List Frame) : Branches M (labels ++ more) op l f t g :=
  { h with anew := fun hj => (h.anew hj).append more }

/-- A label is made; its frame is whatever the jumps to it are going to need. -/
theorem Traced.newLabel (h : Traced M s trail ⟨labels, f, b⟩) (t : Frame) :
    Traced M { s with labels := ⟨s.labels.marks.push {}⟩ } trail ⟨labels ++ [t], f, b⟩ := by
  have hext : ∀ (l : Label) x, labels[l]? = some x → (labels ++ [t])[l]? = some x := by
    intro l x hx
    rw [List.getElem?_append_left (List.getElem?_eq_some_iff.mp hx).1]
    exact hx
  refine ⟨?_, h.length, h.last, h.first, ?_, ?_, ?_, ?_, ?_, h.height, h.depth, h.heights, h.room,
    h.slack⟩
  · have hm := h.marks
    simp only at hm
    simp only [List.length_append, Array.size_push, hm]
    rfl
  · intro x hx
    exact (h.coherent x hx).append [t]
  · intro p i hi
    obtain ⟨op, x, y, hop, hx, hy, hxy⟩ := h.steps p i hi
    refine ⟨op, x, y, hop, hx, hy, ?_⟩
    obtain hp | ⟨l, u, hl, hu, hb⟩ := hxy
    · exact .inl (hp.append [t])
    · exact .inr ⟨l, u, Labels.uses_push.mpr hl, hext l u hu, hb.append [t]⟩
  · intro l u hu
    exact h.uses l u (Labels.uses_push.mp hu)
  · intro l l' u u' hu hu'
    exact h.single l l' u u' (Labels.uses_push.mp hu) (Labels.uses_push.mp hu')
  · intro l q hq
    rw [Labels.position?_push] at hq
    have hin := h.position_lt hq
    have hp := h.placed l q hq
    rw [List.getElem?_eq_getElem hin] at hp ⊢
    exact (hext l _ hp.symm).symm

/-- A placeholder is appended. -/
theorem Traced.jump {op : Opcode} {l : Label} (h : Traced M s trail ⟨labels, f, b⟩)
    (hs : l < s.labels.marks.size) (hl : labels[l]? = some t) (hb : Branches M labels op l f t g)
    (hh : g.height ≤ (f.after (effectOf op (.plain op))).height) :
    Traced M { s.appended (.plain op) with
        labels := ⟨s.labels.marks.modify l (·.used ⟨s.code.size, op⟩)⟩ }
      (trail ++ [g]) ⟨labels, g, true⟩ := by
  have hf : Coherent labels f.guards := h.coherent f h.now_mem
  exact h.extend (· = l) 0 rfl (Instruction.opcode?_plain op) rfl rfl
    (Nat.zero_le 1) (fun _ => rfl) Array.size_modify
    (fun k q hq => .inl (by rw [Labels.position?_used] at hq; exact hq))
    (fun k u => Labels.uses_used hs) (fun k hk => ⟨rfl, hb.jump⟩)
    (fun k k' hk hk' => hk.trans hk'.symm) hb.enough hh (hb.coherent hl hf)
    (.inr ⟨l, t, rfl, hl, hb⟩)

/-- A label is set where the frame is its own. -/
theorem Traced.place {l : Label} (h : Traced M s trail ⟨labels, f, b⟩)
    (hs : l < s.labels.marks.size) (hl : labels[l]? = some f) :
    Traced M { s with labels := ⟨s.labels.marks.modify l (·.placed s.code.size)⟩ } trail
      ⟨labels, f, b⟩ := by
  refine ⟨?_, h.length, h.last, h.first, h.coherent, ?_, ?_, ?_, ?_, h.height, h.depth, h.heights,
    h.room, h.slack⟩
  · simp only [Array.size_modify]
    exact h.marks
  · intro p i hi
    obtain ⟨op, x, y, hop, hx, hy, hxy⟩ := h.steps p i hi
    refine ⟨op, x, y, hop, hx, hy, hxy.imp_right ?_⟩
    rintro ⟨k, u, hk, hu, hb⟩
    exact ⟨k, u, Labels.uses_placed.mpr hk, hu, hb⟩
  · intro k u hu
    exact h.uses k u (Labels.uses_placed.mp hu)
  · intro k k' u u' hu hu'
    exact h.single k k' u u' (Labels.uses_placed.mp hu) (Labels.uses_placed.mp hu')
  · intro k q hq
    rw [Labels.position?_placed hs] at hq
    split at hq
    · next hk =>
      obtain rfl := Option.some.inj hq
      rw [hk, hl]
      exact h.last
    · exact h.placed k q hq

/-- A catch clause begins: the body jumps over it, and the machine pushes the exception. -/
theorem Traced.handler {l done : Label} (h : Traced M s trail ⟨labels, f, b⟩)
    (hs : done < s.labels.marks.size) (hs' : l < s.labels.marks.size)
    (hd : labels[done]? = some t) (hm : M f t) (hl : labels[l]? = some g)
    (hg : Coherent labels g.guards) (hh : g.height ≤ f.height + 1)
    (hc : s'.code = s.code.push (.plain .jump)) (hdepth : s'.depth = s.depth + 1)
    (hpeak : s'.peak = max s.peak s'.depth)
    (hlabels : s'.labels = ⟨(s.labels.marks.modify done (·.used ⟨s.code.size, .jump⟩)).modify l
      (·.placed (s.code.size + 1))⟩) :
    Traced M s' (trail ++ [g]) ⟨labels, g, false⟩ := by
  have hb : Branches M labels .jump done f t g := by
    refine ⟨rfl, Nat.zero_le _, fun _ => hm, fun hn => absurd rfl hn, fun hn => absurd rfl hn,
      fun hn => absurd rfl hn, fun hn => absurd hn Bool.false_ne_true, fun _ => hg⟩
  have hnet : (Instruction.plain .jump).net = 0 := rfl
  have hused : l < (Labels.mk (s.labels.marks.modify done (·.used ⟨s.code.size, .jump⟩))).marks.size
    := by
    rw [Array.size_modify]
    exact hs'
  refine h.extend (· = done) 1 hc (Instruction.opcode?_plain .jump) ?_ hpeak
    (Nat.le_refl 1) (fun hn => absurd hn Bool.false_ne_true) ?_ ?_ ?_ (fun k hk => ⟨rfl, rfl⟩)
    (fun k k' hk hk' => hk.trans hk'.symm) (Nat.zero_le _) hh hg (.inr ⟨done, t, rfl, hd, hb⟩)
  · rw [hdepth, hnet]
    omega
  · rw [hlabels]
    simp only [Array.size_modify]
  · intro k q hq
    rw [hlabels, Labels.position?_placed hused, Labels.position?_used] at hq
    split at hq
    · next hk =>
      obtain rfl := Option.some.inj hq
      exact .inr ⟨rfl, by rw [hk]; exact hl⟩
    · exact .inl hq
  · intro k u
    rw [hlabels]
    exact (@Labels.uses_placed ⟨_⟩ k l u _).trans (Labels.uses_used hs)

/-- The code without its last instruction but one. -/
theorem Scope.getElem?_withoutSpareDup {p : Nat} (hn : 2 ≤ s.code.size) :
    s.withoutSpareDup.code[p]?
      = if p < s.code.size - 2 then s.code[p]? else s.code[p + 1]? := by
  show (s.code.eraseIdxIfInBounds (s.code.size - 2))[p]? = _
  rw [Array.eraseIdxIfInBounds, dif_pos (by omega), Array.getElem?_eraseIdx]

theorem Scope.size_withoutSpareDup (hn : 2 ≤ s.code.size) :
    s.withoutSpareDup.code.size = s.code.size - 1 := by
  show (s.code.eraseIdxIfInBounds (s.code.size - 2)).size = _
  rw [Array.eraseIdxIfInBounds, dif_pos (by omega), Array.size_eraseIdx]

/-- What it means for the code to end in a spare duplication. -/
theorem Scope.endsInSpareDup_iff :
    s.endsInSpareDup = true ↔
      2 ≤ s.code.size
        ∧ (∃ i op, s.code[s.code.size - 1]? = some i ∧ i.opcode? = some op ∧ op.isStore = true)
        ∧ (∃ i, s.code[s.code.size - 2]? = some i ∧ i.opcode? = some .dup)
        ∧ ∀ l q, s.labels.position? l = some q → q < s.code.size - 2 := by
  simp only [endsInSpareDup, Bool.and_eq_true, decide_eq_true_eq, Option.any_eq_true,
    Option.bind_eq_some_iff, beq_iff_eq, Bool.not_eq_true', Labels.anyFrom, and_assoc]
  refine and_congr_right fun _ => and_congr ?_ (and_congr_right fun _ => ?_)
  · constructor
    · rintro ⟨op, ⟨i, hi, hop⟩, hs⟩
      exact ⟨i, op, hi, hop, hs⟩
    · rintro ⟨i, op, hi, hop, hs⟩
      exact ⟨op, ⟨i, hi, hop⟩, hs⟩
  · rw [← Bool.not_eq_true, Array.any_eq_true]
    constructor
    · intro hn l q hq
      obtain ⟨m, hm, hp⟩ := Option.bind_eq_some_iff.mp hq
      obtain ⟨hl, hm⟩ := Array.getElem?_eq_some_iff.mp hm
      exact Nat.not_le.mp fun hle => hn ⟨l, hl, by rw [hm, hp]; simpa using hle⟩
    · rintro h ⟨l, hl, ha⟩
      simp only [Option.any_eq_true, decide_eq_true_eq] at ha
      obtain ⟨q, hq, hle⟩ := ha
      have := h l q (Option.bind_eq_some_iff.mpr ⟨_, Array.getElem?_eq_getElem hl, hq⟩)
      omega

/-- A store takes one value and leaves none. -/
theorem Instruction.effectOf_store {op : Opcode} (h : op.isStore = true) (i : Instruction) :
    effectOf op i = ⟨1, 0⟩ ∧ op.falls = true ∧ op.isJump = false ∧ op ≠ .endTry := by
  cases op <;> simp [Opcode.isStore] at h <;> exact ⟨rfl, rfl, rfl, by simp⟩

/-- Dropping a spare duplicate: the store consumes the value itself. -/
theorem Traced.withoutSpareDup (h : Traced M s trail ⟨labels, f, true⟩)
    (hd : s.endsInSpareDup = true) :
    ∃ trail', Traced M s.withoutSpareDup trail' ⟨labels, { f with height := f.height - 1 }, false⟩
      := by
  obtain ⟨hn, ⟨i, op, hi, hop, hst⟩, ⟨j, hj, hdup⟩, hpos⟩ := Scope.endsInSpareDup_iff.mp hd
  obtain ⟨heff, hfalls, hplain, hne⟩ := Instruction.effectOf_store hst i
  have hlen := h.length
  -- the duplication
  obtain ⟨_, f₀, f₁, hdup', hf₀, hf₁, hxy⟩ := h.steps _ j hj
  obtain rfl := Option.some.inj (hdup.symm.trans hdup')
  have hp₀ : Passes labels .dup (effectOf .dup j) f₀ f₁ := by
    obtain hp | ⟨_, _, _, _, hb⟩ := hxy
    · exact hp
    · exact absurd hb.jump (by decide)
  -- the store
  obtain ⟨_, f₁', f₂, hop', hf₁', hf₂, hxy⟩ := h.steps _ i hi
  obtain rfl := Option.some.inj (hop.symm.trans hop')
  have hp₁ : Passes labels op (effectOf op i) f₁' f₂ := by
    obtain hp | ⟨_, _, _, _, hb⟩ := hxy
    · exact hp
    · exact absurd (hplain.symm.trans hb.jump) Bool.false_ne_true
  rw [show s.code.size - 2 + 1 = s.code.size - 1 by omega] at hf₁
  rw [show s.code.size - 1 + 1 = s.code.size by omega] at hf₂
  obtain rfl := Option.some.inj (hf₁.symm.trans hf₁')
  obtain rfl := Option.some.inj (h.last.symm.trans hf₂)
  have hh₀ : f₁.height = f₀.height + 1 := by
    have henough : 1 ≤ f₀.height := hp₀.enough
    have heq : f₁.height = f₀.height - 1 + 2 := hp₀.height_eq rfl
    omega
  have hh₁ : f.height = f₁.height - 1 := by
    have := hp₁.height_eq hfalls
    rw [heff] at this
    exact this
  have hg : f.guards = f₀.guards :=
    (hp₁.keeps hfalls hne).trans (hp₀.keeps rfl (by decide))
  have henough : 1 ≤ f₀.height := hp₀.enough
  have hold : ∀ q, q ≤ s.code.size - 2 →
      (trail.take (s.code.size - 1) ++ [{ f with height := f.height - 1 }])[q]? = trail[q]? := by
    intro q hq
    rw [List.getElem?_append_left (by rw [List.length_take]; omega), List.getElem?_take,
      if_pos (by omega)]
  have hnew : (trail.take (s.code.size - 1) ++ [{ f with height := f.height - 1 }])[s.code.size
      - 1]? = some { f with height := f.height - 1 } := by
    rw [List.getElem?_append_right (by rw [List.length_take]; omega), List.length_take,
      show s.code.size - 1 - min (s.code.size - 1) trail.length = 0 by omega]
    rfl
  have hbefore : ∀ l u, s.labels.Uses l u → u.position < s.code.size - 2 := by
    intro l u hu
    obtain ⟨hcode, hjump⟩ := h.uses l u hu
    have hlt := (Array.getElem?_eq_some_iff.mp hcode).1
    have hopc := Instruction.opcode?_plain u.op
    by_cases h₁ : u.position = s.code.size - 1
    · rw [h₁] at hcode
      rw [Option.some.inj (hi.symm.trans hcode), hopc] at hop
      rw [Option.some.inj hop, hplain] at hjump
      exact absurd hjump Bool.false_ne_true
    · by_cases h₂ : u.position = s.code.size - 2
      · rw [h₂] at hcode
        rw [Option.some.inj (hj.symm.trans hcode), hopc] at hdup
        rw [Option.some.inj hdup] at hjump
        exact absurd hjump (by decide)
      · omega
  have hdepth : s.withoutSpareDup.depth = s.depth - 1 := by
    show ((s.depth : Int) + -1).toNat = _
    omega
  have hpeak : s.withoutSpareDup.peak = s.peak := by
    show max s.peak ((s.depth : Int) + -1).toNat = _
    have := h.depth
    omega
  have hsize := Scope.size_withoutSpareDup hn
  have hheight := h.height
  simp only at hheight
  obtain ⟨-, hroom⟩ := h.slack rfl
  have hroom := hroom i op (by rw [Array.back?_eq_getElem?]; exact hi) hop hst
  refine ⟨trail.take (s.code.size - 1) ++ [{ f with height := f.height - 1 }],
    h.marks, ?_, ?_, ?_, ?_, ?_, ?_, h.single, ?_, ?_, ?_, ?_, ?_, ?_⟩
  · rw [List.length_append, List.length_take, hsize]
    simp only [List.length_cons, List.length_nil]
    omega
  · rw [hsize]
    exact hnew
  · rw [hold 0 (Nat.zero_le _)]
    exact h.first
  · intro x hx
    obtain hx | hx := List.mem_append.mp hx
    · exact h.coherent x (List.mem_of_mem_take hx)
    · rw [List.mem_singleton.mp hx]
      exact h.coherent f h.now_mem
  · intro p k hk
    rw [Scope.getElem?_withoutSpareDup hn] at hk
    split at hk
    · next hp =>
      obtain ⟨o, x, y, ho, hx, hy, hxy⟩ := h.steps p k hk
      exact ⟨o, x, y, ho, by rw [hold p (by omega)]; exact hx,
        by rw [hold (p + 1) (by omega)]; exact hy, hxy⟩
    · next hp =>
      have hlt := (Array.getElem?_eq_some_iff.mp hk).1
      obtain rfl : p = s.code.size - 2 := by omega
      rw [show s.code.size - 2 + 1 = s.code.size - 1 by omega] at hk ⊢
      obtain rfl := Option.some.inj (hi.symm.trans hk)
      refine ⟨op, f₀, _, hop, by rw [hold _ (Nat.le_refl _)]; exact hf₀, hnew, .inl ?_⟩
      rw [heff]
      exact ⟨hplain, henough, by simp only; omega, fun _ => by simp only; omega, fun _ _ => hg,
        fun he => absurd he hne, fun hf => absurd (hfalls.symm.trans hf) (by decide),
        fun he => by rcases he with rfl | rfl <;> exact absurd hst (by decide)⟩
  · intro l u hu
    rw [Scope.getElem?_withoutSpareDup hn, if_pos (hbefore l u hu)]
    exact h.uses l u hu
  · intro l q hq
    rw [hold q (by have := hpos l q hq; omega)]
    exact h.placed l q hq
  · rw [hdepth]
    simp only
    omega
  · rw [hdepth, hpeak]
    have := h.depth
    omega
  · intro x hx
    rw [hpeak]
    obtain hx | hx := List.mem_append.mp hx
    · exact h.heights x (List.mem_of_mem_take hx)
    · rw [List.mem_singleton.mp hx]
      have := h.heights f h.now_mem
      simp only
      omega
  · rw [hpeak, hsize]
    omega
  · intro hb
    exact absurd hb Bool.false_ne_true

end Traced

end StackCode
