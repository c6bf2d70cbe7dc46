import StackCode.Proofs.StepOutcomes

/-!
# The recorded height is never cut

The height that a scope records is cut at zero when an instruction takes more than there is. A script
that comes with lower bounds of this height is run without any cut, up to the step that fails if one
does.

* `Supplied`, `totalNet`: instructions that find the values they take, and what they add together;
* `Step.Attempts`: the steps that are attempted when a script is run, in all units;
* `Step.Covered`: everything that a step appends is supplied;
* `Step.Rises`, `Script.Rises`: steps and scripts with lower bounds of the height;
* `Script.Rises.covered`, `Script.Rises.le_depth`: every step that is attempted is covered, and the
  height behind a script that succeeds.

The bounds are those of the order of emission: they take no account of jumps, so labels need none.
-/

namespace StackCode

open Edit (left Ends)
open Instruction (effectOf)

/-! ### Instructions that find what they take -/

/-- What instructions add to the height together, as long as nothing is cut. -/
def totalNet : List Instruction → Int
  | [] => 0
  | i :: is => i.net + totalNet is

/-- Each instruction finds the values that it takes, from the height `depth` on. -/
def Supplied : Nat → List Instruction → Prop
  | _, [] => True
  | depth, i :: is =>
    (∀ e, i.effect? = some e → e.pops ≤ depth) ∧ Supplied ((depth : Int) + i.net).toNat is

namespace Supplied

variable {depth : Nat} {i : Instruction} {is front back : List Instruction}

theorem pops_le (h : Supplied depth (front ++ i :: back)) {e : Instruction.Effect}
    (he : i.effect? = some e) : e.pops ≤ heightAfter depth front := by
  induction front generalizing depth with
  | nil => exact h.1 e he
  | cons j front ih => exact ih h.2

/-- Nothing is cut: the height is the sum of the effects. -/
theorem heightAfter_eq (h : Supplied depth is) :
    (heightAfter depth is : Int) = depth + totalNet is := by
  induction is generalizing depth with
  | nil => exact (Int.add_zero _).symm
  | cons i is ih =>
    have hnet : 0 ≤ (depth : Int) + i.net := by
      unfold Instruction.net
      cases he : i.effect? with
      | none => simp
      | some e =>
        have hpops := h.1 e he
        simp only
        omega
    rw [heightAfter_cons, ih h.2, totalNet]
    omega

theorem captures {captures : List Capture}
    (hc : ∀ c ∈ captures, c.operand ≤ Instruction.maxUnsigned) (depth : Nat) :
    Supplied depth (captures.map Capture.word) := by
  induction captures generalizing depth with
  | nil => trivial
  | cons c cs ih =>
    obtain ⟨hc, hcs⟩ := List.forall_mem_cons.mp hc
    refine ⟨?_, ih hcs _⟩
    intro e he
    rw [Instruction.effect?, Capture.opcode?_word hc] at he
    obtain rfl := Option.some.inj he
    cases c <;> exact Nat.zero_le depth

end Supplied

/-! ### Steps that are attempted -/

namespace Step

/-- When a script is run, the step `x` is attempted in the state, in this unit or in one inside it.
Whether it succeeds is left open. -/
inductive Attempts : Script → Assembler → Step → Assembler → Prop where
  | here {x : Step} {xs : Script} {a : Assembler} : Attempts (x :: xs) a x a
  | later {x y : Step} {xs : Script} {a b c : Assembler} (hy : run y a = .ok () b)
      (hx : Attempts xs b x c) : Attempts (y :: xs) a x c
  | inside {x : Step} {op : Opcode} {kind : ScopeKind} {signature : Signature} {body xs : Script}
      {a b c : Assembler} {s : Scope} {n : Nat}
      (he : Assembler.enterScope kind signature a = .ok n b)
      (hd : declareAll signature.params b.current = .ok () s)
      (hx : Attempts body { b with current := s } x c) :
      Attempts (.unit op kind signature body :: xs) a x c

/-- What follows a part of a script that is run is attempted behind it. -/
theorem Attempts.of_runAll {x : Step} {xs ys : Script} {a b c : Assembler}
    (hr : runAll xs a = .ok () b) (hx : Attempts ys b x c) : Attempts (xs ++ ys) a x c := by
  induction xs generalizing a with
  | nil =>
    obtain ⟨-, rfl⟩ := Edit.pure_eq_ok.mp hr
    exact hx
  | cons y xs ih =>
    obtain ⟨d, hy, hr⟩ := runAll_cons_eq_ok.mp hr
    exact .later hy (ih hr)

/-- The step, whether it succeeds or fails, appends `is` to the code of the unit that is written. -/
def Adds (x : Step) (a : Assembler) (is : List Instruction) : Prop :=
  (left (run x) a).enclosing = a.enclosing
    ∧ (left (run x) a).current.code.toList = a.current.code.toList ++ is

/-- The step finds, at the recorded height, the values that it takes. -/
structure Covered (x : Step) (a : Assembler) : Prop where
  /-- The height recorded when an instruction is appended is at least what the instruction takes. -/
  operands : ∀ front i back e, x.Adds a (front ++ i :: back) → i.effect? = some e →
    e.pops ≤ heightAfter a.current.depth front
  /-- The recorded height follows these instructions, and it is the sum of their effects. A value that
  is received is recorded without any. -/
  followed : ∀ is, x ≠ .receive → x.Adds a is →
    (left (run x) a).current.depth = heightAfter a.current.depth is
      ∧ (heightAfter a.current.depth is : Int) = a.current.depth + totalNet is
  /-- A duplication that is taken back has left its value. -/
  spare : x = .discard → a.current.endsInSpareDup = true → 1 ≤ a.current.depth

variable {x : Step} {a b : Assembler}

/-- What is appended is the instruction of the step, with captures behind it, or nothing. -/
theorem Adds.cases {is : List Instruction} (h : x.Adds a is) :
    (x ≠ .receive → Scope.Grown is a.current (left (run x) a).current)
      ∧ (is = [] ∨ ∃ (i : Instruction) (captures : List Capture), x.Leads i
        ∧ (∀ c ∈ captures, c.operand ≤ Instruction.maxUnsigned)
        ∧ is = i :: captures.map Capture.word) := by
  obtain ⟨henclosing, hcode⟩ := h
  cases ends_run x a with
  | none _ hg =>
    obtain rfl := List.append_cancel_left (hcode.symm.trans hg.code)
    exact ⟨fun _ => hg, .inl rfl⟩
  | some hi hc _ hg =>
    obtain rfl := List.append_cancel_left (hcode.symm.trans hg.code)
    exact ⟨fun _ => hg, .inr ⟨_, _, hi, hc, rfl⟩⟩
  | received hx _ hb =>
    rw [hb] at hcode
    refine ⟨fun hne => absurd hx hne, .inl ?_⟩
    exact List.self_eq_append_right.mp hcode
  | elided _ hd _ hb =>
    -- the code has lost an instruction
    have hlength := congrArg List.length hcode
    have htwo := (Scope.endsInSpareDup_iff.mp hd).1
    have hsize := Scope.size_withoutSpareDup htwo
    rw [hb, List.length_append, Array.length_toList, Array.length_toList] at hlength
    omega
  | inside h =>
    rw [henclosing] at h
    exact absurd h (Nat.lt_irrefl _)

/-- A step is covered when the height is enough for the instruction it begins with. -/
theorem covered_of_leads
    (hi : ∀ i, x.Leads i → ∃ op, i.opcode? = some op ∧ (effectOf op i).pops ≤ a.current.depth) :
    x.Covered a := by
  have supplied : ∀ is, x.Adds a is → Supplied a.current.depth is := by
    intro is h
    rcases h.cases.2 with rfl | ⟨i, captures, hlead, hc, rfl⟩
    · trivial
    · obtain ⟨op, hop, hpops⟩ := hi i hlead
      refine ⟨?_, .captures hc _⟩
      intro e he
      rw [Instruction.effect?, hop] at he
      obtain rfl := Option.some.inj he
      exact hpops
  refine ⟨?_, ?_, ?_⟩
  · intro front i back e h he
    exact (supplied _ h).pops_le he
  · intro is hx h
    exact ⟨(h.cases.1 hx).depth, (supplied is h).heightAfter_eq⟩
  · -- what would be popped is there to be taken back
    rintro rfl _
    obtain ⟨op, hop, hpops⟩ := hi _ rfl
    obtain rfl := Option.some.inj ((Instruction.opcode?_plain .pop).symm.trans hop)
    exact hpops

end Step

/-! ### Lower bounds along a script -/

/-- The values that an effect takes are there at height `h`, and behind it the height is at least
`m`. -/
def Instruction.Effect.Bounds (e : Instruction.Effect) (h m : Nat) : Prop :=
  e.pops ≤ h ∧ m ≤ h - e.pops + e.pushes

theorem Instruction.Effect.Bounds.mono {e : Instruction.Effect} {h h' m : Nat} (he : e.Bounds h m)
    (hh : h ≤ h') : e.Bounds h' m := by
  obtain ⟨hpops, hm⟩ := he
  refine ⟨Nat.le_trans hpops hh, ?_⟩
  omega

/-- From height `h` on a step takes no more than there is, and where it succeeds the height behind it
is at least `m`. -/
inductive Step.Rises : Step → Nat → Nat → Prop where
  | fail {e : Error} {h m : Nat} : Rises (.fail e) h m
  | quiet {x : Step} {h m : Nat} (hx : x.isQuiet = true) (hm : m ≤ h) : Rises x h m
  | newLabel {h m : Nat} (hm : m ≤ h) : Rises .newLabel h m
  | place {l : Label} {h m : Nat} (hm : m ≤ h) : Rises (.place l) h m
  | write {x : Step} {h m : Nat} (hx : x.isWrite = true)
      (hi : ∀ i, x.Writes i → ∃ op, i.opcode? = some op ∧ (effectOf op i).Bounds h m) : Rises x h m
  | jump {op : Opcode} {l : Label} {h m : Nat} (hm : (effectOf op (.plain op)).Bounds h m) :
      Rises (.jump op l) h m
  | receive {h m : Nat} (hm : m ≤ h + 1) : Rises .receive h m
  | discard {h m : Nat} (hm : (⟨1, 0⟩ : Instruction.Effect).Bounds h m) : Rises .discard h m

/-- From height `h` on a script never takes more than there is, and it ends no lower than `k`. -/
inductive Script.Rises : Script → Nat → Nat → Prop where
  | done {h k : Nat} (hk : k ≤ h) : Rises [] h k
  | step {x : Step} {xs : Script} {h m k : Nat} (hx : x.Rises h m) (hxs : Rises xs m k) :
      Rises (x :: xs) h k
  /-- A unit of its own begins with an empty stack. -/
  | unit {op : Opcode} {kind : ScopeKind} {signature : Signature} {body xs : Script}
      {h m n k : Nat} (hm : ∀ i, (effectOf op i).Bounds h m) (hbody : Rises body 0 n)
      (hxs : Rises xs m k) : Rises (.unit op kind signature body :: xs) h k

/-! ### One step -/

/-- An instruction that finds what it takes leaves at least what it is bounded by. -/
theorem Scope.le_depth_appended {s : Scope} {i : Instruction} {op : Opcode} {h m : Nat}
    (hop : i.opcode? = some op) (hm : (effectOf op i).Bounds h m) (hs : h ≤ s.depth) :
    m ≤ (s.appended i).depth := by
  obtain ⟨hpops, hm⟩ := hm
  rw [Scope.depth_appended, Instruction.net_eq hop]
  omega

namespace Step.Rises

variable {x : Step} {h h' m : Nat} {a b : Assembler}

theorem mono (hx : x.Rises h m) (hh : h ≤ h') : x.Rises h' m := by
  cases hx with
  | fail => exact .fail
  | quiet hx hm => exact .quiet hx (Nat.le_trans hm hh)
  | newLabel hm => exact .newLabel (Nat.le_trans hm hh)
  | place hm => exact .place (Nat.le_trans hm hh)
  | write hx hi =>
    apply Rises.write hx
    intro i hw
    obtain ⟨op, hop, hm⟩ := hi i hw
    exact ⟨op, hop, hm.mono hh⟩
  | jump hm => exact .jump (hm.mono hh)
  | receive hm => exact .receive (Nat.le_trans hm (Nat.succ_le_succ hh))
  | discard hm => exact .discard (hm.mono hh)

theorem cut (hx : x.Rises h m) : x.cut.Rises h m := by
  cases hx with
  | fail => exact .fail
  | quiet hx hm => cases x <;> exact .quiet hx hm
  | newLabel hm => exact .newLabel hm
  | place hm => exact .place hm
  | write hx hi => cases x <;> exact .write hx hi
  | jump hm => exact .jump hm
  | receive hm => exact .receive hm
  | discard hm => exact .discard hm

/-- The instruction with which the step begins finds what it takes. -/
theorem leads (hx : x.Rises h m) {i : Instruction} (hi : x.Leads i) :
    ∃ op, i.opcode? = some op ∧ (effectOf op i).pops ≤ h := by
  cases hx with
  | fail | newLabel | place | receive => exact hi.elim
  | quiet hx =>
    cases x with
    | markLine line =>
      obtain ⟨n, hn, rfl⟩ := hi
      exact ⟨.line, Instruction.opcode?_pack (Nat.lt_succ_of_le hn), Nat.zero_le _⟩
    | declare | enterBlock | leaveBlock | protect => exact hi.elim
    | _ => cases hx
  | write hx hw =>
    have hwrites : x.Writes i := by
      cases x <;> first | exact hi | cases hx
    obtain ⟨op, hop, hpops, -⟩ := hw i hwrites
    exact ⟨op, hop, hpops⟩
  | jump hm =>
    obtain rfl : i = _ := hi
    exact ⟨_, Instruction.opcode?_plain _, hm.1⟩
  | discard hm =>
    obtain rfl : i = _ := hi
    exact ⟨_, Instruction.opcode?_plain _, hm.1⟩

theorem le_depth (hx : x.Rises h m) (ha : h ≤ a.current.depth) (hr : run x a = .ok () b) :
    m ≤ b.current.depth := by
  cases hx with
  | fail => exact absurd hr Edit.throw_ne_ok
  | quiet hx hm =>
    obtain ⟨-, t, hat, ht⟩ := run_quiet hx hr
    rw [← hat.depth] at ha
    rcases ht with ht | ⟨line, hn, ht⟩
    · rw [ht]
      exact Nat.le_trans hm ha
    · rw [ht]
      exact Scope.le_depth_appended (Instruction.opcode?_pack (Nat.lt_succ_of_le hn))
        ⟨Nat.zero_le _, hm⟩ ha
  | newLabel hm =>
    obtain ⟨l, hr⟩ := Edit.ignore_eq_ok.mp hr
    obtain ⟨s, hs, rfl⟩ := Assembler.onCurrent_eq_ok.mp hr
    obtain ⟨-, rfl⟩ := Scope.newLabel_eq_ok.mp hs
    exact Nat.le_trans hm ha
  | place hm =>
    obtain ⟨s, hs, rfl⟩ := Assembler.onCurrent_eq_ok.mp hr
    obtain ⟨-, -, rfl⟩ := Scope.placeLabel_eq_ok.mp hs
    exact Nat.le_trans hm ha
  | write hx hi =>
    obtain ⟨-, t, i, hat, hw, ht⟩ := run_write hx hr
    obtain ⟨op, hop, hm⟩ := hi i hw
    rw [← hat.depth] at ha
    rw [ht]
    exact Scope.le_depth_appended hop hm ha
  | jump hm =>
    obtain ⟨p, hr⟩ := Edit.ignore_eq_ok.mp hr
    obtain ⟨s, hs, rfl⟩ := Assembler.onCurrent_eq_ok.mp hr
    obtain ⟨-, -, -, rfl⟩ := Scope.emitJump_eq_ok.mp hs
    exact Scope.le_depth_appended (Instruction.opcode?_plain _) hm ha
  | receive hm =>
    simp only [run] at hr
    obtain ⟨s, hs, rfl⟩ := Assembler.onCurrent_eq_ok.mp hr
    rw [Scope.receive_eq_ok.mp hs]
    show m ≤ ((a.current.depth : Int) + 1).toNat
    omega
  | discard hm =>
    obtain ⟨s, hs, rfl⟩ := Assembler.onCurrent_eq_ok.mp hr
    obtain ⟨hpops, hle⟩ := hm
    rcases Scope.discard_eq_ok.mp hs with ⟨-, rfl⟩ | ⟨-, -, rfl⟩
    · show m ≤ ((a.current.depth : Int) + -1).toNat
      simp only at hpops hle
      omega
    · exact Scope.le_depth_appended (Instruction.opcode?_plain .pop) ⟨hpops, hle⟩ ha

end Step.Rises

/-! ### Units -/

theorem heightAfter_captures {captures : List Capture}
    (hc : ∀ c ∈ captures, c.operand ≤ Instruction.maxUnsigned) (depth : Nat) :
    heightAfter depth (captures.map Capture.word) = depth := by
  induction captures with
  | nil => rfl
  | cons c cs ih =>
    obtain ⟨hc, hcs⟩ := List.forall_mem_cons.mp hc
    have hnet : c.word.net = 0 := by
      rw [Instruction.net_eq (Capture.opcode?_word hc)]
      cases c <;> rfl
    rw [List.map_cons, heightAfter_cons, hnet, Int.add_zero, Int.toNat_natCast]
    exact ih hcs

theorem Scope.le_depth_appendedAll {s : Scope} {i : Instruction} {op : Opcode}
    {captures : List Capture} {h m : Nat} (hop : i.opcode? = some op)
    (hm : (effectOf op i).Bounds h m) (hc : ∀ c ∈ captures, c.operand ≤ Instruction.maxUnsigned)
    (hs : h ≤ s.depth) : m ≤ (s.appendedAll (i :: captures.map Capture.word)).depth := by
  have hrest := (Scope.Grown.appendedAll (s.appended i) (captures.map Capture.word)).depth
  rw [heightAfter_captures hc] at hrest
  show m ≤ ((s.appended i).appendedAll (captures.map Capture.word)).depth
  rw [hrest]
  exact Scope.le_depth_appended hop hm hs

/-- A unit that was written leaves one instruction, and captures behind it. -/
theorem Step.le_depth_unit {op : Opcode} {kind : ScopeKind} {signature : Signature} {body : Script}
    {h m : Nat} {a b : Assembler} (hm : ∀ i, (effectOf op i).Bounds h m)
    (ha : h ≤ a.current.depth) (hr : run (.unit op kind signature body) a = .ok () b) :
    m ≤ b.current.depth := by
  obtain ⟨n, _, t, c, child, d, he, hd, hb, hl, hc⟩ := Step.run_unit_eq_ok.mp hr
  obtain ⟨-, rfl⟩ := Assembler.enterScope_eq_ok.mp he
  obtain ⟨parent, rest, _, relay, hparent, -, -, -, rfl, rfl⟩ := Assembler.leaveScope_eq_ok.mp hl
  obtain ⟨rfl, rfl⟩ := List.cons.inj (hparent.symm.trans (Step.frame_of_runAll body hb).1)
  obtain ⟨hn, hcaptures, rfl⟩ := Assembler.eq_of_emitChild hc
  exact Scope.le_depth_appendedAll (Instruction.opcode?_pack (Nat.lt_succ_of_le hn)) (hm _) hcaptures
    ha

/-! ### Whole scripts -/

namespace Script.Rises

variable {x : Step} {xs ys : Script} {h h' m k : Nat} {a b c : Assembler}

theorem mono (hx : Rises xs h k) (hh : h ≤ h') : Rises xs h' k := by
  cases hx with
  | done hk => exact .done (Nat.le_trans hk hh)
  | step hx hxs => exact .step (hx.mono hh) hxs
  | unit hm hbody hxs => exact .unit (fun i => (hm i).mono hh) hbody hxs

theorem append (hx : Rises xs h m) (hy : Rises ys m k) : Rises (xs ++ ys) h k := by
  induction hx with
  | done hk => exact hy.mono hk
  | step hx _ ih => exact .step hx (ih hy)
  | unit hm hbody _ _ ih => exact .unit hm hbody (ih hy)

theorem newLabels (n : Nat) (hx : Rises xs h k) :
    Rises (List.replicate n .newLabel ++ xs) h k := by
  induction n with
  | zero => exact hx
  | succ n ih => exact .step (.newLabel (Nat.le_refl h)) ih

/-- The numbers of labels have nothing to do with it. -/
theorem cut (hx : Rises xs h k) : Rises (Script.cut xs) h k := by
  induction hx with
  | done hk => exact .done hk
  | step hx _ ih =>
    rw [Script.cut_cons]
    exact .step hx.cut ih
  | unit hm _ _ ihbody ih =>
    rw [Script.cut_cons, Step.cut_unit]
    exact .unit hm ihbody ih

theorem covered_first (hx : Rises (x :: xs) h k) (ha : h ≤ a.current.depth) : x.Covered a := by
  apply Step.covered_of_leads
  intro i hi
  have hpops : ∃ op, i.opcode? = some op ∧ (effectOf op i).pops ≤ h := by
    cases hx with
    | step hx => exact hx.leads hi
    | unit hm =>
      obtain ⟨n, hn, rfl⟩ := hi
      exact ⟨_, Instruction.opcode?_pack (Nat.lt_succ_of_le hn), (hm _).1⟩
  obtain ⟨op, hop, hpops⟩ := hpops
  exact ⟨op, hop, Nat.le_trans hpops ha⟩

/-- The first step of a script that rises, and what remains. -/
theorem uncons (hx : Rises (x :: xs) h k) (ha : h ≤ a.current.depth)
    (hr : Step.run x a = .ok () b) : ∃ m, Rises xs m k ∧ m ≤ b.current.depth := by
  cases hx with
  | step hx hxs => exact ⟨_, hxs, hx.le_depth ha hr⟩
  | unit hm _ hxs => exact ⟨_, hxs, Step.le_depth_unit hm ha hr⟩

/-- Every step that is attempted is covered: none of a script that rises takes more than there is. -/
theorem covered (hx : Rises xs h k) (ha : h ≤ a.current.depth) (hr : Step.Attempts xs a x c) :
    x.Covered c := by
  induction hr generalizing h k with
  | here => exact hx.covered_first ha
  | later hy _ ih =>
    obtain ⟨m, hrest, hb⟩ := hx.uncons ha hy
    exact ih hrest hb
  | inside he hd _ ih =>
    cases hx with
    | step hx =>
      -- no other rule is about a unit
      cases hx with
      | quiet hx => cases hx
      | write hx => cases hx
    | unit _ hbody =>
      apply ih hbody
      exact Nat.zero_le _

/-- A script that rises, and succeeds, ends no lower than it says. -/
theorem le_depth (hx : Rises xs h k) (ha : h ≤ a.current.depth)
    (hr : Step.runAll xs a = .ok () b) : k ≤ b.current.depth := by
  induction xs generalizing h a with
  | nil =>
    cases hx with
    | done hk =>
      obtain ⟨-, rfl⟩ := Edit.pure_eq_ok.mp hr
      exact Nat.le_trans hk ha
  | cons x xs ih =>
    obtain ⟨c, hc, hr⟩ := Step.runAll_cons_eq_ok.mp hr
    obtain ⟨m, hrest, hm⟩ := hx.uncons ha hc
    exact ih hrest hm hr

end Script.Rises

end StackCode
