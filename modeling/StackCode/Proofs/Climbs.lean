import StackCode.Proofs.Emission

/-!
# Scripts that climb

A stretch of code can be given the height of the stack at each of its positions, counted from its
start. The height at a label is agreed on before the script is run: a jump has to come with it, and
the label has to be set where it holds. Behind an instruction that never goes on the height may
fall.

* `heightAfter`: the height that is followed in the order of emission;
* `Script.Climbs`: a script leads from one height to another, given the heights at its labels;
* `Scope.Profile`: the heights at the positions of the code that was written since some moment;
* `Scope.Profile.extend`: one more instruction;
* `Script.Climbs.uncons`, `Script.Climbs.run`: one step, and a whole script, lead from height to
  height.

The heights of a profile are those of the paths. They can fall behind the height that is followed in
the order of emission, which takes no account of jumps, and never exceed it.
-/

namespace StackCode

open Instruction (effectOf)

/-- The height that is followed in the order of emission, after some instructions. -/
def heightAfter (depth : Nat) (code : List Instruction) : Nat :=
  code.foldl (fun (d : Nat) i => ((d : Int) + i.net).toNat) depth

theorem heightAfter_concat (depth : Nat) (code : List Instruction) (i : Instruction) :
    heightAfter depth (code ++ [i]) = (heightAfter depth code + i.net).toNat := by
  rw [heightAfter, List.foldl_append]
  rfl

/-! ### Heights along a script -/

/-- An operation stands at height `h`, and behind it the height is `m`. Behind one that never goes
on the height is any other that is no higher. -/
structure Opcode.Lifts (op : Opcode) (e : Instruction.Effect) (h m : Nat) : Prop where
  enough : e.pops ≤ h
  le : m ≤ h - e.pops + e.pushes
  eq : op.falls = true → m = h - e.pops + e.pushes

theorem Opcode.Lifts.of_eq {op : Opcode} {e : Instruction.Effect} {h m : Nat} (hp : e.pops ≤ h)
    (hm : m = h - e.pops + e.pushes) : op.Lifts e h m :=
  ⟨hp, Nat.le_of_eq hm, fun _ => hm⟩

/-- A script leads from one height to another, given the heights at its labels. A jump to any other
label is not allowed for. -/
inductive Script.Climbs (heights : Label → Option Nat) : Script → Nat → Nat → Prop where
  | done {h : Nat} : Climbs heights [] h h
  | quiet {x : Step} {xs : Script} {h k : Nat} (hx : x.isQuiet = true)
      (hxs : Climbs heights xs h k) : Climbs heights (x :: xs) h k
  | newLabel {xs : Script} {h k : Nat} (hxs : Climbs heights xs h k) :
      Climbs heights (.newLabel :: xs) h k
  | write {x : Step} {xs : Script} {h m k : Nat} (hx : x.isWrite = true)
      (hi : ∀ i, x.Writes i →
        ∃ op, i.opcode? = some op ∧ op.isJump = false ∧ op.Lifts (effectOf op i) h m)
      (hxs : Climbs heights xs m k) : Climbs heights (x :: xs) h k
  | jump {op : Opcode} {l : Label} {xs : Script} {h m k : Nat}
      (hl : heights l = some (op.landing h)) (hm : op.Lifts (effectOf op (.plain op)) h m)
      (hxs : Climbs heights xs m k) : Climbs heights (.jump op l :: xs) h k
  | place {l : Label} {xs : Script} {h k : Nat} (hl : heights l = some h)
      (hxs : Climbs heights xs h k) : Climbs heights (.place l :: xs) h k
  /-- What the body of a closure does is of no account where the closure is made. -/
  | unit {kind : ScopeKind} {signature : Signature} {body xs : Script} {h k : Nat}
      (hxs : Climbs heights xs (h + 1) k) :
      Climbs heights (.unit .makeClosure kind signature body :: xs) h k

namespace Script.Climbs

variable {heights : Label → Option Nat} {xs ys : Script} {h m k : Nat}

theorem append (hx : Climbs heights xs h m) (hy : Climbs heights ys m k) :
    Climbs heights (xs ++ ys) h k := by
  induction hx with
  | done => exact hy
  | quiet hx _ ih => exact .quiet hx (ih hy)
  | newLabel _ ih => exact .newLabel (ih hy)
  | write hx hi _ ih => exact .write hx hi (ih hy)
  | jump hl hm _ ih => exact .jump hl hm (ih hy)
  | place hl _ ih => exact .place hl (ih hy)
  | unit _ ih => exact .unit (ih hy)

theorem newLabels (n : Nat) (hx : Climbs heights xs h k) :
    Climbs heights (List.replicate n .newLabel ++ xs) h k := by
  induction n with
  | zero => exact hx
  | succ n ih => exact .newLabel ih

/-- Labels with the same number have the same height. -/
theorem cut (hx : Climbs (fun l => heights (Label.ofCount l)) xs h k) :
    Climbs heights (Script.cut xs) h k := by
  induction hx with
  | done => exact .done
  | @quiet x _ _ _ hx _ ih =>
    rw [Script.cut_cons]
    cases x <;> exact .quiet hx ih
  | newLabel _ ih =>
    rw [Script.cut_cons]
    exact .newLabel ih
  | @write x _ _ _ _ hx hi _ ih =>
    rw [Script.cut_cons]
    cases x <;> exact .write hx hi ih
  | jump hl hm _ ih =>
    rw [Script.cut_cons]
    exact .jump hl hm ih
  | place hl _ ih =>
    rw [Script.cut_cons]
    exact .place hl ih
  | unit _ ih =>
    rw [Script.cut_cons, Step.cut_unit]
    exact .unit ih

/-- Both parts of a script that climbs climb. -/
theorem split (hxy : Climbs heights (xs ++ ys) h k) :
    ∃ m, Climbs heights xs h m ∧ Climbs heights ys m k := by
  induction xs generalizing h with
  | nil => exact ⟨h, .done, hxy⟩
  | cons x xs ih =>
    cases hxy with
    | quiet hx hxs => exact (ih hxs).imp fun _ => And.imp_left (.quiet hx)
    | newLabel hxs => exact (ih hxs).imp fun _ => And.imp_left .newLabel
    | write hx hi hxs => exact (ih hxs).imp fun _ => And.imp_left (.write hx hi)
    | jump hl hm hxs => exact (ih hxs).imp fun _ => And.imp_left (.jump hl hm)
    | place hl hxs => exact (ih hxs).imp fun _ => And.imp_left (.place hl)
    | unit hxs => exact (ih hxs).imp fun _ => And.imp_left .unit

end Script.Climbs

/-! ### The heights of a stretch of code -/

/-- The heights at the positions of the code that was written since `start`, counted from there. -/
structure Scope.Profile (heights : Label → Option Nat) (start s : Scope) (height : Nat → Nat) :
    Prop where
  initial : start.code.toList <+: s.code.toList
  first : height start.code.size = 0
  steps : ∀ p i, start.code.size ≤ p → s.code[p]? = some i → ∃ op, i.opcode? = some op
    ∧ (effectOf op i).pops ≤ height p
    ∧ (op.falls = true → height (p + 1) = height p - (effectOf op i).pops + (effectOf op i).pushes)
    ∧ (op.isJump = true → ∃ l, s.labels.Uses l ⟨p, op⟩)
  uses : ∀ l u, s.labels.Uses l u → u.position < s.code.size
    ∧ (start.code.size ≤ u.position → heights l = some (u.op.landing (height u.position)))
  placed : ∀ l q h, heights l = some h → s.labels.position? l = some q →
    start.code.size ≤ q ∧ q ≤ s.code.size ∧ height q = h
  drift : ∀ p, start.code.size ≤ p → p ≤ s.code.size → start.depth + height p
    ≤ heightAfter start.depth ((s.code.toList.take p).drop start.code.size)
  depth : s.depth = heightAfter start.depth (s.code.toList.drop start.code.size)

/-- The code that was written since `start` has a profile, which leads to the height `h`. -/
def Scope.Climbed (heights : Label → Option Nat) (start s : Scope) (h : Nat) : Prop :=
  ∃ height, Scope.Profile heights start s height ∧ height s.code.size = h

namespace Scope.Profile

variable {heights : Label → Option Nat} {start s s' : Scope} {height : Nat → Nat} {h m : Nat}

theorem size_le (hs : Profile heights start s height) : start.code.size ≤ s.code.size :=
  hs.initial.length_le

/-- Nothing was written, no label is used by what is going to be written, and those that are going
to be set are not set. -/
theorem refl (huses : ∀ l u, s.labels.Uses l u → u.position < s.code.size)
    (hnew : ∀ l h, heights l = some h → s.labels.position? l = none) :
    Profile heights s s fun _ => 0 := by
  refine ⟨List.prefix_refl _, rfl, ?_, ?_, ?_, ?_, ?_⟩
  · intro p i hp hi
    exact absurd (Array.getElem?_eq_some_iff.mp hi).1 (Nat.not_lt.mpr hp)
  · intro l u hu
    have hlt := huses l u hu
    exact ⟨hlt, fun hle => absurd hlt (Nat.not_lt.mpr hle)⟩
  · intro l q h hl hq
    rw [hnew l h hl] at hq
    cases hq
  · intro p hp hp'
    rw [List.drop_eq_nil_of_le (by rw [List.length_take]; omega)]
    exact Nat.le_refl _
  · rw [List.drop_eq_nil_of_le (Nat.le_of_eq Array.length_toList)]
    rfl

/-- A profile concerns the instructions, the labels and the height alone. -/
theorem congr (hs : Profile heights start s height) (hcode : s'.code = s.code)
    (hlabels : s'.labels = s.labels) (hdepth : s'.depth = s.depth) :
    Profile heights start s' height := by
  refine ⟨?_, hs.first, ?_, ?_, ?_, ?_, ?_⟩
  · rw [hcode]; exact hs.initial
  · rw [hcode, hlabels]; exact hs.steps
  · rw [hcode, hlabels]; exact hs.uses
  · rw [hcode, hlabels]; exact hs.placed
  · rw [hcode]; exact hs.drift
  · rw [hcode, hdepth]; exact hs.depth

/-- The height that is followed in the order of emission is at least that of the profile. -/
theorem height_le (hs : Profile heights start s height) :
    start.depth + height s.code.size ≤ s.depth := by
  have hle := hs.drift s.code.size hs.size_le (Nat.le_refl _)
  rw [List.take_of_length_le (Nat.le_of_eq Array.length_toList), ← hs.depth] at hle
  exact hle

/-- One more instruction, behind which the height is `m`. It may be a placeholder. -/
theorem extend {i : Instruction} {op : Opcode} (hs : Profile heights start s height)
    (hcode : s'.code = s.code.push i) (hdepth : s'.depth = (s.depth + i.net).toNat)
    (hop : i.opcode? = some op) (hm : op.Lifts (effectOf op i) (height s.code.size) m)
    (hkept : ∀ l u, s.labels.Uses l u → s'.labels.Uses l u)
    (huses : ∀ l u, s'.labels.Uses l u → s.labels.Uses l u
      ∨ u.position = s.code.size ∧ heights l = some (u.op.landing (height s.code.size)))
    (hjump : op.isJump = true → ∃ l, s'.labels.Uses l ⟨s.code.size, op⟩)
    (hplaced : ∀ l, s'.labels.position? l = s.labels.position? l) :
    Profile heights start s' fun p => if p ≤ s.code.size then height p else m := by
  have hsize : s'.code.size = s.code.size + 1 := by rw [hcode, Array.size_push]
  have hlist : s'.code.toList = s.code.toList ++ [i] := by rw [hcode, Array.toList_push]
  have hlength : s.code.toList.length = s.code.size := Array.length_toList
  have hle := hs.size_le
  have hlinear : s'.depth = heightAfter start.depth (s'.code.toList.drop start.code.size) := by
    rw [hlist, List.drop_append_of_le_length (by omega), heightAfter_concat, ← hs.depth, hdepth]
  refine ⟨?_, ?_, ?_, ?_, ?_, ?_, hlinear⟩
  · rw [hlist]
    exact hs.initial.trans (List.prefix_append _ _)
  · simp only [hle, if_true]
    exact hs.first
  · intro p j hp hj
    have hlt := (Array.getElem?_eq_some_iff.mp hj).1
    rw [hcode, Array.getElem?_push] at hj
    split at hj
    · next heq =>
      obtain rfl := Option.some.inj hj
      subst heq
      refine ⟨op, hop, ?_, ?_, hjump⟩
      · simpa only [Nat.le_refl, if_true] using hm.enough
      · intro hf
        simp only [Nat.le_refl, if_true, Nat.not_succ_le_self, if_false]
        exact hm.eq hf
    · next hne =>
      obtain ⟨o, ho, hpop, hfall, hland⟩ := hs.steps p j hp hj
      have hlt : p < s.code.size := by omega
      refine ⟨o, ho, ?_, ?_, fun hj => (hland hj).imp fun l => hkept l _⟩
      · simpa only [Nat.le_of_lt hlt, if_true] using hpop
      · intro hf
        simpa only [Nat.le_of_lt hlt, Nat.succ_le_of_lt hlt, if_true] using hfall hf
  · intro l u hu
    rw [hsize]
    obtain hu | ⟨hpos, hl⟩ := huses l u hu
    · obtain ⟨hlt, hland⟩ := hs.uses l u hu
      refine ⟨Nat.lt_succ_of_lt hlt, fun hge => ?_⟩
      simp only [Nat.le_of_lt hlt, if_true]
      exact hland hge
    · refine ⟨by omega, fun _ => ?_⟩
      simp only [hpos, Nat.le_refl, if_true]
      exact hl
  · intro l q t hl hq
    rw [hplaced] at hq
    obtain ⟨hge, hle, ht⟩ := hs.placed l q t hl hq
    refine ⟨hge, by omega, ?_⟩
    simp only [hle, if_true]
    exact ht
  · intro p hp hp'
    by_cases hlt : p ≤ s.code.size
    · simp only [hlt, if_true]
      rw [hlist, List.take_append_of_le_length (by omega)]
      exact hs.drift p hp hlt
    · -- here the height that is followed has changed by the whole effect
      simp only [hlt, if_false]
      rw [List.take_of_length_le (by rw [hlist, List.length_append, hlength]; simp; omega),
        ← hlinear, hdepth, Instruction.net_eq hop]
      have := hs.height_le
      have := hm.enough
      have := hm.le
      omega

end Scope.Profile

namespace Scope.Climbed

variable {heights : Label → Option Nat} {start s s' : Scope} {h m : Nat}

theorem congr (hs : Climbed heights start s h) (hcode : s'.code = s.code)
    (hlabels : s'.labels = s.labels) (hdepth : s'.depth = s.depth) :
    Climbed heights start s' h := by
  obtain ⟨height, hs, rfl⟩ := hs
  exact ⟨height, hs.congr hcode hlabels hdepth, by rw [hcode]⟩

theorem alike (hs : Climbed heights start s h) (ha : Scope.Alike s s') :
    Climbed heights start s' h := hs.congr ha.code ha.labels ha.depth

/-- An instruction that is no jump is appended. -/
theorem write {i : Instruction} {op : Opcode} (hs : Climbed heights start s h)
    (hop : i.opcode? = some op) (hj : op.isJump = false) (hm : op.Lifts (effectOf op i) h m) :
    Climbed heights start (s.appended i) m := by
  obtain ⟨height, hs, rfl⟩ := hs
  refine ⟨_, hs.extend rfl rfl hop hm (fun _ _ hu => hu) (fun _ _ hu => .inl hu) (fun hn => ?_)
    (fun _ => rfl), ?_⟩
  · exact absurd (hj.symm.trans hn) Bool.false_ne_true
  · have hsize : (s.appended i).code.size = s.code.size + 1 := Array.size_push _
    simp only [hsize, Nat.not_succ_le_self, if_false]

/-- A placeholder is appended. -/
theorem jump {op : Opcode} {l : Label} (hs : Climbed heights start s h)
    (hin : l < s.labels.marks.size) (hl : heights l = some (op.landing h))
    (hm : op.Lifts (effectOf op (.plain op)) h m) :
    Climbed heights start { s.appended (.plain op) with
      labels := ⟨s.labels.marks.modify l (·.used ⟨s.code.size, op⟩)⟩ } m := by
  obtain ⟨height, hs, rfl⟩ := hs
  refine ⟨_, hs.extend rfl rfl (Instruction.opcode?_plain op) hm ?_ ?_ ?_ ?_, ?_⟩
  · exact fun k u hu => (Labels.uses_used hin).mpr (.inl hu)
  · intro k u hu
    obtain hu | ⟨rfl, rfl⟩ := (Labels.uses_used hin).mp hu
    · exact .inl hu
    · exact .inr ⟨rfl, hl⟩
  · exact fun _ => ⟨l, (Labels.uses_used hin).mpr (.inr ⟨rfl, rfl⟩)⟩
  · exact fun _ => Labels.position?_used
  · have hsize : (s.appended (.plain op)).code.size = s.code.size + 1 := Array.size_push _
    simp only [hsize, Nat.not_succ_le_self, if_false]

theorem newLabel (hs : Climbed heights start s h) :
    Climbed heights start { s with labels := ⟨s.labels.marks.push {}⟩ } h := by
  obtain ⟨height, hs, rfl⟩ := hs
  refine ⟨height, { hs with steps := ?_, uses := ?_, placed := ?_ }, rfl⟩
  · intro p i hp hi
    obtain ⟨op, hop, hpops, hfalls, hjump⟩ := hs.steps p i hp hi
    exact ⟨op, hop, hpops, hfalls, fun hj => (hjump hj).imp fun l hu => Labels.uses_push.mpr hu⟩
  · exact fun l u hu => hs.uses l u (Labels.uses_push.mp hu)
  · intro l q t hl hq
    rw [Labels.position?_push] at hq
    exact hs.placed l q t hl hq

/-- A label is set where the height is the one that was agreed on. -/
theorem place {l : Label} (hs : Climbed heights start s h) (hin : l < s.labels.marks.size)
    (hl : heights l = some h) :
    Climbed heights start { s with
      labels := ⟨s.labels.marks.modify l (·.placed s.code.size)⟩ } h := by
  obtain ⟨height, hs, rfl⟩ := hs
  refine ⟨height, { hs with steps := ?_, uses := ?_, placed := ?_ }, rfl⟩
  · intro p i hp hi
    obtain ⟨op, hop, hpops, hfalls, hjump⟩ := hs.steps p i hp hi
    exact ⟨op, hop, hpops, hfalls, fun hj => (hjump hj).imp fun k hu => Labels.uses_placed.mpr hu⟩
  · exact fun k u hu => hs.uses k u (Labels.uses_placed.mp hu)
  · intro k q t hk hq
    rw [Labels.position?_placed hin] at hq
    split at hq
    · next heq =>
      obtain rfl := Option.some.inj hq
      rw [heq, hl] at hk
      exact ⟨hs.size_le, Nat.le_refl _, Option.some.inj hk⟩
    · exact hs.placed k q t hk hq

/-- The captures of a closure change nothing on the stack. -/
theorem captured {captures : List Capture} (hs : Climbed heights start s h)
    (hc : ∀ c ∈ captures, c.operand ≤ Instruction.maxUnsigned) :
    Climbed heights start (s.appendedAll (captures.map Capture.word)) h := by
  induction captures generalizing s with
  | nil => exact hs
  | cons c cs ih =>
    obtain ⟨hc, hcs⟩ := List.forall_mem_cons.mp hc
    refine ih (hs.write (Capture.opcode?_word hc) ?_ ?_) hcs
    · cases c <;> rfl
    · cases c <;> exact .of_eq (Nat.zero_le _) rfl

end Scope.Climbed

/-! ### Following a script -/

theorem Scope.initial_appended (s : Scope) (i : Instruction) :
    s.code.toList <+: (s.appended i).code.toList := by
  show _ <+: (s.code.push i).toList
  rw [Array.toList_push]
  exact List.prefix_append _ _

theorem Scope.initial_appendedAll (s : Scope) (is : List Instruction) :
    s.code.toList <+: (s.appendedAll is).code.toList := by
  induction is generalizing s with
  | nil => exact List.prefix_refl _
  | cons i is ih => exact (s.initial_appended i).trans (ih (s.appended i))

theorem Scope.Alike.initial {s t : Scope} (h : Scope.Alike s t) :
    s.code.toList <+: t.code.toList :=
  h.code ▸ List.prefix_refl _

/-- The scope climbs from a height to another, and what is written stays. -/
structure Scope.Ascends (heights : Label → Option Nat) (s t : Scope) (h m : Nat) : Prop where
  initial : s.code.toList <+: t.code.toList
  climbed : ∀ start, Scope.Climbed heights start s h → Scope.Climbed heights start t m

/-- An instance of a closure is made, together with its captures. -/
theorem Scope.ascends_adopted {heights : Label → Option Nat} {h : Nat} (s : Scope) (v : CodeObject)
    (relay : Outers.Relay) (hn : s.children.size ≤ Instruction.maxUnsigned)
    (hc : ∀ c ∈ relay.captures, c.operand ≤ Instruction.maxUnsigned) :
    Scope.Ascends heights s (s.adopted .makeClosure v relay) h (h + 1) := by
  let grown : Scope := { s with outers := relay.parent, children := s.children.push v }
  refine ⟨grown.initial_appendedAll _, fun start hs => ?_⟩
  have hgrown : Scope.Climbed heights start grown h := hs.congr rfl rfl rfl
  exact (hgrown.write (Instruction.opcode?_pack (Nat.lt_succ_of_le hn)) rfl
    (.of_eq (Nat.zero_le _) rfl)).captured hc

namespace Script.Climbs

variable {heights : Label → Option Nat} {xs : Script} {h k : Nat} {a b : Assembler} {u : Unit}

/-- A closure is made, whatever its body does. -/
theorem run_unit {kind : ScopeKind} {signature : Signature} {body : Script}
    (hx : Step.run (.unit .makeClosure kind signature body) a = .ok u b) :
    Scope.Ascends heights a.current b.current h (h + 1) := by
  obtain ⟨n, _, t, c, child, d, he, hd, hb, hl, hc⟩ := Step.run_unit_eq_ok.mp hx
  obtain ⟨-, rfl⟩ := Assembler.enterScope_eq_ok.mp he
  obtain ⟨parent, rest, _, relay, hparent, -, -, -, rfl, rfl⟩ := Assembler.leaveScope_eq_ok.mp hl
  obtain ⟨rfl, rfl⟩ := List.cons.inj (hparent.symm.trans (Step.frame_of_runAll body hb).1)
  obtain ⟨hn, hcaptures, rfl⟩ := Assembler.eq_of_emitChild hc
  exact a.current.ascends_adopted _ relay hn hcaptures

/-- The first step of a script that climbs, and what remains. -/
theorem uncons {x : Step} (hx : Climbs heights (x :: xs) h k) (hr : Step.run x a = .ok u b) :
    ∃ m, Climbs heights xs m k ∧ Scope.Ascends heights a.current b.current h m := by
  cases hx with
  | quiet hx hxs =>
    obtain ⟨-, t, hat, ht⟩ := Step.run_quiet hx hr
    refine ⟨h, hxs, ?_⟩
    obtain rfl | ⟨line, hn, hl⟩ := ht
    · exact ⟨hat.initial, fun _ ha => ha.alike hat⟩
    · rw [hl]
      exact ⟨hat.initial.trans (t.initial_appended _), fun _ ha => (ha.alike hat).write
        (Instruction.opcode?_pack (Nat.lt_succ_of_le hn)) rfl (.of_eq (Nat.zero_le _) rfl)⟩
  | newLabel hxs =>
    obtain ⟨l, hr⟩ := Edit.ignore_eq_ok.mp hr
    obtain ⟨s, hs, rfl⟩ := Assembler.onCurrent_eq_ok.mp hr
    obtain ⟨-, rfl⟩ := Scope.newLabel_eq_ok.mp hs
    exact ⟨h, hxs, List.prefix_refl _, fun _ ha => ha.newLabel⟩
  | @write _ _ _ m _ hx hi hxs =>
    obtain ⟨-, t, i, hat, hw, ht⟩ := Step.run_write hx hr
    obtain ⟨op, hop, hj, hm⟩ := hi i hw
    refine ⟨m, hxs, ?_⟩
    rw [ht]
    exact ⟨hat.initial.trans (t.initial_appended i), fun _ ha => (ha.alike hat).write hop hj hm⟩
  | @jump op l _ _ m _ hl hm hxs =>
    obtain ⟨p, hr⟩ := Edit.ignore_eq_ok.mp hr
    obtain ⟨s, hs, rfl⟩ := Assembler.onCurrent_eq_ok.mp hr
    obtain ⟨-, hin, -, rfl⟩ := Scope.emitJump_eq_ok.mp hs
    exact ⟨m, hxs, a.current.initial_appended _, fun _ ha => ha.jump hin hl hm⟩
  | place hl hxs =>
    obtain ⟨s, hs, rfl⟩ := Assembler.onCurrent_eq_ok.mp hr
    obtain ⟨hin, -, rfl⟩ := Scope.placeLabel_eq_ok.mp hs
    exact ⟨h, hxs, List.prefix_refl _, fun _ ha => ha.place hin hl⟩
  | unit hxs => exact ⟨h + 1, hxs, run_unit hr⟩

/-- A script that climbs leads from height to height when it is run. -/
theorem run (hx : Climbs heights xs h k) (hr : Step.runAll xs a = .ok u b) :
    Scope.Ascends heights a.current b.current h k := by
  induction xs generalizing h a with
  | nil =>
    cases hx
    obtain ⟨-, rfl⟩ := Edit.pure_eq_ok.mp hr
    exact ⟨List.prefix_refl _, fun _ ha => ha⟩
  | cons x xs ih =>
    obtain ⟨c, hc, hr⟩ := Step.runAll_cons_eq_ok.mp hr
    obtain ⟨m, hxs, hfirst⟩ := hx.uncons hc
    have hrest := ih hxs hr
    exact ⟨hfirst.initial.trans hrest.initial, fun start ha =>
      hrest.climbed start (hfirst.climbed start ha)⟩

end Script.Climbs

end StackCode
