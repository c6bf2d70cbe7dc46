import Mathlib.Data.List.Induction
import StackCode.Proofs.Linked
import StackCode.Proofs.Outcomes

/-!
# The discipline of slots

A scope keeps three tables of its variables: the names that are alive, the marks of the open blocks
and, where lifetimes are recorded, the entries of the living variables. Whatever is asked of a scope,
in whatever order, the tables fit together.

* `Scope.Request`, `Scope.behind`, `Scope.behindAll`: what can be asked of a scope, and what it leaves,
  failures included;
* `Scope.Moves`, `Scope.moves_behind`: all that one request can do to the tables;
* `Recorder.Mirrors`: the living entries are the living names, slot by slot;
* `Scope.Fitting`, `Fitting.behind`: the tables fit together, and a request keeps it so;
* `Scope.OpenedBy`: the block that is open behind some requests, and where it was entered;
* `Scope.Discipline`, `Scope.disciplined`: what holds behind any requests to a new scope.
-/

namespace StackCode

open Edit (left Ends)

namespace Scope

/-! ### Requests -/

/-- What can be asked of a scope. -/
inductive Request where
  | declare (name : String)
  | enterBlock
  | leaveBlock
  | lookup (name : String)
  | emit (i : Instruction)
  | emitJump (op : Opcode) (l : Label)
  | discard

/-- The scope behind a request, which may have failed. -/
def behind (s : Scope) : Request → Scope
  | .declare name => left (declare name) s
  | .enterBlock => left enterBlock s
  | .leaveBlock => left leaveBlock s
  | .lookup _ => s
  | .emit i => left (emit i) s
  | .emitJump op l => left (emitJump op l) s
  | .discard => left discard s

/-- The scope behind several requests. -/
def behindAll (s : Scope) (requests : List Request) : Scope := requests.foldl behind s

theorem behindAll_append (s : Scope) (front back : List Request) :
    s.behindAll (front ++ back) = (s.behindAll front).behindAll back := List.foldl_append

theorem behindAll_concat (s : Scope) (front : List Request) (r : Request) :
    s.behindAll (front ++ [r]) = (s.behindAll front).behind r := behindAll_append s front [r]

/-! ### What one request does -/

/-- Nothing happens to the tables of variables. -/
structure SlotsKept (s t : Scope) : Prop where
  locals : t.locals = s.locals
  blocks : t.blocks = s.blocks
  recorder : t.recorder = s.recorder

theorem SlotsKept.refl (s : Scope) : SlotsKept s s := ⟨rfl, rfl, rfl⟩

/-- All that a request can do to the tables of variables. -/
inductive Moves (s : Scope) : Request → Scope → Prop where
  /-- Anything but entering a block may do nothing, leaving one only where none is open. -/
  | same {r : Request} {t : Scope} (ht : SlotsKept s t) (hr : r ≠ .enterBlock)
      (hb : r = .leaveBlock → s.blocks = []) : Moves s r t
  | fresh {name : String} {t : Scope} (hname : name ∉ s.locals.active)
      (hlocals : t.locals
        = ⟨s.locals.active ++ [name], max s.locals.highWater (s.locals.active.length + 1)⟩)
      (hblocks : t.blocks = s.blocks)
      (hrecorder : t.recorder = s.recorder.map (·.start name s.code.size)) :
      Moves s (.declare name) t
  | entered {t : Scope} (hlocals : t.locals = s.locals)
      (hblocks : t.blocks = s.locals.active.length :: s.blocks)
      (hrecorder : t.recorder = s.recorder) : Moves s .enterBlock t
  | leaves {m : Nat} {t : Scope} (hopen : s.blocks = m :: t.blocks)
      (hlocals : t.locals = { s.locals with active := s.locals.active.take m })
      (hrecorder : t.recorder
        = s.recorder.map (·.stop (s.locals.active.length - m) s.code.size)) :
      Moves s .leaveBlock t

theorem ends_emit (i : Instruction) (s : Scope) : Ends (emit i) s (SlotsKept s) := by
  unfold Ends
  rw [left_emit]
  split
  · exact .refl s
  · exact ⟨rfl, rfl, rfl⟩

theorem ends_emitJump (op : Opcode) (l : Label) (s : Scope) :
    Ends (emitJump op l) s (SlotsKept s) := by
  apply Ends.seq (ends_emit (.plain op) s) (fun _ h => h)
  intro p t ht
  apply Ends.seq (P := SlotsKept s) _ (fun _ h => h) (fun _ _ h => Ends.pure h)
  exact Ends.within ⟨ht.locals, ht.blocks, ht.recorder⟩

theorem ends_discard (s : Scope) : Ends discard s (SlotsKept s) := by
  apply Ends.get_bind
  split
  · exact Ends.set ⟨rfl, rfl, rfl⟩
  · exact Ends.ignore (ends_emit (.plain .pop) s)

theorem lookup?_eq_none_iff {slots : Slots} {name : String} :
    slots.lookup? name = none ↔ name ∉ slots.active := List.idxOf?_eq_none_iff

/-- A name that is alive keeps its slot, and nothing changes. -/
theorem declare_of_lookup? {s : Scope} {name : String} {slot : Nat}
    (h : s.locals.lookup? name = some slot) : declare name s = .ok slot s := by
  apply declare_eq_ok.mpr
  refine ⟨false, s.locals, ?_, rfl⟩
  simp only [Slots.declare, h]

/-- Any other name gets the next slot. -/
theorem declare_of_fresh {s : Scope} {name : String} (h : name ∉ s.locals.active)
    (hroom : s.locals.active.length ≤ Instruction.maxUnsigned) :
    declare name s = .ok s.locals.active.length { s with
      locals := ⟨s.locals.active ++ [name], max s.locals.highWater (s.locals.active.length + 1)⟩
      recorder := s.recorder.map (·.start name s.code.size) } := by
  apply declare_eq_ok.mpr
  refine ⟨true, _, ?_, rfl⟩
  simp only [Slots.declare, lookup?_eq_none_iff.mpr h, if_neg (Nat.not_lt.mpr hroom)]

/-- When the operand field has no room for another slot, nothing changes. -/
theorem declare_of_full {s : Scope} {name : String} (h : name ∉ s.locals.active)
    (hfull : Instruction.maxUnsigned < s.locals.active.length) :
    declare name s
      = .error (.overflow .localSlots s.locals.active.length Instruction.maxUnsigned) s := by
  have hslots : s.locals.declare name
      = .error (.overflow .localSlots s.locals.active.length Instruction.maxUnsigned) := by
    simp only [Slots.declare, lookup?_eq_none_iff.mpr h, if_pos hfull]
  show (Edit.ofExcept (s.locals.declare name) >>= _ : Edit Scope Nat) s = _
  rw [hslots]
  rfl

theorem moves_declare (s : Scope) (name : String) :
    Moves s (.declare name) (left (declare name) s) := by
  cases h : s.locals.lookup? name with
  | some slot =>
    rw [Edit.left_of_ok (declare_of_lookup? h)]
    exact .same (.refl s) Request.noConfusion Request.noConfusion
  | none =>
    have hname := lookup?_eq_none_iff.mp h
    by_cases hroom : s.locals.active.length ≤ Instruction.maxUnsigned
    · rw [Edit.left_of_ok (declare_of_fresh hname hroom)]
      exact .fresh hname rfl rfl rfl
    · rw [Edit.left_of_error (declare_of_full hname (Nat.lt_of_not_le hroom))]
      exact .same (.refl s) Request.noConfusion Request.noConfusion

theorem moves_leaveBlock (s : Scope) : Moves s .leaveBlock (left leaveBlock s) := by
  cases h : s.blocks with
  | nil =>
    rw [Edit.left_of_error (leaveBlock_of_nil h)]
    exact .same (.refl s) Request.noConfusion fun _ => h
  | cons m blocks =>
    rw [Edit.left_of_ok (leaveBlock_eq_ok (u := ()) |>.mpr ⟨m, blocks, h, rfl⟩)]
    exact .leaves h rfl rfl

/-- Every request moves the tables in one of these ways. -/
theorem moves_behind (s : Scope) (r : Request) : Moves s r (s.behind r) := by
  cases r with
  | declare name => exact moves_declare s name
  | enterBlock => exact .entered rfl rfl rfl
  | leaveBlock => exact moves_leaveBlock s
  | lookup name => exact .same (.refl s) Request.noConfusion Request.noConfusion
  | emit i => exact .same (ends_emit i s) Request.noConfusion Request.noConfusion
  | emitJump op l => exact .same (ends_emitJump op l s) Request.noConfusion Request.noConfusion
  | discard => exact .same (ends_discard s) Request.noConfusion Request.noConfusion

end Scope

/-! ### The record of the living variables -/

namespace Recorder

/-- The living entries, the earliest first, have the names that are alive, slot by slot. -/
def Mirrors (r : Recorder) (names : List String) : Prop :=
  r.alive.reverse.map (fun i => r.lifetimes[i]?.map Lifetime.name) = names.map some

variable {r : Recorder} {names : List String}

theorem Mirrors.length_eq (h : r.Mirrors names) : r.alive.length = names.length := by
  have hlen := congrArg List.length h
  simpa using hlen

/-- A living entry is among those recorded. -/
theorem Mirrors.lt_of_mem (h : r.Mirrors names) {i : Nat} (hi : i ∈ r.alive) :
    i < r.lifetimes.size := by
  have hmem : r.lifetimes[i]?.map Lifetime.name ∈ names.map some := by
    rw [← h]
    exact List.mem_map.mpr ⟨i, List.mem_reverse.mpr hi, rfl⟩
  obtain ⟨name, -, hname⟩ := List.mem_map.mp hmem
  obtain ⟨v, hv, -⟩ := Option.map_eq_some_iff.mp hname.symm
  exact (Array.getElem?_eq_some_iff.mp hv).1

theorem Mirrors.start (h : r.Mirrors names) (name : String) (position : Nat) :
    (r.start name position).Mirrors (names ++ [name]) := by
  unfold Mirrors Recorder.start
  simp only [List.reverse_cons, List.map_append, List.map_cons, List.map_nil]
  congr 1
  · rw [← h]
    apply List.map_congr_left
    intro i hi
    have hlt := h.lt_of_mem (List.mem_reverse.mp hi)
    rw [Array.getElem?_push_lt hlt, Array.getElem?_eq_getElem hlt]
  · rw [Array.getElem?_push_size]
    rfl

/-- The end of a variable does not change names. -/
theorem name_endAt (lifetimes : Array Lifetime) (position i j : Nat) :
    (endAt lifetimes position i)[j]?.map Lifetime.name = lifetimes[j]?.map Lifetime.name := by
  unfold endAt
  rw [Array.getElem?_modify]
  split
  · rw [Option.map_map]
    rfl
  · rfl

theorem name_foldl_endAt (dead : List Nat) (lifetimes : Array Lifetime) (position j : Nat) :
    (dead.foldl (endAt · position) lifetimes)[j]?.map Lifetime.name
      = lifetimes[j]?.map Lifetime.name := by
  induction dead generalizing lifetimes with
  | nil => rfl
  | cons i dead ih => rw [List.foldl_cons, ih, name_endAt]

/-- When the variables behind the first `m` die, the first `m` entries stay. -/
theorem Mirrors.stop (h : r.Mirrors names) {m : Nat} (hm : m ≤ names.length) (position : Nat) :
    (r.stop (names.length - m) position).Mirrors (names.take m) := by
  unfold Mirrors Recorder.stop
  simp only [name_foldl_endAt]
  have hm' : r.alive.length - (names.length - m) = m := by
    rw [h.length_eq]
    omega
  rw [List.reverse_drop, hm', List.map_take, List.map_take, h]

end Recorder

namespace Scope

/-! ### The tables fit together -/

/-- The tables of variables fit together. -/
structure Fitting (s : Scope) : Prop where
  nodup : s.locals.active.Nodup
  highWater : s.locals.active.length ≤ s.locals.highWater
  marks : ∀ m ∈ s.blocks, m ≤ s.locals.active.length
  nested : s.blocks.Pairwise (· ≥ ·)
  mirrors : ∀ r, s.recorder = some r → r.Mirrors s.locals.active

theorem fitting_new (number : Nat) (kind : ScopeKind) (signature : Signature) (record : Bool) :
    (new number kind signature record).Fitting := by
  refine ⟨List.nodup_nil, Nat.le_refl 0, ?_, List.Pairwise.nil, ?_⟩
  · intro m hm
    cases hm
  · intro r hr
    cases record with
    | true =>
      obtain rfl := Option.some.inj hr
      rfl
    | false => cases hr

namespace Fitting

variable {s t : Scope} {r : Request}

theorem move (h : s.Fitting) (hm : Moves s r t) : t.Fitting := by
  cases hm with
  | same ht =>
    refine ⟨?_, ?_, ?_, ?_, ?_⟩
    · rw [ht.locals]
      exact h.nodup
    · rw [ht.locals]
      exact h.highWater
    · rw [ht.locals, ht.blocks]
      exact h.marks
    · rw [ht.blocks]
      exact h.nested
    · rw [ht.locals, ht.recorder]
      exact h.mirrors
  | @fresh name _ hname hlocals hblocks hrecorder =>
    refine ⟨?_, ?_, ?_, ?_, ?_⟩
    · rw [hlocals, List.nodup_append]
      refine ⟨h.nodup, by simp, ?_⟩
      intro x hx y hy hxy
      rw [List.mem_singleton.mp hy] at hxy
      exact hname (hxy ▸ hx)
    · rw [hlocals]
      simp only [List.length_append, List.length_singleton]
      omega
    · rw [hlocals, hblocks]
      intro m hm
      have hle := h.marks m hm
      simp only [List.length_append, List.length_singleton]
      omega
    · rw [hblocks]
      exact h.nested
    · rw [hlocals, hrecorder]
      intro r hr
      obtain ⟨r₀, hr₀, rfl⟩ := Option.map_eq_some_iff.mp hr
      exact (h.mirrors r₀ hr₀).start name s.code.size
  | entered hlocals hblocks hrecorder =>
    refine ⟨?_, ?_, ?_, ?_, ?_⟩
    · rw [hlocals]
      exact h.nodup
    · rw [hlocals]
      exact h.highWater
    · rw [hlocals, hblocks]
      exact List.forall_mem_cons.mpr ⟨Nat.le_refl _, h.marks⟩
    · rw [hblocks]
      exact List.pairwise_cons.mpr ⟨h.marks, h.nested⟩
    · rw [hlocals, hrecorder]
      exact h.mirrors
  | @leaves m _ hopen hlocals hrecorder =>
    have hmarks := h.marks
    have hnested := h.nested
    rw [hopen] at hmarks hnested
    obtain ⟨hbelow, hnested⟩ := List.pairwise_cons.mp hnested
    obtain ⟨hm, -⟩ := List.forall_mem_cons.mp hmarks
    have hlength : (s.locals.active.take m).length = m := by
      rw [List.length_take]
      omega
    refine ⟨?_, ?_, ?_, hnested, ?_⟩
    · rw [hlocals]
      exact h.nodup.sublist (List.take_sublist m _)
    · rw [hlocals]
      simp only [hlength]
      have hle := h.highWater
      omega
    · rw [hlocals]
      simp only [hlength]
      exact hbelow
    · rw [hlocals, hrecorder]
      intro r hr
      obtain ⟨r₀, hr₀, rfl⟩ := Option.map_eq_some_iff.mp hr
      exact (h.mirrors r₀ hr₀).stop hm s.code.size

theorem behind (h : s.Fitting) (r : Request) : (s.behind r).Fitting := h.move (moves_behind s r)

theorem behindAll (h : s.Fitting) (requests : List Request) : (s.behindAll requests).Fitting := by
  induction requests generalizing s with
  | nil => exact h
  | cons r requests ih => exact ih (h.behind r)

/-- Where no name occurs twice, the slot of a name is its place. -/
theorem lookup?_eq_some_iff (h : s.Fitting) {name : String} {slot : Nat} :
    s.locals.lookup? name = some slot ↔ s.locals.active[slot]? = some name := by
  constructor
  · exact Slots.getElem?_of_lookup?
  · intro hslot
    cases hl : s.locals.lookup? name with
    | none => exact absurd (List.mem_of_getElem? hslot) (lookup?_eq_none_iff.mp hl)
    | some k =>
      rw [eq_of_getElem?_of_nodup h.nodup hslot (Slots.getElem?_of_lookup? hl)]

end Fitting

/-! ### Open blocks -/

/-- How many blocks are open behind a request where `n` were open before, unless it leaves one too
many. -/
def Request.level : Request → Nat → Option Nat
  | .enterBlock, n => some (n + 1)
  | .leaveBlock, 0 => none
  | .leaveBlock, n + 1 => some n
  | _, n => some n

/-- How many blocks are open behind several requests, unless they leave one too many. -/
def level (requests : List Request) (n : Nat) : Option Nat :=
  requests.foldlM (fun n r => r.level n) n

theorem level_append (front back : List Request) (n : Nat) :
    level (front ++ back) n = (level front n).bind (level back) := List.foldlM_append

/-- The innermost block that is open behind the requests was entered behind `front`; since then
blocks were entered and left in pairs. -/
def OpenedBy (requests front : List Request) : Prop :=
  ∃ body, requests = front ++ .enterBlock :: body ∧ level body 0 = some 0

theorem Request.level_of_ne {r : Request} (he : r ≠ .enterBlock) (hl : r ≠ .leaveBlock) (n : Nat) :
    r.level n = some n := by
  cases r with
  | enterBlock => exact absurd rfl he
  | leaveBlock => exact absurd rfl hl
  | _ => rfl

theorem level_concat {body : List Request} {r : Request} {n i j : Nat} (hbody : level body n = some i)
    (hr : r.level i = some j) : level (body ++ [r]) n = some j := by
  rw [level_append, hbody, Option.bind_some]
  simp [level, hr]

/-- Every open block was entered by some request, behind which the others were entered and left. -/
theorem exists_entered {start : Scope} (hstart : start.blocks = []) (requests : List Request) :
    ∀ i < (start.behindAll requests).blocks.length,
      ∃ front body, requests = front ++ .enterBlock :: body ∧ level body 0 = some i := by
  induction requests using List.reverseRecOn with
  | nil =>
    intro i hi
    change i < start.blocks.length at hi
    simp [hstart] at hi
  | append_singleton requests r ih =>
    intro i hi
    rw [behindAll_concat] at hi
    -- a block that was open before stays so, at another level
    have carry : ∀ j, j < (start.behindAll requests).blocks.length → r.level j = some i →
        ∃ front body, requests ++ [r] = front ++ .enterBlock :: body ∧ level body 0 = some i := by
      intro j hj hr
      obtain ⟨front, body, rfl, hbody⟩ := ih j hj
      exact ⟨front, body ++ [r], by simp, level_concat hbody hr⟩
    cases moves_behind (start.behindAll requests) r with
    | same ht hne hopen =>
      rw [ht.blocks] at hi
      apply carry i hi
      apply Request.level_of_ne hne
      intro hr
      rw [hopen hr] at hi
      exact Nat.not_lt_zero i hi
    | fresh _ _ hblocks =>
      rw [hblocks] at hi
      exact carry i hi rfl
    | entered _ hblocks =>
      rw [hblocks, List.length_cons] at hi
      cases i with
      | zero => exact ⟨requests, [], rfl, rfl⟩
      | succ j => exact carry j (Nat.lt_of_succ_lt_succ hi) rfl
    | leaves hopen =>
      refine carry (i + 1) ?_ rfl
      rw [hopen, List.length_cons]
      exact Nat.succ_lt_succ hi

/-- Inside a block that was entered with mark `m` in the blocks `outer` while `names` were alive, `n`
more blocks are open, and the variables below the mark are still the same. -/
structure Inside (names : List String) (outer : List Nat) (n : Nat) (s : Scope) : Prop where
  blocks : ∃ inner, s.blocks = inner ++ names.length :: outer ∧ inner.length = n
    ∧ ∀ x ∈ inner, names.length ≤ x
  active : s.locals.active.take names.length = names

namespace Inside

variable {names : List String} {outer : List Nat} {n k : Nat} {s t : Scope} {r : Request}

theorem length_le (h : Inside names outer n s) : names.length ≤ s.locals.active.length := by
  have hlen := congrArg List.length h.active
  rw [List.length_take] at hlen
  omega

theorem move (h : Inside names outer n s) (hm : Moves s r t) (hr : r.level n = some k) :
    Inside names outer k t := by
  obtain ⟨inner, hblocks, hlength, hinner⟩ := h.blocks
  cases hm with
  | same ht hne hopen =>
    have hleave : r ≠ .leaveBlock := by
      intro hr
      rw [hopen hr] at hblocks
      simp at hblocks
    rw [Request.level_of_ne hne hleave] at hr
    obtain rfl := Option.some.inj hr
    refine ⟨⟨inner, ht.blocks.trans hblocks, hlength, hinner⟩, ?_⟩
    rw [ht.locals]
    exact h.active
  | fresh _ hlocals hsame =>
    obtain rfl := Option.some.inj hr
    refine ⟨⟨inner, hsame.trans hblocks, hlength, hinner⟩, ?_⟩
    rw [hlocals]
    simp only [List.take_append_of_le_length h.length_le]
    exact h.active
  | entered hlocals hcons =>
    obtain rfl := Option.some.inj hr
    refine ⟨⟨s.locals.active.length :: inner, ?_, ?_, ?_⟩, ?_⟩
    · rw [hcons, hblocks, List.cons_append]
    · rw [List.length_cons, hlength]
    · exact List.forall_mem_cons.mpr ⟨h.length_le, hinner⟩
    · rw [hlocals]
      exact h.active
  | @leaves m _ hopen hlocals =>
    -- the block that is left is one of the inner ones, so its mark is not below ours
    cases inner with
    | nil =>
      rw [List.length_nil] at hlength
      subst hlength
      cases hr
    | cons x inner =>
      rw [List.length_cons] at hlength
      subst hlength
      obtain rfl := Option.some.inj hr
      rw [hopen, List.cons_append] at hblocks
      obtain ⟨rfl, houter⟩ := List.cons.inj hblocks
      obtain ⟨hx, hinner⟩ := List.forall_mem_cons.mp hinner
      refine ⟨⟨inner, houter, rfl, hinner⟩, ?_⟩
      rw [hlocals]
      simp only [List.take_take, Nat.min_eq_left hx]
      exact h.active

theorem behindAll (h : Inside names outer n s) (body : List Request) (hbody : level body n = some k) :
    Inside names outer k (s.behindAll body) := by
  induction body generalizing n s with
  | nil =>
    obtain rfl := Option.some.inj hbody
    exact h
  | cons r body ih =>
    obtain ⟨m, hr, hrest⟩ := Option.bind_eq_some_iff.mp hbody
    exact ih (h.move (moves_behind s r) hr) hrest

/-- Leaving the block itself brings back the names that were alive when it was entered. -/
theorem leaveBlock (h : Inside names outer 0 s) :
    ∃ t, Scope.leaveBlock s = .ok () t ∧ t.locals.active = names := by
  obtain ⟨inner, hblocks, hlength, -⟩ := h.blocks
  rw [List.length_eq_zero_iff.mp hlength, List.nil_append] at hblocks
  exact ⟨_, leaveBlock_eq_ok.mpr ⟨_, _, hblocks, rfl⟩, h.active⟩

end Inside

theorem leaveBlock_of_openedBy {start : Scope} {requests front : List Request}
    (h : OpenedBy requests front) :
    ∃ t, leaveBlock (start.behindAll requests) = .ok () t
      ∧ t.locals.active = (start.behindAll front).locals.active := by
  obtain ⟨body, rfl, hbody⟩ := h
  have entered : Inside (start.behindAll front).locals.active (start.behindAll front).blocks 0
      ((start.behindAll front).behind .enterBlock) :=
    ⟨⟨[], rfl, rfl, fun _ hx => absurd hx List.not_mem_nil⟩, List.take_length⟩
  rw [behindAll_append]
  exact (entered.behindAll body hbody).leaveBlock

theorem leaveBlock_of_not_openedBy {start : Scope} (hstart : start.blocks = [])
    {requests : List Request} (h : ∀ front, ¬ OpenedBy requests front) :
    leaveBlock (start.behindAll requests)
      = .error (.fault .unmatchedBlockEnd) (start.behindAll requests) := by
  apply leaveBlock_of_nil
  apply List.eq_nil_of_length_eq_zero
  apply Nat.eq_zero_of_not_pos
  intro hpos
  obtain ⟨front, body, hrequests, hbody⟩ := exists_entered hstart requests 0 hpos
  exact h front ⟨body, hrequests, hbody⟩

/-! ### The largest number of variables -/

theorem Fitting.highWater_move {s t : Scope} {r : Request} (h : s.Fitting) (hm : Moves s r t) :
    t.locals.highWater = max s.locals.highWater t.locals.active.length := by
  have hle := h.highWater
  cases hm with
  | same ht =>
    rw [ht.locals]
    omega
  | fresh _ hlocals =>
    rw [hlocals]
    simp only [List.length_append, List.length_singleton]
  | entered hlocals =>
    rw [hlocals]
    omega
  | leaves _ hlocals =>
    rw [hlocals]
    simp only [List.length_take]
    omega

/-- The high-water mark is the largest number of names alive at any time. -/
theorem Fitting.count_behindAll {start : Scope} (h : start.Fitting)
    (hstart : start.locals.highWater = start.locals.active.length) (requests : List Request) :
    (∃ past, past <+: requests
        ∧ (start.behindAll past).locals.active.length = (start.behindAll requests).locals.count)
      ∧ ∀ past, past <+: requests →
        (start.behindAll past).locals.active.length ≤ (start.behindAll requests).locals.count := by
  induction requests using List.reverseRecOn with
  | nil =>
    refine ⟨⟨[], List.prefix_refl _, hstart.symm⟩, ?_⟩
    intro past hpast
    rw [List.prefix_nil.mp hpast]
    exact Nat.le_of_eq hstart.symm
  | append_singleton requests r ih =>
    obtain ⟨⟨past, hpast, hreached⟩, hbound⟩ := ih
    have hcount := (h.behindAll requests).highWater_move (moves_behind _ r)
    rw [← behindAll_concat] at hcount
    unfold Slots.count at hreached hbound ⊢
    rw [hcount]
    constructor
    · rcases Nat.le_total (start.behindAll (requests ++ [r])).locals.active.length
        (start.behindAll requests).locals.highWater with hle | hle
      · refine ⟨past, hpast.trans (List.prefix_append _ _), ?_⟩
        rw [hreached, Nat.max_eq_left hle]
      · exact ⟨requests ++ [r], List.prefix_refl _, (Nat.max_eq_right hle).symm⟩
    · intro past hpast
      rcases List.prefix_concat_iff.mp hpast with rfl | hpast
      · exact Nat.le_max_right _ _
      · exact Nat.le_trans (hbound past hpast) (Nat.le_max_left _ _)

theorem isSome_recorder_behindAll (s : Scope) (requests : List Request) :
    (s.behindAll requests).recorder.isSome = s.recorder.isSome := by
  induction requests generalizing s with
  | nil => rfl
  | cons r requests ih =>
    have hone : (s.behind r).recorder.isSome = s.recorder.isSome := by
      cases moves_behind s r with
      | same ht => rw [ht.recorder]
      | fresh _ _ _ hrecorder => rw [hrecorder, Option.isSome_map]
      | entered _ _ hrecorder => rw [hrecorder]
      | leaves _ _ hrecorder => rw [hrecorder, Option.isSome_map]
    exact (ih (s.behind r)).trans hone

/-! ### The result -/

/-- What holds of the tables of variables behind some requests to `start`. -/
structure Discipline (start : Scope) (record : Bool) (requests : List Request) : Prop where
  nodup : (start.behindAll requests).locals.active.Nodup
  lookup : ∀ name slot, (start.behindAll requests).locals.lookup? name = some slot ↔
    (start.behindAll requests).locals.active[slot]? = some name
  /-- A name that is alive has its slot. -/
  alive : ∀ name slot, (start.behindAll requests).locals.active[slot]? = some name →
    declare name (start.behindAll requests) = .ok slot (start.behindAll requests)
  /-- Any other name gets the lowest slot above all others, which stay where they are. -/
  fresh : ∀ name, name ∉ (start.behindAll requests).locals.active →
    (start.behindAll requests).locals.active.length ≤ Instruction.maxUnsigned →
    ∃ t, declare name (start.behindAll requests)
        = .ok (start.behindAll requests).locals.active.length t
      ∧ t.locals.active = (start.behindAll requests).locals.active ++ [name]
      ∧ ∀ other, other ≠ name →
        t.locals.lookup? other = (start.behindAll requests).locals.lookup? other
  /-- A slot that has no room in an instruction is refused. -/
  full : ∀ name, name ∉ (start.behindAll requests).locals.active →
    Instruction.maxUnsigned < (start.behindAll requests).locals.active.length →
    declare name (start.behindAll requests)
      = .error (.overflow .localSlots (start.behindAll requests).locals.active.length
          Instruction.maxUnsigned) (start.behindAll requests)
  /-- Leaving a block brings back the names that were alive where it was entered. -/
  restored : ∀ front, OpenedBy requests front →
    ∃ t, leaveBlock (start.behindAll requests) = .ok () t
      ∧ t.locals.active = (start.behindAll front).locals.active
  /-- Where no block is open, leaving one is an internal error, and nothing changes. -/
  unmatched : (∀ front, ¬ OpenedBy requests front) →
    leaveBlock (start.behindAll requests)
      = .error (.fault .unmatchedBlockEnd) (start.behindAll requests)
  recording : (start.behindAll requests).recorder.isSome = record
  /-- The open entries of the record are the living variables, in the order of their slots. -/
  mirrors : ∀ r, (start.behindAll requests).recorder = some r →
    r.alive.reverse.map (fun i => r.lifetimes[i]?.map Lifetime.name)
      = (start.behindAll requests).locals.active.map some
  /-- At some time as many names were alive as are counted. -/
  reached : ∃ past, past <+: requests
    ∧ (start.behindAll past).locals.active.length = (start.behindAll requests).locals.count
  /-- At no time more were. -/
  bounded : ∀ past, past <+: requests →
    (start.behindAll past).locals.active.length ≤ (start.behindAll requests).locals.count

/-- A new name at the end moves no other. -/
theorem Fitting.lookup?_concat {s t : Scope} {name other : String} (hs : s.Fitting) (ht : t.Fitting)
    (hactive : t.locals.active = s.locals.active ++ [name]) (hne : other ≠ name) :
    t.locals.lookup? other = s.locals.lookup? other := by
  apply Option.ext
  intro slot
  rw [ht.lookup?_eq_some_iff, hs.lookup?_eq_some_iff, hactive]
  rcases Nat.lt_trichotomy slot s.locals.active.length with hlt | heq | hgt
  · rw [List.getElem?_append_left hlt]
  · rw [heq]
    simp [hne.symm]
  · rw [List.getElem?_eq_none (by simp; omega), List.getElem?_eq_none (by omega)]

/-- **The discipline of slots.** It holds behind any requests to a new scope, with or without a record
of lifetimes. -/
theorem disciplined (number : Nat) (kind : ScopeKind) (signature : Signature) (record : Bool)
    (requests : List Request) :
    Discipline (new number kind signature record) record requests := by
  have hnew := fitting_new number kind signature record
  have hfit := hnew.behindAll requests
  obtain ⟨hreached, hbounded⟩ := hnew.count_behindAll rfl requests
  refine ⟨hfit.nodup, fun _ _ => hfit.lookup?_eq_some_iff, ?_, ?_, ?_, ?_, ?_, ?_, hfit.mirrors,
    hreached, hbounded⟩
  · intro name slot hslot
    exact declare_of_lookup? (hfit.lookup?_eq_some_iff.mpr hslot)
  · intro name hname hroom
    have hdeclare := declare_of_fresh hname hroom
    refine ⟨_, hdeclare, rfl, ?_⟩
    intro other hne
    have hfit' := hfit.behind (.declare name)
    simp only [behind, Edit.left_of_ok hdeclare] at hfit'
    exact hfit.lookup?_concat hfit' rfl hne
  · intro name hname hfull
    exact declare_of_full hname hfull
  · intro front hopen
    exact leaveBlock_of_openedBy hopen
  · intro hnone
    exact leaveBlock_of_not_openedBy rfl hnone
  · rw [isSome_recorder_behindAll]
    cases record <;> rfl

/-- A variable of an inner block gives its slot to the next one; two were alive at once. -/
example :
    let s := (new 0 .global {} true).behindAll [.declare "a", .enterBlock, .emit (.plain .pushNil),
      .declare "b", .declare "a", .leaveBlock, .leaveBlock, .declare "c"]
    s.locals.active = ["a", "c"] ∧ s.locals.count = 2 ∧ s.locals.lookup? "c" = some 1 := by
  decide

end Scope

end StackCode
