import StackCode.Proofs.Alignment

/-!
# Lifetimes of variables

A table of lifetimes gives names and positions only; the slot of a variable is the number of earlier ones
that are alive where it starts. This is the right slot if lifetimes nest: a variable that is declared
later dies no later. Two lifetimes may well start at the same position, or be empty.

* `Lifetime.Nested`, `Lifetime.nameForSlot?_eq`: what a table with nested lifetimes says of a slot;
* `Span`: a variable while its unit is written, with exact positions;
* `Span.close`: the variables of a block die;
* `Recorder.Records`: a record holds the spans, with positions cut to words.
-/

namespace StackCode

/-! ### Reading a table -/

namespace Lifetime

variable {u v : Lifetime} {earlier table : List Lifetime} {ip slot : Nat}

/-- Of two variables the one that is declared later starts no earlier. It dies no later, unless the other
one was dead before. -/
structure Nested (u v : Lifetime) : Prop where
  start : u.start ≤ v.start
  stop : u.stop ≤ v.start ∨ v.stop ≤ u.stop

theorem covers_iff : v.covers ip = true ↔ v.start ≤ ip ∧ ip < v.stop := by
  simp [covers]

/-- While the later variable lives, the earlier one lives just if it lived at its start. -/
theorem Nested.covers_start (h : u.Nested v) (hv : v.covers ip = true) :
    u.covers v.start = u.covers ip := by
  obtain ⟨hstart, hstop⟩ := h
  rw [covers_iff] at hv
  rw [Bool.eq_iff_iff, covers_iff, covers_iff]
  omega

/-- The slot of a variable is the number of earlier variables that live while it lives. -/
theorem slotAfter_eq (h : ∀ u ∈ earlier, u.Nested v) (hv : v.covers ip = true) :
    slotAfter earlier v = earlier.countP (·.covers ip) :=
  List.countP_congr fun u hu => by rw [(h u hu).covers_start hv]

/-- What is found behind the variables `earlier`, which have the first slots. -/
theorem nameIn?_slotsAfter (hip : ip < UInt32.size) (htable : table.Pairwise Nested)
    (hearlier : ∀ u ∈ earlier, ∀ v ∈ table, u.Nested v) :
    nameIn? (slotsAfter earlier table) slot ip
      = if earlier.countP (·.covers ip) ≤ slot then
          ((table.filter (·.covers ip)).map (·.name))[slot - earlier.countP (·.covers ip)]?
        else none := by
  have hcut : ip % UInt32.size = ip := Nat.mod_eq_of_lt hip
  induction table generalizing earlier with
  | nil => simp [slotsAfter, nameIn?]
  | cons v rest ih =>
    obtain ⟨hv, hrest⟩ := List.pairwise_cons.mp htable
    have hnext : nameIn? (slotsAfter (v :: earlier) rest) slot ip = _ := ih hrest fun u hu w hw => by
      obtain rfl | hu := List.mem_cons.mp hu
      · exact hv w hw
      · exact hearlier u hu w (List.mem_cons_of_mem _ hw)
    have hfind : nameIn? (slotsAfter earlier (v :: rest)) slot ip
        = if (v.covers ip && slotAfter earlier v == slot) = true then some v.name
          else nameIn? (slotsAfter (v :: earlier) rest) slot ip := by
      unfold nameIn?
      rw [slotsAfter, hcut, List.find?_cons]
      split
      · next h => rw [if_pos h]; rfl
      · next h => rw [if_neg (Bool.eq_false_iff.mp h)]
    rw [hfind]
    by_cases hcovers : v.covers ip = true
    · have hcount : (v :: earlier).countP (·.covers ip) = earlier.countP (·.covers ip) + 1 :=
        List.countP_cons_of_pos hcovers
      have hfilter : (v :: rest).filter (·.covers ip) = v :: rest.filter (·.covers ip) :=
        List.filter_cons_of_pos hcovers
      have hslot := slotAfter_eq (fun u hu => hearlier u hu v List.mem_cons_self) hcovers
      rw [hnext, hcount, hslot, hcovers, hfilter, List.map_cons]
      simp only [Bool.true_and, beq_iff_eq]
      rcases Nat.lt_trichotomy slot (earlier.countP (·.covers ip)) with hlt | heq | hgt
      · rw [if_neg (by omega), if_neg (by omega), if_neg (by omega)]
      · rw [if_pos heq.symm, if_pos (by omega), heq, Nat.sub_self]
        rfl
      · rw [if_neg (by omega), if_pos (by omega), if_pos (by omega),
          show slot - earlier.countP (·.covers ip) = slot - (earlier.countP (·.covers ip) + 1) + 1 by
            omega, List.getElem?_cons_succ]
    · have hcount : (v :: earlier).countP (·.covers ip) = earlier.countP (·.covers ip) :=
        List.countP_cons_of_neg hcovers
      have hfilter : (v :: rest).filter (·.covers ip) = rest.filter (·.covers ip) :=
        List.filter_cons_of_neg hcovers
      rw [hnext, hcount, hfilter, Bool.eq_false_iff.mpr hcovers, Bool.false_and,
        if_neg Bool.false_ne_true]

/-- A table with nested lifetimes has the living variables in the slots, in the order of their
declarations. -/
theorem nameForSlot?_eq (htable : table.Pairwise Nested) (hip : ip < UInt32.size) (slot : Nat) :
    nameForSlot? table slot ip = ((table.filter (·.covers ip)).map (·.name))[slot]? := by
  have h : nameIn? (slotsAfter [] table) slot ip = _ :=
    nameIn?_slotsAfter hip htable fun u hu => absurd hu List.not_mem_nil
  rw [nameForSlot?, slots, h, List.countP_nil, if_pos (Nat.zero_le _), Nat.sub_zero]

end Lifetime

/-! ### Spans -/

/-- A variable while its unit is written: where it starts and, if it is dead, where it died. -/
structure Span where
  name : String
  start : Nat
  stop : Option Nat := none

namespace Span

variable {u v w : Span} {vs : List Span} {bound p q n : Nat}

def lives (v : Span) : Bool := v.stop.isNone

/-- Whether the variable lives at position `p`. -/
def covers (v : Span) (p : Nat) : Bool := v.start ≤ p && v.stop.all (p < ·)

def closedAt (v : Span) (p : Nat) : Span := { v with stop := some p }

/-- The lifetime by which a variable is recorded. -/
def lifetime (v : Span) : Lifetime :=
  ⟨v.name, Recorder.cut v.start, v.stop.elim Recorder.unending Recorder.cut⟩

/-- The first `n` living variables stay alive, the others die at position `p`. -/
def close (p : Nat) : Nat → List Span → List Span
  | _, [] => []
  | 0, v :: vs => (if v.lives then v.closedAt p else v) :: close p 0 vs
  | n + 1, v :: vs => v :: close p (if v.lives then n else n + 1) vs

/-- The names of the living variables. -/
def active (vs : List Span) : List String := (vs.filter lives).map (·.name)

/-- The names of the variables that live at position `p`. -/
def activeAt (vs : List Span) (p : Nat) : List String := (vs.filter (·.covers p)).map (·.name)

/-- The variable is recorded at positions up to `bound` only. -/
def Bounded (bound : Nat) (v : Span) : Prop := v.start ≤ bound ∧ ∀ q, v.stop = some q → q ≤ bound

/-- Of two variables the one that is declared later starts no earlier, and it dies first, unless the other
one was dead before. -/
structure Nested (u v : Span) : Prop where
  start : u.start ≤ v.start
  stop : ∀ q, u.stop = some q → q ≤ v.start ∨ ∃ r, v.stop = some r ∧ r ≤ q

theorem covers_iff : v.covers p = true ↔ v.start ≤ p ∧ ∀ q, v.stop = some q → p < q := by
  cases h : v.stop with
  | none => simp [covers, h]
  | some q => simp [covers, h]

theorem Bounded.mono (h : v.Bounded bound) (hb : bound ≤ p) : v.Bounded p :=
  ⟨Nat.le_trans h.1 hb, fun q hq => Nat.le_trans (h.2 q hq) hb⟩

/-- Behind all that is recorded, the living variables live. -/
theorem Bounded.covers_eq (h : v.Bounded bound) (hp : bound ≤ p) : v.covers p = v.lives := by
  rw [Bool.eq_iff_iff, covers_iff, lives, Option.isNone_iff_eq_none]
  constructor
  · rintro ⟨-, hstop⟩
    cases hs : v.stop with
    | none => rfl
    | some q =>
      have h₁ := hstop q hs
      have h₂ := h.2 q hs
      omega
  · intro hs
    refine ⟨Nat.le_trans h.1 hp, fun q hq => ?_⟩
    rw [hs] at hq
    cases hq

theorem activeAt_eq (h : ∀ v ∈ vs, v.Bounded bound) (hp : bound ≤ p) :
    activeAt vs p = active vs := by
  rw [activeAt, active, List.filter_congr fun v hv => (h v hv).covers_eq hp]

/-- A variable that starts at `p` does not live before. -/
theorem activeAt_concat (hp : p < v.start) : activeAt (vs ++ [v]) p = activeAt vs p := by
  have hnot : v.covers p = false := by
    refine Bool.eq_false_iff.mpr fun h => ?_
    have := (covers_iff.mp h).1
    omega
  simp [activeAt, hnot]

theorem active_concat (name : String) (start : Nat) :
    active (vs ++ [⟨name, start, none⟩]) = active vs ++ [name] := by
  rw [active, List.filter_append, List.map_append]
  rfl

/-! ### The end of a block -/

theorem close_cons_dead (h : v.lives = false) : close p n (v :: vs) = v :: close p n vs := by
  cases n <;> simp [close, h]

theorem close_cons_zero (h : v.lives = true) :
    close p 0 (v :: vs) = v.closedAt p :: close p 0 vs := by
  rw [close, if_pos h]

theorem close_cons_succ (h : v.lives = true) : close p (n + 1) (v :: vs) = v :: close p n vs := by
  rw [close, if_pos h]

/-- Variables stay as they are or die. -/
theorem mem_close (h : w ∈ close p n vs) : ∃ v ∈ vs, w = v ∨ (v.lives = true ∧ w = v.closedAt p) := by
  induction vs generalizing n with
  | nil => cases h
  | cons v vs ih =>
    have hrest : ∀ n, w ∈ close p n vs →
        ∃ x ∈ v :: vs, w = x ∨ (x.lives = true ∧ w = x.closedAt p) := by
      intro n hw
      obtain ⟨x, hx, hsame⟩ := ih hw
      exact ⟨x, List.mem_cons_of_mem _ hx, hsame⟩
    cases hv : v.lives with
    | false =>
      rw [close_cons_dead hv] at h
      obtain rfl | h := List.mem_cons.mp h
      · exact ⟨_, List.mem_cons_self, .inl rfl⟩
      · exact hrest n h
    | true =>
      cases n with
      | zero =>
        rw [close_cons_zero hv] at h
        obtain rfl | h := List.mem_cons.mp h
        · exact ⟨v, List.mem_cons_self, .inr ⟨hv, rfl⟩⟩
        · exact hrest 0 h
      | succ n =>
        rw [close_cons_succ hv] at h
        obtain rfl | h := List.mem_cons.mp h
        · exact ⟨_, List.mem_cons_self, .inl rfl⟩
        · exact hrest n h

theorem Bounded.close (h : ∀ v ∈ vs, v.Bounded bound) (hp : bound ≤ p) :
    ∀ w ∈ Span.close p n vs, w.Bounded p := by
  intro w hw
  obtain ⟨v, hv, rfl | ⟨-, rfl⟩⟩ := mem_close hw
  · exact (h w hv).mono hp
  · refine ⟨Nat.le_trans (h v hv).1 hp, fun q hq => ?_⟩
    obtain rfl : p = q := Option.some.inj hq
    exact Nat.le_refl p

/-- When no variable stays alive, all are dead. -/
theorem stop_of_mem_close_zero (h : ∀ v ∈ vs, v.Bounded bound) (hp : bound ≤ p)
    (hw : w ∈ close p 0 vs) : ∃ r, w.stop = some r ∧ r ≤ p := by
  induction vs with
  | nil => cases hw
  | cons v vs ih =>
    obtain ⟨hv, hvs⟩ := List.forall_mem_cons.mp h
    cases hl : v.lives with
    | false =>
      rw [close_cons_dead hl] at hw
      obtain rfl | hw := List.mem_cons.mp hw
      · cases hs : w.stop with
        | none => simp [lives, hs] at hl
        | some r => exact ⟨r, rfl, Nat.le_trans (hv.2 r hs) hp⟩
      · exact ih hvs hw
    | true =>
      rw [close_cons_zero hl] at hw
      obtain rfl | hw := List.mem_cons.mp hw
      · exact ⟨p, rfl, Nat.le_refl p⟩
      · exact ih hvs hw

/-- What nests goes on to do so. -/
theorem nested_close (h : vs.Pairwise Nested) (hb : ∀ v ∈ vs, v.Bounded bound) (hp : bound ≤ p) :
    (close p n vs).Pairwise Nested := by
  induction vs generalizing n with
  | nil => exact .nil
  | cons v vs ih =>
    obtain ⟨hv, hvs⟩ := List.pairwise_cons.mp h
    obtain ⟨-, hbs⟩ := List.forall_mem_cons.mp hb
    -- a variable that stays as it is
    have hkept : ∀ n, (v :: close p n vs).Pairwise Nested := by
      refine fun n => List.pairwise_cons.mpr ⟨fun w hw => ?_, ih hvs hbs⟩
      obtain ⟨x, hx, rfl | ⟨hlives, rfl⟩⟩ := mem_close hw
      · exact hv w hx
      · refine ⟨(hv x hx).start, fun q hq => ?_⟩
        obtain hle | ⟨r, hr, -⟩ := (hv x hx).stop q hq
        · exact .inl hle
        · simp [lives, hr] at hlives
    cases hl : v.lives with
    | false =>
      rw [close_cons_dead hl]
      exact hkept n
    | true =>
      cases n with
      | zero =>
        rw [close_cons_zero hl]
        refine List.pairwise_cons.mpr ⟨fun w hw => ⟨?_, fun q hq => .inr ?_⟩, ih hvs hbs⟩
        · obtain ⟨x, hx, rfl | ⟨-, rfl⟩⟩ := mem_close hw
          · exact (hv w hx).start
          · exact (hv x hx).start
        · obtain rfl : p = q := Option.some.inj hq
          exact stop_of_mem_close_zero hbs hp hw
      | succ n =>
        rw [close_cons_succ hl]
        exact hkept n

/-- The variables that stay alive are the first ones. -/
theorem active_close : active (close p n vs) = (active vs).take n := by
  unfold active
  induction vs generalizing n with
  | nil => simp [close]
  | cons v vs ih =>
    cases hl : v.lives with
    | false => simp [close_cons_dead hl, hl, ih]
    | true =>
      cases n with
      | zero => simp [close_cons_zero hl, closedAt, lives, ih]
      | succ n => simp [close_cons_succ hl, hl, ih]

/-- What has been written is not affected. -/
theorem activeAt_close (hq : q < p) : activeAt (close p n vs) q = activeAt vs q := by
  unfold activeAt
  induction vs generalizing n with
  | nil => simp [close]
  | cons v vs ih =>
    have hsame : ∀ n, ((v :: close p n vs).filter (·.covers q)).map (·.name)
        = ((v :: vs).filter (·.covers q)).map (·.name) := by
      intro n
      rw [List.filter_cons, List.filter_cons]
      split
      · rw [List.map_cons, List.map_cons, ih]
      · exact ih
    cases hl : v.lives with
    | false =>
      rw [close_cons_dead hl]
      exact hsame n
    | true =>
      cases n with
      | zero =>
        have hcovers : (v.closedAt p).covers q = v.covers q := by
          have hs : v.stop = none := Option.isNone_iff_eq_none.mp hl
          rw [Bool.eq_iff_iff, covers_iff, covers_iff]
          simp [closedAt, hs, hq]
        rw [close_cons_zero hl, ← hsame 0, List.filter_cons, List.filter_cons, hcovers]
        split
        · rfl
        · rfl
      | succ n =>
        rw [close_cons_succ hl]
        exact hsame n

/-! ### Places -/

/-- The places of the living variables, the first of all variables having place `i`. -/
def living : Nat → List Span → List Nat
  | _, [] => []
  | i, v :: vs => if v.lives then i :: living (i + 1) vs else living (i + 1) vs

theorem le_of_mem_living {i k : Nat} (h : k ∈ living i vs) : i ≤ k := by
  induction vs generalizing i with
  | nil => cases h
  | cons v vs ih =>
    rw [living] at h
    split at h
    · obtain rfl | h := List.mem_cons.mp h
      · exact Nat.le_refl _
      · exact Nat.le_of_succ_le (ih h)
    · exact Nat.le_of_succ_le (ih h)

theorem living_concat (i : Nat) (name : String) (start : Nat) :
    living i (vs ++ [⟨name, start, none⟩]) = living i vs ++ [i + vs.length] := by
  induction vs generalizing i with
  | nil => rfl
  | cons v vs ih =>
    rw [List.cons_append, living, living, ih, List.length_cons,
      show i + 1 + vs.length = i + (vs.length + 1) by omega]
    split
    · rfl
    · rfl

theorem length_living (i : Nat) : (living i vs).length = (active vs).length := by
  unfold active
  induction vs generalizing i with
  | nil => rfl
  | cons v vs ih =>
    rw [living, List.filter_cons]
    split
    · rw [List.length_cons, List.map_cons, List.length_cons, ih]
    · exact ih (i + 1)

theorem living_close (i : Nat) : living i (close p n vs) = (living i vs).take n := by
  induction vs generalizing i n with
  | nil => simp [close, living]
  | cons v vs ih =>
    cases hl : v.lives with
    | false => simp [close_cons_dead hl, living, hl, ih]
    | true =>
      cases n with
      | zero => simp [close_cons_zero hl, living, closedAt, lives, ih]
      | succ n => simp [close_cons_succ hl, living, hl, ih]

/-- Those die that live, the first `n` of them apart. -/
theorem getElem?_close (i k : Nat) :
    (close p n vs)[k]?
      = vs[k]?.map fun v => if i + k ∈ (living i vs).drop n then v.closedAt p else v := by
  induction vs generalizing i n k with
  | nil => simp [close]
  | cons v vs ih =>
    have hfirst : ∀ n, i ∉ (living (i + 1) vs).drop n := by
      intro n hin
      have := le_of_mem_living (List.mem_of_mem_drop hin)
      omega
    have hlater : ∀ n k, (close p n vs)[k]? = vs[k]?.map fun v =>
        if i + (k + 1) ∈ (living (i + 1) vs).drop n then v.closedAt p else v := by
      intro n k
      rw [show i + (k + 1) = i + 1 + k by omega]
      exact ih (i + 1) k
    cases hl : v.lives with
    | false =>
      rw [close_cons_dead hl, living, if_neg (Bool.eq_false_iff.mp hl)]
      cases k with
      | zero => simp [hfirst n]
      | succ k => exact hlater n k
    | true =>
      rw [living, if_pos hl]
      cases n with
      | zero =>
        rw [close_cons_zero hl]
        cases k with
        | zero => simp
        | succ k =>
          rw [List.getElem?_cons_succ, List.getElem?_cons_succ, hlater 0 k]
          simp
      | succ n =>
        rw [close_cons_succ hl, List.drop_succ_cons]
        cases k with
        | zero => simp [hfirst n]
        | succ k => exact hlater n k

end Span

/-! ### Records -/

/-- A record holds the variables `spans`. -/
structure Recorder.Records (r : Recorder) (spans : List Span) : Prop where
  lifetimes : r.lifetimes.toList = spans.map Span.lifetime
  alive : r.alive = (Span.living 0 spans).reverse

namespace Recorder.Records

variable {r : Recorder} {spans : List Span}

theorem start (h : r.Records spans) (name : String) (p : Nat) :
    (r.start name p).Records (spans ++ [⟨name, p, none⟩]) := by
  have hsize : r.lifetimes.size = spans.length := by
    rw [← Array.length_toList, h.lifetimes, List.length_map]
  refine ⟨?_, ?_⟩
  · show (r.lifetimes.push _).toList = _
    rw [Array.toList_push, h.lifetimes, List.map_append]
    rfl
  · show r.lifetimes.size :: r.alive = _
    rw [Span.living_concat, List.reverse_append, h.alive, hsize, Nat.zero_add]
    rfl

/-- The last `count` living variables die. -/
theorem stop (h : r.Records spans) (count p : Nat) :
    (r.stop count p).Records (Span.close p ((Span.active spans).length - count) spans) := by
  have hlen : (Span.living 0 spans).length = (Span.active spans).length := Span.length_living 0
  refine ⟨List.ext_getElem? fun k => ?_, ?_⟩
  · show ((r.alive.take _).foldl (endAt · p) r.lifetimes).toList[k]? = _
    rw [Array.getElem?_toList, getElem?_foldl_endAt, ← Array.getElem?_toList, h.lifetimes, h.alive,
      List.take_reverse, hlen, List.getElem?_map, List.getElem?_map, Span.getElem?_close 0 k,
      Option.map_map, Option.map_map, Nat.zero_add]
    refine Option.map_congr fun v _ => ?_
    simp only [Function.comp_apply, List.mem_reverse]
    split
    · rfl
    · rfl
  · show r.alive.drop _ = _
    rw [Span.living_close, h.alive, List.drop_reverse, hlen]

/-- All variables die at the end. -/
theorem finish (h : r.Records spans) (p : Nat) :
    r.finish p = (Span.close p 0 spans).map Span.lifetime := by
  have hlen : r.alive.length = (Span.active spans).length := by
    rw [h.alive, List.length_reverse, Span.length_living]
  have hall := (h.stop r.alive.length p).lifetimes
  rw [hlen, Nat.sub_self] at hall
  rw [Recorder.finish, hlen]
  exact hall

end Recorder.Records

/-- A record that is finished at a position that a word can hold is read exactly. -/
theorem Recorder.Records.nameForSlot?_finish {r : Recorder} {spans : List Span} {bound size ip : Nat}
    (h : r.Records spans) (hn : spans.Pairwise Span.Nested) (hb : ∀ v ∈ spans, v.Bounded bound)
    (hsize : bound ≤ size) (hword : size < UInt32.size) (hip : ip < size) (slot : Nat) :
    Lifetime.nameForSlot? (r.finish size) slot ip = (Span.activeAt spans ip)[slot]? := by
  have hdead : ∀ w ∈ Span.close size 0 spans, ∃ q, w.stop = some q
      ∧ w.lifetime = ⟨w.name, w.start, q⟩ := by
    intro w hw
    obtain ⟨q, hq, hle⟩ := Span.stop_of_mem_close_zero hb hsize hw
    have hstart := (Span.Bounded.close hb hsize w hw).1
    refine ⟨q, hq, ?_⟩
    simp only [Span.lifetime, hq, Option.elim_some, Recorder.cut]
    rw [Nat.mod_eq_of_lt (Nat.lt_of_le_of_lt hstart hword),
      Nat.mod_eq_of_lt (Nat.lt_of_le_of_lt hle hword)]
  have hnested : (r.finish size).Pairwise Lifetime.Nested := by
    rw [h.finish, List.pairwise_map]
    refine (Span.nested_close hn hb hsize).imp_of_mem fun {u v} hu hv huv => ?_
    obtain ⟨q, hq, hulife⟩ := hdead u hu
    obtain ⟨q', hq', hvlife⟩ := hdead v hv
    rw [hulife, hvlife]
    refine ⟨huv.start, (huv.stop q hq).imp_right ?_⟩
    rintro ⟨r, hr, hle⟩
    obtain rfl := Option.some.inj (hq'.symm.trans hr)
    exact hle
  rw [Lifetime.nameForSlot?_eq hnested (Nat.lt_trans hip hword), h.finish,
    ← Span.activeAt_close (n := 0) hip, Span.activeAt, List.filter_map, List.map_map]
  have hcovers : (Span.close size 0 spans).filter ((·.covers ip) ∘ Span.lifetime)
      = (Span.close size 0 spans).filter (·.covers ip) := by
    refine List.filter_congr fun w hw => ?_
    obtain ⟨q, hq, hlife⟩ := hdead w hw
    rw [Function.comp_apply, hlife, Bool.eq_iff_iff, Lifetime.covers_iff, Span.covers_iff]
    simp [hq]
  rw [hcovers]
  rfl

end StackCode
