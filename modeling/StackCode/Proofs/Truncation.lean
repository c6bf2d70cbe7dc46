import StackCode.Image.Reader
import StackCode.Proofs.Readers

/-!
# Reading is decided by a front of the input

A reader that takes its input byte by byte can only do two things: ask for more bytes than there
are, or come to a result or a fault that the bytes behind the ones it has seen do not change.

* `Reader.Streams`: a reader of this kind, with the faults that ask for more input;
* `Reader.Streams.bind`, `.indexed`: such readers one after the other;
* `Image.streams_read`: the reader of code files is one of them;
* `Image.read_of_initial`: a code object is read from the bytes it takes alone, every cut inside
  them is an input failure, and every other fault stays when the input goes on.
-/

namespace StackCode

namespace Reader

variable {ε α β : Type} {cut : ε → Bool} {r : Reader ε α} {f : α → Reader ε β}

/-- On every input the reader asks for more, by one of the faults of `cut`, or a front of the input
decides what it gives. -/
def Streams (cut : ε → Bool) (r : Reader ε α) : Prop :=
  ∀ bs, (∃ e, cut e = true ∧ r bs = .error e) ∨ ∃ front x, front <+: bs ∧ Gives r front x

/-! ### Putting readers together -/

theorem Streams.pure (a : α) : Streams (α := α) cut (Pure.pure a) := fun _ =>
  .inr ⟨[], .ok a, List.nil_prefix, Gives.pure a⟩

theorem Streams.throw (e : ε) : Streams (α := α) cut (throw e) := fun _ =>
  .inr ⟨[], .error e, List.nil_prefix, fun _ => rfl⟩

theorem Streams.bind (hr : Streams cut r) (hf : ∀ a, Streams cut (f a)) :
    Streams cut (r >>= f) := by
  intro bs
  have hrun : (r >>= f) bs = (r bs >>= fun s => f s.1 s.2) := rfl
  rcases hr bs with ⟨e, he, hcut⟩ | ⟨front, x, ⟨rest, rfl⟩, hgives⟩
  · exact .inl ⟨e, he, by rw [hrun, hcut]; rfl⟩
  rw [hgives] at hrun
  cases x with
  | error e =>
    have hfail : Gives (r >>= f) (front ++ []) (.error e >>= fun _ => .error e) :=
      hgives.bind fun _ h => nomatch h
    rw [List.append_nil] at hfail
    exact .inr ⟨front, .error e, List.prefix_append front rest, hfail⟩
  | ok a =>
    rcases hf a rest with ⟨e, he, hcut⟩ | ⟨next, y, hnext, hgives'⟩
    · exact .inl ⟨e, he, by rw [hrun]; exact hcut⟩
    · exact .inr ⟨front ++ next, y, (List.prefix_append_right_inj front).mpr hnext,
        hgives.next hgives'⟩

theorem Streams.map (hr : Streams cut r) (g : α → β) : Streams cut (g <$> r) := by
  rw [map_eq_pure_bind]
  exact hr.bind fun a => .pure (g a)

theorem Streams.indexed {item : Nat → Reader ε α} (h : ∀ i, Streams cut (item i))
    (start count : Nat) : Streams cut (Reader.indexed item start count) := by
  induction count generalizing start with
  | zero => exact .pure []
  | succ count ih =>
    rw [indexed_succ]
    exact (h start).bind fun a => (ih (start + 1)).map (a :: ·)

/-! ### Bytes and numbers -/

theorem streams_take {e : ε} (he : cut e = true) (n : Nat) : Streams cut (take n e) := by
  intro bs
  rcases Nat.lt_or_ge bs.length n with hlt | hle
  · exact .inl ⟨e, he, take_of_lt hlt⟩
  · have hlength : (bs.take n).length = n := List.length_take_of_le hle
    exact .inr ⟨bs.take n, .ok (bs.take n), List.take_prefix n bs, gives_take e hlength⟩

theorem streams_byte {e : ε} (he : cut e = true) : Streams cut (byte e) := by
  intro bs
  cases bs with
  | nil => exact .inl ⟨e, he, rfl⟩
  | cons b rest => exact .inr ⟨[b], .ok b, List.prefix_append [b] rest, gives_byte e b⟩

theorem streams_word {e : ε} (he : cut e = true) : Streams cut (word e) := by
  rw [word_eq_take]
  exact (streams_take he 4).map _

/-! ### What follows from it -/

variable {bs rest : Bytes} {a : α}

/-- A result is decided by the bytes that were taken for it. -/
theorem Streams.gives_of_ok (hr : Streams cut r) (h : r bs = .ok (a, rest)) :
    ∃ front, bs = front ++ rest ∧ Gives r front (.ok a) := by
  rcases hr bs with ⟨e, _, hcut⟩ | ⟨front, x, ⟨more, rfl⟩, hgives⟩
  · cases hcut.symm.trans h
  cases x with
  | error e => cases (hgives more).symm.trans h
  | ok b =>
    cases (hgives more).symm.trans h
    exact ⟨front, rfl, hgives⟩

/-- With fewer bytes than it takes, the reader asks for more: any other answer to them would be the
answer to all of them. -/
theorem Streams.cut_of_lt {front : Bytes} (hr : Streams cut r) (h : Gives r front (.ok a))
    {n : Nat} (hn : n < front.length) : ∃ e, cut e = true ∧ r (front.take n) = .error e := by
  refine (hr (front.take n)).resolve_right ?_
  rintro ⟨less, x, hprefix, hgives⟩
  obtain ⟨more, rfl⟩ := hprefix.trans (List.take_prefix n front)
  have hwhole : (·, more) <$> x = .ok (a, []) := by
    have hall := h []
    rw [List.append_nil, hgives more] at hall
    exact hall
  cases x with
  | error e => cases hwhole
  | ok b =>
    cases hwhole
    have hlength := hprefix.length_le
    simp only [List.append_nil, List.length_take] at hlength hn
    omega

/-- A fault that does not ask for more stays when there is more. -/
theorem Streams.error_append {e : ε} (hr : Streams cut r) (h : r bs = .error e) (he : cut e = false)
    (more : Bytes) : r (bs ++ more) = .error e := by
  rcases hr bs with ⟨e', he', hcut⟩ | ⟨front, x, ⟨rest, rfl⟩, hgives⟩
  · cases hcut.symm.trans h
    exact absurd he' (by simp [he])
  cases x with
  | ok b => cases (hgives rest).symm.trans h
  | error e' =>
    cases (hgives rest).symm.trans h
    rw [List.append_assoc]
    exact hgives (rest ++ more)

end Reader

namespace Image

open Reader

/-- The fault comes from the input or the output and not from the bytes that were read. -/
def Fault.isIo : Fault → Bool
  | .fieldCut | .runCut | .outputFull => true
  | _ => false

/-- A reader of a part of a code file, which reports an input failure when the input ends too
soon. -/
abbrev Streaming {α : Type} (r : Reader Fault α) : Prop := Streams Fault.isIo r

/-! ### The parts of a code file -/

theorem streams_field (n : Nat) : Streaming (Reader.take n Fault.fieldCut) :=
  streams_take (by rfl) n

theorem streams_run (n : Nat) : Streaming (Reader.take n Fault.runCut) := streams_take (by rfl) n

theorem streams_readWord : Streaming readWord := streams_word (by rfl)

theorem streams_readText (role : TextRole) (n : Nat) : Streaming (readText role n) := by
  refine (streams_run n).bind fun bs => ?_
  cases Bytes.ofUtf8? bs with
  | some s => exact .pure s
  | none => exact .throw _

theorem streams_readConstant (index : Nat) : Streaming (readConstant index) := by
  refine (streams_byte (by rfl)).bind fun tag => streams_readWord.bind fun n =>
    (streams_run n).bind fun payload => ?_
  cases Wire.decodeValue payload with
  | error cause => exact .throw _
  | ok v =>
    show Streaming (if v.tag = tag.toNat then pure v else throw _)
    split
    · exact .pure v
    · exact .throw _

theorem streams_readArgName : Streaming readArgName := by
  refine streams_readWord.bind fun n => ?_
  split
  · exact .pure none
  · exact (streams_readText .argumentName n).map some

theorem streams_readLifetime : Streaming readLifetime :=
  streams_readWord.bind fun n => (streams_readText .debugSymbol n).bind fun _ =>
    streams_readWord.bind fun _ => streams_readWord.bind fun _ => .pure _

theorem streams_readCounted {α : Type} {item : Nat → Reader Fault α}
    (h : ∀ i, Streaming (item i)) : Streaming (readCounted item) :=
  streams_readWord.bind fun n => .indexed h 0 n

theorem streams_readDebugTable (flags : Flags) : Streaming (readDebugTable flags) := by
  unfold readDebugTable
  split
  · exact (streams_readCounted fun _ => streams_readLifetime).map some
  · exact .pure none

theorem streams_readPreamble : Streaming readPreamble := by
  refine (streams_field 4).bind fun found => ?_
  have hversion : Streaming (Bytes.ofLittleEndian <$> Reader.take 2 Fault.fieldCut >>= fun v =>
      if v = version then pure () else throw (.badVersion v)) := by
    refine ((streams_field 2).map _).bind fun v => ?_
    split
    · exact .pure ()
    · exact .throw _
  split
  · exact hversion
  · exact (Streams.throw _).bind fun _ => hversion

/-! ### Whole code files -/

theorem streams_readWithin (levels : Nat) : Streaming (readWithin levels) := by
  induction levels with
  | zero => exact .throw _
  | succ levels ih =>
    exact streams_readPreamble.bind fun _ =>
      (streams_readCounted fun _ => streams_readWord.map _).bind fun _ =>
      streams_readWord.bind fun _ => (streams_readCounted streams_readConstant).bind fun _ =>
      streams_readWord.bind fun _ => streams_readWord.bind fun argCount =>
      streams_readWord.bind fun _ => streams_readWord.bind fun _ =>
      (Streams.indexed (fun _ => streams_readArgName) 0 argCount).bind fun _ =>
      (streams_readDebugTable _).bind fun _ =>
      (streams_readCounted fun _ => ih).bind fun _ => .pure _

theorem streams_read : Streaming read := streams_readWithin (maxNesting + 1)

theorem load_of_read {bs rest : Bytes} {c : CodeObject} (h : read bs = .ok (c, rest)) :
    load bs = if rest.isEmpty then .ok c else .error (.trailingBytes rest.length) := by
  rw [load, h]
  rfl

/-- A code object that is read from the first `k` bytes is read from every input with these bytes in
front, and from no part of them: then the input failed. It is the whole input or what follows is
reported. Any other fault is the same on every continuation of the input. -/
theorem read_of_initial (bs : Bytes) :
    (∀ c rest, read bs = .ok (c, rest) → ∃ k, k ≤ bs.length ∧ rest = bs.drop k ∧
      (∀ bs', bs'.take k = bs.take k → read bs' = .ok (c, bs'.drop k)) ∧
      (∀ j < k, ∃ e, e.isIo = true ∧ read (bs.take j) = .error e) ∧
      (k < bs.length → load bs = .error (.trailingBytes (bs.length - k)))) ∧
    ∀ e, read bs = .error e → e.isIo = false → ∀ more, read (bs ++ more) = .error e := by
  constructor
  · intro c rest h
    obtain ⟨front, rfl, hgives⟩ := streams_read.gives_of_ok h
    refine ⟨front.length, by simp, by simp, fun bs' hsame => ?_, fun j hj => ?_, fun hlt => ?_⟩
    · have hsplit := List.take_append_drop front.length bs'
      rw [hsame, List.take_left] at hsplit
      have hread := hgives (bs'.drop front.length)
      rwa [hsplit] at hread
    · rw [List.take_append_of_le_length (Nat.le_of_lt hj)]
      exact streams_read.cut_of_lt hgives hj
    · rw [List.length_append] at hlt ⊢
      have hrest : rest.isEmpty = false := by
        cases rest with
        | nil => simp at hlt
        | cons => rfl
      rw [load_of_read h, hrest, Nat.add_sub_cancel_left]
      rfl
  · intro e h he more
    exact streams_read.error_append h he more

/-- The file of a code object in which everything is empty or zero. -/
def bareFile : Bytes := magic ++ [1, 0] ++ List.replicate 32 0

theorem read_of_initial_bareFile :
    (∀ bs', bs'.take 38 = bareFile → read bs' = .ok ({}, bs'.drop 38)) ∧
    (∀ j < 38, ∃ e, e.isIo = true ∧ read (bareFile.take j) = .error e) ∧
    load (bareFile ++ [9, 9]) = .error (.trailingBytes 2) ∧
    ∀ more, read (magic ++ [2, 0] ++ more) = .error (.badVersion 2) := by
  have hread : read (bareFile ++ [9, 9]) = .ok ({}, [9, 9]) := by rfl
  obtain ⟨k, hle, hrest, hsame, hcut, htrail⟩ := (read_of_initial (bareFile ++ [9, 9])).1 _ _ hread
  have hk : k = 38 := by
    have hlength := congrArg List.length hrest
    rw [List.length_drop] at hlength
    have htotal : (bareFile ++ [9, 9]).length = 40 := rfl
    have htwo : ([9, 9] : Bytes).length = 2 := rfl
    omega
  subst hk
  refine ⟨hsame, fun j hj => ?_, htrail (by decide), fun more => ?_⟩
  · have hfront : (bareFile ++ [9, 9]).take j = bareFile.take j :=
      List.take_append_of_le_length (Nat.le_of_lt hj)
    exact hfront ▸ hcut j hj
  · exact (read_of_initial (magic ++ [2, 0])).2 _ (by rfl) (by rfl) more

end Image

end StackCode
