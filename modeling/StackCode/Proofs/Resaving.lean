import StackCode.Proofs.CodeFiles

/-!
# What was read can be saved again

The reader accepts more than the writer produces: numbers padded with empty groups, and bytes behind
a constant in its run. What it makes of them is of the form the writer knows, so writing it and
reading again changes nothing.

* `Reader.Ensures`: what holds of a result and the number of bytes it was read from;
* `Wire.ensures_readValueWithin`: a value takes no more bytes when it is written than were read for
  it, so that it still fits the run it stood in;
* `CodeObject.Settled`: the numbers of a unit fit the format, and the unit is in its canonical form;
* `Image.ensures_readWithin`: every unit of a tree that was read is settled;
* `Image.load_write_of_load`: a code object that was loaded is stable under saving.
-/

namespace StackCode

namespace Reader

variable {ε α β : Type} {r : Reader ε α} {f : α → Reader ε β} {P : α → Nat → Prop}
  {Q : β → Nat → Prop}

/-- When the reader takes `k` bytes and gives `a`, then `P a k`. -/
def Ensures (r : Reader ε α) (P : α → Nat → Prop) : Prop :=
  ∀ bs a rest, r bs = .ok (a, rest) → ∃ k, bs.length = k + rest.length ∧ P a k

/-! ### Putting readers together -/

theorem Ensures.mono {P' : α → Nat → Prop} (hr : Ensures r P) (h : ∀ a k, P a k → P' a k) :
    Ensures r P' := fun bs a rest hrun =>
  have ⟨k, hk, hp⟩ := hr bs a rest hrun
  ⟨k, hk, h a k hp⟩

theorem Ensures.pure {a : α} (h : P a 0) : Ensures (ε := ε) (Pure.pure a) P := by
  intro bs b rest hrun
  cases hrun
  exact ⟨0, (Nat.zero_add _).symm, h⟩

theorem Ensures.throw (e : ε) : Ensures (throw e : Reader ε α) P := fun _ _ _ hrun => nomatch hrun

theorem Ensures.bind (hr : Ensures r P)
    (hf : ∀ a k, P a k → Ensures (f a) fun b l => Q b (k + l)) : Ensures (r >>= f) Q := by
  intro bs b rest hrun
  have hbind : (r >>= f) bs = (r bs >>= fun s => f s.1 s.2) := rfl
  rw [hbind] at hrun
  cases hfirst : r bs with
  | error e => rw [hfirst] at hrun; cases hrun
  | ok s =>
    rw [hfirst] at hrun
    obtain ⟨k, hk, hp⟩ := hr bs s.1 s.2 hfirst
    obtain ⟨l, hl, hq⟩ := hf s.1 k hp s.2 b rest hrun
    exact ⟨k + l, by omega, hq⟩

theorem Ensures.map {g : α → β} (hr : Ensures r fun a k => Q (g a) k) : Ensures (g <$> r) Q := by
  rw [map_eq_pure_bind]
  exact hr.bind fun a k h => .pure h

/-- Items in a row are as many as asked for, each is as promised, and together they take the bytes
that each of them takes. -/
theorem Ensures.indexed {item : Nat → Reader ε α} {f : α → Bytes} {p : α → Prop}
    (h : ∀ i, Ensures (item i) fun a k => (f a).length ≤ k ∧ p a) (start count : Nat) :
    Ensures (Reader.indexed item start count) fun as k =>
      as.length = count ∧ (as.flatMap f).length ≤ k ∧ ∀ a ∈ as, p a := by
  induction count generalizing start with
  | zero => exact .pure ⟨rfl, Nat.le_refl 0, fun _ h => absurd h List.not_mem_nil⟩
  | succ count ih =>
    rw [indexed_succ]
    refine (h start).bind fun a k ha => ((ih (start + 1)).mono fun as l has => ?_).map
    refine ⟨congrArg (· + 1) has.1, ?_, List.forall_mem_cons.mpr ⟨ha.2, has.2.2⟩⟩
    rw [List.flatMap_cons, List.length_append]
    exact Nat.add_le_add ha.1 has.2.1

/-! ### Bytes and numbers -/

theorem ensures_take (n : Nat) (e : ε) : Ensures (take n e) fun bs k => bs.length = n ∧ k = n := by
  intro bs front rest hrun
  rcases Nat.lt_or_ge bs.length n with hlt | hle
  · cases (take_of_lt hlt).symm.trans hrun
  · have hlength : (bs.take n).length = n := List.length_take_of_le hle
    have hfront : take n e bs = .ok (bs.take n, bs.drop n) := if_pos hlength
    cases hfront.symm.trans hrun
    exact ⟨n, by rw [List.length_drop]; omega, hlength, rfl⟩

theorem ensures_byte (e : ε) : Ensures (byte e) fun _ k => k = 1 := by
  intro bs b rest hrun
  cases bs with
  | nil => cases hrun
  | cons c bs =>
    cases hrun
    exact ⟨1, Nat.add_comm _ 1, rfl⟩

theorem ensures_word (e : ε) : Ensures (word e) fun n _ => n < UInt32.size := by
  rw [word_eq_take]
  refine ((ensures_take 4 e).mono fun bs _ h => ?_).map
  have hlt := Bytes.ofLittleEndian_lt bs
  rwa [h.1] at hlt

end Reader

/-! ### Values -/

namespace Wire

open Reader

/-- A number is not longer than the groups it was read from. -/
theorem ensures_groups {last : Nat} (hlast : last < 128) (groups : Nat) :
    Ensures (readGroups last (groups + 1)) fun n k =>
      (varint n).length ≤ k ∧ n < (last + 1) * Nat.pow 128 groups := by
  induction groups with
  | zero =>
    refine (ensures_byte _).bind fun b k hk => ?_
    split
    · next hb =>
      split
      · exact .throw _
      · refine .pure ⟨?_, by simp only [Nat.pow_eq, Nat.pow_zero]; omega⟩
        rw [length_varint_of_lt hb]
        omega
    · exact (Ensures.throw (P := fun _ _ => False) _).bind fun _ _ h => h.elim
  | succ groups ih =>
    have hpow : Nat.pow 128 (groups + 1) = Nat.pow 128 groups * 128 := rfl
    have hone : 0 < Nat.pow 128 groups := Nat.pow_pos (by decide)
    refine (ensures_byte _).bind fun b k hk => ?_
    split
    · next hb =>
      split
      · exact .throw _
      · refine .pure ⟨by rw [length_varint_of_lt hb]; omega, ?_⟩
        calc b.toNat < 128 := hb
          _ ≤ Nat.pow 128 groups * 128 := Nat.le_mul_of_pos_left 128 hone
          _ ≤ (last + 1) * Nat.pow 128 (groups + 1) := Nat.le_mul_of_pos_left _ (by omega)
    · refine ih.bind fun rest l hrest => .pure ?_
      have hb := b.toNat_lt
      constructor
      · by_cases hsmall : b.toNat - 128 + 128 * rest < 128
        · rw [length_varint_of_lt hsmall]
          omega
        · have hdiv : (b.toNat - 128 + 128 * rest) / 128 = rest := by omega
          rw [varint_of_le (by omega), List.length_cons, hdiv]
          omega
      · rw [hpow, ← Nat.mul_assoc]
        omega

theorem ensures_word : Ensures Width.word.read fun n k => (varint n).length ≤ k :=
  (ensures_groups (by decide) 4).mono fun _ _ h => h.1

theorem ensures_long :
    Ensures Width.long.read fun n k => (varint n).length ≤ k ∧ n < UInt64.size :=
  (ensures_groups (by decide) 9).mono fun _ _ h => ⟨h.1, Nat.lt_of_lt_of_eq h.2 (by decide)⟩

theorem zigzag_unzigzag {n : Nat} (h : n < UInt64.size) : zigzag (unzigzag n) = n := by
  have hsize : UInt64.size = 2 * 2 ^ 63 := rfl
  by_cases heven : n % 2 = 0
  · have hint : (Int64.ofInt ((n / 2 : Nat) : Int)).toInt = (n / 2 : Nat) :=
      Int64.toInt_ofInt_of_le (by omega) (by omega)
    rw [unzigzag, if_pos heven, zigzag, hint, if_pos (by omega)]
    omega
  · have hint : (Int64.ofInt (-((n / 2 : Nat) : Int) - 1)).toInt = -((n / 2 : Nat) : Int) - 1 :=
      Int64.toInt_ofInt_of_le (by omega) (by omega)
    rw [unzigzag, if_neg heven, zigzag, hint, if_neg (by omega)]
    omega

theorem ensures_readBool : Ensures readBool fun b k => (bool b).length ≤ k := by
  refine (ensures_byte _).bind fun b k hk => ?_
  split
  · exact .pure (by simp [bool, hk])
  · exact .pure (by simp [bool, hk])
  · exact .throw _

theorem ensures_readText : Ensures readText fun s k => (text s).length ≤ k := by
  refine ensures_long.bind fun n k hn => (ensures_take n _).bind fun bs l hbs => ?_
  split
  · next s hs =>
    rw [Bytes.ofUtf8?_eq_some_iff] at hs
    subst hs
    refine .pure ?_
    rw [text, List.length_append, hbs.1, hbs.2]
    exact Nat.add_le_add_right hn.1 n
  · exact .throw _

theorem ensures_readList {α : Type} {item : Reader Fault α} {form : α → Bytes}
    (h : Ensures item fun a k => (form a).length ≤ k) :
    Ensures (readList item) fun as k =>
      (varint as.length).length + (as.flatMap form).length ≤ k := by
  refine ensures_long.bind fun n k hn => ?_
  refine (Ensures.indexed (p := fun _ => True) (fun _ => h.mono fun _ _ h => ⟨h, trivial⟩)
    0 n).mono fun as l has => ?_
  rw [has.1]
  exact Nat.add_le_add hn.1 has.2.1

/-- A value does not take more bytes than it was read from. -/
theorem ensures_readValueWithin (depth : Nat) :
    Ensures (readValueWithin depth) fun v k => (value v).length ≤ k := by
  induction depth with
  | zero => exact .throw _
  | succ depth ih =>
    refine ensures_word.bind fun tag k htag => ?_
    split
    · exact .pure htag
    · refine (ensures_readBool.mono fun b l hb => ?_).map
      rw [value, List.length_append]
      exact Nat.add_le_add htag hb
    · refine (ensures_long.mono fun n l hn => ?_).map
      rw [value, List.length_append, zigzag_unzigzag hn.2]
      exact Nat.add_le_add htag hn.1
    · refine ((ensures_take 8 _).mono fun bs l hbs => ?_).map
      rw [value, List.length_append, Bytes.length_littleEndian, hbs.2]
      exact Nat.add_le_add_right htag 8
    · refine (ensures_readText.mono fun s l hs => ?_).map
      rw [value, List.length_append]
      exact Nat.add_le_add htag hs
    · refine ((ensures_readList ih).mono fun items l hitems => ?_).map
      rw [value, values_eq, List.length_append, List.length_append, Nat.add_assoc]
      exact Nat.add_le_add htag hitems
    · have hentry : Ensures (do
          let k ← readValueWithin depth
          let v ← readValueWithin depth
          pure (k, v)) fun e k => (value e.1 ++ value e.2).length ≤ k := by
        refine ih.bind fun key k hk => ih.bind fun v l hv => .pure ?_
        rw [List.length_append]
        exact Nat.add_le_add hk hv
      refine ((ensures_readList hentry).mono fun entries l hentries => ?_).map
      rw [value, valuePairs_eq, List.length_append, List.length_append, Nat.add_assoc]
      exact Nat.add_le_add htag hentries
    · exact .throw _

theorem length_value_of_decodeValue {bs : Bytes} {v : Value} (h : decodeValue bs = .ok v) :
    (value v).length ≤ bs.length := by
  unfold decodeValue decode readValue at h
  cases hread : readValueWithin (bs.length + 1) bs with
  | error e => rw [hread] at h; cases h
  | ok s =>
    rw [hread] at h
    cases h
    obtain ⟨k, hk, hle⟩ := ensures_readValueWithin _ _ _ _ hread
    omega

end Wire

/-! ### Units in the form the writer knows -/

theorem Flags.setTo_debugInfo_of_contains {flags : Flags} {b : Bool}
    (h : flags.contains .debugInfo = b) : flags.setTo .debugInfo b = flags := by
  have hbits : (flags.setTo .debugInfo b).bits.toBitVec = flags.bits.toBitVec := by
    ext i hi
    rw [getElem_setTo_debugInfo flags b hi]
    split
    · next h0 =>
      subst h0
      rw [← h, contains_debugInfo]
    · rfl
  cases flags
  exact congrArg Flags.mk (UInt32.toBitVec_inj.mp hbits)

namespace CodeObject

/-- A unit whose numbers fit the format and which is in its canonical form: an entry for each
argument, no empty name, and the bit for lifetimes set when there are some. -/
structure Settled (u : CodeObject) : Prop where
  wordSized : u.WordSized
  length_argNames : u.argNames.length = u.argCount
  named : some "" ∉ u.argNames
  flagged : u.flags.contains .debugInfo = u.lifetimes.isSome

theorem canonicalNames_eq {n : Nat} {names : List (Option String)} (hlength : names.length = n)
    (hnamed : some "" ∉ names) : canonicalNames n names = names := by
  apply List.ext_getElem
  · rw [canonicalNames, List.length_map, List.length_range, hlength]
  · intro i hi hi'
    have hne : names[i] ≠ some "" := fun h => hnamed (h ▸ List.getElem_mem hi')
    simp only [canonicalNames, List.getElem_map, List.getElem_range, List.getElem?_eq_getElem hi',
      Option.join_some]
    cases hname : names[i] with
    | none => rfl
    | some s =>
      have hs : s ≠ "" := fun h => hne (by rw [hname, h])
      simp [Option.filter, hs]

/-- A tree of settled units is its own canonical form. -/
theorem canonical_of_settled {c : CodeObject} (h : ∀ u, c.Contains u → u.Settled) :
    c.canonical = c := by
  induction c using tree_induction with
  | h c ih =>
    have hself := h c (.self c)
    have hchildren : c.children.map canonical = c.children := by
      rw [List.map_congr_left fun k hk => ih k hk fun u hu => h u (.child hk hu)]
      exact List.map_id _
    rw [canonical_eq, Flags.setTo_debugInfo_of_contains hself.flagged,
      canonicalNames_eq hself.length_argNames hself.named, hchildren]
    cases c
    rfl

theorem nestingAll_le {cs : List CodeObject} {n : Nat} (h : ∀ c ∈ cs, c.nesting < n) :
    nestingAll cs ≤ n := by
  induction cs with
  | nil => exact Nat.zero_le n
  | cons c cs ih =>
    have hc := h c List.mem_cons_self
    have hcs := ih fun k hk => h k (List.mem_cons_of_mem _ hk)
    rw [nestingAll]
    omega

end CodeObject

/-! ### Code files -/

namespace Image

open Reader

theorem ensures_readWord : Ensures readWord fun n _ => n < UInt32.size :=
  Reader.ensures_word _

theorem ensures_readText (role : TextRole) (n : Nat) :
    Ensures (readText role n) fun s _ => (Bytes.utf8 s).length = n := by
  refine (ensures_take n _).bind fun bs k hbs => ?_
  split
  · next s hs =>
    rw [Bytes.ofUtf8?_eq_some_iff] at hs
    exact .pure (hs ▸ hbs.1)
  · exact .throw _

theorem ensures_readConstant (index : Nat) :
    Ensures (readConstant index) fun v _ => (Wire.value v).length < UInt32.size := by
  refine (ensures_byte _).bind fun tag _ _ => ensures_readWord.bind fun n _ hn =>
    (ensures_take n _).bind fun payload _ hpayload => ?_
  split
  · exact .throw _
  · next v hv =>
    split
    · have hle := Wire.length_value_of_decodeValue hv
      exact .pure (by omega)
    · exact .throw _

theorem ensures_readArgName :
    Ensures readArgName fun name _ =>
      name ≠ some "" ∧ ∀ s ∈ name, (Bytes.utf8 s).length < UInt32.size := by
  refine ensures_readWord.bind fun n _ hn => ?_
  split
  · exact .pure ⟨nofun, nofun⟩
  · next h0 =>
    refine ((ensures_readText .argumentName n).mono fun s _ hs => ⟨?_, ?_⟩).map
    · intro hempty
      cases hempty
      exact h0 hs.symm
    · intro t ht
      cases ht
      omega

theorem ensures_readLifetime :
    Ensures readLifetime fun v _ =>
      (Bytes.utf8 v.name).length < UInt32.size ∧ v.start < UInt32.size ∧ v.stop < UInt32.size :=
  ensures_readWord.bind fun n _ hn => (ensures_readText .debugSymbol n).bind fun _ _ hname =>
    ensures_readWord.bind fun _ _ hstart => ensures_readWord.bind fun _ _ hstop =>
      .pure ⟨hname ▸ hn, hstart, hstop⟩

theorem ensures_indexed {α : Type} {item : Nat → Reader Fault α} {p : α → Prop}
    (h : ∀ i, Ensures (item i) fun a _ => p a) (start count : Nat) :
    Ensures (Reader.indexed item start count) fun as _ => as.length = count ∧ ∀ a ∈ as, p a :=
  (Ensures.indexed (f := fun _ => [])
    (fun i => (h i).mono fun _ k ha => ⟨Nat.zero_le k, ha⟩) start count).mono
    fun _ _ has => ⟨has.1, has.2.2⟩

theorem ensures_readCounted {α : Type} {item : Nat → Reader Fault α} {p : α → Prop}
    (h : ∀ i, Ensures (item i) fun a _ => p a) :
    Ensures (readCounted item) fun as _ => as.length < UInt32.size ∧ ∀ a ∈ as, p a :=
  ensures_readWord.bind fun n _ hn => (ensures_indexed h 0 n).mono fun _ _ has =>
    ⟨has.1 ▸ hn, has.2⟩

theorem ensures_readDebugTable (flags : Flags) :
    Ensures (readDebugTable flags) fun table _ =>
      flags.contains .debugInfo = table.isSome ∧ ∀ vs ∈ table, vs.length < UInt32.size ∧
        ∀ v ∈ vs, (Bytes.utf8 v.name).length < UInt32.size ∧ v.start < UInt32.size ∧
          v.stop < UInt32.size := by
  unfold readDebugTable
  split
  · next hflag =>
    refine ((ensures_readCounted fun _ => ensures_readLifetime).mono fun vs _ hvs => ⟨hflag, ?_⟩).map
    intro ws hws
    cases hws
    exact hvs
  · next hflag => exact .pure ⟨eq_false_of_ne_true hflag, nofun⟩

theorem ensures_readPreamble : Ensures readPreamble fun _ _ => True := by
  refine (ensures_take 4 _).bind fun found _ _ => ?_
  have hversion : Ensures (Bytes.ofLittleEndian <$> Reader.take 2 Fault.fieldCut >>= fun v =>
      if v = version then pure () else throw (.badVersion v)) fun _ _ => True := by
    refine (((ensures_take 2 _).mono fun _ _ _ => trivial).map (Q := fun _ _ => True)).bind
      fun v _ _ => ?_
    split
    · exact .pure trivial
    · exact .throw _
  split
  · exact hversion
  · exact (Ensures.throw (P := fun _ _ => True) _).bind fun _ _ _ => hversion

/-- Every unit of a tree that was read is settled, and the tree is no deeper than the levels that
were left. -/
theorem ensures_readWithin (levels : Nat) :
    Ensures (readWithin levels) fun c _ =>
      c.nesting < levels ∧ ∀ u, c.Contains u → u.Settled := by
  induction levels with
  | zero => exact .throw _
  | succ levels ih =>
    have hword : Ensures ((fun n => (⟨UInt32.ofNat n⟩ : Instruction)) <$> readWord) fun _ _ => True :=
      (ensures_readWord.mono fun _ _ _ => trivial).map
    refine ensures_readPreamble.bind fun _ _ _ =>
      (ensures_readCounted fun _ => hword).bind fun code _ hcode =>
      ensures_readWord.bind fun maxStack _ hmaxStack =>
      (ensures_readCounted ensures_readConstant).bind fun constants _ hconstants =>
      ensures_readWord.bind fun bits _ _ => ensures_readWord.bind fun argCount _ hargCount =>
      ensures_readWord.bind fun outerCount _ houterCount =>
      ensures_readWord.bind fun localCount _ hlocalCount =>
      (ensures_indexed (fun _ => ensures_readArgName) 0 argCount).bind fun argNames _ hnames =>
      (ensures_readDebugTable _).bind fun lifetimes _ hlifetimes =>
      (ensures_readCounted fun _ => ih).bind fun children _ hchildren => .pure ⟨?_, ?_⟩
    · rw [CodeObject.nesting_eq]
      exact Nat.lt_succ_of_le (CodeObject.nestingAll_le fun c hc => (hchildren.2 c hc).1)
    · intro u hu
      cases hu with
      | child hk hu => exact (hchildren.2 _ hk).2 u hu
      | self =>
        refine ⟨?_, hnames.1, fun h => (hnames.2 _ h).1 rfl, hlifetimes.1⟩
        exact {
          code := hcode.1
          maxStack := hmaxStack
          constants := hconstants.1
          payloads := hconstants.2
          argCount := hargCount
          outerCount := houterCount
          localCount := hlocalCount
          argNames := fun s hs => (hnames.2 _ (List.mem_of_mem_take hs)).2 s rfl
          lifetimes := fun vs hvs => (hlifetimes.2 vs hvs).1
          symbols := fun vs hvs => (hlifetimes.2 vs hvs).2
          children := hchildren.1 }

theorem read_of_load {bs : Bytes} {c : CodeObject} (h : load bs = .ok c) :
    read bs = .ok (c, []) := by
  unfold load at h
  cases hread : read bs with
  | error e => rw [hread] at h; cases h
  | ok s =>
    obtain ⟨d, rest⟩ := s
    rw [hread] at h
    cases rest with
    | nil =>
      cases h
      rfl
    | cons => cases h

/-- Whatever is loaded can be written, and loading the file gives the same code object; each of its
units has an entry for each argument, no empty name, and the bit for lifetimes set exactly when there
are some, and its children are not nested too deeply. -/
theorem load_write_of_load {bs : Bytes} {c : CodeObject} (h : load bs = .ok c) :
    (∃ bs', write c = .ok bs' ∧ load bs' = .ok c) ∧
    (∀ u, c.Contains u → u.argNames.length = u.argCount ∧ some "" ∉ u.argNames ∧
      u.flags.contains .debugInfo = u.lifetimes.isSome) ∧
    c.nesting ≤ maxNesting := by
  obtain ⟨_, _, hdeep, hunits⟩ := ensures_readWithin _ _ _ _ (read_of_load h)
  have hnesting : c.nesting ≤ maxNesting := Nat.le_of_lt_succ hdeep
  obtain ⟨bs', hwrite, hread⟩ := write_read fun u hu => (hunits u hu).wordSized
  have hback := (hread []).1 hnesting
  rw [List.append_nil, CodeObject.canonical_of_settled hunits] at hback
  refine ⟨⟨bs', hwrite, ?_⟩, fun u hu => ?_, hnesting⟩
  · unfold load
    rw [hback]
    rfl
  · exact ⟨(hunits u hu).length_argNames, (hunits u hu).named, (hunits u hu).flagged⟩

/-- A file whose constant is the number 1, twice padded and with a byte behind it. -/
def paddedFile : Bytes :=
  magic ++ [1, 0, 0, 0, 0, 0, 2, 0, 0, 0] ++
    -- the constant: its tag, its length, and the value with an empty group behind each number
    [1, 0, 0, 0, 2, 5, 0, 0, 0, 0x82, 0x00, 0x82, 0x00, 0x77] ++
    [1, 0, 0, 0, 1, 0, 0, 0, 0, 0, 0, 0, 1, 0, 0, 0] ++
    [1, 0, 0, 0, 0x78] ++ [1, 0, 0, 0, 1, 0, 0, 0, 0x78, 0, 0, 0, 0, 9, 0, 0, 0] ++ [0, 0, 0, 0]

set_option maxRecDepth 4000 in
theorem load_write_of_load_paddedFile :
    ∃ c : CodeObject, load paddedFile = .ok c ∧ c.constants = [.integer 1] ∧
      c.argNames = [some "x"] ∧
      (∃ bs', write c = .ok bs' ∧ load bs' = .ok c) ∧ c.flags.contains .debugInfo = true ∧
      c.nesting ≤ maxNesting := by
  have hload : load paddedFile = .ok
      { constants := [.integer 1], maxStack := 2, flags := .debugInfo, argCount := 1,
        localCount := 1, argNames := [some "x"], lifetimes := some [⟨"x", 0, 9⟩] } := by rfl
  obtain ⟨hagain, hunits, hdeep⟩ := load_write_of_load hload
  exact ⟨_, hload, rfl, rfl, hagain, (hunits _ (.self _)).2.2, hdeep⟩

end Image

end StackCode
