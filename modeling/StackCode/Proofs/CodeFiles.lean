import StackCode.Image.Reader
import StackCode.Image.Writer
import StackCode.Proofs.ControlFlow
import StackCode.Proofs.WireRoundTrip

/-!
# Code files round-trip

A code object whose numbers fit the format is written, and reading the file gives it back in its
canonical form, whatever follows in the input; only children nested too deeply are refused.

* `CodeObject.WordSized`: the counts, lengths and numbers of one unit fit their words;
* `CodeObject.canonical`: the form in which a tree comes back;
* `CodeObject.nesting`: how deeply the children of a tree are nested;
* `Image.Yields`: what a reader makes of the bytes of a layout, `yields_layout` for a whole tree;
* `Image.write_read`: the round trip.

Writer and reader are followed field by field: a field of the layout yields the field of the code
object to the reader of this field, and `Yields.next` puts the fields together.
-/

namespace StackCode

/-! ### The canonical form -/

namespace Flags

/-- Sets or clears the bits of `other`. -/
def setTo (flags other : Flags) (b : Bool) : Flags :=
  if b then flags.insert other else flags.remove other

theorem getElem_debugInfo {i : Nat} (hi : i < 32) :
    debugInfo.bits.toBitVec[i] = decide (i = 0) :=
  BitVec.getElem_one hi

/-- Setting the bit for lifetimes leaves the other bits alone. -/
theorem getElem_setTo_debugInfo (flags : Flags) (b : Bool) {i : Nat} (hi : i < 32) :
    (flags.setTo .debugInfo b).bits.toBitVec[i] = if i = 0 then b else flags.bits.toBitVec[i] := by
  have hone := getElem_debugInfo hi
  cases b with
  | true =>
    show (flags.bits.toBitVec ||| debugInfo.bits.toBitVec)[i] = _
    rw [BitVec.getElem_or, hone]
    by_cases h0 : i = 0 <;> simp [h0]
  | false =>
    show (flags.bits.toBitVec &&& ~~~debugInfo.bits.toBitVec)[i] = _
    rw [BitVec.getElem_and, BitVec.getElem_not, hone]
    by_cases h0 : i = 0 <;> simp [h0]

theorem contains_debugInfo (flags : Flags) :
    flags.contains .debugInfo = flags.bits.toBitVec[0] := by
  rw [Bool.eq_iff_iff, contains, beq_iff_eq, ← UInt32.toBitVec_inj, UInt32.toBitVec_and]
  constructor
  · intro h
    have h0 := congrArg (·[0]) h
    simpa only [BitVec.getElem_and, getElem_debugInfo, decide_true, Bool.and_true] using h0
  · intro h
    ext i hi
    rw [BitVec.getElem_and, getElem_debugInfo hi]
    by_cases h0 : i = 0
    · subst h0
      rw [h]
      rfl
    · simp [h0]

theorem contains_setTo_debugInfo (flags : Flags) (b : Bool) :
    (flags.setTo .debugInfo b).contains .debugInfo = b := by
  rw [contains_debugInfo, getElem_setTo_debugInfo, if_pos rfl]

end Flags

namespace CodeObject

/-- What holds of a code object when it holds of its children holds of every code object. -/
theorem tree_induction {p : CodeObject → Prop} (h : ∀ c, (∀ k ∈ c.children, p k) → p c)
    (c : CodeObject) : p c :=
  @CodeObject.rec p (fun cs => ∀ k ∈ cs, p k)
    (fun code constants maxStack flags argCount outerCount localCount argNames lifetimes children
      ih => h ⟨code, constants, maxStack, flags, argCount, outerCount, localCount, argNames,
        lifetimes, children⟩ ih)
    (fun _ hk => absurd hk List.not_mem_nil)
    (fun _ _ hc hcs _ hk => (List.mem_cons.mp hk).elim (fun he => he ▸ hc) (hcs _)) c

/-- The names of `n` arguments, one entry for each; an empty name is none. -/
def canonicalNames (n : Nat) (names : List (Option String)) : List (Option String) :=
  (List.range n).map fun i => names[i]?.join.filter (· ≠ "")

mutual

/-- The form in which a tree comes back from a file: in every unit the bit for lifetimes says
whether there are lifetimes, and each argument has an entry. -/
def canonical : CodeObject → CodeObject
  | ⟨code, constants, maxStack, flags, argCount, outerCount, localCount, argNames, lifetimes,
      children⟩ =>
    { code, constants, maxStack, flags := flags.setTo .debugInfo lifetimes.isSome, argCount,
      outerCount, localCount, argNames := canonicalNames argCount argNames, lifetimes,
      children := canonicalAll children }

def canonicalAll : List CodeObject → List CodeObject
  | [] => []
  | c :: cs => canonical c :: canonicalAll cs

end

mutual

/-- How many levels of children there are below a code object. -/
def nesting : CodeObject → Nat
  | ⟨_, _, _, _, _, _, _, _, _, children⟩ => nestingAll children

/-- How many levels code objects and their children take. -/
def nestingAll : List CodeObject → Nat
  | [] => 0
  | c :: cs => max (nesting c + 1) (nestingAll cs)

end

theorem nesting_eq (c : CodeObject) : c.nesting = nestingAll c.children := by
  cases c
  rfl

theorem canonicalAll_eq (cs : List CodeObject) : canonicalAll cs = cs.map canonical := by
  induction cs with
  | nil => rfl
  | cons c cs ih => rw [canonicalAll, ih, List.map_cons]

theorem canonical_eq (c : CodeObject) :
    c.canonical =
      { c with
        flags := c.flags.setTo .debugInfo c.lifetimes.isSome
        argNames := canonicalNames c.argCount c.argNames
        children := c.children.map canonical } := by
  cases c
  rw [canonical, canonicalAll_eq]

/-- The numbers of one unit, the lengths of its parts among them, fit the words of a file. -/
structure WordSized (c : CodeObject) : Prop where
  code : c.code.length < UInt32.size
  maxStack : c.maxStack < UInt32.size
  constants : c.constants.length < UInt32.size
  payloads : ∀ v ∈ c.constants, (Wire.value v).length < UInt32.size
  argCount : c.argCount < UInt32.size
  outerCount : c.outerCount < UInt32.size
  localCount : c.localCount < UInt32.size
  /-- Names beyond the number of arguments are not written. -/
  argNames : ∀ s, some s ∈ c.argNames.take c.argCount → (Bytes.utf8 s).length < UInt32.size
  lifetimes : ∀ vs ∈ c.lifetimes, vs.length < UInt32.size
  symbols : ∀ vs ∈ c.lifetimes, ∀ v ∈ vs,
    (Bytes.utf8 v.name).length < UInt32.size ∧ v.start < UInt32.size ∧ v.stop < UInt32.size
  children : c.children.length < UInt32.size

end CodeObject

namespace Image

open Reader

/-! ### Fields -/

variable {α β γ : Type} {r : Reader Fault α} {f : α → Reader Fault β} {ps qs : Layout}
  {x : Except Fault α} {y : Except Fault β}

/-- The bytes of pieces. -/
def bytes (ps : Layout) : Bytes := ps.flatMap Piece.content

/-- The pieces can all be written, and the reader makes `x` of their bytes. -/
structure Yields (ps : Layout) (r : Reader Fault α) (x : Except Fault α) : Prop where
  written : fill none ps = .ok (bytes ps)
  read : Gives r (bytes ps) x

theorem bytes_append (ps qs : Layout) : bytes (ps ++ qs) = bytes ps ++ bytes qs :=
  List.flatMap_append

theorem fill_append_ok (hp : fill none ps = .ok (bytes ps)) (hq : fill none qs = .ok (bytes qs)) :
    fill none (ps ++ qs) = .ok (bytes (ps ++ qs)) := by
  rw [fill_append, hp, hq, bytes_append]
  rfl

theorem fill_flatMap_ok {form : α → Layout} {as : List α}
    (h : ∀ a ∈ as, fill none (form a) = .ok (bytes (form a))) :
    fill none (as.flatMap form) = .ok (bytes (as.flatMap form)) := by
  induction as with
  | nil => rfl
  | cons a as ih =>
    rw [List.flatMap_cons]
    exact fill_append_ok (h a List.mem_cons_self) (ih fun b hb => h b (List.mem_cons_of_mem _ hb))

theorem Yields.next {a : α} (hp : Yields ps r (.ok a)) (hq : Yields qs (f a) y) :
    Yields (ps ++ qs) (r >>= f) y where
  written := fill_append_ok hp.written hq.written
  read := bytes_append ps qs ▸ hp.read.next hq.read

theorem Yields.map (hp : Yields ps r x) (g : α → β) : Yields ps (g <$> r) (g <$> x) where
  written := hp.written
  read := hp.read.map g

theorem Yields.none (a : α) : Yields [] (pure a) (.ok a) := ⟨rfl, Gives.pure a⟩

theorem bytes_run (bs : Bytes) : bytes [.run bs] = bs := List.append_nil bs

theorem yields_run {bs : Bytes} (h : Gives r bs x) : Yields [.run bs] r x where
  written := rfl
  read := (bytes_run bs).symm ▸ h

theorem yields_word {n : Nat} (h : n < UInt32.size) : Yields [word n] readWord (.ok n) :=
  yields_run (gives_word _ h)

theorem yields_count {what : String} {n : Nat} (h : n < UInt32.size) :
    Yields [count what n] readWord (.ok n) := by
  rw [count, if_pos h]
  exact yields_word h

/-- Items one after the other, up to the first one that is refused. -/
theorem Yields.indexed {item : Nat → Reader Fault β} {form : α → Layout}
    {y : α → Except Fault β} {start : Nat} {as : List α}
    (h : ∀ a ∈ as, ∀ i, Yields (form a) (item i) (y a)) :
    Yields (as.flatMap form) (Reader.indexed item start as.length) (as.mapM y) where
  written := fill_flatMap_ok fun a ha => (h a ha start).written
  read := by
    have hbytes : bytes (as.flatMap form) = as.flatMap fun a => bytes (form a) :=
      List.flatMap_assoc
    rw [hbytes]
    exact Gives.indexed fun a ha i => (h a ha i).read

/-- Items after their number. -/
theorem yields_counted {item : Nat → Reader Fault β} {form : α → Layout}
    {y : α → Except Fault β} {what : String} {as : List α} (hn : as.length < UInt32.size)
    (h : ∀ a ∈ as, ∀ i, Yields (form a) (item i) (y a)) :
    Yields (count what as.length :: as.flatMap form) (readCounted item) (as.mapM y) :=
  (yields_count hn).next (Yields.indexed h)

/-- Items that all come back. -/
theorem yields_list {item : Nat → Reader Fault α} {form : α → Layout} {what : String}
    {as : List α} (hn : as.length < UInt32.size)
    (h : ∀ a ∈ as, ∀ i, Yields (form a) (item i) (.ok a)) :
    Yields (count what as.length :: as.flatMap form) (readCounted item) (.ok as) := by
  have hall : Yields (count what as.length :: as.flatMap form) (readCounted item)
      (as.mapM fun a => .ok (id a)) := yields_counted hn h
  have hmap : as.mapM (fun a => Except.ok (ε := Fault) (id a)) = .ok (as.map id) := List.mapM_pure
  rwa [hmap, List.map_id] at hall

/-! ### The fields of a code object -/

theorem yields_preamble :
    Yields [.run magic, .run (Bytes.littleEndian 2 version)] readPreamble (.ok ()) where
  written := rfl
  read := fun _ => rfl

theorem yields_code {code : List Instruction} (h : code.length < UInt32.size) :
    Yields [count "instruction array" code.length,
        .run (code.flatMap fun i => Bytes.littleEndian 4 i.word.toNat)]
      (readCounted fun _ => (fun n => (⟨UInt32.ofNat n⟩ : Instruction)) <$> readWord)
      (.ok code) := by
  have hword : ∀ i ∈ code, ∀ _ : Nat, Gives ((fun n => (⟨UInt32.ofNat n⟩ : Instruction)) <$> readWord)
      (Bytes.littleEndian 4 i.word.toNat) (.ok (id i)) := by
    intro i _ _
    have hi : (⟨UInt32.ofNat i.word.toNat⟩ : Instruction) = i := by rw [UInt32.ofNat_toNat]
    exact (gives_word _ i.word.toNat_lt).map_ok hi
  have hall : Gives (Reader.indexed
      (fun _ => (fun n => (⟨UInt32.ofNat n⟩ : Instruction)) <$> readWord) 0 code.length)
      (code.flatMap fun i => Bytes.littleEndian 4 i.word.toNat) (.ok (code.map id)) :=
    Gives.indexed_ok hword
  rw [List.map_id] at hall
  exact (yields_count h).next (yields_run hall)

theorem yields_constant {v : Value} (h : (Wire.value v).length < UInt32.size) (i : Nat) :
    Yields (constant v) (readConstant i) (.ok v) := by
  have htag : (UInt8.ofNat v.tag).toNat = v.tag := by cases v <;> rfl
  have hv : Wire.decodeValue (Wire.value v) = .ok v :=
    Wire.decodeValue_value (Nat.lt_trans h (by decide))
  refine Yields.next (yields_run (gives_byte _ _)) (Yields.next (yields_count h)
    (Yields.next (yields_run (gives_take _ rfl)) ?_))
  simp only [hv, htag, if_true]
  exact Yields.none v

theorem yields_text {role : TextRole} {s : String} :
    Yields [.run (Bytes.utf8 s)] (readText role (Bytes.utf8 s).length) (.ok s) := by
  refine Yields.next (yields_run (gives_take _ rfl)) ?_
  simp only [Bytes.ofUtf8?_utf8]
  exact Yields.none s

theorem yields_lifetime {v : Lifetime} (hname : (Bytes.utf8 v.name).length < UInt32.size)
    (hstart : v.start < UInt32.size) (hstop : v.stop < UInt32.size) :
    Yields (lifetime v) readLifetime (.ok v) :=
  (yields_count hname).next (yields_text.next
    ((yields_word hstart).next ((yields_word hstop).next (Yields.none v))))

/-- The lifetimes are announced by the flags that are written. -/
theorem yields_debugTable {flags : Flags} {lifetimes : Option (List Lifetime)}
    (hflags : flags.contains .debugInfo = lifetimes.isSome)
    (hn : ∀ vs ∈ lifetimes, vs.length < UInt32.size)
    (hv : ∀ vs ∈ lifetimes, ∀ v ∈ vs,
      (Bytes.utf8 v.name).length < UInt32.size ∧ v.start < UInt32.size ∧ v.stop < UInt32.size) :
    Yields (debugTable lifetimes) (readDebugTable flags) (.ok lifetimes) := by
  rw [readDebugTable, hflags]
  cases lifetimes with
  | none => exact Yields.none none
  | some vs =>
    have hall : Yields (debugTable (some vs)) (readCounted fun _ => readLifetime) (.ok vs) :=
      yields_list (hn vs rfl) fun v hmem _ =>
        yields_lifetime (hv vs rfl v hmem).1 (hv vs rfl v hmem).2.1 (hv vs rfl v hmem).2.2
    exact hall.map some

/-! ### Names of arguments -/

/-- The names that are written, one for each argument. -/
def paddedNames (n : Nat) (names : List (Option String)) : List (Option String) :=
  names.take n ++ List.replicate (n - names.length) none

theorem length_paddedNames (n : Nat) (names : List (Option String)) :
    (paddedNames n names).length = n := by
  rw [paddedNames, List.length_append, List.length_take, List.length_replicate]
  omega

theorem paddedNames_eq (n : Nat) (names : List (Option String)) :
    paddedNames n names = (List.range n).map fun i => names[i]?.join := by
  apply List.ext_getElem
  · rw [length_paddedNames, List.length_map, List.length_range]
  · intro i hi hi'
    rw [length_paddedNames] at hi
    rw [List.getElem_map, List.getElem_range]
    by_cases h : i < names.length
    · have htake : i < (names.take n).length := by
        rw [List.length_take]
        omega
      simp [paddedNames, List.getElem_append_left htake, h]
    · have htake : (names.take n).length ≤ i := by
        rw [List.length_take]
        omega
      simp [paddedNames, List.getElem_append_right htake, h]

/-- The bytes of missing names are those of names that are not there. -/
theorem bytes_argNames (n : Nat) (names : List (Option String)) :
    bytes (argNames n names) = (paddedNames n names).flatMap fun name => bytes (argName name) := by
  have hzeros : ∀ k, List.replicate (4 * k) (0 : UInt8)
      = (List.replicate k (none : Option String)).flatMap fun name => bytes (argName name) := by
    intro k
    induction k with
    | zero => rfl
    | succ k ih =>
      have hlen : 4 * (k + 1) = 4 * k + 1 + 1 + 1 + 1 := by omega
      have hnone : bytes (argName none) = [0, 0, 0, 0] := rfl
      have hcons : List.replicate (k + 1) (none : Option String) = none :: List.replicate k none :=
        List.replicate_succ
      rw [hcons, List.flatMap_cons, hnone, ← ih, hlen]
      rfl
  have hpiece : bytes [.zeros (n - names.length)] = List.replicate (4 * (n - names.length)) 0 :=
    List.append_nil _
  rw [argNames, bytes_append, hpiece, hzeros, paddedNames, List.flatMap_append]
  congr 1
  exact List.flatMap_assoc

theorem utf8_eq_nil {s : String} : Bytes.utf8 s = [] ↔ s = "" := by
  constructor
  · intro h
    have hs := Bytes.ofUtf8?_utf8 s
    rw [h] at hs
    exact (Option.some.inj (hs.symm.trans (Bytes.ofUtf8?_utf8 "")))
  · rintro rfl
    rfl

theorem yields_argName {name : Option String}
    (h : ∀ s ∈ name, (Bytes.utf8 s).length < UInt32.size) :
    Yields (argName name) readArgName (.ok (name.filter (· ≠ ""))) := by
  cases name with
  | none => exact (yields_word (by decide)).next (Yields.none none)
  | some s =>
    refine (yields_count (h s rfl)).next ?_
    by_cases hs : s = ""
    · subst hs
      exact ⟨rfl, Gives.pure _⟩
    · have hlen : (Bytes.utf8 s).length ≠ 0 := fun h0 =>
        hs (utf8_eq_nil.mp (List.length_eq_zero_iff.mp h0))
      rw [if_neg hlen, Option.filter_some_pos (by simpa using hs)]
      exact yields_text.map some

theorem yields_argNames {n : Nat} {names : List (Option String)}
    (h : ∀ s, some s ∈ names.take n → (Bytes.utf8 s).length < UInt32.size) :
    Yields (argNames n names) (Reader.times readArgName n)
      (.ok (CodeObject.canonicalNames n names)) := by
  have hname : ∀ name ∈ paddedNames n names, Yields (argName name) readArgName
      (.ok (name.filter (· ≠ ""))) := by
    intro name hmem
    apply yields_argName
    intro s hs
    cases hs
    rcases List.mem_append.mp hmem with hin | hout
    · exact h s hin
    · cases List.eq_of_mem_replicate hout
  constructor
  · refine fill_append_ok (fill_flatMap_ok fun name hmem => ?_) rfl
    exact (hname name (List.mem_append_left _ hmem)).written
  · have hall : Gives (Reader.times readArgName (paddedNames n names).length)
        ((paddedNames n names).flatMap fun name => bytes (argName name))
        (.ok ((paddedNames n names).map fun name => name.filter (· ≠ ""))) :=
      Gives.indexed_ok fun name hmem _ => (hname name hmem).read
    rw [length_paddedNames, ← bytes_argNames, paddedNames_eq, List.map_map] at hall
    exact hall

/-! ### Trees -/

theorem layout_eq (c : CodeObject) :
    layout c = header c ++ count "child list" c.children.length :: c.children.flatMap layout := by
  have hall : ∀ cs, layoutAll cs = cs.flatMap layout := by
    intro cs
    induction cs with
    | nil => rfl
    | cons c cs ih => rw [layoutAll, ih, List.flatMap_cons]
  cases c
  rw [layout, hall]
  rfl

/-- What comes back of a code object when `levels` levels may be read, its own included. -/
def outcome (levels : Nat) (c : CodeObject) : Except Fault CodeObject :=
  if c.nesting < levels then .ok c.canonical else .error .tooDeep

/-- Children come back when all of them do. -/
theorem mapM_outcome (levels : Nat) (cs : List CodeObject) :
    cs.mapM (outcome levels)
      = if CodeObject.nestingAll cs ≤ levels then .ok (cs.map CodeObject.canonical)
        else .error .tooDeep := by
  induction cs with
  | nil => rfl
  | cons c cs ih =>
    rw [List.mapM_cons, ih, CodeObject.nestingAll, List.map_cons, outcome]
    by_cases hc : c.nesting < levels
    · by_cases hcs : CodeObject.nestingAll cs ≤ levels
      · rw [if_pos hc, if_pos hcs, if_pos (by omega)]
        rfl
      · rw [if_pos hc, if_neg hcs, if_neg (by omega)]
        rfl
    · have hdeep : ¬ max (c.nesting + 1) (CodeObject.nestingAll cs) ≤ levels := by omega
      rw [if_neg hc, if_neg hdeep]
      rfl

theorem writtenFlags_eq (flags : Flags) (lifetimes : Option (List Lifetime)) :
    writtenFlags flags lifetimes = flags.setTo .debugInfo lifetimes.isSome := by
  cases lifetimes <;> rfl

/-- A code object comes back when its children do. -/
theorem yields_unit {c : CodeObject} {levels : Nat} (h : c.WordSized)
    (hchildren : ∀ k ∈ c.children, Yields (layout k) (readWithin levels) (outcome levels k)) :
    Yields (layout c) (readWithin (levels + 1)) (outcome (levels + 1) c) := by
  have hflags : (⟨UInt32.ofNat (writtenFlags c.flags c.lifetimes).bits.toNat⟩ : Flags)
      = c.flags.setTo .debugInfo c.lifetimes.isSome := by
    rw [UInt32.ofNat_toNat, writtenFlags_eq]
  have hall : Yields (count "child list" c.children.length :: c.children.flatMap layout)
      (readCounted fun _ => readWithin levels) (c.children.mapM (outcome levels)) :=
    yields_counted h.children fun k hk _ => hchildren k hk
  rw [mapM_outcome] at hall
  rw [layout_eq, header]
  simp only [List.append_assoc, List.cons_append]
  refine yields_preamble.next ((yields_code h.code).next ((yields_word h.maxStack).next
    ((yields_list h.constants fun v hv i => yields_constant (h.payloads v hv) i).next
    ((yields_word (UInt32.toNat_lt _)).next ((yields_word h.argCount).next
    ((yields_word h.outerCount).next ((yields_word h.localCount).next
    ((yields_argNames h.argNames).next ?_))))))))
  rw [hflags]
  refine (yields_debugTable (Flags.contains_setTo_debugInfo _ _) h.lifetimes h.symbols).next ?_
  rw [outcome, CodeObject.canonical_eq, CodeObject.nesting_eq, bind_pure_comp]
  by_cases hdeep : CodeObject.nestingAll c.children ≤ levels
  · rw [if_pos hdeep] at hall
    rw [if_pos (Nat.lt_succ_of_le hdeep)]
    exact hall.map _
  · rw [if_neg hdeep] at hall
    rw [if_neg (by omega)]
    exact hall.map _

/-- What the reader makes of the bytes of a tree. -/
theorem yields_layout {c : CodeObject} (h : ∀ u, c.Contains u → u.WordSized) (levels : Nat) :
    Yields (layout c) (readWithin levels) (outcome levels c) := by
  induction c using CodeObject.tree_induction generalizing levels with
  | h c ih =>
    have hsucc : ∀ n, Yields (layout c) (readWithin (n + 1)) (outcome (n + 1) c) := fun n =>
      yields_unit (h c (.self c)) fun k hk => ih k hk (fun u hu => h u (.child hk hu)) n
    cases levels with
    | zero =>
      -- the reader refuses before it takes a byte, but the pieces are written all the same
      exact ⟨(hsucc 0).written, fun _ => rfl⟩
    | succ n => exact hsucc n

/-- A tree whose numbers fit the format is written, and its file comes back in canonical form with
what follows left unread, unless children are nested too deeply. -/
theorem write_read {c : CodeObject} (h : ∀ u, c.Contains u → u.WordSized) :
    ∃ bs, write c = .ok bs ∧ ∀ rest,
      (c.nesting ≤ maxNesting → read (bs ++ rest) = .ok (c.canonical, rest)) ∧
      (maxNesting < c.nesting → read (bs ++ rest) = .error .tooDeep) := by
  have hyields := yields_layout h (maxNesting + 1)
  refine ⟨bytes (layout c), hyields.written, fun rest => ?_⟩
  have hread : read (bytes (layout c) ++ rest) = (·, rest) <$> outcome (maxNesting + 1) c :=
    hyields.read rest
  rw [hread, outcome]
  constructor
  · intro hle
    rw [if_pos (Nat.lt_succ_of_le hle)]
    rfl
  · intro hlt
    rw [if_neg (by omega)]
    rfl

/-- Code with a NaN, a name that is missing and an empty one, and a child whose flags announce
lifetimes it does not have. -/
def oddNames : CodeObject where
  code := [⟨7⟩]
  constants := [.real ⟨0x7ff8000000000001⟩]
  flags := ⟨0x80000000⟩
  argCount := 3
  localCount := 3
  argNames := [some "x", some ""]
  lifetimes := some [⟨"x", 0, 1⟩]
  children := [{ flags := .debugInfo, argNames := [some "extra"] }]

/-- Code objects nested in one another, with `n` below the outermost. -/
def tower : Nat → CodeObject
  | 0 => {}
  | n + 1 => { children := [tower n] }

/-- Only the children of such a unit have a size. -/
theorem wordSized_bare {flags : Flags} {names : List (Option String)} {ks : List CodeObject}
    (h : ks.length < UInt32.size) :
    CodeObject.WordSized { flags, argNames := names, children := ks } := by
  constructor <;> simp_all [UInt32.size]

theorem wordSized_oddNames : ∀ u, oddNames.Contains u → u.WordSized := by
  intro u hu
  cases hu with
  | self =>
    constructor <;> simp [oddNames, Wire.value, Wire.varint_of_lt] <;> decide
  | child hk hu =>
    rw [List.mem_singleton.mp hk] at hu
    cases hu with
    | self => exact wordSized_bare (by decide)
    | child hk => exact absurd hk List.not_mem_nil

theorem nesting_tower (n : Nat) : (tower n).nesting = n := by
  induction n with
  | zero => rfl
  | succ n ih =>
    show max ((tower n).nesting + 1) 0 = n + 1
    rw [ih, Nat.max_zero]

theorem wordSized_tower (n : Nat) : ∀ u, (tower n).Contains u → u.WordSized := by
  induction n with
  | zero =>
    intro u hu
    cases hu with
    | self => exact wordSized_bare (by decide)
    | child hk => exact absurd hk List.not_mem_nil
  | succ n ih =>
    intro u hu
    cases hu with
    | self =>
      have hone : 1 < UInt32.size := by decide
      exact wordSized_bare hone
    | child hk hu => exact ih u (List.mem_singleton.mp hk ▸ hu)

theorem write_read_oddNames :
    (∃ bs, write oddNames = .ok bs ∧ ∀ rest, read (bs ++ rest) = .ok
      ({ oddNames with
          flags := ⟨0x80000001⟩
          argNames := [some "x", none, none]
          children := [{}] }, rest)) ∧
    ∃ bs, write (tower 257) = .ok bs ∧ ∀ rest, read (bs ++ rest) = .error .tooDeep := by
  obtain ⟨bs, hwrite, hread⟩ := write_read wordSized_oddNames
  obtain ⟨cs, hwrite', hread'⟩ := write_read (wordSized_tower 257)
  refine ⟨⟨bs, hwrite, fun rest => ?_⟩, cs, hwrite', fun rest => (hread' rest).2 ?_⟩
  · exact (hread rest).1 (by decide)
  · rw [nesting_tower]
    decide

end Image

end StackCode
