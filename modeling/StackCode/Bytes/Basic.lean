/-!
# Bytes

Numbers and texts as lists of bytes, and readers that take them from the front of a list.

* `littleEndian`, `ofLittleEndian`: numbers, low byte first;
* `utf8`, `ofUtf8?`: texts;
* `Reader`: a step that consumes bytes or fails, with `Reader.take`, `Reader.byte`, `Reader.word`
  and `Reader.indexed`.

`ofLittleEndian_littleEndian` and `ofUtf8?_eq_some_iff` say that reading undoes writing;
`Reader.take_append` says that a reader leaves what follows alone; `Reader.indexed_succ` reads items
one by one.
-/

namespace StackCode

abbrev Bytes := List UInt8

namespace Bytes

/-! ### Numbers -/

/-- The lowest `width` bytes of `n`, low byte first. -/
def littleEndian : Nat → Nat → Bytes
  | 0, _ => []
  | width + 1, n => UInt8.ofNat n :: littleEndian width (n / 256)

/-- The number with these bytes, low byte first. -/
def ofLittleEndian : Bytes → Nat
  | [] => 0
  | b :: bs => b.toNat + 256 * ofLittleEndian bs

@[simp]
theorem length_littleEndian (width n : Nat) : (littleEndian width n).length = width := by
  induction width generalizing n with
  | zero => rfl
  | succ width ih => simp [littleEndian, ih]

theorem ofLittleEndian_littleEndian {width n : Nat} (h : n < Nat.pow 256 width) :
    ofLittleEndian (littleEndian width n) = n := by
  induction width generalizing n with
  | zero =>
    have h0 : Nat.pow 256 0 = 1 := rfl
    simp only [littleEndian, ofLittleEndian]
    omega
  | succ width ih =>
    have hs : Nat.pow 256 (width + 1) = Nat.pow 256 width * 256 := rfl
    have hq : n / 256 < Nat.pow 256 width := Nat.div_lt_of_lt_mul (by omega)
    simp only [littleEndian, ofLittleEndian, ih hq, UInt8.toNat_ofNat']
    omega

theorem ofLittleEndian_lt (bs : Bytes) : ofLittleEndian bs < Nat.pow 256 bs.length := by
  induction bs with
  | nil => exact Nat.one_pos
  | cons b bs ih =>
    have hb := b.toNat_lt
    have hs : Nat.pow 256 (bs.length + 1) = Nat.pow 256 bs.length * 256 := rfl
    simp only [ofLittleEndian, List.length_cons]
    omega

/-! ### Texts -/

/-- The UTF-8 form of a text. -/
def utf8 (s : String) : Bytes := s.toUTF8.data.toList

/-- The text with this UTF-8 form, if the bytes are well formed. -/
def ofUtf8? (bs : Bytes) : Option String := String.fromUTF8? ⟨bs.toArray⟩

@[simp]
theorem ofUtf8?_utf8 (s : String) : ofUtf8? (utf8 s) = some s := by
  simp [ofUtf8?, utf8, String.fromUTF8?, s.isValidUTF8, String.fromUTF8]

theorem eq_utf8_of_ofUtf8? {bs : Bytes} {s : String} (h : ofUtf8? bs = some s) : bs = utf8 s := by
  unfold ofUtf8? String.fromUTF8? at h
  split at h
  · simp only [String.fromUTF8, Option.some.injEq] at h
    subst h
    rfl
  · simp at h

theorem ofUtf8?_eq_some_iff {bs : Bytes} {s : String} : ofUtf8? bs = some s ↔ bs = utf8 s :=
  ⟨eq_utf8_of_ofUtf8?, fun h => h ▸ ofUtf8?_utf8 s⟩

end Bytes

/-! ### Readers -/

/-- A step that takes bytes from the front of the input, or fails. -/
abbrev Reader (ε α : Type) := StateT Bytes (Except ε) α

namespace Reader

variable {ε α : Type}

/-- The next `n` bytes; `e` when fewer are left. -/
def take (n : Nat) (e : ε) : Reader ε Bytes := fun bs =>
  let front := bs.take n
  if front.length = n then .ok (front, bs.drop n) else .error e

/-- The next byte; `e` at the end of the input. -/
def byte (e : ε) : Reader ε UInt8
  | [] => .error e
  | b :: bs => .ok (b, bs)

/-- Taking as many bytes as `front` has takes `front`, whatever follows. -/
theorem take_append {e : ε} (front rest : Bytes) :
    take front.length e (front ++ rest) = .ok (front, rest) := by
  simp [take]

theorem take_of_lt {n : Nat} {e : ε} {bs : Bytes} (h : bs.length < n) : take n e bs = .error e := by
  simp [take]
  omega

/-- The number in the next four bytes, low byte first; `e` when fewer are left. -/
def word (e : ε) : Reader ε Nat
  | a :: b :: c :: d :: bs =>
    .ok (a.toNat + 256 * (b.toNat + 256 * (c.toNat + 256 * d.toNat)), bs)
  | _ => .error e

theorem word_eq_take (e : ε) : word e = Bytes.ofLittleEndian <$> take 4 e := by
  funext bs
  match bs with
  | [] | [_] | [_, _] | [_, _, _] => rfl
  | _ :: _ :: _ :: _ :: _ =>
    simp [word, take, Bytes.ofLittleEndian, Functor.map, StateT.map, bind, Except.bind, pure,
      Except.pure]

/-- `count` items in a row, numbered from `start`, behind those that are `done`, the last one
first. -/
def indexedAfter (item : Nat → Reader ε α) (done : List α) (start : Nat) :
    Nat → Reader ε (List α)
  | 0 => pure done.reverse
  | count + 1 => do
    let a ← item start
    indexedAfter item (a :: done) (start + 1) count

/-- `count` items in a row, numbered from `start`. -/
def indexed (item : Nat → Reader ε α) (start count : Nat) : Reader ε (List α) :=
  indexedAfter item [] start count

theorem indexedAfter_eq (item : Nat → Reader ε α) (done : List α) (start count : Nat) :
    indexedAfter item done start count = (done.reverse ++ ·) <$> indexed item start count := by
  induction count generalizing done start with
  | zero => simp [indexed, indexedAfter]
  | succ count ih =>
    simp only [indexed, indexedAfter, map_bind]
    simp only [ih (_ :: _), List.reverse_cons, Functor.map_map]
    simp

@[simp]
theorem indexed_zero (item : Nat → Reader ε α) (start : Nat) : indexed item start 0 = pure [] := rfl

theorem indexed_succ (item : Nat → Reader ε α) (start count : Nat) :
    indexed item start (count + 1)
      = item start >>= fun a => (a :: ·) <$> indexed item (start + 1) count := by
  simp only [indexed, indexedAfter, indexedAfter_eq item [_]]
  simp

/-- `count` items in a row. -/
def times (item : Reader ε α) (count : Nat) : Reader ε (List α) :=
  indexed (fun _ => item) 0 count

end Reader

end StackCode
