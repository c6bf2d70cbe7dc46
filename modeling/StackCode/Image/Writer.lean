import StackCode.Image.Basic
import StackCode.Wire.Value

/-!
# Writing code files

A code file is written piece by piece, and writing ends at the first piece that cannot be written.

* `Image.Piece`: a part of a file;
* `Image.layout`: the pieces of a code object and its children;
* `Image.fill`: the bytes of pieces, for an output with limited or unlimited room;
* `Image.write`, `Image.writeWithin`: the bytes of a code object.

The flag for lifetimes is written from their presence and not copied from the flags. Arguments
beyond the list of names are written without a name, and names beyond the number of arguments are
not written. The names that are missing are one piece, whatever their number.

`fill_append` says that pieces are written one after the other; `writeWithin_of_write` says that
limited room makes no difference to a file that fits.
-/

namespace StackCode.Image

/-! ### Pieces -/

/-- A part of a code file. -/
inductive Piece where
  | run (bs : Bytes)
  /-- So many words of zero. -/
  | zeros (words : Nat)
  /-- A length or count that does not fit a word; writing ends here. -/
  | oversize (what : String) (length : Nat)
  deriving DecidableEq, Repr

/-- How many bytes a piece takes. -/
def Piece.size : Piece → Nat
  | run bs => bs.length
  | zeros words => 4 * words
  | oversize _ _ => 0

/-- The bytes of a piece. -/
def Piece.content : Piece → Bytes
  | run bs => bs
  | zeros words => List.replicate (4 * words) 0
  | oversize _ _ => []

theorem Piece.length_content (p : Piece) : p.content.length = p.size := by
  cases p <;> simp [content, size]

abbrev Layout := List Piece

/-- The bytes of pieces, when the output has room for so many bytes; an output without a limit has
`none`. -/
def fill : Option Nat → Layout → Except Fault Bytes
  | _, [] => .ok []
  | _, .oversize what length :: _ => .error (.tooLarge what length)
  | room, p :: ps =>
    if room.any (· < p.size) then .error .outputFull
    else (p.content ++ ·) <$> fill (room.map (· - p.size)) ps

/-- Without a limit, pieces are written one after the other. -/
theorem fill_append (xs ys : Layout) :
    fill none (xs ++ ys) = fill none xs >>= fun a => (a ++ ·) <$> fill none ys := by
  induction xs with
  | nil => cases h : fill none ys <;> simp [fill, h, bind, Except.bind, Functor.map, Except.map]
  | cons p ps ih =>
    cases p <;>
      simp only [List.cons_append, fill, Option.any_none, Option.map_none, ih] <;>
      cases fill none ps <;> cases fill none ys <;>
      simp [bind, Except.bind, Functor.map, Except.map]

/-- Limited room makes no difference to what fits. -/
theorem fill_some {ps : Layout} {bs : Bytes} (h : fill none ps = .ok bs) (limit : Nat) :
    fill (some limit) ps = if bs.length ≤ limit then .ok bs else .error .outputFull := by
  induction ps generalizing bs limit with
  | nil =>
    cases h
    simp [fill]
  | cons p ps ih =>
    have hp := p.length_content
    cases p with
    | oversize what length => simp [fill] at h
    | run | zeros =>
      simp only [fill, Option.any_none, Option.map_none, Option.any_some, Option.map_some,
        decide_eq_true_eq] at h ⊢
      cases hps : fill none ps with
      | error e => simp [hps, Functor.map, Except.map] at h
      | ok rest =>
        simp only [hps, Functor.map, Except.map, Bool.false_eq_true, if_false,
          Except.ok.injEq] at h
        subst h
        rw [ih hps, List.length_append, hp]
        split
        · rw [if_neg (by omega)]
        · split
          · rw [if_pos (by omega)]
            rfl
          · rw [if_neg (by omega)]
            rfl

/-! ### The layout of a code object -/

/-- A word of four bytes. -/
def word (n : Nat) : Piece := .run (Bytes.littleEndian 4 n)

/-- A length or count, which has to fit a word. -/
def count (what : String) (n : Nat) : Piece :=
  if n < UInt32.size then word n else .oversize what n

/-- A text after its length in bytes. -/
def text (role : TextRole) (s : String) : Layout :=
  let bs := Bytes.utf8 s
  [count role.name bs.length, .run bs]

/-- A constant: the tag of its kind and its bytes on the wire, after their number. -/
def constant (v : Value) : Layout :=
  let payload := Wire.value v
  [.run [UInt8.ofNat v.tag], count "constant payload" payload.length, .run payload]

/-- The flags with the bit for lifetimes set exactly when there are lifetimes. -/
def writtenFlags (flags : Flags) (lifetimes : Option (List Lifetime)) : Flags :=
  match lifetimes with
  | some _ => flags.insert .debugInfo
  | none => flags.remove .debugInfo

/-- The name of one argument; no name is written as an empty one. -/
def argName : Option String → Layout
  | some name => text .argumentName name
  | none => [word 0]

/-- The names of `n` arguments. -/
def argNames (n : Nat) (names : List (Option String)) : Layout :=
  (names.take n).flatMap argName ++ [.zeros (n - names.length)]

def lifetime (v : Lifetime) : Layout := text .debugSymbol v.name ++ [word v.start, word v.stop]

/-- The lifetimes after their number, if there are any to write. -/
def debugTable : Option (List Lifetime) → Layout
  | none => []
  | some vs => count "debug table" vs.length :: vs.flatMap lifetime

/-- Everything of a code object but its children. -/
def header (c : CodeObject) : Layout :=
  [.run magic, .run (Bytes.littleEndian 2 version)]
    ++ count "instruction array" c.code.length
      :: .run (c.code.flatMap fun i => Bytes.littleEndian 4 i.word.toNat)
      :: word c.maxStack
      :: count "constant pool" c.constants.length :: c.constants.flatMap constant
    ++ [word (writtenFlags c.flags c.lifetimes).bits.toNat,
        word c.argCount, word c.outerCount, word c.localCount]
    ++ argNames c.argCount c.argNames ++ debugTable c.lifetimes

mutual

/-- The pieces of a code object and its children. -/
def layout : CodeObject → Layout
  | ⟨code, constants, maxStack, flags, args, outers, locals, names, lifetimes, children⟩ =>
    header
      { code, constants, maxStack, flags, argCount := args, outerCount := outers,
        localCount := locals, argNames := names, lifetimes }
      ++ count "child list" children.length :: layoutAll children

/-- The pieces of several code objects. -/
def layoutAll : List CodeObject → Layout
  | [] => []
  | c :: cs => layout c ++ layoutAll cs

end

/-! ### Writing -/

/-- The bytes of a code object and its children. -/
def write (c : CodeObject) : Except Fault Bytes := fill none (layout c)

/-- The bytes of a code object, when the output has room for `limit` bytes. -/
def writeWithin (limit : Nat) (c : CodeObject) : Except Fault Bytes := fill (some limit) (layout c)

theorem writeWithin_of_write {c : CodeObject} {bs : Bytes} (h : write c = .ok bs) (limit : Nat) :
    writeWithin limit c = if bs.length ≤ limit then .ok bs else .error .outputFull :=
  fill_some h limit

end StackCode.Image
