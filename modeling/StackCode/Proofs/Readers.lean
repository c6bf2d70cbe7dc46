import StackCode.Bytes.Basic

/-!
# What readers make of bytes

A reader is described by what it makes of some bytes at the front of the input, whatever stands
behind them.

* `Reader.Gives`: it takes exactly these bytes and gives a result, or it fails for their sake.

The description of a reader is put together as the reader is: `Gives.bind` for one reader after the
other, with `Gives.next` when the first one succeeds, and `Gives.indexed` for several in a row.
-/

namespace StackCode.Reader

variable {ε α β : Type} {r : Reader ε α} {f : α → Reader ε β} {bs cs : Bytes} {x : Except ε α}
  {y : α → Except ε β}

/-- When `x` is a result, the reader takes `bs`, leaves what follows and gives the result; when `x`
is a failure, the reader fails so on everything that begins with `bs`. -/
def Gives (r : Reader ε α) (bs : Bytes) (x : Except ε α) : Prop :=
  ∀ rest, r (bs ++ rest) = (·, rest) <$> x

/-! ### One after the other -/

theorem Gives.pure (a : α) : Gives (ε := ε) (Pure.pure a) [] (.ok a) := fun _ => rfl

theorem Gives.bind (hr : Gives r bs x) (hf : ∀ a, x = .ok a → Gives (f a) cs (y a)) :
    Gives (r >>= f) (bs ++ cs) (x >>= y) := by
  intro rest
  have hrun : (r >>= f) (bs ++ cs ++ rest) = (r (bs ++ cs ++ rest) >>= fun s => f s.1 s.2) := rfl
  rw [hrun, List.append_assoc, hr]
  cases x with
  | ok a => exact hf a rfl rest
  | error e => rfl

/-- What follows a reader that succeeds decides. -/
theorem Gives.next {a : α} {z : Except ε β} (hr : Gives r bs (.ok a)) (hf : Gives (f a) cs z) :
    Gives (r >>= f) (bs ++ cs) z :=
  hr.bind (y := fun _ => z) fun
    | _, rfl => hf

/-- What follows takes no more bytes. -/
theorem Gives.last {a : α} {z : Except ε β} (hr : Gives r bs (.ok a)) (hf : Gives (f a) [] z) :
    Gives (r >>= f) bs z := by
  have h := hr.next hf
  rw [List.append_nil] at h
  exact h

theorem Gives.map (hr : Gives r bs x) (g : α → β) : Gives (g <$> r) bs (g <$> x) := by
  have h := hr.bind fun a _ => Gives.pure (ε := ε) (g a)
  rw [List.append_nil] at h
  cases x <;> exact h

theorem Gives.map_ok {a : α} {b : β} (hr : Gives r bs (.ok a)) {g : α → β} (hb : g a = b) :
    Gives (g <$> r) bs (.ok b) :=
  hb ▸ hr.map g

/-! ### Bytes and numbers -/

theorem gives_byte (e : ε) (b : UInt8) : Gives (byte e) [b] (.ok b) := fun _ => rfl

theorem gives_take (e : ε) {n : Nat} (h : bs.length = n) : Gives (take n e) bs (.ok bs) :=
  fun rest => h ▸ take_append bs rest

theorem gives_word (e : ε) {n : Nat} (h : n < UInt32.size) :
    Gives (word e) (Bytes.littleEndian 4 n) (.ok n) := by
  rw [word_eq_take]
  exact (gives_take e (Bytes.length_littleEndian 4 n)).map_ok (Bytes.ofLittleEndian_littleEndian h)

/-! ### Several in a row -/

variable {item : Nat → Reader ε β} {form : α → Bytes}

/-- Items are read one by one, up to the first one that is refused. -/
theorem Gives.indexed {start : Nat} {as : List α}
    (h : ∀ a ∈ as, ∀ i, Gives (item i) (form a) (y a)) :
    Gives (Reader.indexed item start as.length) (as.flatMap form) (as.mapM y) := by
  induction as generalizing start with
  | nil => exact Gives.pure []
  | cons a as ih =>
    rw [List.length_cons, indexed_succ, List.flatMap_cons, List.mapM_cons]
    have hrest : Gives (Reader.indexed item (start + 1) as.length) (as.flatMap form)
        (as.mapM y) := ih fun b hb => h b (List.mem_cons_of_mem _ hb)
    have hmap := (h a List.mem_cons_self start).bind fun b _ => hrest.map (b :: ·)
    simpa only [map_eq_pure_bind] using hmap

/-- When every item is read, so are all of them. -/
theorem Gives.indexed_ok {start : Nat} {as : List α} {meaning : α → β}
    (h : ∀ a ∈ as, ∀ i, Gives (item i) (form a) (.ok (meaning a))) :
    Gives (Reader.indexed item start as.length) (as.flatMap form) (.ok (as.map meaning)) := by
  have hall : Gives (Reader.indexed item start as.length) (as.flatMap form) (as.mapM fun a =>
    .ok (meaning a)) := Gives.indexed h
  have hmap : as.mapM (fun a => Except.ok (ε := ε) (meaning a)) = .ok (as.map meaning) :=
    List.mapM_pure
  rwa [hmap] at hall

end StackCode.Reader
