import StackCode.Wire.Value
import StackCode.Proofs.Readers

/-!
# Values come back from the wire

* `gives_groups`: a number in groups of seven bits is read back when it fits their number;
* `unzigzag_zigzag`: folding signed numbers loses nothing;
* `gives_value`: a value is read back, whatever follows, and `decodeValue_value`: it is what its
  bytes begin with.

The reader of values recurs on a bound for the depth. The length of the bytes is such a bound, and
it is the one the induction carries: the items of a collection take fewer bytes than the whole.
-/

namespace StackCode.Wire

open Reader

/-! ### Numbers -/

theorem varint_of_lt {n : Nat} (h : n < 128) : varint n = [UInt8.ofNat n] := by
  rw [varint, if_pos h]

theorem varint_of_le {n : Nat} (h : 128 ≤ n) :
    varint n = UInt8.ofNat (n % 128 + 128) :: varint (n / 128) := by
  rw [varint, if_neg (by omega)]

theorem length_varint_of_lt {n : Nat} (h : n < 128) : (varint n).length = 1 := by
  rw [varint_of_lt h, List.length_singleton]

theorem varint_ne_nil (n : Nat) : varint n ≠ [] := by
  by_cases h : n < 128
  · simp [varint_of_lt h]
  · simp [varint_of_le (Nat.le_of_not_lt h)]

/-- A single group, the last that is allowed or an earlier one. -/
theorem gives_lastGroup {last groups n : Nat} (hn : n < 128) (hl : groups = 0 → n ≤ last) :
    Gives (readGroups last (groups + 1)) (varint n) (.ok n) := by
  intro rest
  have hb : (UInt8.ofNat n).toNat = n := by
    rw [UInt8.toNat_ofNat']
    omega
  have hlast : ¬ (groups = 0 ∧ last < n) := fun ⟨h0, h⟩ => absurd (hl h0) (by omega)
  rw [varint_of_lt hn]
  have hrun : readGroups last (groups + 1) ([UInt8.ofNat n] ++ rest)
      = (if (UInt8.ofNat n).toNat < 128 then
          if groups = 0 ∧ last < (UInt8.ofNat n).toNat then throw Fault.unendingNumber
          else pure (UInt8.ofNat n).toNat
        else do
          let more ← readGroups last groups
          pure ((UInt8.ofNat n).toNat - 128 + 128 * more) : Reader Fault Nat) rest := rfl
  rw [hrun, hb, if_pos hn, if_neg hlast]
  rfl

theorem gives_groups (last groups : Nat) {n : Nat} (hlast : last < 128)
    (hn : n < (last + 1) * Nat.pow 128 groups) :
    Gives (readGroups last (groups + 1)) (varint n) (.ok n) := by
  induction groups generalizing n with
  | zero =>
    have hn : n < (last + 1) * 1 := hn
    exact gives_lastGroup (by omega) fun _ => by omega
  | succ groups ih =>
    by_cases h : n < 128
    · exact gives_lastGroup h fun h0 => by omega
    · have hle : 128 ≤ n := Nat.le_of_not_lt h
      have hq : n / 128 < (last + 1) * Nat.pow 128 groups := by
        apply Nat.div_lt_of_lt_mul
        calc n < (last + 1) * (Nat.pow 128 groups * 128) := hn
          _ = 128 * ((last + 1) * Nat.pow 128 groups) := by rw [← Nat.mul_assoc, Nat.mul_comm]
      have hb : (UInt8.ofNat (n % 128 + 128)).toNat = n % 128 + 128 := by
        rw [UInt8.toNat_ofNat']
        omega
      intro rest
      rw [varint_of_le hle]
      have hrun : readGroups last (groups + 1 + 1)
            (UInt8.ofNat (n % 128 + 128) :: varint (n / 128) ++ rest)
          = (if (UInt8.ofNat (n % 128 + 128)).toNat < 128 then
              if groups + 1 = 0 ∧ last < (UInt8.ofNat (n % 128 + 128)).toNat then
                throw Fault.unendingNumber
              else pure (UInt8.ofNat (n % 128 + 128)).toNat
            else do
              let more ← readGroups last (groups + 1)
              pure ((UInt8.ofNat (n % 128 + 128)).toNat - 128 + 128 * more) : Reader Fault Nat)
            (varint (n / 128) ++ rest) := rfl
      rw [hrun, hb, if_neg (by omega)]
      have hvalue : n % 128 + 128 - 128 + 128 * (n / 128) = n := by omega
      exact (ih hq).map_ok (g := fun more => n % 128 + 128 - 128 + 128 * more) hvalue rest

theorem gives_word {n : Nat} (h : n < UInt32.size) : Gives Width.word.read (varint n) (.ok n) :=
  gives_groups 15 4 (by decide) (by omega)

theorem gives_long {n : Nat} (h : n < UInt64.size) : Gives Width.long.read (varint n) (.ok n) :=
  gives_groups 1 9 (by decide) (by omega)

theorem zigzag_lt (n : Int64) : zigzag n < UInt64.size := by
  have hlo := n.le_toInt
  have hhi := n.toInt_lt
  unfold zigzag UInt64.size
  split <;> omega

theorem unzigzag_zigzag (n : Int64) : unzigzag (zigzag n) = n := by
  by_cases h : 0 ≤ n.toInt
  · have hz : zigzag n = 2 * n.toInt.toNat := if_pos h
    have hhalf : ((2 * n.toInt.toNat / 2 : Nat) : Int) = n.toInt := by omega
    rw [hz, unzigzag, if_pos (by omega), hhalf, Int64.ofInt_toInt]
  · have hz : zigzag n = 2 * (-n.toInt).toNat - 1 := if_neg h
    have hhalf : -(((2 * (-n.toInt).toNat - 1) / 2 : Nat) : Int) - 1 = n.toInt := by omega
    rw [hz, unzigzag, if_neg (by omega), hhalf, Int64.ofInt_toInt]

/-! ### Truth values, texts, sequences -/

theorem gives_bool (b : Bool) : Gives readBool (bool b) (.ok b) := by
  cases b <;> exact fun _ => rfl

theorem gives_text {s : String} (h : (Bytes.utf8 s).length < UInt64.size) :
    Gives readText (text s) (.ok s) := by
  refine (gives_long h).next ((gives_take Fault.endOfInput rfl).last ?_)
  rw [Bytes.ofUtf8?_utf8]
  exact Gives.pure s

theorem gives_list {α : Type} {item : Reader Fault α} {form : α → Bytes} {as : List α}
    (hn : as.length < UInt64.size) (h : ∀ a ∈ as, Gives item (form a) (.ok a)) :
    Gives (readList item) (varint as.length ++ as.flatMap form) (.ok as) := by
  have hall : Gives (Reader.times item as.length) (as.flatMap form) (.ok (as.map id)) :=
    Gives.indexed_ok fun a ha _ => h a ha
  rw [List.map_id] at hall
  exact (gives_long hn).next hall

/-! ### Values -/

theorem values_eq (vs : List Value) : values vs = vs.flatMap value := by
  induction vs with
  | nil => rfl
  | cons v vs ih => rw [values, ih, List.flatMap_cons]

theorem valuePairs_eq (es : List (Value × Value)) :
    valuePairs es = es.flatMap fun e => value e.1 ++ value e.2 := by
  induction es with
  | nil => rfl
  | cons e es ih => rw [valuePairs, ih, List.flatMap_cons]

/-- A value begins with the number of its kind. -/
theorem exists_value_eq (v : Value) : ∃ content, value v = varint v.tag ++ content := by
  cases v with
  | nil => exact ⟨[], by rw [List.append_nil]; rfl⟩
  | bool | integer | real | string => exact ⟨_, rfl⟩
  | array | map => exact ⟨_, by rw [value, List.append_assoc]; rfl⟩

theorem value_length_pos (v : Value) : 0 < (value v).length := by
  obtain ⟨content, hv⟩ := exists_value_eq v
  have htag := List.length_pos_iff.mpr (varint_ne_nil v.tag)
  rw [hv, List.length_append]
  omega

/-- When every item takes a byte, there are no more items than bytes. -/
theorem length_le_length_flatMap {α : Type} {form : α → Bytes} (hpos : ∀ a, 0 < (form a).length)
    (as : List α) : as.length ≤ (as.flatMap form).length := by
  induction as with
  | nil => exact Nat.le_refl _
  | cons a as ih =>
    have ha := hpos a
    rw [List.flatMap_cons, List.length_append, List.length_cons]
    omega

/-- An item takes no more bytes than all of them. -/
theorem length_le_flatMap {α : Type} (form : α → Bytes) {as : List α} {a : α} (h : a ∈ as) :
    (form a).length ≤ (as.flatMap form).length := by
  induction as with
  | nil => exact absurd h List.not_mem_nil
  | cons b as ih =>
    rw [List.flatMap_cons, List.length_append]
    rcases List.mem_cons.mp h with rfl | hmem
    · omega
    · have hle := ih hmem
      omega

/-- The reader of values after the number of the kind. -/
theorem gives_tagged {depth tag : Nat} {bs : Bytes} {v : Value} {body : Nat → Reader Fault Value}
    (hbody : readValueWithin (depth + 1) = Width.word.read >>= body) (htag : tag < UInt32.size)
    (h : Gives (body tag) bs (.ok v)) :
    Gives (readValueWithin (depth + 1)) (varint tag ++ bs) (.ok v) :=
  hbody ▸ (gives_word htag).next h

/-- A value is read back by a reader whose bound is at least the length of its bytes. -/
theorem gives_value {v : Value} {depth : Nat} (hd : (value v).length ≤ depth)
    (hs : (value v).length < UInt64.size) : Gives (readValueWithin depth) (value v) (.ok v) := by
  induction depth generalizing v with
  | zero => exact absurd (value_length_pos v) (by omega)
  | succ depth ih =>
    cases v with
    | nil =>
      have hnil : value .nil = varint 0 ++ [] := by rw [value, List.append_nil]
      rw [hnil]
      exact gives_tagged rfl (by decide) (Gives.pure Value.nil)
    | bool b => exact gives_tagged rfl (by decide) ((gives_bool b).map Value.bool)
    | integer n =>
      have hn : Value.integer (unzigzag (zigzag n)) = .integer n := by rw [unzigzag_zigzag]
      exact gives_tagged rfl (by decide) ((gives_long (zigzag_lt n)).map_ok hn)
    | real x =>
      have hbits : UInt64.ofNat (Bytes.ofLittleEndian (Bytes.littleEndian 8 x.bits.toNat))
          = x.bits := by
        have hlt : x.bits.toNat < Nat.pow 256 8 := x.bits.toNat_lt
        rw [Bytes.ofLittleEndian_littleEndian hlt, UInt64.ofNat_toNat]
      have hx : Value.real ⟨UInt64.ofNat (Bytes.ofLittleEndian (Bytes.littleEndian 8 x.bits.toNat))⟩
          = .real x := congrArg (fun bits => Value.real ⟨bits⟩) hbits
      exact gives_tagged rfl (by decide)
        ((gives_take Fault.endOfInput (Bytes.length_littleEndian 8 _)).map_ok hx)
    | string s =>
      have hlen : (Bytes.utf8 s).length < UInt64.size := by
        simp only [value, text, List.length_append] at hs
        omega
      exact gives_tagged rfl (by decide) ((gives_text hlen).map Value.string)
    | array items =>
      have h1 : (varint 5).length = 1 := length_varint_of_lt (by decide)
      simp only [value, List.length_append, h1, values_eq] at hd hs
      have hn := length_le_length_flatMap value_length_pos items
      have hitem : ∀ w ∈ items, Gives (readValueWithin depth) (value w) (.ok w) := by
        intro w hw
        have hle := length_le_flatMap value hw
        exact ih (by omega) (by omega)
      have hitems := gives_list (by omega) hitem
      rw [value, values_eq, List.append_assoc]
      exact gives_tagged rfl (by decide) (hitems.map Value.array)
    | map entries =>
      have h1 : (varint 6).length = 1 := length_varint_of_lt (by decide)
      simp only [value, List.length_append, h1, valuePairs_eq] at hd hs
      have hpos : ∀ e : Value × Value, 0 < (value e.1 ++ value e.2).length := fun e => by
        have hk := value_length_pos e.1
        rw [List.length_append]
        omega
      have hn := length_le_length_flatMap hpos entries
      have hentry : ∀ e ∈ entries, Gives (do
          let k ← readValueWithin depth
          let w ← readValueWithin depth
          pure (k, w)) (value e.1 ++ value e.2) (.ok e) := by
        intro e he
        have hle := length_le_flatMap (fun e => value e.1 ++ value e.2) he
        rw [List.length_append] at hle
        have hk := ih (v := e.1) (by omega) (by omega)
        have hw := ih (v := e.2) (by omega) (by omega)
        exact hk.next (hw.map fun w => (e.1, w))
      have hentries := gives_list (by omega) hentry
      rw [value, valuePairs_eq, List.append_assoc]
      exact gives_tagged rfl (by decide) (hentries.map Value.map)

/-- A value is what its bytes begin with. -/
theorem decodeValue_value {v : Value} (h : (value v).length < UInt64.size) :
    decodeValue (value v) = .ok v := by
  have hread := gives_value (Nat.le_succ (value v).length) h []
  rw [List.append_nil] at hread
  simp only [decodeValue, decode, readValue, hread]
  rfl

end StackCode.Wire
