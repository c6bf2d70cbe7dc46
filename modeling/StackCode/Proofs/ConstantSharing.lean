import StackCode.Scope.Pool
import StackCode.Proofs.WireRoundTrip

/-!
# Sharing of constants

Two literals share an entry of the pool exactly when they are the same literal, and an entry never
changes. What makes two literals the same is said twice: by the comparison of the pool and by the
bytes of a code file. The bytes of a value are self-delimiting, so equal bytes come from equal values,
whatever follows them.

* `Wire.SelfDelimiting`, `Wire.selfDelimiting_varint`, `selfDelimiting_text`, `value_append`: where
  one value ends and the next begins is never in doubt;
* `Value.same_iff_value_eq`, `Value.equivalence_same`: the comparison of the pool is equality of
  bytes, and an equivalence;
* `Pool.Request`, `Pool.after`, `Pool.afterAll`: the requests a pool answers, one by one;
* `Pool.Distinct`, `Distinct.after`, `get?_after`: what one request keeps;
* `Pool.sharing_exact`: what holds after any requests to an empty pool.
-/

namespace StackCode

/-! ### Self-delimiting bytes -/

namespace Wire

/-- The bytes of an item tell where they end: what follows an item is never taken for a part of
it. -/
def SelfDelimiting {α : Type} (form : α → Bytes) : Prop :=
  ∀ ⦃a b : α⦄ ⦃r s : Bytes⦄, form a ++ r = form b ++ s → a = b ∧ r = s

theorem cons_ofNat_inj {m n : Nat} {r s : Bytes} (h : UInt8.ofNat m :: r = UInt8.ofNat n :: s) :
    m % 256 = n % 256 ∧ r = s := by
  simp only [List.cons.injEq] at h
  have hbyte := congrArg UInt8.toNat h.1
  simp only [UInt8.toNat_ofNat'] at hbyte
  exact ⟨hbyte, h.2⟩

theorem selfDelimiting_varint : SelfDelimiting varint := by
  intro m
  induction m using Nat.strongRecOn with
  | ind m ih =>
    intro n r s h
    by_cases hm : m < 128
    · by_cases hn : n < 128
      · rw [varint_of_lt hm, varint_of_lt hn] at h
        obtain ⟨hbyte, hr⟩ := cons_ofNat_inj h
        exact ⟨by omega, hr⟩
      · -- the first group of a longer number has its high bit set
        rw [varint_of_lt hm, varint_of_le (Nat.le_of_not_lt hn)] at h
        obtain ⟨hbyte, -⟩ := cons_ofNat_inj h
        omega
    · by_cases hn : n < 128
      · rw [varint_of_le (Nat.le_of_not_lt hm), varint_of_lt hn] at h
        obtain ⟨hbyte, -⟩ := cons_ofNat_inj h
        omega
      · rw [varint_of_le (Nat.le_of_not_lt hm), varint_of_le (Nat.le_of_not_lt hn)] at h
        obtain ⟨hbyte, hrest⟩ := cons_ofNat_inj h
        obtain ⟨hq, hr⟩ := ih (m / 128) (by omega) hrest
        exact ⟨by omega, hr⟩

theorem selfDelimiting_bool : SelfDelimiting bool := by
  intro a b r s h
  cases a <;> cases b <;> simp_all [bool]

theorem selfDelimiting_integer : SelfDelimiting fun n => varint (zigzag n) := by
  intro a b r s h
  obtain ⟨hz, hr⟩ := selfDelimiting_varint h
  refine ⟨?_, hr⟩
  rw [← unzigzag_zigzag a, hz, unzigzag_zigzag]

/-- A real is its eight bytes, whatever number they stand for. -/
theorem selfDelimiting_real : SelfDelimiting fun x : Double => Bytes.littleEndian 8 x.bits.toNat := by
  rintro ⟨a⟩ ⟨b⟩ r s h
  simp only at h
  have hlen : (Bytes.littleEndian 8 a.toNat).length = (Bytes.littleEndian 8 b.toNat).length := by
    rw [Bytes.length_littleEndian, Bytes.length_littleEndian]
  obtain ⟨hbytes, hr⟩ := List.append_inj h hlen
  have hbits : a.toNat = b.toNat := by
    rw [← Bytes.ofLittleEndian_littleEndian (show a.toNat < Nat.pow 256 8 from a.toNat_lt), hbytes,
      Bytes.ofLittleEndian_littleEndian (show b.toNat < Nat.pow 256 8 from b.toNat_lt)]
  rw [UInt64.toNat_inj.mp hbits]
  exact ⟨rfl, hr⟩

theorem selfDelimiting_text : SelfDelimiting text := by
  intro a b r s h
  simp only [text, List.append_assoc] at h
  obtain ⟨hlen, hrest⟩ := selfDelimiting_varint h
  obtain ⟨hbytes, hr⟩ := List.append_inj hrest hlen
  refine ⟨?_, hr⟩
  have hsome := Bytes.ofUtf8?_utf8 a
  rw [hbytes, Bytes.ofUtf8?_utf8] at hsome
  exact (Option.some.inj hsome).symm

/-- Two values that begin the same bytes are of one kind. -/
theorem tag_eq_of_append {a b : Value} {r s : Bytes} (h : value a ++ r = value b ++ s) :
    a.tag = b.tag := by
  obtain ⟨ca, ha⟩ := exists_value_eq a
  obtain ⟨cb, hb⟩ := exists_value_eq b
  rw [ha, hb, List.append_assoc, List.append_assoc] at h
  exact (selfDelimiting_varint h).1

mutual

/-- The bytes of a value are self-delimiting. -/
theorem value_append : ∀ {a b : Value} {r s : Bytes}, value a ++ r = value b ++ s → a = b ∧ r = s
  | .nil, b, r, s, h => by
    have ht := tag_eq_of_append h
    cases b with
    | nil => exact ⟨rfl, List.append_cancel_left h⟩
    | _ => cases ht
  | .bool x, b, r, s, h => by
    have ht := tag_eq_of_append h
    cases b with
    | bool y =>
      simp only [value, List.append_assoc, List.append_cancel_left_eq] at h
      obtain ⟨rfl, hr⟩ := selfDelimiting_bool h
      exact ⟨rfl, hr⟩
    | _ => cases ht
  | .integer m, b, r, s, h => by
    have ht := tag_eq_of_append h
    cases b with
    | integer n =>
      simp only [value, List.append_assoc, List.append_cancel_left_eq] at h
      obtain ⟨rfl, hr⟩ := selfDelimiting_integer h
      exact ⟨rfl, hr⟩
    | _ => cases ht
  | .real x, b, r, s, h => by
    have ht := tag_eq_of_append h
    cases b with
    | real y =>
      simp only [value, List.append_assoc, List.append_cancel_left_eq] at h
      obtain ⟨rfl, hr⟩ := selfDelimiting_real h
      exact ⟨rfl, hr⟩
    | _ => cases ht
  | .string x, b, r, s, h => by
    have ht := tag_eq_of_append h
    cases b with
    | string y =>
      simp only [value, List.append_assoc, List.append_cancel_left_eq] at h
      obtain ⟨rfl, hr⟩ := selfDelimiting_text h
      exact ⟨rfl, hr⟩
    | _ => cases ht
  | .array as, b, r, s, h => by
    have ht := tag_eq_of_append h
    cases b with
    | array bs =>
      simp only [value, List.append_assoc, List.append_cancel_left_eq] at h
      obtain ⟨hlen, hitems⟩ := selfDelimiting_varint h
      obtain ⟨rfl, hr⟩ := values_append hlen hitems
      exact ⟨rfl, hr⟩
    | _ => cases ht
  | .map as, b, r, s, h => by
    have ht := tag_eq_of_append h
    cases b with
    | map bs =>
      simp only [value, List.append_assoc, List.append_cancel_left_eq] at h
      obtain ⟨hlen, hentries⟩ := selfDelimiting_varint h
      obtain ⟨rfl, hr⟩ := valuePairs_append hlen hentries
      exact ⟨rfl, hr⟩
    | _ => cases ht

theorem values_append : ∀ {as bs : List Value} {r s : Bytes}, as.length = bs.length →
    values as ++ r = values bs ++ s → as = bs ∧ r = s
  | [], [], r, s, _, h => ⟨rfl, h⟩
  | [], _ :: _, _, _, hlen, _ => by cases hlen
  | _ :: _, [], _, _, hlen, _ => by cases hlen
  | a :: as, b :: bs, r, s, hlen, h => by
    simp only [values, List.append_assoc] at h
    obtain ⟨rfl, hrest⟩ := value_append h
    obtain ⟨rfl, hr⟩ := values_append (Nat.succ.inj hlen) hrest
    exact ⟨rfl, hr⟩

theorem valuePairs_append : ∀ {as bs : List (Value × Value)} {r s : Bytes},
    as.length = bs.length → valuePairs as ++ r = valuePairs bs ++ s → as = bs ∧ r = s
  | [], [], r, s, _, h => ⟨rfl, h⟩
  | [], _ :: _, _, _, hlen, _ => by cases hlen
  | _ :: _, [], _, _, hlen, _ => by cases hlen
  | (k, a) :: as, (l, b) :: bs, r, s, hlen, h => by
    simp only [valuePairs, List.append_assoc] at h
    obtain ⟨rfl, hvalue⟩ := value_append h
    obtain ⟨rfl, hrest⟩ := value_append hvalue
    obtain ⟨rfl, hr⟩ := valuePairs_append (Nat.succ.inj hlen) hrest
    exact ⟨rfl, hr⟩

end

theorem value_injective {a b : Value} (h : value a = value b) : a = b :=
  (value_append (r := []) (s := []) (by rw [h])).1

end Wire

/-! ### Identity of literals -/

namespace Value

/-- Two literals are identical exactly when a code file holds the same bytes for them. -/
theorem same_iff_value_eq {a b : Value} : same a b = true ↔ Wire.value a = Wire.value b := by
  rw [same_iff]
  constructor
  · intro h
    rw [h]
  · exact Wire.value_injective

theorem equivalence_same : Equivalence fun a b : Value => same a b = true := by
  simp only [same_iff]
  exact ⟨fun _ => rfl, Eq.symm, Eq.trans⟩

end Value

/-! ### Requests to a pool -/

namespace Pool

/-- What can be asked of a pool. -/
inductive Request where
  | add (v : Value)
  | addName (name : String)
  | find (v : Value)
  | findName (name : String)
  | get (index : Nat)

/-- The pool after an addition; a refused one leaves it as it was. -/
def kept (pool : Pool) : Except Error (Nat × Pool) → Pool
  | .ok (_, next) => next
  | .error _ => pool

/-- The pool after a request. -/
def after (pool : Pool) : Request → Pool
  | .add v => pool.kept (pool.add v)
  | .addName name => pool.kept (pool.addName name)
  | .find _ | .findName _ | .get _ => pool

/-- The pool after several requests. -/
def afterAll (pool : Pool) (requests : List Request) : Pool := requests.foldl after pool

theorem isName_eq_same (name : String) (v : Value) : isName name v = v.same (.string name) := by
  cases v <;> simp [isName, Value.same]

/-- A name is found as the string it is. -/
theorem findName?_eq (pool : Pool) (name : String) :
    pool.findName? name = pool.find? (.string name) := by
  unfold findName? find?
  congr 1
  funext v
  exact isName_eq_same name v

theorem addName_eq (pool : Pool) (name : String) :
    pool.addName name = pool.add (.string name) := by
  unfold addName
  rw [findName?_eq]
  cases h : pool.find? (.string name) with
  | none => rfl
  | some i => simp only [add, h]

/-- A request changes a pool as the addition of at most one value does. -/
theorem after_cases (pool : Pool) (request : Request) :
    pool.after request = pool ∨ ∃ v i, pool.add v = .ok (i, pool.after request) := by
  have added : ∀ v, pool.kept (pool.add v) = pool
      ∨ ∃ w i, pool.add w = .ok (i, pool.kept (pool.add v)) := by
    intro v
    cases h : pool.add v with
    | error e => exact .inl rfl
    | ok answer => exact .inr ⟨v, answer.1, h⟩
  cases request with
  | add v => exact added v
  | addName name =>
    simp only [after, addName_eq]
    exact added _
  | find v => exact .inl rfl
  | findName name => exact .inl rfl
  | get index => exact .inl rfl

/-- What a successful addition does: it finds an entry and changes nothing, or it makes one. -/
theorem add_cases {pool next : Pool} {v : Value} {i : Nat} (h : pool.add v = .ok (i, next)) :
    (pool.find? v = some i ∧ next = pool)
      ∨ (pool.find? v = none ∧ i = pool.values.size ∧ next.values = pool.values.push v) := by
  unfold add at h
  split at h
  · next index hf =>
    simp only [Except.ok.injEq, Prod.mk.injEq] at h
    exact .inl ⟨by rw [hf, h.1], h.2.symm⟩
  · next hf =>
    split at h
    · simp at h
    · simp only [Except.ok.injEq, Prod.mk.injEq] at h
      exact .inr ⟨hf, h.1.symm, by rw [← h.2]⟩

/-- A literal is not found exactly when no entry has its bytes. -/
theorem find?_eq_none_iff {pool : Pool} {v : Value} :
    pool.find? v = none ↔ ∀ j w, pool.get? j = some w → Wire.value w ≠ Wire.value v := by
  unfold find? get?
  rw [Array.findIdx?_eq_none_iff]
  constructor
  · intro h j w hw hv
    have hne := h w (Array.mem_of_getElem? hw)
    rw [Value.same_iff_value_eq.mpr hv] at hne
    cases hne
  · intro h w hw
    obtain ⟨j, hj⟩ := Array.getElem?_of_mem hw
    cases hs : w.same v with
    | false => rfl
    | true => exact absurd (Value.same_iff_value_eq.mp hs) (h j w hj)

/-! ### What a request keeps -/

/-- No two entries are identical. -/
def Distinct (pool : Pool) : Prop :=
  ∀ i j a b, pool.get? i = some a → pool.get? j = some b → i ≠ j → a.same b = false

theorem distinct_empty : Distinct {} := by
  intro i j a b ha
  simp [get?] at ha

/-- A new entry is unlike all others, or it would have been found. -/
theorem Distinct.add {pool next : Pool} {v : Value} {i : Nat} (hd : pool.Distinct)
    (h : pool.add v = .ok (i, next)) : next.Distinct := by
  rcases add_cases h with ⟨-, rfl⟩ | ⟨hf, -, hv⟩
  · exact hd
  · have fresh : ∀ j w, pool.get? j = some w → w ≠ v := by
      intro j w hw hwv
      exact find?_eq_none_iff.mp hf j w hw (by rw [hwv])
    have entry : ∀ j w, next.get? j = some w →
        pool.get? j = some w ∨ (j = pool.values.size ∧ w = v) := by
      intro j w hw
      rw [get?, hv, Array.getElem?_push] at hw
      split at hw
      · next hj => exact .inr ⟨hj, (Option.some.inj hw).symm⟩
      · exact .inl hw
    intro j k a b ha hb hjk
    have hne : a ≠ b := by
      rcases entry j a ha with ha | ⟨hj, ha⟩
      · rcases entry k b hb with hb | ⟨-, hb⟩
        · intro hab
          have hs := hd j k a b ha hb hjk
          rw [Value.same_iff.mpr hab] at hs
          cases hs
        · rw [hb]
          exact fresh j a ha
      · rcases entry k b hb with hb | ⟨hk, -⟩
        · rw [ha]
          exact (fresh k b hb).symm
        · omega
    cases hs : a.same b with
    | false => rfl
    | true => exact absurd (Value.same_iff.mp hs) hne

/-- The entry of an index stays what it is. -/
theorem get?_add {pool next : Pool} {v w : Value} {i j : Nat} (h : pool.add v = .ok (i, next))
    (hw : pool.get? j = some w) : next.get? j = some w := by
  rcases values_of_add h with hv | hv
  · rw [get?, hv]
    exact hw
  · have hj : j < pool.values.size := (Array.getElem?_eq_some_iff.mp hw).1
    rw [get?, hv, Array.getElem?_push_lt hj]
    exact (Array.getElem?_eq_getElem hj).symm.trans hw

/-- What the addition of a value keeps, every request keeps. -/
theorem after_of_add {P : Pool → Prop} {pool : Pool} (hP : P pool)
    (hadd : ∀ v i next, pool.add v = .ok (i, next) → P next) (request : Request) :
    P (pool.after request) := by
  rcases after_cases pool request with h | ⟨v, i, h⟩
  · rw [h]
    exact hP
  · exact hadd v i _ h

theorem distinct_afterAll {pool : Pool} (hd : pool.Distinct) (requests : List Request) :
    (pool.afterAll requests).Distinct := by
  induction requests generalizing pool with
  | nil => exact hd
  | cons request requests ih =>
    apply ih
    exact after_of_add hd (fun _ _ _ h => hd.add h) request

theorem get?_afterAll {pool : Pool} {j : Nat} {w : Value} (hw : pool.get? j = some w)
    (requests : List Request) : (pool.afterAll requests).get? j = some w := by
  induction requests generalizing pool with
  | nil => exact hw
  | cons request requests ih =>
    apply ih
    exact after_of_add (P := fun next => next.get? j = some w) hw (fun _ _ _ h => get?_add h hw)
      request

/-- In a pool without repetition a literal is found where it is. -/
theorem Distinct.find?_of_get? {pool : Pool} (hd : pool.Distinct) {v : Value} {i : Nat}
    (h : pool.get? i = some v) : pool.find? v = some i := by
  cases hf : pool.find? v with
  | none => exact absurd rfl (find?_eq_none_iff.mp hf i v h)
  | some j =>
    have hj := get?_of_find? hf
    by_cases hij : i = j
    · rw [hij]
    · have hs := hd i j v v h hj hij
      rw [Value.same_refl] at hs
      cases hs

/-! ### Sharing is exact -/

/-- What a successful addition of `v` to `pool` answers and leaves behind. -/
structure Added (pool : Pool) (v : Value) (i : Nat) (next : Pool) : Prop where
  /-- The index leads to the literal itself. -/
  get : next.get? i = some v
  /-- From now on the literal is found at this index. -/
  find : ∀ later, (next.afterAll later).find? v = some i
  /-- The pool grew by one entry exactly when no entry had the bytes of the literal. -/
  grown : next.values.size = pool.values.size + 1 ↔
    ∀ j w, pool.get? j = some w → Wire.value w ≠ Wire.value v
  /-- Otherwise it is as it was. -/
  shared : (∃ j w, pool.get? j = some w ∧ Wire.value w = Wire.value v) → next = pool

theorem Distinct.added {pool next : Pool} {v : Value} {i : Nat} (hd : pool.Distinct)
    (h : pool.add v = .ok (i, next)) : pool.Added v i next := by
  have hget := get?_of_add h
  refine ⟨hget, ?_, ?_, ?_⟩
  · intro later
    exact (distinct_afterAll (hd.add h) later).find?_of_get? (get?_afterAll hget later)
  · rw [← find?_eq_none_iff]
    rcases add_cases h with ⟨hf, rfl⟩ | ⟨hf, -, hv⟩
    · simp [hf]
    · simp [hf, hv]
  · rintro ⟨j, w, hj, hw⟩
    rcases add_cases h with ⟨-, hn⟩ | ⟨hf, -⟩
    · exact hn
    · exact absurd hw (find?_eq_none_iff.mp hf j w hj)

/-- **Sharing of constants is exact.** After any requests to an empty pool no two entries are
identical, every entry stays what and where it is whatever is asked later, and a successful addition
answers the index of the very literal, which makes a new entry exactly when none had its bytes. Names
are the strings they are, and identity is equality of bytes. -/
theorem sharing_exact :
    (∀ requests : List Request,
      (afterAll {} requests).Distinct
        ∧ (∀ later i v, (afterAll {} requests).get? i = some v →
            (afterAll {} (requests ++ later)).get? i = some v)
        ∧ (∀ v i next, (afterAll {} requests).add v = .ok (i, next) →
            (afterAll {} requests).Added v i next))
      ∧ (∀ (pool : Pool) (name : String), pool.addName name = pool.add (.string name)
          ∧ pool.findName? name = pool.find? (.string name))
      ∧ (∀ a b : Value, a.same b = true ↔ Wire.value a = Wire.value b)
      ∧ Equivalence fun a b : Value => a.same b = true := by
  refine ⟨?_, ?_, fun a b => Value.same_iff_value_eq, Value.equivalence_same⟩
  · intro requests
    have hd := distinct_afterAll distinct_empty requests
    refine ⟨hd, ?_, fun v i next h => hd.added h⟩
    intro later i v hv
    unfold afterAll
    rw [List.foldl_append]
    exact get?_afterAll hv later
  · intro pool name
    exact ⟨addName_eq pool name, findName?_eq pool name⟩

/-- The zero, a name and the zero again. -/
def zeroRequests : List Request := [.add (.real ⟨0⟩), .addName "x", .add (.real ⟨0⟩)]

/-- The negative zero, inside an array, is neither of the entries before it. -/
theorem sharing_exact_negativeZero :
    ∃ next, (afterAll {} zeroRequests).add (.array [.real ⟨0x8000000000000000⟩]) = .ok (2, next)
      ∧ (afterAll {} zeroRequests).Added (.array [.real ⟨0x8000000000000000⟩]) 2 next := by
  have hadd : (afterAll {} zeroRequests).add (.array [.real ⟨0x8000000000000000⟩])
      = .ok (2, ⟨#[.real ⟨0⟩, .string "x", .array [.real ⟨0x8000000000000000⟩]]⟩) := by
    simp [zeroRequests, afterAll, after, kept, addName, findName?, isName, add, find?, Value.same,
      List.findIdx?_cons, Instruction.maxUnsigned]
  exact ⟨_, hadd, (sharing_exact.1 zeroRequests).2.2 _ _ _ hadd⟩

end Pool

end StackCode
