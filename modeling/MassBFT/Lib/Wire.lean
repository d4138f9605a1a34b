import MassBFT.Lib.Bytes

/-!
# Wire formats

A reader takes a value off the front of a byte string, or fails. A `Wire` is a choice
of writers and readers for the scalars and byte strings of a message; what is built
from it states, value by value, that reading inverts writing (`Carries`), so a result
about a message holds for every format that carries the values in it.

A `Codec` is a writer and a reader that belong together. Records, vectors and arrays are put
together from the codecs of their parts, and carry a value if the parts do.

`littleEndian` is the usual one: fixed-width little-endian integers, strings behind a
four-byte length. **It carries exactly the values that fit** (`carries_uint32` and its
siblings).
-/

set_option autoImplicit false

namespace MassBFT

open List

/-- Takes a value off the front of a byte string. -/
abbrev Reader (α : Type) := Bytes → Option (α × Bytes)

/-- Reading gives back the value `a`, and leaves what follows. -/
def Carries {α : Type} (put : α → Bytes) (get : Reader α) (a : α) : Prop :=
  ∀ rest, get (put a ++ rest) = some (a, rest)

/-- Writers and readers for the scalars and strings of a message. -/
structure Wire where
  putInt64 : Int → Bytes
  getInt64 : Reader Int
  putInt32 : Int → Bytes
  getInt32 : Reader Int
  putUInt32 : Nat → Bytes
  getUInt32 : Reader Nat
  putUInt64 : Nat → Bytes
  getUInt64 : Reader Nat
  putString : Bytes → Bytes
  getString : Reader Bytes

/-- A fixed number of raw bytes. -/
def getRaw (n : Nat) : Reader Bytes := fun bs =>
  if n ≤ bs.length then some (bs.take n, bs.drop n) else none

theorem getRaw_append {n : Nat} {bs : Bytes} (h : bs.length = n) (rest : Bytes) :
    getRaw n (bs ++ rest) = some (bs, rest) := by
  subst h
  simp [getRaw]

/-- One value after another. -/
def getMany {α : Type} (get : Reader α) : Nat → Reader (List α)
  | 0, bs => some ([], bs)
  | n + 1, bs =>
    match get bs with
    | none => none
    | some (a, bs) =>
      match getMany get n bs with
      | none => none
      | some (as, bs) => some (a :: as, bs)

theorem length_getMany {α : Type} {get : Reader α} {n : Nat} {bs rest : Bytes} {as : List α}
    (h : getMany get n bs = some (as, rest)) : as.length = n := by
  induction n generalizing bs as with
  | zero =>
    cases h
    rfl
  | succ n ih =>
    rw [getMany] at h
    split at h
    · cases h
    · split at h
      · cases h
      · rename_i hmany
        cases h
        rw [length_cons, ih hmany]

theorem getMany_flatMap {α : Type} {put : α → Bytes} {get : Reader α} {as : List α}
    (h : ∀ a ∈ as, Carries put get a) (rest : Bytes) :
    getMany get as.length (as.flatMap put ++ rest) = some (as, rest) := by
  induction as with
  | nil => rfl
  | cons a as ih =>
    have ha := h a mem_cons_self (as.flatMap put ++ rest)
    have has := ih fun b hb => h b (mem_cons_of_mem a hb)
    rw [flatMap_cons, append_assoc, length_cons, getMany, ha]
    simp [has]

/-! ## Codecs -/

/-- A writer and a reader that belong together. -/
structure Codec (α : Type) where
  put : α → Bytes
  get : Reader α

namespace Wire

def int64 (w : Wire) : Codec Int := ⟨w.putInt64, w.getInt64⟩

def int32 (w : Wire) : Codec Int := ⟨w.putInt32, w.getInt32⟩

def uint32 (w : Wire) : Codec Nat := ⟨w.putUInt32, w.getUInt32⟩

def uint64 (w : Wire) : Codec Nat := ⟨w.putUInt64, w.getUInt64⟩

def string (w : Wire) : Codec Bytes := ⟨w.putString, w.getString⟩

end Wire

/-- The values of a 32-bit integer. -/
def IsInt32 (z : Int) : Prop := -2 ^ 31 ≤ z ∧ z < 2 ^ 31

/-- The sum of two 32-bit integers wraps around. -/
def wrap32 (z : Int) : Int := z.bmod (2 ^ 32)

theorem isInt32_wrap32 (z : Int) : IsInt32 (wrap32 z) := by
  have hlow := @Int.le_bmod z (2 ^ 32) (by decide)
  have hhigh := @Int.bmod_lt z (2 ^ 32) (by decide)
  unfold IsInt32 wrap32
  omega

theorem wrap32_of_isInt32 {z : Int} (h : IsInt32 z) : wrap32 z = z := by
  unfold IsInt32 at h
  exact Int.bmod_eq_of_le (by omega) (by omega)

theorem wrap32_add_left (a b : Int) : wrap32 (wrap32 a + b) = wrap32 (a + b) := by
  unfold wrap32
  rw [Int.bmod_add_bmod]

/-- Nothing but zero leaves a 32-bit integer where it is. -/
theorem eq_zero_of_wrap32 {a b : Int} (hb : IsInt32 b) (h : wrap32 (a + b) = a) : b = 0 := by
  unfold IsInt32 at hb
  have hdvd := @Int.dvd_bmod_sub_self (a + b) (2 ^ 32)
  unfold wrap32 at h
  rw [h] at hdvd
  omega

/-- 32-bit integers of a fixed width: every value is carried, and what is read as one is spelled in
the one way that is written. -/
structure Wire.FixedInt32 (w : Wire) : Prop where
  width : ∀ z, IsInt32 z → (w.putInt32 z).length = 4
  carries : ∀ z, IsInt32 z → Carries w.putInt32 w.getInt32 z
  canonical : ∀ bs z rest, w.getInt32 bs = some (z, rest) → IsInt32 z ∧ bs = w.putInt32 z ++ rest

namespace Codec

variable {α β : Type}

/-- The codec carries the value `a`. -/
def Carries (c : Codec α) (a : α) : Prop := MassBFT.Carries c.put c.get a

/-- Two values in a row. -/
def pair (c : Codec α) (d : Codec β) : Codec (α × β) where
  put p := c.put p.1 ++ d.put p.2
  get bs :=
    match c.get bs with
    | none => none
    | some (a, bs) =>
      match d.get bs with
      | none => none
      | some (b, bs) => some ((a, b), bs)

/-- The same bytes, for another type. -/
def conv (c : Codec α) (wrap : α → β) (unwrap : β → α) : Codec β where
  put b := c.put (unwrap b)
  get bs := (c.get bs).map fun p => (wrap p.1, p.2)

/-- A count, and that many values. -/
def vector (w : Wire) (c : Codec α) : Codec (List α) where
  put as := w.putUInt32 as.length ++ as.flatMap c.put
  get bs :=
    match w.getUInt32 bs with
    | none => none
    | some (n, bs) => getMany c.get n bs

/-- A fixed number of raw bytes. -/
def array (n : Nat) : Codec { bs : Bytes // bs.length = n } where
  put a := a.1
  get bs := if h : n ≤ bs.length then some (⟨bs.take n, by simp [h]⟩, bs.drop n) else none

/-- One raw byte. -/
def byte : Codec UInt8 where
  put b := [b]
  get bs :=
    match bs with
    | [] => none
    | b :: bs => some (b, bs)

theorem Carries.pair {c : Codec α} {d : Codec β} {p : α × β} (hc : c.Carries p.1)
    (hd : d.Carries p.2) : (c.pair d).Carries p := by
  intro rest
  have h1 := hc (d.put p.2 ++ rest)
  have h2 := hd rest
  simp only [Codec.pair, append_assoc, h1, h2]

theorem Carries.conv {c : Codec α} {wrap : α → β} {unwrap : β → α} {b : β}
    (hc : c.Carries (unwrap b)) (hb : wrap (unwrap b) = b) :
    (c.conv wrap unwrap).Carries b := by
  intro rest
  have h := hc rest
  simp only [Codec.conv, h, Option.map_some, hb]

theorem Carries.vector {w : Wire} {c : Codec α} {as : List α}
    (hn : w.uint32.Carries as.length) (has : ∀ a ∈ as, c.Carries a) :
    (vector w c).Carries as := by
  intro rest
  have h1 : w.getUInt32 (w.putUInt32 as.length ++ (as.flatMap c.put ++ rest)) =
      some (as.length, as.flatMap c.put ++ rest) := hn _
  have h2 := getMany_flatMap has rest
  simp only [Codec.vector, append_assoc, h1, h2]

theorem carries_array {n : Nat} (a : { bs : Bytes // bs.length = n }) : (array n).Carries a := by
  intro rest
  obtain ⟨bs, rfl⟩ := a
  simp [array]

theorem carries_byte (b : UInt8) : byte.Carries b := fun _ => rfl

end Codec

/-- Reading inverts writing: every value of a fixed-width integer is carried, and every sequence
whose length fits the four bytes in front of it; a 64-bit integer is eight bytes wide. -/
structure Wire.Inverts (w : Wire) : Prop where
  uint32 : ∀ n, n < 2 ^ 32 → w.uint32.Carries n
  uint64 : ∀ n, n < 2 ^ 64 → w.uint64.Carries n
  int32 : ∀ z, IsInt32 z → w.int32.Carries z
  string : ∀ s : Bytes, s.length < 2 ^ 32 → w.string.Carries s
  width64 : ∀ n, n < 2 ^ 64 → (w.putUInt64 n).length = 8

/-- A short enough sequence of values that are carried is carried. -/
theorem Wire.Inverts.vector {w : Wire} (hw : w.Inverts) {α : Type} {c : Codec α} {as : List α}
    (hlen : as.length < 2 ^ 32) (has : ∀ a ∈ as, c.Carries a) : (Codec.vector w c).Carries as :=
  Codec.Carries.vector (hw.uint32 _ hlen) has

/-! ## Little endian -/

/-- The last `w` base-256 digits, least significant first. -/
def putLE : Nat → Nat → Bytes
  | 0, _ => []
  | w + 1, n => UInt8.ofNat (n % 256) :: putLE w (n / 256)

/-- The number that a byte string spells, least significant byte first. -/
def ofLE : Bytes → Nat
  | [] => 0
  | b :: bs => b.toNat + 256 * ofLE bs

def getLE (w : Nat) : Reader Nat := fun bs =>
  match getRaw w bs with
  | none => none
  | some (front, rest) => some (ofLE front, rest)

theorem length_putLE (w n : Nat) : (putLE w n).length = w := by
  induction w generalizing n with
  | zero => rfl
  | succ w ih => simp [putLE, ih]

theorem ofLE_putLE {w n : Nat} (h : n < 256 ^ w) : ofLE (putLE w n) = n := by
  induction w generalizing n with
  | zero =>
    rw [pow_zero, Nat.lt_one_iff] at h
    simp [putLE, ofLE, h]
  | succ w ih =>
    have hdiv : n / 256 < 256 ^ w := by
      rw [pow_succ] at h
      exact Nat.div_lt_of_lt_mul (by linarith)
    have hbyte : (UInt8.ofNat (n % 256)).toNat = n % 256 := by
      rw [UInt8.toNat_ofNat']
      omega
    rw [putLE, ofLE, ih hdiv, hbyte]
    omega

theorem getLE_putLE {w n : Nat} (h : n < 256 ^ w) (rest : Bytes) :
    getLE w (putLE w n ++ rest) = some (n, rest) := by
  rw [getLE, getRaw_append (length_putLE w n)]
  simp [ofLE_putLE h]

theorem ofLE_lt (bs : Bytes) : ofLE bs < 256 ^ bs.length := by
  induction bs with
  | nil => exact Nat.one_pos
  | cons b bs ih =>
    have hb := b.toNat_lt
    rw [ofLE, length_cons, pow_succ]
    omega

theorem putLE_ofLE (bs : Bytes) : putLE bs.length (ofLE bs) = bs := by
  induction bs with
  | nil => rfl
  | cons b bs ih =>
    have hb : b.toNat < 256 := b.toNat_lt
    have hmod : (b.toNat + 256 * ofLE bs) % 256 = b.toNat := by omega
    have hdiv : (b.toNat + 256 * ofLE bs) / 256 = ofLE bs := by omega
    rw [length_cons, ofLE, putLE, hmod, hdiv, ih, UInt8.ofNat_toNat]

theorem getLE_eq_some {w n : Nat} {bs rest : Bytes} (h : getLE w bs = some (n, rest)) :
    n < 256 ^ w ∧ bs = putLE w n ++ rest := by
  unfold getLE getRaw at h
  split_ifs at h with hlen
  · cases h
    have htake : (bs.take w).length = w := length_take_of_le hlen
    have hlt := ofLE_lt (bs.take w)
    have hput := putLE_ofLE (bs.take w)
    rw [htake] at hlt hput
    rw [hput, take_append_drop]
    exact ⟨hlt, rfl⟩

/-- Fixed-width little-endian integers, and strings behind their length. -/
def littleEndian : Wire where
  putInt64 z := putLE 8 (z % 2 ^ 64).toNat
  getInt64 bs :=
    match getLE 8 bs with
    | none => none
    | some (n, rest) => some (if n < 2 ^ 63 then (n : Int) else n - 2 ^ 64, rest)
  putInt32 z := putLE 4 (z % 2 ^ 32).toNat
  getInt32 bs :=
    match getLE 4 bs with
    | none => none
    | some (n, rest) => some (if n < 2 ^ 31 then (n : Int) else n - 2 ^ 32, rest)
  putUInt32 := putLE 4
  getUInt32 := getLE 4
  putUInt64 := putLE 8
  getUInt64 := getLE 8
  putString s := putLE 4 s.length ++ s
  getString bs :=
    match getLE 4 bs with
    | none => none
    | some (n, rest) => getRaw n rest

namespace littleEndian

theorem carries_uint32 {n : Nat} (h : n < 2 ^ 32) :
    Carries littleEndian.putUInt32 littleEndian.getUInt32 n := fun rest =>
  getLE_putLE (w := 4) h rest

theorem carries_uint64 {n : Nat} (h : n < 2 ^ 64) :
    Carries littleEndian.putUInt64 littleEndian.getUInt64 n := fun rest =>
  getLE_putLE (w := 8) h rest

theorem carries_int64 {n : Nat} (h : n < 2 ^ 63) :
    Carries littleEndian.putInt64 littleEndian.getInt64 n := by
  intro rest
  have hmod : ((n : Int) % 2 ^ 64).toNat = n := by omega
  have hread := getLE_putLE (w := 8) (n := n) (by omega) rest
  simp only [littleEndian]
  rw [hmod, hread]
  simp only [h, ↓reduceIte]

theorem fixedInt32 : littleEndian.FixedInt32 where
  width _ _ := length_putLE 4 _
  carries z h rest := by
    unfold IsInt32 at h
    have hlt : (z % 2 ^ 32).toNat < 256 ^ 4 := by omega
    have hread := getLE_putLE hlt rest
    have hvalue : (if (z % 2 ^ 32).toNat < 2 ^ 31 then (((z % 2 ^ 32).toNat : Nat) : Int)
        else (z % 2 ^ 32).toNat - 2 ^ 32) = z := by
      split_ifs
      · omega
      · omega
    simp only [littleEndian]
    rw [hread]
    simp only [hvalue]
  canonical bs z rest h := by
    simp only [littleEndian] at h
    split at h
    · cases h
    · rename_i n rest' hread
      cases h
      obtain ⟨hlt, rfl⟩ := getLE_eq_some hread
      have hback : ((if n < 2 ^ 31 then (n : Int) else n - 2 ^ 32) % 2 ^ 32).toNat = n := by
        split_ifs
        · omega
        · omega
      refine ⟨?_, ?_⟩
      · unfold IsInt32
        split_ifs
        · omega
        · omega
      · simp only [littleEndian]
        rw [hback]

theorem carries_string {s : Bytes} (h : s.length < 2 ^ 32) :
    Carries littleEndian.putString littleEndian.getString s := by
  intro rest
  have hread := getLE_putLE (w := 4) (n := s.length) h (s ++ rest)
  simp [littleEndian, hread, getRaw_append (rfl : s.length = s.length)]

theorem inverts : littleEndian.Inverts where
  uint32 _ h := carries_uint32 h
  uint64 _ h := carries_uint64 h
  int32 z h := fixedInt32.carries z h
  string _ h := carries_string h
  width64 n _ := length_putLE 8 n

end littleEndian

end MassBFT
