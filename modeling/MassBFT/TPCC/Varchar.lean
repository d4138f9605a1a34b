import MassBFT.Lib.Records
import MassBFT.Lib.Tracked

/-!
# Strings of TPC-C

A `Varchar` is a used length and an array of `maxLength` characters. The constructors leave the
array as the storage is, `resize` changes the length only, and `operator+` copies the used parts to
fresh storage. Two values are compared by their used parts; **what is serialized is the length and
the whole array**, also what stands behind the used part.

`Build` is how a value came to be. It is run in a memory, which has the bytes that were never
assigned (`Build.value`), or with tracked bytes (`Build.tracked`), which say for each byte whether
it was assigned and where it stands if not. `value_eq` connects the two. So the bytes of equal
values are the same in every memory exactly if the two histories have left the same behind the used
part (`same_bytes_iff`).
-/

set_option autoImplicit false

namespace MassBFT.TPCC

open Function List

/-- `Varchar`, with characters in `γ`. -/
structure Varchar (γ : Type) (maxLength : Nat) where
  length : UInt32
  data : List γ
  size_data : data.length = maxLength
  deriving DecidableEq

namespace Varchar

variable {γ δ : Type} {n : Nat}

def size (v : Varchar γ n) : Nat := v.length.toNat

/-- `Varchar()`: the array is what the storage holds. -/
def new (blank : Nat → γ) : Varchar γ n where
  length := 0
  data := (List.range n).map blank
  size_data := by simp

/-- What `std::copy` leaves of an array. -/
def copyTo (data : List γ) (pos : Nat) (str : List γ) : List γ :=
  data.take pos ++ str ++ data.drop (pos + str.length)

theorem length_copyTo {data str : List γ} {pos : Nat} (h : pos + str.length ≤ data.length) :
    (copyTo data pos str).length = data.length := by
  simp only [copyTo, length_append, length_take, length_drop]
  omega

/-- `Varchar(str)`; `none` if the string does not fit. -/
def ofContainer (blank : Nat → γ) (str : List γ) : Option (Varchar γ n) :=
  if h : str.length ≤ n then
    some
      { length := UInt32.ofNat str.length
        data := copyTo ((List.range n).map blank) 0 str
        size_data := by rw [length_copyTo] <;> simp [h] }
  else none

/-- What stands between `begin` and `end`, also `toString`; `none` if it is not in the array. -/
def toString (v : Varchar γ n) : Option (List γ) :=
  if v.size ≤ n then some (v.data.take v.size) else none

def append (v : Varchar γ n) (x : γ) : Option (Varchar γ n) :=
  if v.size < n then
    some ⟨v.length + 1, v.data.set v.size x, by rw [length_set, v.size_data]⟩
  else none

/-- `operator+` -/
def plus (blank : Nat → γ) (lhs : Varchar γ n) (rhs : List γ) : Option (Varchar γ n) :=
  if h : lhs.size + rhs.length ≤ n then
    some
      { length := UInt32.ofNat (lhs.size + rhs.length)
        data := copyTo (copyTo ((List.range n).map blank) 0 (lhs.data.take lhs.size)) lhs.size rhs
        size_data := by
          have hlhs := lhs.size_data
          have hfront :
              (copyTo ((List.range n).map blank) 0 (lhs.data.take lhs.size)).length = n := by
            rw [length_copyTo] <;> simp only [length_take, length_map, length_range]
            omega
          rw [length_copyTo] <;> omega }
  else none

/-- `operator==`; `none` if it reads behind the arrays. -/
def equals [DecidableEq γ] (lhs rhs : Varchar γ n) : Option Bool :=
  if lhs.size ≠ rhs.size then some false
  else if lhs.size ≤ n then some (lhs.data.take lhs.size = rhs.data.take rhs.size)
  else none

/-- `std::memcmp` on as many bytes of both; bytes are compared without a sign. -/
def memcmp : Bytes → Bytes → Ordering
  | a :: as, b :: bs => if a < b then .lt else if b < a then .gt else memcmp as bs
  | _, _ => .eq

/-- `operator<` -/
def less (lhs rhs : Varchar UInt8 n) : Bool :=
  let minLen := min lhs.size rhs.size
  match memcmp (lhs.data.take minLen) (rhs.data.take minLen) with
  | .lt => true
  | .gt => false
  | .eq => lhs.size < rhs.size

/-- Assigning through `operator[]`. -/
def assign (v : Varchar γ n) (idx : Nat) (x : γ) : Option (Varchar γ n) :=
  if idx < v.size ∧ idx < n then
    some ⟨v.length, v.data.set idx x, by rw [length_set, v.size_data]⟩
  else none

def resize (v : Varchar γ n) (size : Nat) : Option (Varchar γ n) :=
  if size ≤ n then some ⟨UInt32.ofNat size, v.data, v.size_data⟩ else none

/-- `serialize`: the length and the whole array. -/
def codec (w : Wire) (n : Nat) : Codec (Varchar UInt8 n) :=
  (w.ofUInt32.pair (.array n)).conv (fun p => ⟨p.1, p.2.1, p.2.2⟩)
    (fun v => (v.length, ⟨v.data, v.size_data⟩))

theorem codec_total {w : Wire} (hw : w.Inverts) (n : Nat) : (codec w n).Total :=
  .conv (hw.ofUInt32.pair (.array n)) fun _ => rfl

theorem codec_put (w : Wire) (v : Varchar UInt8 n) :
    (codec w n).put v = w.ofUInt32.put v.length ++ v.data := rfl

/-- The same with other characters. -/
def map (f : γ → δ) (v : Varchar γ n) : Varchar δ n :=
  ⟨v.length, v.data.map f, by rw [length_map, v.size_data]⟩

/-! ## Operations do not look at the characters -/

section

variable (f : γ → δ) (blank : Nat → γ) (v : Varchar γ n)

@[simp] theorem size_map : (v.map f).size = v.size := rfl

/-- Two values are made of one, the same if every character is. -/
theorem map_eq_map_iff {g : γ → δ} {v : Varchar γ n} :
    v.map f = v.map g ↔ ∀ c ∈ v.data, f c = g c := by
  simp [map]

theorem map_new : (new blank : Varchar γ n).map f = new (fun i => f (blank i)) := by
  simp [map, new, comp_def]

theorem map_copyTo (data str : List γ) (pos : Nat) :
    (copyTo data pos str).map f = copyTo (data.map f) pos (str.map f) := by
  simp [copyTo]

theorem map_ofContainer (str : List γ) :
    (ofContainer blank str : Option (Varchar γ n)).map (map f) =
      ofContainer (fun i => f (blank i)) (str.map f) := by
  simp only [ofContainer, length_map]
  split_ifs
  · simp [map, map_copyTo, comp_def]
  · rfl

theorem map_toString : (v.map f).toString = v.toString.map (List.map f) := by
  unfold toString
  rw [size_map]
  split_ifs
  · simp [map]
  · rfl

theorem map_append (x : γ) : (v.append x).map (map f) = (v.map f).append (f x) := by
  unfold append
  by_cases h : v.size < n
  · rw [if_pos h, if_pos (show (v.map f).size < n from h)]
    simp [map, size]
  · rw [if_neg h, if_neg (show ¬ (v.map f).size < n from h)]
    rfl

theorem map_plus (rhs : List γ) :
    (plus blank v rhs).map (map f) = plus (fun i => f (blank i)) (v.map f) (rhs.map f) := by
  simp only [plus, size_map, length_map]
  split_ifs
  · simp [map, map_copyTo, comp_def]
  · rfl

theorem map_assign (idx : Nat) (x : γ) :
    (v.assign idx x).map (map f) = (v.map f).assign idx (f x) := by
  unfold assign
  rw [size_map]
  split_ifs
  · simp [map]
  · rfl

theorem map_resize (size : Nat) : (v.resize size).map (map f) = (v.map f).resize size := by
  unfold resize
  split_ifs
  · simp [map]
  · rfl

end

end Varchar

/-! ## How a value came to be -/

/-- The ways in which the code builds a `Varchar`; `storage` names the storage of a new object. A
container is a string, or another `Varchar`. -/
inductive Build : Nat → Type where
  | new {n : Nat} (storage : Nat) : Build n
  | ofString {n : Nat} (storage : Nat) (str : Bytes) : Build n
  | ofVarchar {m n : Nat} (storage : Nat) (str : Build m) : Build n
  | append {n : Nat} (v : Build n) (x : UInt8) : Build n
  | plusString {n : Nat} (storage : Nat) (lhs : Build n) (rhs : Bytes) : Build n
  | plusVarchar {m n : Nat} (storage : Nat) (lhs : Build n) (rhs : Build m) : Build n
  | assign {n : Nat} (v : Build n) (idx : Nat) (x : UInt8) : Build n
  | resize {n : Nat} (v : Build n) (size : Nat) : Build n
  | decode {n : Nat} (bytes : Bytes) : Build n

namespace Build

variable {γ δ : Type} {n : Nat}

/-- The value, if nothing has gone wrong; `blank` is what the storages hold, and `known` takes a
byte for a character. -/
def run (w : Wire) (blank : Nat → Nat → γ) (known : UInt8 → γ) :
    {n : Nat} → Build n → Option (Varchar γ n)
  | _, new storage => some (.new (blank storage))
  | _, ofString storage str => Varchar.ofContainer (blank storage) (str.map known)
  | _, ofVarchar storage str => do
    let chars ← (← str.run w blank known).toString
    Varchar.ofContainer (blank storage) chars
  | _, append v x => do (← v.run w blank known).append (known x)
  | _, plusString storage lhs rhs => do
    Varchar.plus (blank storage) (← lhs.run w blank known) (rhs.map known)
  | _, plusVarchar storage lhs rhs => do
    let chars ← (← rhs.run w blank known).toString
    Varchar.plus (blank storage) (← lhs.run w blank known) chars
  | _, assign v idx x => do (← v.run w blank known).assign idx (known x)
  | _, resize v size => do (← v.run w blank known).resize size
  | n, decode bytes => ((Varchar.codec w n).get bytes).map fun p => p.1.map known

/-- A byte that was never assigned is named by its storage and its place there. -/
abbrev TrackedByte := Tracked UInt8 (Nat × Nat)

/-- The value, in a memory. -/
def value (w : Wire) (mem : Nat × Nat → UInt8) (b : Build n) : Option (Varchar UInt8 n) :=
  b.run w (fun storage i => mem (storage, i)) id

/-- The value with tracked bytes. -/
def tracked (w : Wire) (b : Build n) : Option (Varchar TrackedByte n) :=
  b.run w (fun storage i => .found (storage, i)) .assigned

/-- Building does not look at the characters. -/
theorem run_map (w : Wire) (f : γ → δ) (blank : Nat → Nat → γ) (known : UInt8 → γ) (b : Build n) :
    b.run w (fun storage i => f (blank storage i)) (fun x => f (known x)) =
      (b.run w blank known).map (Varchar.map f) := by
  induction b with
  | new storage => rw [run, run, Option.map_some, Varchar.map_new]
  | ofString storage str => rw [run, run, Varchar.map_ofContainer, map_map]; rfl
  | ofVarchar storage str ih =>
    rw [run, run, ih]
    cases str.run w blank known with
    | none => rfl
    | some v =>
      simp only [Option.map_some, Option.bind_eq_bind, Option.bind_some, Varchar.map_toString]
      cases v.toString with
      | none => rfl
      | some chars => exact (Varchar.map_ofContainer f _ chars).symm
  | append v x ih =>
    rw [run, run, ih]
    cases v.run w blank known with
    | none => rfl
    | some v => exact (Varchar.map_append f v _).symm
  | plusString storage lhs rhs ih =>
    rw [run, run, ih]
    cases lhs.run w blank known with
    | none => rfl
    | some v =>
      have hmap := Varchar.map_plus f (blank storage) v (rhs.map known)
      rw [map_map] at hmap
      exact hmap.symm
  | plusVarchar storage lhs rhs ih ih' =>
    rw [run, run, ih, ih']
    cases rhs.run w blank known with
    | none => rfl
    | some r =>
      simp only [Option.map_some, Option.bind_eq_bind, Option.bind_some, Varchar.map_toString]
      cases r.toString with
      | none => rfl
      | some chars =>
        cases lhs.run w blank known with
        | none => rfl
        | some v => exact (Varchar.map_plus f _ v chars).symm
  | assign v idx x ih =>
    rw [run, run, ih]
    cases v.run w blank known with
    | none => rfl
    | some v => exact (Varchar.map_assign f v idx _).symm
  | resize v size ih =>
    rw [run, run, ih]
    cases v.run w blank known with
    | none => rfl
    | some v => exact (Varchar.map_resize f v size).symm
  | decode bytes =>
    rw [run, run, Option.map_map]
    congr 1
    funext p
    simp [Varchar.map, comp_def]

/-- **The tracked value, read in a memory, is the value there.** -/
theorem value_eq (w : Wire) (mem : Nat × Nat → UInt8) (b : Build n) :
    b.value w mem = (b.tracked w).map (Varchar.map (Tracked.read mem)) :=
  run_map w (Tracked.read mem) (fun storage i => .found (storage, i)) .assigned b

end Build

/-! ## Equality and bytes -/

namespace Varchar

open Build (TrackedByte)

variable {n : Nat}

theorem equals_iff {γ : Type} [DecidableEq γ] {x y : Varchar γ n} :
    x.equals y = some true ↔
      x.size = y.size ∧ x.size ≤ n ∧ ∀ i, i < x.size → x.data[i]? = y.data[i]? := by
  unfold equals
  by_cases hsize : x.size = y.size
  · by_cases hle : x.size ≤ n
    · have htake : x.data.take x.size = y.data.take x.size ↔
          ∀ i, i < x.size → x.data[i]? = y.data[i]? := by
        rw [List.ext_getElem?_iff]
        simp only [getElem?_take]
        refine forall_congr' fun i => ?_
        by_cases hi : i < x.size <;> simp [hi]
      simp [← hsize, hle, htake]
    · simp [hsize, hsize ▸ hle]
  · simp [hsize]

/-- `operator<` is the order of strings. -/
theorem less_eq {x y : Varchar UInt8 n} {as bs : Bytes} (hx : x.toString = some as)
    (hy : y.toString = some bs) : x.less y = decide (as < bs) := by
  obtain ⟨hxn, htake⟩ := Option.ite_none_right_eq_some.mp hx
  obtain ⟨hyn, htake'⟩ := Option.ite_none_right_eq_some.mp hy
  rw [Option.some.injEq] at htake htake'
  have hlen : as.length = x.size := by rw [← htake, length_take, x.size_data, min_eq_left hxn]
  have hlen' : bs.length = y.size := by
    rw [← htake', length_take, y.size_data, min_eq_left hyn]
  have hdata : x.data.take (min x.size y.size) = as.take (min as.length bs.length) := by
    rw [← htake, take_take, htake, hlen, hlen', min_eq_left (min_le_left _ _)]
  have hdata' : y.data.take (min x.size y.size) = bs.take (min as.length bs.length) := by
    rw [← htake', take_take, htake', hlen, hlen', min_eq_left (min_le_right _ _)]
  dsimp only [less]
  rw [hdata, hdata', ← hlen, ← hlen']
  clear * -
  induction as generalizing bs with
  | nil => cases bs <;> simp [memcmp]
  | cons a as ih =>
    cases bs with
    | nil => simp [memcmp]
    | cons b bs =>
      have hmin : min (a :: as).length (b :: bs).length = min as.length bs.length + 1 := by
        simp only [length_cons]
        omega
      simp only [hmin, take_succ_cons, memcmp, cons_lt_cons_iff]
      -- the first characters decide, or they are equal
      rcases Std.lt_trichotomy a b with hlt | rfl | hgt
      · simp [hlt]
      · simpa [Std.lt_irrefl] using @ih bs
      · have hne : a ≠ b := fun h => Std.lt_irrefl (h ▸ hgt)
        have hnot : ¬ a < b := fun h => Std.lt_irrefl (Std.lt_trans h hgt)
        simp [hgt, hnot, hne]

/-- Values of one length have the same bytes if the arrays are the same. -/
theorem codec_put_eq_iff {w : Wire} {x y : Varchar UInt8 n} (h : x.size = y.size) :
    (codec w n).put x = (codec w n).put y ↔ ∀ i : Nat, x.data[i]? = y.data[i]? := by
  have hlength : x.length = y.length := UInt32.toNat_inj.mp h
  rw [codec_put, codec_put, hlength, List.append_cancel_left_eq, List.ext_getElem?_iff]

/-- The equations between bytes that `a == b` stands for. -/
def UsedEqual (a b : Varchar TrackedByte n) (u v : TrackedByte) : Prop :=
  ∃ i, i < a.size ∧ a.data[i]? = some u ∧ b.data[i]? = some v

/-- If the used parts can be equal at all, then the same stands behind them: the same byte was
assigned, or it is the same byte of the memory, or two that `a == b` makes equal. -/
def SameBehind (a b : Varchar TrackedByte n) : Prop :=
  a.size = b.size → a.size ≤ n → Tracked.Consistent (UsedEqual a b) →
    ∀ (i : Nat) (u v : TrackedByte), a.size ≤ i → a.data[i]? = some u → b.data[i]? = some v →
      Relation.EqvGen (UsedEqual a b) u v

section

variable {a b : Varchar TrackedByte n} {mem : Nat × Nat → UInt8}

/-- The used parts are equal in a memory if the equations hold there. -/
theorem used_iff (hsize : a.size = b.size) (hle : a.size ≤ n) :
    (a.map (Tracked.read mem)).equals (b.map (Tracked.read mem)) = some true ↔
      ∀ u v, UsedEqual a b u v → u.read mem = v.read mem := by
  rw [equals_iff]
  constructor
  · rintro ⟨-, -, hused⟩ u v ⟨i, hi, hu, hv⟩
    simpa [map, hu, hv] using hused i hi
  · intro h
    refine ⟨hsize, hle, fun i hi => ?_⟩
    have hia : i < a.data.length := a.size_data.symm ▸ lt_of_lt_of_le hi hle
    have hib : i < b.data.length := b.size_data.symm ▸ lt_of_lt_of_le hi hle
    have hua := getElem?_eq_getElem hia
    have hvb := getElem?_eq_getElem hib
    have hread := h _ _ ⟨i, hi, hua, hvb⟩
    simp [map, hua, hvb, hread]

/-- **Equal values have the same bytes in every memory exactly if the same stands behind their used
parts.** -/
theorem same_bytes_iff {w : Wire} : (∀ mem : Nat × Nat → UInt8,
      (a.map (Tracked.read mem)).equals (b.map (Tracked.read mem)) = some true →
        (codec w n).put (a.map (Tracked.read mem)) = (codec w n).put (b.map (Tracked.read mem))) ↔
    SameBehind a b := by
  constructor
  · intro h hsize hle hcons i u v _ hu hv
    refine (Tracked.follows_iff (UsedEqual a b) u v).mp (fun mem hmem => ?_) hcons
    have hdata := (codec_put_eq_iff hsize).mp (h mem ((used_iff hsize hle).mpr hmem)) i
    simpa [map, hu, hv] using hdata
  · intro h mem hequal
    obtain ⟨hsize, hle, hused⟩ := equals_iff.mp hequal
    have hmem := (used_iff hsize hle).mp hequal
    refine (codec_put_eq_iff hsize).mpr fun i => ?_
    by_cases hi : i < a.size
    · exact hused i hi
    by_cases hin : i < n
    · have hua := getElem?_eq_getElem (a.size_data.symm ▸ hin)
      have hvb := getElem?_eq_getElem (b.size_data.symm ▸ hin)
      have hread := (Tracked.follows_iff (UsedEqual a b) _ _).mpr
        (fun hcons => h hsize hle hcons i _ _ (Nat.le_of_not_lt hi) hua hvb) mem hmem
      simp [map, hua, hvb, hread]
    · -- behind both arrays
      have hna : a.data.length ≤ i := a.size_data.symm ▸ Nat.le_of_not_lt hin
      have hnb : b.data.length ≤ i := b.size_data.symm ▸ Nat.le_of_not_lt hin
      simp [map, getElem?_eq_none hna, getElem?_eq_none hnb]

end

end Varchar

end MassBFT.TPCC
