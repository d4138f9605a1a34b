import MassBFT.Exec.Transaction

/-!
# The reservation tables

During the execute phase every transaction that wants to write reserves the keys it
read and the keys it wrote. A table keeps, for each key, the smallest id that
reserved it; the commit phase compares these ids with a transaction's own.

**What a table holds does not depend on the order of the reservations**: an id below
a given one is found for a key exactly when some reservation of that key has such an
id (`below_foldl_reserve`), so the three flags of `getDependence` are statements
about the *set* of reservations (`waw_iff`, `war_iff`, `raw_iff`).
-/

set_option autoImplicit false

namespace MassBFT.Exec

/-- `ReserveTable::MutexTable` -/
abbrev MutexTable := Bytes → Option Tid

/-- `ReserveTable` -/
structure ReserveTable where
  readTable : MutexTable
  writeTable : MutexTable

/-- One atomic map operation of `updateTable`. -/
inductive Reservation where
  | read (key : Bytes) (tid : Tid)
  | write (key : Bytes) (tid : Tid)
  deriving DecidableEq

/-- `try_emplace_l`: a smaller or equal id that is already there stays. -/
def MutexTable.tryEmplace (table : MutexTable) (key : Bytes) (tid : Tid) : MutexTable :=
  match table key with
  | none => Function.update table key (some tid)
  | some t => if t.compareTID tid ≤ 0 then table else Function.update table key (some tid)

namespace ReserveTable

/-- `ReserveTable::reset` -/
def reset : ReserveTable := ⟨fun _ => none, fun _ => none⟩

def reserve (table : ReserveTable) : Reservation → ReserveTable
  | .read key tid => { table with readTable := table.readTable.tryEmplace key tid }
  | .write key tid => { table with writeTable := table.writeTable.tryEmplace key tid }

/-- `updateTable`: the operations it performs, in its order. -/
def updateTable (reads writes : List KV) (tid : Tid) : List Reservation :=
  reads.map (fun kv => .read kv.key tid) ++ writes.map (fun kv => .write kv.key tid)

end ReserveTable

/-- One of the three loops of `getDependence`: stop at the first key that an id below
`tid` has reserved. -/
def MutexTable.dependsOn (table : MutexTable) (tid : Tid) : List KV → Bool
  | [] => false
  | kv :: rest =>
    match table kv.key with
    | some t => if t.compareTID tid < 0 then true else dependsOn table tid rest
    | none => dependsOn table tid rest

/-- `ReserveTable::Dependence` -/
@[ext]
structure Dependence where
  waw : Bool
  war : Bool
  raw : Bool
  deriving DecidableEq, Repr

/-- `getDependence` -/
def ReserveTable.getDependence (table : ReserveTable) (reads writes : List KV) (tid : Tid) :
    Dependence where
  waw := table.writeTable.dependsOn tid writes
  war := table.readTable.dependsOn tid writes
  raw := table.writeTable.dependsOn tid reads

/-! ## What the tables hold -/

namespace MutexTable

/-- Some id below `n` holds `key`. -/
def Below (table : MutexTable) (key : Bytes) (n : Nat) : Prop := ∃ t, table key = some t ∧ t.val < n

theorem tryEmplace_self (table : MutexTable) (key : Bytes) (tid : Tid) :
    table.tryEmplace key tid key =
      match table key with
      | none => some tid
      | some t => if t.val ≤ tid.val then some t else some tid := by
  rw [tryEmplace]
  cases ht : table key with
  | none => simp
  | some t => by_cases hle : t.val ≤ tid.val <;> simp [Tid.compareTID_nonpos, hle, ht]

variable {table : MutexTable}

theorem tryEmplace_of_ne {key k : Bytes} {tid : Tid} (hk : k ≠ key) :
    table.tryEmplace key tid k = table k := by
  rw [tryEmplace]
  cases table key with
  | none => simp [hk]
  | some t => by_cases hle : t.compareTID tid ≤ 0 <;> simp [hle, hk]

theorem below_tryEmplace {key k : Bytes} {tid : Tid} {n : Nat} :
    (table.tryEmplace key tid).Below k n ↔ table.Below k n ∨ (key = k ∧ tid.val < n) := by
  by_cases hk : k = key
  · subst hk
    rw [Below, Below, tryEmplace_self]
    cases table k with
    | none => simp
    | some t =>
      by_cases hle : t.val ≤ tid.val
      · have : tid.val < n → t.val < n := fun h => by omega
        simpa [hle] using this
      · have : t.val < n → tid.val < n := fun h => by omega
        simpa [hle] using this
  · simp [Below, tryEmplace_of_ne hk, Ne.symm hk]

theorem dependsOn_iff {tid : Tid} {l : List KV} :
    table.dependsOn tid l = true ↔ ∃ k ∈ keys l, table.Below k tid.val := by
  induction l with
  | nil => simp [dependsOn, keys]
  | cons kv rest ih =>
    have hhead : table.dependsOn tid (kv :: rest) = true ↔
        table.Below kv.key tid.val ∨ table.dependsOn tid rest = true := by
      rw [dependsOn, Below]
      cases table kv.key with
      | none => simp
      | some t => by_cases hlt : t.val < tid.val <;> simp [Tid.compareTID_neg, hlt]
    rw [hhead, ih]
    simp [keys]

end MutexTable

namespace ReserveTable

open MutexTable

/-- One reservation makes its own id visible, in its own table, and nothing else. -/
theorem below_reserve {table : ReserveTable} {op : Reservation} {k : Bytes} {n : Nat} :
    ((table.reserve op).readTable.Below k n ↔
      table.readTable.Below k n ∨ ∃ t, op = .read k t ∧ t.val < n) ∧
    ((table.reserve op).writeTable.Below k n ↔
      table.writeTable.Below k n ∨ ∃ t, op = .write k t ∧ t.val < n) := by
  cases op with
  | read key tid =>
    simp only [reserve, below_tryEmplace, Reservation.read.injEq, reduceCtorEq, false_and,
      exists_false, or_false, and_true]
    exact or_congr_right ⟨fun ⟨hk, h⟩ => ⟨tid, ⟨hk, rfl⟩, h⟩, fun ⟨_, ⟨hk, ht⟩, h⟩ => ⟨hk, ht ▸ h⟩⟩
  | write key tid =>
    simp only [reserve, below_tryEmplace, Reservation.write.injEq, reduceCtorEq, false_and,
      exists_false, or_false, true_and]
    exact or_congr_right ⟨fun ⟨hk, h⟩ => ⟨tid, ⟨hk, rfl⟩, h⟩, fun ⟨_, ⟨hk, ht⟩, h⟩ => ⟨hk, ht ▸ h⟩⟩

theorem below_foldl_reserve {table : ReserveTable} {ops : List Reservation} {k : Bytes} {n : Nat} :
    ((ops.foldl reserve table).readTable.Below k n ↔
      table.readTable.Below k n ∨ ∃ t, .read k t ∈ ops ∧ t.val < n) ∧
    ((ops.foldl reserve table).writeTable.Below k n ↔
      table.writeTable.Below k n ∨ ∃ t, .write k t ∈ ops ∧ t.val < n) := by
  induction ops generalizing table with
  | nil => simp
  | cons op ops ih =>
    obtain ⟨hr, hw⟩ := @ih (table.reserve op)
    rw [List.foldl_cons, hr, hw, below_reserve.1, below_reserve.2]
    simp only [List.mem_cons, or_assoc, or_and_right, exists_or, eq_comm]
    trivial

theorem not_below_reset {k : Bytes} {n : Nat} :
    ¬ reset.readTable.Below k n ∧ ¬ reset.writeTable.Below k n := by
  simp [reset, Below]

/-! ## The flags, read off the set of reservations -/

section

variable {ops : List Reservation} {reads writes : List KV} {tid : Tid}

/-- A key of the write set was also reserved for writing, under a smaller id. -/
theorem waw_iff : ((ops.foldl reserve reset).getDependence reads writes tid).waw = true ↔
    ∃ k ∈ keys writes, ∃ t, .write k t ∈ ops ∧ t.val < tid.val := by
  simp only [getDependence, dependsOn_iff, below_foldl_reserve.2, not_below_reset.2, false_or]

/-- A key of the write set was reserved for reading, under a smaller id. -/
theorem war_iff : ((ops.foldl reserve reset).getDependence reads writes tid).war = true ↔
    ∃ k ∈ keys writes, ∃ t, .read k t ∈ ops ∧ t.val < tid.val := by
  simp only [getDependence, dependsOn_iff, below_foldl_reserve.1, not_below_reset.1, false_or]

/-- A key of the read set was reserved for writing, under a smaller id. -/
theorem raw_iff : ((ops.foldl reserve reset).getDependence reads writes tid).raw = true ↔
    ∃ k ∈ keys reads, ∃ t, .write k t ∈ ops ∧ t.val < tid.val := by
  simp only [getDependence, dependsOn_iff, below_foldl_reserve.2, not_below_reset.2, false_or]

/-- **The order of the reservations does not matter**: two orders of the same
operations leave tables with the same answers. -/
theorem getDependence_congr {ops' : List Reservation} (h : ∀ op, op ∈ ops ↔ op ∈ ops')
    (reads writes : List KV) (tid : Tid) :
    (ops.foldl reserve reset).getDependence reads writes tid =
      (ops'.foldl reserve reset).getDependence reads writes tid := by
  apply Dependence.ext <;> rw [Bool.eq_iff_iff]
  · simp only [waw_iff, h]
  · simp only [war_iff, h]
  · simp only [raw_iff, h]

theorem mem_updateTable {op : Reservation} : op ∈ updateTable reads writes tid ↔
    (∃ k ∈ keys reads, op = .read k tid) ∨ (∃ k ∈ keys writes, op = .write k tid) := by
  simp [updateTable, keys, eq_comm]

end

end ReserveTable

end MassBFT.Exec
