import Mathlib.Data.List.Induction
import MassBFT.Lib.Bytes

/-!
# Transactions and the database they run against

A transaction is made from an envelope and carries what its execution recorded:
the reads, the writes, the return value and a result. The database is the hash map
of `PHMapConnection`; a batch of updates keeps its puts and its deletes in two
lists and **replays all puts before all deletes** (`WriteBatch.ops`).

A chaincode is taken as what `InvokeChaincode` and `ORM::reset` deliver together: a
function from the database to the return code and the recorded sets.
-/

set_option autoImplicit false

namespace MassBFT.Exec

open Function List

/-- A transaction id: the 64 bytes of the envelope's signature. -/
structure Tid where
  bytes : Bytes
  size : bytes.length = 64
  deriving DecidableEq

namespace Tid

/-- `CompareTID` -/
def compareTID (lhs rhs : Tid) : Int := memcmp lhs.bytes rhs.bytes

/-- The place of an id in the order that `CompareTID` decides. -/
def val (t : Tid) : Nat := bigEndian t.bytes

theorem compareTID_neg {s t : Tid} : compareTID s t < 0 ↔ s.val < t.val :=
  (memcmp_spec (s.size.trans t.size.symm)).1

theorem val_inj {s t : Tid} : s.val = t.val ↔ s = t := by
  have h := (memcmp_spec (s.size.trans t.size.symm)).2.2
  rw [val, val, ← h]
  cases s; cases t; simp

theorem compareTID_nonpos {s t : Tid} : compareTID s t ≤ 0 ↔ s.val ≤ t.val := by
  have hzero := (memcmp_spec (s.size.trans t.size.symm)).2.1
  have hval := (memcmp_spec (s.size.trans t.size.symm)).2.2
  have hneg := compareTID_neg (s := s) (t := t)
  rw [hval] at hzero
  unfold compareTID at *
  unfold val at *
  omega

end Tid

/-- `proto::KV`: one entry of a read set or a write set. -/
structure KV where
  key : Bytes
  value : Bytes
  deriving DecidableEq, Repr

/-- The keys of a read set or a write set. -/
def keys (l : List KV) : List Bytes := l.map KV.key

/-! ## The database -/

/-- `PHMapConnection::db` -/
abbrev Database := Bytes → Option Bytes

/-- One atomic update of the hash map: `syncPut` or `syncDelete`. -/
inductive DbOp where
  | put (key value : Bytes)
  | delete (key : Bytes)
  deriving DecidableEq, Repr

namespace DbOp

def key : DbOp → Bytes
  | put k _ => k
  | delete k => k

def apply (db : Database) : DbOp → Database
  | put k v => update db k (some v)
  | delete k => update db k none

theorem apply_of_ne {db : Database} {op : DbOp} {k : Bytes} (h : op.key ≠ k) :
    op.apply db k = db k := by
  cases op <;> exact update_of_ne (Ne.symm h) _ _

theorem apply_congr {db db' : Database} {op : DbOp} {k : Bytes} (h : db k = db' k) :
    op.apply db k = op.apply db' k := by
  by_cases hk : op.key = k
  · subst hk
    cases op <;> simp [apply, key]
  · rw [apply_of_ne hk, apply_of_ne hk, h]

/-- Updates happen one after another. -/
def applyAll (db : Database) (ops : List DbOp) : Database := ops.foldl apply db

@[simp] theorem applyAll_nil (db : Database) : applyAll db [] = db := rfl

@[simp] theorem applyAll_cons (db : Database) (op : DbOp) (ops : List DbOp) :
    applyAll db (op :: ops) = applyAll (op.apply db) ops := rfl

theorem applyAll_append (db : Database) (ops ops' : List DbOp) :
    applyAll db (ops ++ ops') = applyAll (applyAll db ops) ops' := foldl_append

theorem applyAll_congr {db db' : Database} {k : Bytes} (h : db k = db' k) (ops : List DbOp) :
    applyAll db ops k = applyAll db' ops k := by
  induction ops generalizing db db' with
  | nil => exact h
  | cons op ops ih => exact ih (apply_congr h)

/-- What happens to one key is decided by the updates of that key. -/
theorem applyAll_filter (db : Database) (ops : List DbOp) (k : Bytes) :
    applyAll db ops k = applyAll db (ops.filter (·.key = k)) k := by
  induction ops generalizing db with
  | nil => rfl
  | cons op ops ih =>
    by_cases hk : op.key = k
    · rw [filter_cons_of_pos (by simpa using hk), applyAll_cons, applyAll_cons, ih]
    · rw [filter_cons_of_neg (by simpa using hk), applyAll_cons, ih]
      exact applyAll_congr (apply_of_ne hk) _

/-- What the key holds after the update. -/
def value : DbOp → Option Bytes
  | put _ v => some v
  | delete _ => none

/-- The last update of a key decides what it holds. -/
theorem applyAll_last (db : Database) (ops : List DbOp) (k : Bytes) :
    applyAll db ops k = ((ops.filter (·.key = k)).getLast?).elim (db k) value := by
  induction ops using List.reverseRecOn with
  | nil => rfl
  | append_singleton ops op ih =>
    rw [applyAll_append, applyAll_cons, applyAll_nil, filter_append]
    by_cases hk : op.key = k
    · rw [filter_cons_of_pos (by simpa using hk), filter_nil, getLast?_concat]
      subst hk
      cases op with
      | put k v => exact update_self _ _ _
      | delete k => exact update_self _ _ _
    · rw [filter_cons_of_neg (by simpa using hk), filter_nil, append_nil,
        apply_of_ne hk]
      exact ih

end DbOp

/-- `PHMapConnection::WriteBatch` -/
structure WriteBatch where
  writes : List (Bytes × Bytes)
  deletes : List Bytes
  deriving DecidableEq, Repr

namespace WriteBatch

def empty : WriteBatch := ⟨[], []⟩

/-- `WriteBatch::Put` -/
def put (b : WriteBatch) (key value : Bytes) : WriteBatch :=
  { b with writes := b.writes ++ [(key, value)] }

/-- `WriteBatch::Delete` -/
def delete (b : WriteBatch) (key : Bytes) : WriteBatch := { b with deletes := b.deletes ++ [key] }

/-- `syncWriteBatch` issues every put of the batch and then every delete. -/
def ops (b : WriteBatch) : List DbOp :=
  b.writes.map (fun kv => .put kv.1 kv.2) ++ b.deletes.map .delete

end WriteBatch

/-! ## Envelopes and transactions -/

/-- What running a chaincode delivers: the return code of `InvokeChaincode`, and the
sets and the result that `ORM::reset` hands over. -/
structure Invocation where
  ret : Int
  reads : List KV
  writes : List KV
  retValue : Bytes
  deriving DecidableEq, Repr

/-- A signed request to an existing chaincode: its id and what the chaincode does with
its function name and arguments on each database. -/
structure Envelop where
  digest : Tid
  invoke : Database → Invocation

/-- `Transaction::ExecutionResult` -/
inductive ExecutionResult where
  | COMMIT | PENDING | ABORT | ABORT_NO_RETRY
  deriving DecidableEq, Repr

/-- `proto::Transaction` with its `TxReadWriteSet`. -/
structure Transaction where
  envelop : Envelop
  tid : Tid
  executionResult : ExecutionResult
  retValue : Bytes
  reads : List KV
  writes : List KV

/-- `NewTransactionFromEnvelop` -/
def newTransactionFromEnvelop (e : Envelop) : Transaction where
  envelop := e
  tid := e.digest
  executionResult := .PENDING
  retValue := []
  reads := []
  writes := []

/-- The recorded reads decide what the request does: on a database that agrees with
`db` on every key the run on `db` recorded as read, the run is the same. -/
def Envelop.ReadsDecide (e : Envelop) : Prop :=
  ∀ db db' : Database, (∀ k ∈ keys (e.invoke db).reads, db k = db' k) → e.invoke db' = e.invoke db

end MassBFT.Exec
