import MassBFT.Exec.Chaincode
import MassBFT.Exec.Parallel

/-!
# Write batches

`syncWriteBatch` hands an empty batch to a callback and writes what the callback has issued.
LevelDB applies the operations in the order issued. The hash map keeps puts and deletes in two
lists and replays one list after the other, so **a key that was deleted anywhere in the batch
ends deleted**, also if it was put afterwards. The order issued is kept exactly if the last
operation on every deleted key is a delete (`syncWriteBatch_in_order_iff`).

The commit phase of the engine is such a callback (`updatesOf_eq_ops`): it issues the entries of
the write sets that it lets through, an entry without a value as a delete.
-/

set_option autoImplicit false

namespace MassBFT.Exec

open List WriteBatch

/-- `std::function<bool(WriteBatch*)>`: what the callback issues, and what it returns. -/
structure Callback where
  issued : List DbOp
  ret : Bool
  deriving DecidableEq, Repr

namespace DbOp

def isPut : DbOp → Bool
  | put _ _ => true
  | delete _ => false

@[simp] theorem isPut_put (k v : Bytes) : (put k v).isPut = true := rfl

@[simp] theorem isPut_delete (k : Bytes) : (delete k).isPut = false := rfl

end DbOp

namespace WriteBatch

/-- One call of the callback on the batch. -/
def issue (batch : WriteBatch) : DbOp → WriteBatch
  | .put key value => batch.put key value
  | .delete key => batch.delete key

/-- The batch that the callback leaves. -/
def fill (issued : List DbOp) : WriteBatch := issued.foldl issue .empty

theorem ops_foldl_issue (issued : List DbOp) (batch : WriteBatch) :
    (issued.foldl issue batch).ops =
      batch.writes.map (fun kv => .put kv.1 kv.2) ++ issued.filter DbOp.isPut ++
        (batch.deletes.map .delete ++ issued.filter (!DbOp.isPut ·)) := by
  induction issued generalizing batch with
  | nil => simp [ops]
  | cons op issued ih =>
    rw [foldl_cons, ih]
    cases op with
    | put key value => simp [issue, put, filter_cons]
    | delete key => simp [issue, delete]

/-- The batch replays the puts in their order, and then the deletes in theirs. -/
theorem ops_fill (issued : List DbOp) :
    (fill issued).ops = issued.filter DbOp.isPut ++ issued.filter (!DbOp.isPut ·) := by
  rw [fill, ops_foldl_issue]
  simp [empty]

end WriteBatch

/-! ## The hash map -/

namespace PHMapConnection

/-- `syncPut`, which always succeeds. -/
def syncPut (db : Database) (key value : Bytes) : Bool × Database :=
  (true, DbOp.apply db (.put key value))

/-- `syncDelete` -/
def syncDelete (db : Database) (key : Bytes) : Database := DbOp.apply db (.delete key)

/-- `std::ranges::all_of` over the puts of a batch: it stops at the first one that fails. -/
def putAll (db : Database) : List (Bytes × Bytes) → Bool × Database
  | [] => (true, db)
  | (key, value) :: rest =>
    match syncPut db key value with
    | (false, db) => (false, db)
    | (true, db) => putAll db rest

/-- `syncWriteBatch`: what it returns, and the database afterwards. -/
def syncWriteBatch (db : Database) (callback : Callback) : Bool × Database :=
  let batch := fill callback.issued
  if !callback.ret then
    (false, db)
  else
    match putAll db batch.writes with
    | (false, db) => (false, db)
    | (true, db) => (true, batch.deletes.foldl syncDelete db)

theorem putAll_eq (db : Database) (writes : List (Bytes × Bytes)) :
    putAll db writes = (true, DbOp.applyAll db (writes.map fun kv => .put kv.1 kv.2)) := by
  induction writes generalizing db with
  | nil => rfl
  | cons kv rest ih => exact ih _

theorem foldl_syncDelete (db : Database) (deletes : List Bytes) :
    deletes.foldl syncDelete db = DbOp.applyAll db (deletes.map .delete) := by
  rw [DbOp.applyAll, foldl_map]
  rfl

/-- What the callback issued is written, if the callback agrees. -/
theorem syncWriteBatch_eq (db : Database) (callback : Callback) :
    syncWriteBatch db callback =
      if callback.ret then (true, DbOp.applyAll db (fill callback.issued).ops)
      else (false, db) := by
  unfold syncWriteBatch
  cases callback.ret with
  | false => rfl
  | true =>
    simp [putAll_eq, foldl_syncDelete, ops, DbOp.applyAll_append]

end PHMapConnection

/-! ## When the order cannot be seen -/

section

variable {issued : List DbOp} {k : Bytes}

/-- The last operation on every key that is deleted anywhere is a delete. -/
def DeletesLast (issued : List DbOp) : Prop :=
  ∀ k, .delete k ∈ issued → (issued.filter (·.key = k)).getLast? = some (.delete k)

/-- A key without a delete ends as it does in order. -/
theorem getLast?_fill_of_no_delete (h : .delete k ∉ issued) :
    ((fill issued).ops.filter (·.key = k)).getLast? = (issued.filter (·.key = k)).getLast? := by
  have hput : ∀ op ∈ issued, op.key = k → op.isPut = true := by
    intro op hop hkey
    cases op with
    | put key value => rfl
    | delete key =>
      rw [← show key = k from hkey] at h
      exact absurd hop h
  have hnone : (issued.filter (!DbOp.isPut ·)).filter (·.key = k) = [] := by
    simp only [filter_filter, filter_eq_nil_iff]
    intro op hop hboth
    simp only [Bool.and_eq_true, decide_eq_true_eq, Bool.not_eq_true'] at hboth
    rw [hput op hop hboth.1] at hboth
    exact absurd hboth.2 Bool.true_eq_false_eq_False
  rw [ops_fill, filter_append, hnone, append_nil, filter_filter]
  congr 1
  refine filter_congr fun op hop => ?_
  by_cases hkey : op.key = k
  · simp [hkey, hput op hop hkey]
  · simp [hkey]

/-- A key with a delete ends with one. -/
theorem getLast?_fill_of_delete (h : .delete k ∈ issued) :
    ((fill issued).ops.filter (·.key = k)).getLast? = some (.delete k) := by
  have hmem : DbOp.delete k ∈ (issued.filter (!DbOp.isPut ·)).filter (·.key = k) := by
    simp [h, DbOp.key]
  obtain ⟨op, hop⟩ := Option.ne_none_iff_exists'.mp
    (mt getLast?_eq_none_iff.mp (ne_nil_of_mem hmem))
  have hdelete : op = .delete k := by
    have hlast := mem_of_getLast? hop
    simp only [mem_filter, decide_eq_true_eq, Bool.not_eq_true'] at hlast
    cases op with
    | put key value => cases hlast.1.2
    | delete key => rw [← hlast.2]; rfl
  rw [ops_fill, filter_append, getLast?_append, hop, hdelete]
  rfl

end

/-- **The batch means its operations in order exactly if every deleted key ends with its
delete.** Otherwise a put behind a delete of the same key is lost. -/
theorem syncWriteBatch_in_order_iff (db : Database) (issued : List DbOp) :
    PHMapConnection.syncWriteBatch db ⟨issued, true⟩ = (true, DbOp.applyAll db issued) ↔
      DeletesLast issued := by
  rw [PHMapConnection.syncWriteBatch_eq, if_pos rfl, Prod.mk.injEq, funext_iff]
  simp only [true_and, DbOp.applyAll_last]
  constructor
  · intro hsame k hk
    have hkey := hsame k
    rw [getLast?_fill_of_delete hk] at hkey
    cases hlast : (issued.filter (·.key = k)).getLast? with
    | none =>
      have hmem : .delete k ∈ issued.filter (·.key = k) := mem_filter.mpr ⟨hk, decide_eq_true rfl⟩
      rw [getLast?_eq_none_iff.mp hlast] at hmem
      cases hmem
    | some op =>
      rw [hlast] at hkey
      have hop : op.key = k := of_decide_eq_true (mem_filter.mp (mem_of_getLast? hlast)).2
      cases op with
      | put key value => cases hkey
      | delete key => rw [← hop]; rfl
  · intro hlast k
    by_cases hk : .delete k ∈ issued
    · rw [getLast?_fill_of_delete hk, hlast k hk]
    · rw [getLast?_fill_of_no_delete hk]

/-! ## The engine's batch -/

/-- What the commit phase issues for an entry of a write set: an empty value deletes. -/
def KV.issued (write : KV) : DbOp :=
  if write.value.isEmpty then .delete write.key else .put write.key write.value

theorem WriteBatch.add_eq_issue (batch : WriteBatch) (write : KV) :
    batch.add write = batch.issue write.issued := by
  unfold add KV.issued
  split_ifs <;> rfl

/-- The commit phase fills its batch as a callback does. -/
theorem updatesOf_eq_ops (writes : List KV) :
    updatesOf writes = (fill (writes.map KV.issued)).ops := by
  have hadd : add = fun batch write => batch.issue (KV.issued write) :=
    funext fun batch => funext fun write => add_eq_issue batch write
  rw [updatesOf, fill, foldl_map, hadd]

/-- A chaincode that deletes a key and then puts it. -/
def Program.replace (key value : Bytes) : Program := .del key (.put key value (.ret 0))

/-- A put behind a delete is lost: in a batch, and also for a chaincode that replaces a key, when
the engine commits it. -/
theorem put_after_delete_is_lost :
    let issued : List DbOp := [.delete [1], .put [1] [2]]
    let txn := newTransactionFromEnvelop ⟨⟨List.replicate 64 0, by decide⟩,
      fun db => ((Program.replace [1] [2]).invoke db).toOption.getD ⟨-1, [], [], []⟩⟩
    (PHMapConnection.syncWriteBatch (fun _ => none) ⟨issued, true⟩).2 [1] = none ∧
      DbOp.applyAll (fun _ => none) issued [1] = some [2] ∧
      (block (fun _ => none) [txn]).1.map Transaction.executionResult = [.COMMIT] ∧
      (block (fun _ => none) [txn]).2 [1] = none := by
  decide +kernel

end MassBFT.Exec
