import MassBFT.Exec.SimpleChaincodes
import MassBFT.Mix.Vote

/-!
# The deterministic engine on requests

`DeterministicFSM` looks up the chaincode that a request names and runs it. A missing chaincode
fails a `CHECK`, and a chaincode may end with a crash of its own: either takes the process down.
What a worker does to a transaction otherwise is `Exec.executeTransaction` and
`Exec.commitTransaction`, here on the transaction that carries the request.

**Blocks that do not crash are blocks of `Exec.ProcessSync`** (`deterministicSync_refines`), and
every transaction stays what it was apart from its read-write set.
-/

set_option autoImplicit false

namespace MassBFT.Mix

open List
open Exec (Tid Database Crash Chaincodes Invocation Reservation ReserveTable WriteBatch DbOp)
open RoundRobin

/-! ## One transaction -/

/-- `getOrCreateChaincode`, `InvokeChaincode` and `ORM::reset`. -/
def invokeChaincode (cc : Chaincodes) (db : Database) (txn : Transaction) :
    Except Crash Invocation :=
  match cc txn.userRequest.ccName with
  | none => .error .check
  | some invoke => (invoke txn.userRequest.funcName txn.userRequest.args).invoke db

/-- What the engine sees of a transaction. -/
def Transaction.asExec (cc : Chaincodes) (txn : Transaction) : Exec.Transaction where
  tid := txn.tid
  envelop := ⟨txn.tid, fun db => (invokeChaincode cc db txn).toOption.getD ⟨-1, [], [], []⟩⟩
  reads := txn.rwSet.reads
  writes := txn.rwSet.writes
  retValue := txn.rwSet.retValue
  executionResult := txn.rwSet.retCode

/-- What the engine sets in a transaction. -/
def Transaction.update (txn : Transaction) (e : Exec.Transaction) : Transaction :=
  { txn with rwSet := { txn.rwSet with
      retValue := e.retValue
      retCode := e.executionResult
      reads := e.reads
      writes := e.writes } }

/-- What no engine changes in a transaction. -/
def Transaction.origin (txn : Transaction) : Tid × Replication.Envelop × UserRequest × Tid :=
  (txn.tid, txn.envelop, txn.userRequest, txn.rwSet.requestDigest)

/-- The body of the loop in `OnExecuteTransaction`. -/
def executeTransaction (cc : Chaincodes) (db : Database) (txn : Transaction) :
    Except Crash (Transaction × List Reservation) :=
  match invokeChaincode cc db txn with
  | .error what => .error what
  | .ok _ =>
    let executed := Exec.executeTransaction db (txn.asExec cc)
    .ok (txn.update executed.1, executed.2)

/-- The body of the loop in `saveToDB`. -/
def commitTransaction (cc : Chaincodes) (table : ReserveTable) (batch : WriteBatch)
    (txn : Transaction) : Transaction × WriteBatch :=
  let committed := Exec.commitTransaction table batch (txn.asExec cc)
  (txn.update committed.1, committed.2)

/-! ## Workers -/

/-- `OnExecuteTransaction` -/
def onExecuteTransaction (cc : Chaincodes) (db : Database) :
    List Transaction → Except Crash (List Transaction × List Reservation)
  | [] => .ok ([], [])
  | txn :: rest =>
    match executeTransaction cc db txn with
    | .error what => .error what
    | .ok now =>
      match onExecuteTransaction cc db rest with
      | .error what => .error what
      | .ok later => .ok (now.1 :: later.1, now.2 ++ later.2)

/-- `OnCommitTransaction`: the decided transactions and the batch. -/
def onCommitTransaction (cc : Chaincodes) (table : ReserveTable) :
    WriteBatch → List Transaction → List Transaction × WriteBatch
  | batch, [] => ([], batch)
  | batch, txn :: rest =>
    let now := commitTransaction cc table batch txn
    let later := onCommitTransaction cc table now.2 rest
    (now.1 :: later.1, later.2)

/-- `DeterministicCoordinator::processValidatedRequests` on transactions: what it can leave. A
crash of one worker is a crash of the process. The phases are apart, with the proviso of
`Exec.ProcessSync`. -/
inductive DeterministicSync (cc : Chaincodes) (n : Nat) (db : Database) (txns : List Transaction) :
    Except Crash (List Transaction × Database) → Prop
  | run {parts : Fin n → List Transaction × List Reservation} {ops : List Reservation}
      {updates : List DbOp}
      (start : ∀ i : Fin n, onExecuteTransaction cc db (scatter n i txns) = .ok (parts i))
      (exec : Interleave (fun i => (parts i).2) ops)
      (commit : Interleave (fun i => (onCommitTransaction cc
        (ops.foldl Exec.ReserveTable.reserve Exec.ReserveTable.reset) .empty (parts i).1).2.ops)
        updates) :
      DeterministicSync cc n db txns (.ok
        (collect n txns.length (fun i => (onCommitTransaction cc
          (ops.foldl Exec.ReserveTable.reserve Exec.ReserveTable.reset) .empty (parts i).1).1),
          DbOp.applyAll db updates))
  | crash {what : Crash} (i : Fin n)
      (h : onExecuteTransaction cc db (scatter n i txns) = .error what) :
      DeterministicSync cc n db txns (.error what)

/-! ## What the workers leave -/

section

variable {cc : Chaincodes} {db : Database}

/-- A transaction is seen as what was set in it. -/
theorem asExec_update {txn : Transaction} {e : Exec.Transaction} (htid : e.tid = txn.tid)
    (henv : e.envelop = (txn.asExec cc).envelop) : (txn.update e).asExec cc = e := by
  cases e
  dsimp only at htid henv
  subst htid henv
  rfl

theorem asExec_executeTransaction (cc : Chaincodes) (db : Database) (txn : Transaction) :
    (txn.update (Exec.executeTransaction db (txn.asExec cc)).1).asExec cc =
      (Exec.executeTransaction db (txn.asExec cc)).1 := by
  apply asExec_update
  · unfold Exec.executeTransaction
    dsimp only
    split_ifs
    · rfl
    · rfl
    · rfl
  · unfold Exec.executeTransaction
    dsimp only
    split_ifs
    · rfl
    · rfl
    · rfl

theorem asExec_decided (table : ReserveTable) (txn : Transaction) :
    (txn.update (Exec.decided table (txn.asExec cc))).asExec cc =
      Exec.decided table (txn.asExec cc) :=
  asExec_update rfl rfl

/-- A worker gets through its list if no chaincode crashes. -/
theorem onExecuteTransaction_ok {l : List Transaction}
    {part : List Transaction × List Reservation} :
    onExecuteTransaction cc db l = .ok part ↔
      (∀ t ∈ l, ∃ inv, invokeChaincode cc db t = .ok inv) ∧
        part = (l.map fun t => t.update (Exec.executeTransaction db (t.asExec cc)).1,
          (Exec.onExecuteTransaction db (l.map (Transaction.asExec cc))).2) := by
  induction l generalizing part with
  | nil =>
    rw [onExecuteTransaction, Except.ok.injEq, eq_comm]
    exact ⟨fun h => ⟨by simp, h⟩, fun h => h.2⟩
  | cons t l ih =>
    rw [onExecuteTransaction, executeTransaction, forall_mem_cons]
    cases ht : invokeChaincode cc db t with
    | error what => simp
    | ok inv =>
      dsimp only
      cases hl : onExecuteTransaction cc db l with
      | error what =>
        have hnone : ¬ ∀ t ∈ l, ∃ inv, invokeChaincode cc db t = .ok inv := by
          intro hall
          have hok := ih.mpr ⟨hall, rfl⟩
          rw [hl] at hok
          cases hok
        constructor
        · intro h
          cases h
        · intro h
          exact absurd h.1.2 hnone
      | ok later =>
        obtain ⟨hall, rfl⟩ := ih.mp hl
        rw [Except.ok.injEq, eq_comm]
        exact ⟨fun h => ⟨⟨⟨inv, rfl⟩, hall⟩, h⟩, fun h => h.2⟩

/-- Every transaction is decided on its own, and the batch is the engine's. -/
theorem onCommitTransaction_eq (table : ReserveTable) (batch : WriteBatch) (l : List Transaction) :
    onCommitTransaction cc table batch l =
      (l.map fun t => t.update (Exec.decided table (t.asExec cc)),
        (Exec.onCommitTransaction table batch (l.map (Transaction.asExec cc))).2) := by
  induction l generalizing batch with
  | nil => rfl
  | cons t l ih =>
    rw [onCommitTransaction, commitTransaction, Exec.commitTransaction_eq]
    dsimp only
    rw [ih, map_cons, map_cons, Exec.onCommitTransaction, Exec.commitTransaction_eq]

/-- A transaction at the end of a block. -/
def settle (cc : Chaincodes) (db : Database) (table : ReserveTable) (txn : Transaction) :
    Transaction :=
  txn.update (Exec.decided table (Exec.executeTransaction db (txn.asExec cc)).1)

theorem asExec_settle (table : ReserveTable) (txn : Transaction) :
    (settle cc db table txn).asExec cc =
      Exec.decided table (Exec.executeTransaction db (txn.asExec cc)).1 := by
  have hdecided := @asExec_decided cc table
    (txn.update (Exec.executeTransaction db (txn.asExec cc)).1)
  rw [asExec_executeTransaction] at hdecided
  exact hdecided

/-- A worker with the transactions `l`, through both phases. -/
theorem onCommitTransaction_executed (table : ReserveTable) (l : List Transaction) :
    onCommitTransaction cc table .empty
        (l.map fun t => t.update (Exec.executeTransaction db (t.asExec cc)).1) =
      (l.map (settle cc db table), (Exec.onCommitTransaction table .empty
        (Exec.onExecuteTransaction db (l.map (Transaction.asExec cc))).1).2) := by
  have hseen : ((l.map fun t => t.update (Exec.executeTransaction db (t.asExec cc)).1).map
      (Transaction.asExec cc)) =
        (Exec.onExecuteTransaction db (l.map (Transaction.asExec cc))).1 := by
    rw [map_map, Exec.onExecuteTransaction, map_map]
    exact map_congr_left fun t _ => asExec_executeTransaction cc db t
  rw [onCommitTransaction_eq, hseen, map_map]
  congr 1
  refine map_congr_left fun t _ => ?_
  rw [Function.comp_apply, asExec_executeTransaction]
  rfl

end

/-! ## Blocks -/

section

variable {cc : Chaincodes} {n : Nat} {db : Database} {txns : List Transaction}

/-- **A block that returns**: no chaincode has crashed, every transaction is settled at its
position, and the engine has run the block as it is seen. -/
theorem deterministicSync_refines (hn : 1 ≤ n) {out : List Transaction} {db' : Database}
    (h : DeterministicSync cc n db txns (.ok (out, db'))) :
    (∀ t ∈ txns, ∃ inv, invokeChaincode cc db t = .ok inv) ∧
      (∃ table, out = txns.map (settle cc db table)) ∧
      Exec.ProcessSync n db (txns.map (Transaction.asExec cc)) (out.map (Transaction.asExec cc))
        db' := by
  cases h with
  | @run parts ops updates start exec commit =>
    have hparts := fun i => onExecuteTransaction_ok.mp (start i)
    have hsplit : ∀ i : Fin n, (scatter n i txns).map (Transaction.asExec cc) =
        Exec.afterStart n i (txns.map (Transaction.asExec cc)) := fun i => (scatter_map _).symm
    simp only [fun i => (hparts i).2, onCommitTransaction_executed, hsplit] at exec commit ⊢
    rw [collect_scatter hn]
    refine ⟨fun t ht => ?_, ⟨_, rfl⟩, ?_⟩
    · obtain ⟨i, hi⟩ := (mem_scatter hn).mpr ht
      exact (hparts i).1 t hi
    · have hrun := Exec.ProcessSync.run exec commit
      have hout : Exec.afterCommit n (txns.map (Transaction.asExec cc)).length (fun w =>
          (Exec.workerCommit n db (txns.map (Transaction.asExec cc)) ops w).1) =
          (txns.map (settle cc db (ops.foldl Exec.ReserveTable.reserve
            Exec.ReserveTable.reset))).map (Transaction.asExec cc) := by
        simp only [Exec.workerCommit, Exec.onCommitTransaction_fst, Exec.onExecuteTransaction,
          map_map]
        rw [Exec.afterCommit_afterStart hn, map_map]
        exact map_congr_left fun t _ => (asExec_settle _ t).symm
      rwa [hout] at hrun

/-- The engine returns, if no chaincode crashes. -/
theorem exists_deterministicSync (hn : 1 ≤ n)
    (h : ∀ t ∈ txns, ∃ inv, invokeChaincode cc db t = .ok inv) :
    ∃ out db', DeterministicSync cc n db txns (.ok (out, db')) := by
  have hstart : ∀ i : Fin n, ∃ part, onExecuteTransaction cc db (scatter n i txns) = .ok part :=
    fun i => ⟨_, onExecuteTransaction_ok.mpr ⟨fun t ht => h t ((mem_scatter hn).mp ⟨i, ht⟩), rfl⟩⟩
  choose parts hparts using hstart
  obtain ⟨ops, hexec⟩ := Interleave.exists_out fun i => (parts i).2
  obtain ⟨updates, hcommit⟩ := Interleave.exists_out fun i => (onCommitTransaction cc
    (ops.foldl Exec.ReserveTable.reserve Exec.ReserveTable.reset) .empty (parts i).1).2.ops
  exact ⟨_, _, .run hparts hexec hcommit⟩

/-- The engine crashes only with one of its chaincodes. -/
theorem not_deterministicSync_error (hn : 1 ≤ n)
    (h : ∀ t ∈ txns, ∃ inv, invokeChaincode cc db t = .ok inv) (what : Crash) :
    ¬ DeterministicSync cc n db txns (.error what) := by
  rintro ⟨⟩
  rename_i i hi
  have hok := onExecuteTransaction_ok.mpr ⟨fun t ht => h t ((mem_scatter hn).mp ⟨i, ht⟩), rfl⟩
  rw [hi] at hok
  cases hok

/-- Every block ends, in one way or the other. -/
theorem exists_deterministicSync_result (hn : 1 ≤ n) : ∃ r, DeterministicSync cc n db txns r := by
  by_cases h : ∀ t ∈ txns, ∃ inv, invokeChaincode cc db t = .ok inv
  · obtain ⟨out, db', hrun⟩ := exists_deterministicSync hn h
    exact ⟨_, hrun⟩
  · obtain ⟨t, ht, hno⟩ : ∃ t ∈ txns, ¬ ∃ inv, invokeChaincode cc db t = .ok inv := by
      simpa using h
    obtain ⟨i, hi⟩ := (mem_scatter hn).mpr ht
    cases hpart : onExecuteTransaction cc db (scatter n i txns) with
    | error what => exact ⟨_, .crash i hpart⟩
    | ok part => exact absurd ((onExecuteTransaction_ok.mp hpart).1 t hi) hno

end

end MassBFT.Mix
