import MassBFT.Exec.Batch
import MassBFT.Mix.Alone

/-!
# The serial coordinator

`SerialCoordinator` runs the requests of a block one after another, each on the database that the
one before has left, and never aborts a request that succeeds. It is the plain path beside the
deterministic engine: **what the engine commits in parallel, the serial coordinator commits as
well**, in some order, with the same reads, writes and return values, and it leaves the same
database (`serial_coordinator_reproduces`).
-/

set_option autoImplicit false

namespace MassBFT.Exec.SerialCoordinator

/-- The body of the loop in `processValidatedRequests`. -/
def process (db : Database) (txn : Transaction) : Transaction × Database :=
  let inv := txn.envelop.invoke db
  let txn := { txn with
    retValue := inv.retValue
    reads := inv.reads
    writes := inv.writes }
  if inv.ret ≠ 0 then ({ txn with executionResult := .ABORT_NO_RETRY }, db)
  else if txn.writes.isEmpty then ({ txn with executionResult := .COMMIT }, db)
  else
    ({ txn with executionResult := .COMMIT },
      (PHMapConnection.syncWriteBatch db ⟨txn.writes.map KV.issued, true⟩).2)

/-- The loop over `txnList`. -/
def processAll : Database → List Transaction → List Transaction × Database
  | db, [] => ([], db)
  | db, txn :: rest =>
    let now := process db txn
    let later := processAll now.2 rest
    (now.1 :: later.1, later.2)

/-- A fresh transaction is processed as in a block of its own. -/
theorem process_fresh (db : Database) (e : Envelop) :
    block db [newTransactionFromEnvelop e] =
      ([(process db (newTransactionFromEnvelop e)).1],
        (process db (newTransactionFromEnvelop e)).2) := by
  rw [block_alone, process, PHMapConnection.syncWriteBatch_eq, if_pos rfl, ← updatesOf_eq_ops,
    Invocation.result, Invocation.database]
  by_cases hret : (e.invoke db).ret = 0
  · by_cases hwrites : (e.invoke db).writes = []
    · simp [newTransactionFromEnvelop, hret, hwrites, undecided, updatesOf]
      rfl
    · simp [newTransactionFromEnvelop, hret, hwrites, undecided]
  · simp [newTransactionFromEnvelop, hret, undecided]

/-- The coordinator is a serial run of the deterministic engine. -/
theorem processAll_of_serialRun {n : Nat} (hn : 1 ≤ n) {db : Database} {envs : List Envelop}
    {out : List Transaction} {db' : Database}
    (h : SerialRun n db (requested envs) out db') :
    processAll db (requested envs) = (out, db') := by
  induction envs generalizing db out with
  | nil =>
    cases h
    rfl
  | cons e envs ih =>
    obtain _ | ⟨now, later⟩ := h
    rw [processSync_iff hn (by simp), process_fresh] at now
    obtain ⟨rfl, rfl⟩ := now
    rw [requested, List.map_cons, processAll, ih later]
    rfl

/-- **The serial coordinator reproduces every block of the deterministic engine.** The requests that
the engine commits can be ordered so that the serial coordinator, given these requests alone, ends
each of them as the engine did and leaves the same database. -/
theorem serial_coordinator_reproduces {n : Nat} (hn : 1 ≤ n) {db : Database} {envs : List Envelop}
    (hids : (envs.map Envelop.digest).Nodup) (hdecide : ∀ e ∈ envs, e.ReadsDecide)
    {out : List Transaction} {db' : Database}
    (h : ProcessSync n db (envs.map newTransactionFromEnvelop) out db') :
    ∃ order : List Transaction, order.Perm (out.filter (·.executionResult = .COMMIT)) ∧
      processAll db (order.map restart) = (order, db') := by
  rw [processSync_iff hn (nodup_requested hids)] at h
  obtain ⟨rfl, rfl⟩ := h
  refine ⟨serialOrder (blockTable db (requested envs)) (committed db envs),
    serialOrder_perm _ _, ?_⟩
  have hfresh : ∀ l : List Transaction, l.map restart = requested (l.map Transaction.envelop) :=
    fun l => (List.map_map).symm
  rw [hfresh]
  refine processAll_of_serialRun hn ?_
  rw [← hfresh]
  exact (serialRun_serialOrder hn hids hdecide _ _).mpr ⟨rfl, rfl⟩

theorem serial_coordinator_reproduces_crossing :
    ∃ (out order : List Transaction) (db' : Database),
      ProcessSync 2 (fun k => some k) (crossing.map newTransactionFromEnvelop) out db' ∧
      order.Perm (out.filter (·.executionResult = .COMMIT)) ∧
      processAll (fun k => some k) (order.map restart) = (order, db') := by
  have hids : (crossing.map Envelop.digest).Nodup := by decide
  have hrun : ProcessSync 2 (fun k => some k) (crossing.map newTransactionFromEnvelop) _ _ :=
    (processSync_iff (by decide) (nodup_requested hids)).mpr ⟨rfl, rfl⟩
  obtain ⟨order, hperm, hserial⟩ :=
    serial_coordinator_reproduces (by decide) hids crossing_readsDecide hrun
  exact ⟨_, order, _, hrun, hperm, hserial⟩

end MassBFT.Exec.SerialCoordinator
