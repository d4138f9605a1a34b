import MassBFT.Exec.Parallel

/-!
# What the coordinator gives back

`Coordinator::processValidatedRequests` takes a block of envelopes and leaves, position by
position, the envelope, the read-write set and a flag. **Replicas with different numbers of
workers leave the same** (`replicas_agree`), as long as equal ids are found on copies of one
envelope only: a copy executes as its original does, reserves under the same id, and is let
through or turned down with it.
-/

set_option autoImplicit false

namespace MassBFT.Exec

/-- `TxReadWriteSet` -/
structure TxReadWriteSet where
  requestDigest : Tid
  retValue : Bytes
  retCode : ExecutionResult
  reads : List KV
  writes : List KV
  deriving DecidableEq

/-- The read-write set of a transaction; its digest is set together with the id. -/
def Transaction.readWriteSet (txn : Transaction) : TxReadWriteSet where
  requestDigest := txn.tid
  retValue := txn.retValue
  retCode := txn.executionResult
  reads := txn.reads
  writes := txn.writes

/-- `DestroyTransaction` -/
def destroyTransaction (txn : Transaction) : Envelop × TxReadWriteSet :=
  (txn.envelop, txn.readWriteSet)

/-- What a block leaves: `requests`, `retRWSets` and `retResults`. -/
structure Processed where
  requests : List Envelop
  retRWSets : List TxReadWriteSet
  retResults : List Bool

/-- `afterCommit`, for the transactions in the order of the block. -/
def processed (transactions : List Transaction) : Processed where
  requests := transactions.map fun txn => (destroyTransaction txn).1
  retRWSets := transactions.map fun txn => (destroyTransaction txn).2
  retResults := transactions.map fun txn => decide (txn.executionResult = .COMMIT)

/-- `processValidatedRequests` with `n` workers: what it can leave. -/
inductive ProcessValidatedRequests (n : Nat) (db : Database) (requests : List Envelop) :
    Processed → Database → Prop
  | run {out : List Transaction} {db' : Database}
      (h : ProcessSync n db (requests.map newTransactionFromEnvelop) out db') :
      ProcessValidatedRequests n db requests (processed out) db'

/-- **Replicas agree, whatever their parallelism**: a block has one outcome for all numbers of
workers and all schedules. -/
theorem replicas_agree (db : Database) {requests : List Envelop}
    (hcopies : ∀ e ∈ requests, ∀ e' ∈ requests, e.digest = e'.digest → e = e') :
    ∃ (out : Processed) (db' : Database), ∀ n, 1 ≤ n → ∀ o d,
      ProcessValidatedRequests n db requests o d ↔ o = out ∧ d = db' := by
  have htxns : ∀ t ∈ requests.map newTransactionFromEnvelop,
      ∀ u ∈ requests.map newTransactionFromEnvelop, t.tid = u.tid → t = u := by
    intro t ht u hu heq
    obtain ⟨e, he, rfl⟩ := List.mem_map.mp ht
    obtain ⟨e', he', rfl⟩ := List.mem_map.mp hu
    rw [hcopies e he e' he' heq]
  refine ⟨processed (block db (requests.map newTransactionFromEnvelop)).1,
    (block db (requests.map newTransactionFromEnvelop)).2, fun n hn o d => ?_⟩
  constructor
  · rintro ⟨hrun⟩
    obtain ⟨rfl, rfl⟩ := (processSync_copies_iff hn htxns).mp hrun
    exact ⟨rfl, rfl⟩
  · rintro ⟨rfl, rfl⟩
    exact .run ((processSync_copies_iff hn htxns).mpr ⟨rfl, rfl⟩)

/-- A request that sets a key. -/
def setRequest (id : UInt8) (key value : Bytes) : Envelop where
  digest := ⟨List.replicate 63 0 ++ [id], length_zeros_concat id⟩
  invoke _ := ⟨0, [], [⟨key, value⟩], []⟩

/-- A request, a competitor, and the request again. -/
def withCopy : List Envelop := [setRequest 1 [0] [1], setRequest 2 [0] [2], setRequest 1 [0] [1]]

theorem replicas_agree_withCopy : ∃ (out : Processed) (db' : Database), ∀ n, 1 ≤ n → ∀ o d,
    ProcessValidatedRequests n (fun _ => none) withCopy o d ↔ o = out ∧ d = db' := by
  refine replicas_agree _ fun e he e' he' heq => ?_
  simp only [withCopy, List.mem_cons, List.not_mem_nil, or_false] at he he'
  rcases he with rfl | rfl | rfl <;> rcases he' with rfl | rfl | rfl
  all_goals first | rfl | exact absurd heq (by decide)

end MassBFT.Exec
