import MassBFT.Exec.Serializable
import MassBFT.Mix.CoordinatorImpl

/-!
# Requests in blocks of their own

A request that is a block of its own meets no reservation but its own, so its chaincode decides
alone: **it commits exactly if `InvokeChaincode` returns 0**, and then its write set is in the
database (`processed_alone_iff`). This is how a chaincode is looked at by itself: every statement
about what a committed request does to the database is about the writes that it has recorded.

`OneByOne` is a sequence of such blocks.
-/

set_option autoImplicit false

namespace MassBFT.Exec

/-- The result of a transaction that is a block of its own. -/
def Invocation.result (inv : Invocation) : ExecutionResult :=
  if inv.ret = 0 then .COMMIT else .ABORT_NO_RETRY

/-- The database that it leaves. -/
def Invocation.database (db : Database) (inv : Invocation) : Database :=
  if inv.ret = 0 then DbOp.applyAll db (updatesOf inv.writes) else db

/-- A fresh transaction at the end of a block of its own. -/
theorem block_alone (db : Database) (e : Envelop) :
    block db [newTransactionFromEnvelop e] =
      ([{ undecided db e with executionResult := (e.invoke db).result }],
        (e.invoke db).database db) := by
  by_cases hret : (e.invoke db).ret = 0
  · rw [block_single hret, Invocation.result, Invocation.database, if_pos hret, if_pos hret]
    rfl
  · have hexec : (executeTransaction db (newTransactionFromEnvelop e)).1 =
        { undecided db e with executionResult := .ABORT_NO_RETRY } := by
      unfold executeTransaction newTransactionFromEnvelop undecided
      simp [hret]
    rw [Invocation.result, Invocation.database, if_neg hret, if_neg hret]
    apply Prod.ext
    · rw [block_fst, List.map_singleton, hexec]
      rfl
    · rw [block_snd, List.flatMap_singleton, blockWrites, hexec]
      rfl

end MassBFT.Exec

namespace MassBFT.Mix

open List
open Exec (Database Crash Chaincodes Invocation)

section

variable {w : Wire} {cc : Chaincodes} {n : Nat} {db : Database} {e : Replication.Envelop}
  {txn : Transaction} {inv : Invocation}

/-- What is handed back for a request that is a block of its own. -/
def processedAlone (e : Replication.Envelop) (inv : Invocation) : Processed where
  requests := [e]
  retRWSets := [⟨envelopTid e, inv.retValue, inv.result, inv.reads, inv.writes⟩]
  retResults := [decide (inv.ret = 0)]

/-- The engine sees a new transaction as a new one. -/
theorem asExec_fresh (hmade : newTransactionFromEnvelop w e = some txn) :
    txn.asExec cc = Exec.newTransactionFromEnvelop (txn.asExec cc).envelop := by
  rw [newTransactionFromEnvelop_eq_some hmade]
  rfl

/-- **A request in a block of its own**: the engine returns, the request is committed if its
chaincode has returned 0, and its writes are in the database then. -/
theorem processed_alone_iff (hn : 1 ≤ n) (hmade : newTransactionFromEnvelop w e = some txn)
    (hinv : invokeChaincode cc db txn = .ok inv) {r : Except Crash (Processed × Database)} :
    ProcessValidatedRequests w cc false n db [e] r ↔
      r = .ok (processedAlone e inv, inv.database db) := by
  have hstart : [e].mapM (checkedTransaction w) = .ok [txn] :=
    mapM_checked_iff.mpr (.cons hmade .nil)
  have hinvoke : (txn.asExec cc).envelop.invoke db = inv := by
    simp only [Transaction.asExec, hinv]
    rfl
  have hcrash : ∀ t ∈ [txn], ∃ inv, invokeChaincode cc db t = .ok inv := by
    intro t ht
    rw [mem_singleton.mp ht]
    exact ⟨inv, hinv⟩
  -- a run leaves what the block of one transaction leaves
  have hone : ∀ out db', DeterministicSync cc n db [txn] (.ok (out, db')) →
      processed out = processedAlone e inv ∧ db' = inv.database db := by
    intro out db' hrun
    obtain ⟨-, ⟨table, rfl⟩, hsync⟩ := deterministicSync_refines hn hrun
    rw [map_singleton, map_singleton, map_singleton, asExec_settle, asExec_fresh hmade] at hsync
    have hids : ([Exec.newTransactionFromEnvelop (txn.asExec cc).envelop].map
        Exec.Transaction.tid).Nodup := nodup_singleton _
    obtain ⟨hout, hdb⟩ := (Exec.processSync_iff hn hids).mp hsync
    rw [Exec.block_alone, hinvoke] at hout hdb
    refine ⟨?_, hdb⟩
    rw [map_singleton, settle, asExec_fresh hmade, singleton_inj.mp hout, processedAlone,
      processed, Exec.undecided, hinvoke, newTransactionFromEnvelop_eq_some hmade]
    have hflag : decide (inv.result = .COMMIT) = decide (inv.ret = 0) := by
      unfold Invocation.result
      split_ifs with hret
      · simp [hret]
      · simp [hret]
    rw [← hflag]
    rfl
  rw [plain_iff hstart]
  constructor
  · rintro ⟨r', hrun, rfl⟩
    cases r' with
    | error what => exact absurd hrun (not_deterministicSync_error hn hcrash what)
    | ok left =>
      obtain ⟨hout, hdb⟩ := hone left.1 left.2 hrun
      rw [Except.map, hout, hdb]
  · rintro rfl
    obtain ⟨out, db', hrun⟩ := exists_deterministicSync hn hcrash
    obtain ⟨hout, rfl⟩ := hone out db' hrun
    refine ⟨_, hrun, ?_⟩
    rw [Except.map, hout]

/-- A request in a block of its own that returns has been invoked. -/
theorem alone_inv (hn : 1 ≤ n) {left : Processed} {db' : Database}
    (h : ProcessValidatedRequests w cc false n db [e] (.ok (left, db'))) :
    ∃ txn inv, newTransactionFromEnvelop w e = some txn ∧ invokeChaincode cc db txn = .ok inv ∧
      left = processedAlone e inv ∧ db' = inv.database db := by
  obtain ⟨txns, out, htxns, hrun, -⟩ := plain_inv h
  obtain ⟨txn, rest, hmade, hnil, rfl⟩ := List.forall₂_cons_left_iff.mp (mapM_checked_iff.mp htxns)
  rw [List.forall₂_nil_left_iff] at hnil
  subst hnil
  obtain ⟨inv, hinv⟩ := (deterministicSync_refines hn hrun).1 txn mem_cons_self
  have hleft := (processed_alone_iff hn hmade hinv).mp h
  cases hleft
  exact ⟨txn, inv, hmade, hinv, rfl, rfl⟩

end

/-- Requests one after another, each in a block of its own. -/
inductive OneByOne (w : Wire) (cc : Chaincodes) (n : Nat) :
    Database → List Replication.Envelop → List Processed → Database → Prop
  | nil (db : Database) : OneByOne w cc n db [] [] db
  | cons {db db₁ db₂ : Database} {e : Replication.Envelop} {left : Processed}
      {requests : List Replication.Envelop} {later : List Processed}
      (now : ProcessValidatedRequests w cc false n db [e] (.ok (left, db₁)))
      (rest : OneByOne w cc n db₁ requests later db₂) :
      OneByOne w cc n db (e :: requests) (left :: later) db₂

end MassBFT.Mix
