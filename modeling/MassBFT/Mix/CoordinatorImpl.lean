import MassBFT.Mix.Robust

/-!
# The original engine

`peer::cc::CoordinatorImpl` is the engine that `DeterministicCoordinator` was rewritten from.
Both execute a block in the same way. In the commit phase the original looks at the write list
of a transaction where the rewritten one looks at the result that the execute phase has left.
**A transaction that was pending before the block has an empty write list exactly if it is
committed already** (`Executed`), so the two decide alike, and what they leave is the same for
all numbers of workers (`engines_agree`).
-/

set_option autoImplicit false

namespace MassBFT.Exec

/-! ## One transaction -/

/-- `ReserveTable::reserveRWSets`: word by word `updateTable`. -/
def ReserveTable.reserveRWSets (reads writes : List KV) (tid : Tid) : List Reservation :=
  ReserveTable.updateTable reads writes tid

/-- `ReserveTable::analysisDependent`: word by word `getDependence`. -/
def ReserveTable.analysisDependent (table : ReserveTable) (reads writes : List KV) (tid : Tid) :
    Dependence :=
  table.getDependence reads writes tid

namespace WorkerFSMImpl

/-- The body of the loop in `WorkerFSMImpl::OnExecuteTransaction`. -/
def executeTransaction (db : Database) (txn : Transaction) : Transaction × List Reservation :=
  let inv := txn.envelop.invoke db
  let txn := { txn with
    retValue := inv.retValue
    reads := inv.reads
    writes := inv.writes }
  if inv.ret ≠ 0 then
    ({ txn with executionResult := .ABORT_NO_RETRY }, [])
  else if txn.writes.isEmpty then
    ({ txn with executionResult := .COMMIT }, [])
  else
    (txn, ReserveTable.reserveRWSets txn.reads txn.writes txn.tid)

/-- The body of the loop in `saveToDBFunc`. -/
def commitTransaction (table : ReserveTable) (batch : WriteBatch) (txn : Transaction) :
    Transaction × WriteBatch :=
  if txn.executionResult = .ABORT_NO_RETRY then (txn, batch)
  else if txn.writes.isEmpty then ({ txn with executionResult := .COMMIT }, batch)
  else
    let dep := table.analysisDependent txn.reads txn.writes txn.tid
    if dep.waw then
      ({ txn with executionResult := .ABORT }, batch)
    else if !dep.war || !dep.raw then
      ({ txn with executionResult := .COMMIT }, txn.writes.foldl WriteBatch.add batch)
    else
      ({ txn with executionResult := .ABORT }, batch)

end WorkerFSMImpl

/-- What the execute phase leaves of a pending transaction. -/
inductive Executed (txn : Transaction) : Prop
  | failed (h : txn.executionResult = .ABORT_NO_RETRY)
  | readOnly (h : txn.executionResult = .COMMIT) (hwrites : txn.writes = [])
  | pending (h : txn.executionResult = .PENDING) (hwrites : txn.writes ≠ [])

theorem executed_of_pending (db : Database) {txn : Transaction}
    (h : txn.executionResult = .PENDING) : Executed (executeTransaction db txn).1 := by
  unfold executeTransaction
  dsimp only
  split_ifs with hret hwrites
  · exact .failed rfl
  · exact .readOnly rfl (List.isEmpty_iff.mp hwrites)
  · exact .pending h fun hnil => hwrites (List.isEmpty_iff.mpr hnil)

/-- **The two engines decide alike.** -/
theorem commitTransaction_agree (table : ReserveTable) (batch : WriteBatch) {txn : Transaction}
    (h : Executed txn) :
    WorkerFSMImpl.commitTransaction table batch txn = commitTransaction table batch txn := by
  obtain ⟨envelop, tid, result, retValue, reads, writes⟩ := txn
  cases h with
  | failed h =>
    dsimp only at h
    subst h
    rfl
  | readOnly h hwrites =>
    dsimp only at h hwrites
    subst h hwrites
    rfl
  | pending h hwrites =>
    dsimp only at h hwrites
    subst h
    have hempty : writes.isEmpty = false := by simpa using hwrites
    unfold WorkerFSMImpl.commitTransaction commitTransaction ReserveTable.analysisDependent
    dsimp only
    rw [if_neg (by decide), hempty, if_neg Bool.false_ne_true]
    by_cases hwaw : (table.getDependence reads writes tid).waw = true
    · rw [if_pos hwaw, if_pos hwaw]
    · rw [if_neg hwaw, if_neg hwaw]
      cases hwar : (table.getDependence reads writes tid).war with
      | false => rfl
      | true =>
        cases hraw : (table.getDependence reads writes tid).raw with
        | false => rfl
        | true => rfl

end MassBFT.Exec

namespace MassBFT.Mix

open List
open Exec (Database Crash Chaincodes Reservation ReserveTable WriteBatch DbOp)
open RoundRobin

/-! ## The engine on requests -/

namespace WorkerFSMImpl

/-- The body of the loop in `OnExecuteTransaction`, with the chaincode that the request names. -/
def executeTransaction (cc : Chaincodes) (db : Database) (txn : Transaction) :
    Except Crash (Transaction × List Reservation) :=
  match invokeChaincode cc db txn with
  | .error what => .error what
  | .ok _ =>
    let executed := Exec.WorkerFSMImpl.executeTransaction db (txn.asExec cc)
    .ok (txn.update executed.1, executed.2)

/-- `OnExecuteTransaction` -/
def onExecuteTransaction (cc : Chaincodes) (db : Database) :
    List Transaction → Except Crash (List Transaction × List Reservation)
  | [] => .ok ([], [])
  | txn :: rest =>
    match executeTransaction cc db txn with
    | .error what => .error what
    | .ok now =>
      match onExecuteTransaction cc db rest with
      | .error what => .error what
      | .ok later => .ok (now.1 :: later.1, now.2 ++ later.2)

/-- `OnCommitTransaction`: the decided transactions and the batch. -/
def onCommitTransaction (cc : Chaincodes) (table : ReserveTable) :
    WriteBatch → List Transaction → List Transaction × WriteBatch
  | batch, [] => ([], batch)
  | batch, txn :: rest =>
    let committed := Exec.WorkerFSMImpl.commitTransaction table batch (txn.asExec cc)
    let later := onCommitTransaction cc table committed.2 rest
    (txn.update committed.1 :: later.1, later.2)

theorem onExecuteTransaction_eq (cc : Chaincodes) (db : Database) (l : List Transaction) :
    onExecuteTransaction cc db l = Mix.onExecuteTransaction cc db l := by
  induction l with
  | nil => rfl
  | cons t l ih =>
    rw [onExecuteTransaction, Mix.onExecuteTransaction, ih]
    rfl

theorem onCommitTransaction_agree {cc : Chaincodes} (table : ReserveTable) (batch : WriteBatch)
    {l : List Transaction} (h : ∀ t ∈ l, Exec.Executed (t.asExec cc)) :
    onCommitTransaction cc table batch l = Mix.onCommitTransaction cc table batch l := by
  induction l generalizing batch with
  | nil => rfl
  | cons t l ih =>
    have hfirst := Exec.commitTransaction_agree table batch (h t mem_cons_self)
    rw [onCommitTransaction, Mix.onCommitTransaction, commitTransaction, hfirst]
    dsimp only
    rw [ih _ fun u hu => h u (mem_cons_of_mem t hu)]

end WorkerFSMImpl

namespace CoordinatorImpl

/-- `CoordinatorImpl::processSync` on a block: what it can leave. The phases are apart, with the
proviso of `Exec.ProcessSync`. -/
inductive ProcessSync (cc : Chaincodes) (n : Nat) (db : Database) (txns : List Transaction) :
    Except Crash (List Transaction × Database) → Prop
  | run {parts : Fin n → List Transaction × List Reservation} {ops : List Reservation}
      {updates : List DbOp}
      (start : ∀ i : Fin n,
        WorkerFSMImpl.onExecuteTransaction cc db (scatter n i txns) = .ok (parts i))
      (exec : Interleave (fun i => (parts i).2) ops)
      (commit : Interleave (fun i => (WorkerFSMImpl.onCommitTransaction cc
        (ops.foldl Exec.ReserveTable.reserve Exec.ReserveTable.reset) .empty (parts i).1).2.ops)
        updates) :
      ProcessSync cc n db txns (.ok
        (collect n txns.length (fun i => (WorkerFSMImpl.onCommitTransaction cc
          (ops.foldl Exec.ReserveTable.reserve Exec.ReserveTable.reset) .empty (parts i).1).1),
          DbOp.applyAll db updates))
  | crash {what : Crash} (i : Fin n)
      (h : WorkerFSMImpl.onExecuteTransaction cc db (scatter n i txns) = .error what) :
      ProcessSync cc n db txns (.error what)

/-- `Coordinator::processValidatedRequests` of the original engine with `n` workers: what it can
leave. -/
inductive ProcessValidatedRequests (w : Wire) (cc : Chaincodes) (n : Nat) (db : Database)
    (requests : List Replication.Envelop) : Except Crash (Processed × Database) → Prop
  | run {txns : List Transaction} {r : Except Crash (List Transaction × Database)}
      (hstart : requests.mapM (checkedTransaction w) = .ok txns)
      (hrun : ProcessSync cc n db txns r) :
      ProcessValidatedRequests w cc n db requests (r.map fun left => (processed left.1, left.2))
  | check {what : Crash} (hstart : requests.mapM (checkedTransaction w) = .error what) :
      ProcessValidatedRequests w cc n db requests (.error what)

end CoordinatorImpl

/-! ## The two engines -/

section

variable {w : Wire} {cc : Chaincodes} {n : Nat} {db : Database}
  {requests : List Replication.Envelop} {txns : List Transaction}

/-- What the execute phase leaves with a worker. -/
theorem executed_parts (hpending : ∀ t ∈ txns, t.rwSet.retCode = .PENDING) (hn : 1 ≤ n)
    {i : Fin n} {part : List Transaction × List Reservation}
    (h : onExecuteTransaction cc db (scatter n i txns) = .ok part) :
    ∀ t ∈ part.1, Exec.Executed (t.asExec cc) := by
  obtain ⟨-, rfl⟩ := onExecuteTransaction_ok.mp h
  intro t ht
  obtain ⟨u, hu, rfl⟩ := mem_map.mp ht
  rw [asExec_executeTransaction]
  exact Exec.executed_of_pending db (hpending u ((mem_scatter hn).mp ⟨i, hu⟩))

/-- With the same number of workers the engines can do the same. -/
theorem processSync_iff_deterministicSync (hpending : ∀ t ∈ txns, t.rwSet.retCode = .PENDING)
    (hn : 1 ≤ n) {r : Except Crash (List Transaction × Database)} :
    CoordinatorImpl.ProcessSync cc n db txns r ↔ DeterministicSync cc n db txns r := by
  have hcommit : ∀ {parts : Fin n → List Transaction × List Reservation},
      (∀ i : Fin n, onExecuteTransaction cc db (scatter n i txns) = .ok (parts i)) →
      ∀ (i : Fin n) table, WorkerFSMImpl.onCommitTransaction cc table .empty (parts i).1 =
        onCommitTransaction cc table .empty (parts i).1 :=
    fun start i table =>
      WorkerFSMImpl.onCommitTransaction_agree table .empty (executed_parts hpending hn (start i))
  constructor
  · intro h
    cases h with
    | run start exec commit =>
      simp only [WorkerFSMImpl.onExecuteTransaction_eq] at start
      simp only [hcommit start] at commit ⊢
      exact .run start exec commit
    | crash i h =>
      rw [WorkerFSMImpl.onExecuteTransaction_eq] at h
      exact .crash i h
  · intro h
    cases h with
    | run start exec commit =>
      simp only [← hcommit start] at commit ⊢
      simp only [← WorkerFSMImpl.onExecuteTransaction_eq] at start
      exact .run start exec commit
    | crash i h =>
      rw [← WorkerFSMImpl.onExecuteTransaction_eq] at h
      exact .crash i h

theorem pending_of_mapM (h : requests.mapM (checkedTransaction w) = .ok txns) :
    ∀ t ∈ txns, t.rwSet.retCode = .PENDING := by
  intro t ht
  rw [← filterMap_of_mapM h] at ht
  obtain ⟨e, -, hnew⟩ := mem_filterMap.mp ht
  rw [newTransactionFromEnvelop_eq_some hnew]

/-- The original engine on requests is the rewritten one, with the same number of workers. -/
theorem original_iff_rewritten (hn : 1 ≤ n) {r : Except Crash (Processed × Database)} :
    CoordinatorImpl.ProcessValidatedRequests w cc n db requests r ↔
      ProcessValidatedRequests w cc false n db requests r := by
  constructor
  · intro h
    cases h with
    | run hstart hrun =>
      exact .plain rfl hstart
        ((processSync_iff_deterministicSync (pending_of_mapM hstart) hn).mp hrun)
    | check hstart => exact .plainCheck rfl hstart
  · intro h
    cases h with
    | plain _ hstart hrun =>
      exact .run hstart ((processSync_iff_deterministicSync (pending_of_mapM hstart) hn).mpr hrun)
    | plainCheck _ hstart => exact .check hstart
    | mixed henable _ _ _ => cases henable
    | mixedCheck henable _ => cases henable

/-- Equal ids are found on copies of one transaction only. -/
def Copies (txns : List Transaction) : Prop := ∀ t ∈ txns, ∀ u ∈ txns, t.tid = u.tid → t = u

/-- Copies of an envelope give copies of a transaction. -/
theorem copies_of_mapM (h : requests.mapM (checkedTransaction w) = .ok txns)
    (hcopies : ∀ e ∈ requests, ∀ e' ∈ requests, envelopTid e = envelopTid e' → e = e') :
    Copies txns := by
  have hmade : ∀ t ∈ txns, ∃ e ∈ requests, newTransactionFromEnvelop w e = some t ∧
      t.tid = envelopTid e := by
    intro t ht
    rw [← filterMap_of_mapM h] at ht
    obtain ⟨e, he, hnew⟩ := mem_filterMap.mp ht
    refine ⟨e, he, hnew, ?_⟩
    rw [newTransactionFromEnvelop_eq_some hnew]
  intro t ht u hu htid
  obtain ⟨e, he, hnew, heq⟩ := hmade t ht
  obtain ⟨e', he', hnew', heq'⟩ := hmade u hu
  rw [heq, heq'] at htid
  rw [hcopies e he e' he' htid, hnew'] at hnew
  cases hnew
  rfl

/-- The engine sees copies as copies. -/
theorem Copies.asExec (hcopies : Copies txns) (cc : Chaincodes) :
    ∀ t ∈ txns.map (Transaction.asExec cc), ∀ u ∈ txns.map (Transaction.asExec cc),
      t.tid = u.tid → t = u := by
  intro t ht u hu htid
  obtain ⟨t', ht', rfl⟩ := mem_map.mp ht
  obtain ⟨u', hu', rfl⟩ := mem_map.mp hu
  rw [hcopies t' ht' u' hu' htid]

/-- **The rewritten engine has one outcome**, for all numbers of workers. -/
theorem deterministicSync_unique (hcopies : Copies txns) {n' : Nat} (hn : 1 ≤ n) (hn' : 1 ≤ n')
    {out out' : List Transaction} {db₁ db₂ : Database}
    (h : DeterministicSync cc n db txns (.ok (out, db₁)))
    (h' : DeterministicSync cc n' db txns (.ok (out', db₂))) : out = out' ∧ db₁ = db₂ := by
  have hseen := hcopies.asExec cc
  obtain ⟨-, ⟨table, rfl⟩, hrun⟩ := deterministicSync_refines hn h
  obtain ⟨-, ⟨table', rfl⟩, hrun'⟩ := deterministicSync_refines hn' h'
  obtain ⟨hout, rfl⟩ := (Exec.processSync_copies_iff hn hseen).mp hrun
  obtain ⟨hout', rfl⟩ := (Exec.processSync_copies_iff hn' hseen).mp hrun'
  refine ⟨?_, rfl⟩
  rw [← hout', map_map, map_map, map_inj_left] at hout
  refine map_congr_left fun t ht => ?_
  have hsame := hout t ht
  rw [Function.comp_apply, Function.comp_apply, asExec_settle, asExec_settle] at hsame
  rw [settle, settle, hsame]

theorem rewritten_iff
    (hcopies : ∀ e ∈ requests, ∀ e' ∈ requests, envelopTid e = envelopTid e' → e = e')
    (hcodes : ∀ e ∈ requests, ∃ code, answer w cc false db requests e = .ok code) :
    ∃ left db', ∀ n, 1 ≤ n → ∀ r,
      ProcessValidatedRequests w cc false n db requests r ↔ r = .ok (left, db') := by
  -- the block with one worker is what all the others are compared with
  obtain ⟨r₁, hr₁⟩ := exists_processed w cc false (le_refl 1) db requests
  obtain ⟨left, db', rfl, -⟩ := plain_handled (le_refl 1) hr₁ hcodes
  obtain ⟨txns, out, htxns, hrun, rfl⟩ := plain_inv hr₁
  have hall : ∀ n, 1 ≤ n → ∀ r, ProcessValidatedRequests w cc false n db requests r →
      r = .ok (processed out, db') := by
    intro n hn r hr
    obtain ⟨left', db'', rfl, -⟩ := plain_handled hn hr hcodes
    obtain ⟨txns', out', htxns', hrun', rfl⟩ := plain_inv hr
    rw [htxns] at htxns'
    cases htxns'
    obtain ⟨rfl, rfl⟩ :=
      deterministicSync_unique (copies_of_mapM htxns hcopies) hn (le_refl 1) hrun' hrun
    rfl
  refine ⟨processed out, db', fun n hn r => ⟨hall n hn r, ?_⟩⟩
  rintro rfl
  obtain ⟨r, hr⟩ := exists_processed w cc false hn db requests
  rwa [hall n hn r hr] at hr

end

/-- **The rewritten engine refines the original one.** If equal ids are found on copies of one
envelope only, and every request answers with a code, then both engines, with any numbers of
workers, leave one and the same: the database, and at every position the envelope, the flag and
the read-write set. If some request does not answer, either engine goes down with it. -/
theorem engines_agree {w : Wire} (cc : Chaincodes) (db : Database)
    {requests : List Replication.Envelop}
    (hcopies : ∀ e ∈ requests, ∀ e' ∈ requests, envelopTid e = envelopTid e' → e = e') :
    ((∀ e ∈ requests, ∃ code, answer w cc false db requests e = .ok code) →
      ∃ left db', ∀ m n, 1 ≤ m → 1 ≤ n → ∀ r,
        (CoordinatorImpl.ProcessValidatedRequests w cc m db requests r ↔ r = .ok (left, db')) ∧
        (ProcessValidatedRequests w cc false n db requests r ↔ r = .ok (left, db'))) ∧
    ((¬ ∀ e ∈ requests, ∃ code, answer w cc false db requests e = .ok code) →
      ∀ m n, 1 ≤ m → 1 ≤ n → ∀ r, CoordinatorImpl.ProcessValidatedRequests w cc m db requests r ∨
        ProcessValidatedRequests w cc false n db requests r → ∃ what, r = .error what) := by
  constructor
  · intro hcodes
    obtain ⟨left, db', hone⟩ := rewritten_iff hcopies hcodes
    refine ⟨left, db', fun m n hm hn r => ⟨?_, hone n hn r⟩⟩
    rw [original_iff_rewritten hm]
    exact hone m hm r
  · intro hcodes m n hm hn r hr
    have hrewritten : ∀ k, 1 ≤ k → ProcessValidatedRequests w cc false k db requests r →
        ∃ what, r = .error what := by
      intro k hk h
      cases r with
      | error what => exact ⟨what, rfl⟩
      | ok left => exact absurd (plain_answers hk h) hcodes
    rcases hr with hr | hr
    · exact hrewritten m hm ((original_iff_rewritten hm).mp hr)
    · exact hrewritten n hn hr

/-- A setting of the hash chaincode. -/
def setting (id : UInt8) (key value : Bytes) : Replication.Envelop :=
  request id hashName [83, 101, 116]
    ((littleEndian.string.pair littleEndian.string).put (key, value))

/-- A setting, a competitor, and the setting again. -/
def settings : List Replication.Envelop := [setting 1 [1] [2], setting 2 [1] [5], setting 1 [1] [2]]

theorem settings_answer : ∀ e ∈ settings, ∃ code,
    answer littleEndian simpleChaincodes false fiveVotes settings e = .ok code := by
  apply answers_of_isSome
  decide +kernel

theorem settings_copies :
    ∀ e ∈ settings, ∀ e' ∈ settings, envelopTid e = envelopTid e' → e = e' := by
  decide +kernel

theorem engines_agree_settings : ∃ left db', ∀ m n, 1 ≤ m → 1 ≤ n → ∀ r,
    (CoordinatorImpl.ProcessValidatedRequests littleEndian simpleChaincodes m fiveVotes settings r ↔
      r = .ok (left, db')) ∧
    (ProcessValidatedRequests littleEndian simpleChaincodes false n fiveVotes settings r ↔
      r = .ok (left, db')) :=
  (engines_agree simpleChaincodes fiveVotes settings_copies).1 settings_answer

end MassBFT.Mix
