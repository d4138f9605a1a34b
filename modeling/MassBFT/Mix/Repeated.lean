import MassBFT.Mix.CoordinatorImpl

/-!
# Requests that are repeated in a block

The engine tells transactions apart by their ids, the digests of the signatures. A write is
refused if a *smaller* id has reserved the key, so a transaction finds its own reservation
harmless, and with it those of every other transaction of the same id. Hence the write sets that a
block commits are disjoint as far as the ids are distinct, and **all copies of an envelope share
its fate**: they are committed together or not at all. The database cannot tell: it ends as if
the envelope had come once (`committed_writes_apart`).
-/

set_option autoImplicit false

namespace MassBFT.Exec

/-- A committed transaction with a write has passed the checks of the commit phase. -/
theorem mem_blockWrites_of_commit {db : Database} {txns : List Transaction} {t : Transaction}
    (hpending : t.executionResult = .PENDING) {k : Bytes}
    (hcommit : verdict (blockTable db txns) (executeTransaction db t).1 = .COMMIT)
    (hk : k ∈ keys (executeTransaction db t).1.writes) : k ∈ keys (blockWrites db txns t) := by
  unfold blockWrites contribution
  unfold verdict at hcommit
  cases executed_of_pending db hpending with
  | failed h => simp [h] at hcommit
  | readOnly h hwrites => simp [hwrites, keys] at hk
  | pending h hwrites =>
    simp only [h] at hcommit
    split_ifs at hcommit ⊢
    · exact hk

end MassBFT.Exec

namespace MassBFT.Mix

open List
open Exec (Database Chaincodes keys)
open RoundRobin

/-- Position `i` is reported as committed and has written the key. -/
def Processed.Wrote (left : Processed) (i : Nat) (k : Bytes) : Prop :=
  left.retResults[i]? = some true ∧ ∃ rwSet, left.retRWSets[i]? = some rwSet ∧ k ∈ keys rwSet.writes

section

variable {w : Wire} {cc : Chaincodes} {n : Nat} {db db' : Database}
  {requests : List Replication.Envelop} {txns : List Transaction} {left : Processed}
  {out : List Transaction}

/-- What a block reports at a position, in terms of the transaction at that position. -/
theorem settle_blockTable (hn : 1 ≤ n)
    (h : DeterministicSync cc n db txns (.ok (out, db'))) : out = txns.map
      (settle cc db (Exec.blockTable db (txns.map (Transaction.asExec cc)))) := by
  obtain ⟨-, ⟨table, rfl⟩, hrun⟩ := deterministicSync_refines hn h
  have hout := Exec.processSync_out hn hrun
  rw [Exec.block_fst, map_map, map_map, map_inj_left] at hout
  refine map_congr_left fun t ht => ?_
  have hsame := hout t ht
  rw [Function.comp_apply, Function.comp_apply, asExec_settle] at hsame
  rw [settle, settle, hsame]

variable (htxns : requests.mapM (checkedTransaction w) = .ok txns)

include htxns in
/-- The transaction at a position is made from the request at that position. -/
theorem getElem?_of_mapM (i : Nat) :
    txns[i]? = requests[i]?.bind (newTransactionFromEnvelop w) := by
  have hmade := mapM_checked_iff.mp htxns
  clear htxns
  induction hmade generalizing i with
  | nil => rfl
  | cons hnew _ ih =>
    cases i with
    | zero => exact hnew.symm
    | succ i => exact ih i

include htxns in
theorem tid_of_mapM {i : Nat}
    {t : Transaction} (ht : txns[i]? = some t) : requests[i]?.map envelopTid = some t.tid := by
  rw [getElem?_of_mapM htxns] at ht
  obtain ⟨e, he, hnew⟩ := Option.bind_eq_some_iff.mp ht
  rw [he, newTransactionFromEnvelop_eq_some hnew]
  rfl

/-- Who wrote a key: the transaction at the position has added the key to the batches. -/
theorem writer_of_wrote (hn : 1 ≤ n) (htxns : requests.mapM (checkedTransaction w) = .ok txns)
    (hrun : DeterministicSync cc n db txns (.ok (out, db'))) {i : Nat}
    {k : Bytes} (h : (processed out).Wrote i k) : ∃ t, txns[i]? = some t ∧
      k ∈ keys (Exec.blockWrites db (txns.map (Transaction.asExec cc)) (t.asExec cc)) := by
  obtain ⟨hcommit, rwSet, hrwSet, hk⟩ := h
  simp only [processed, settle_blockTable hn hrun, getElem?_map, Option.map_map,
    Option.map_eq_some_iff] at hcommit hrwSet
  obtain ⟨t, ht, hresult⟩ := hcommit
  obtain ⟨t', ht', rfl⟩ := hrwSet
  rw [ht] at ht'
  cases ht'
  refine ⟨t, ht, Exec.mem_blockWrites_of_commit ?_ (of_decide_eq_true hresult) hk⟩
  exact pending_of_mapM htxns t (mem_of_getElem? ht)

include htxns in
/-- The transactions depend on the set of requests as a set. -/
theorem mem_of_mapM {t : Transaction} :
    t ∈ txns ↔ ∃ e ∈ requests, newTransactionFromEnvelop w e = some t := by
  rw [← filterMap_of_mapM htxns, mem_filterMap]

/-- The same envelopes, repeated in another way, leave the same database. -/
theorem database_of_same_envelopes (hn : 1 ≤ n)
    (htxns : requests.mapM (checkedTransaction w) = .ok txns)
    (hrun : DeterministicSync cc n db txns (.ok (out, db')))
    (hcopies : ∀ e ∈ requests, ∀ e' ∈ requests, envelopTid e = envelopTid e' → e = e')
    {once : List Replication.Envelop} (honce : ∀ e, e ∈ once ↔ e ∈ requests) {m : Nat}
    (hm : 1 ≤ m) :
    ∃ left', ProcessValidatedRequests w cc false m db once (.ok (left', db')) := by
  obtain ⟨hinvoke, -, hsync⟩ := deterministicSync_refines hn hrun
  have hdecode : ∀ e ∈ once, ∃ t, newTransactionFromEnvelop w e = some t := by
    intro e he
    obtain ⟨i, hi⟩ := getElem?_of_mem ((honce e).mp he)
    obtain ⟨t, -, hnew⟩ := exists_right_of_forall₂ (mapM_checked_iff.mp htxns) hi
    exact ⟨t, hnew⟩
  obtain ⟨txns', htxns'⟩ := exists_mapM hdecode
  have hmem : ∀ t, t ∈ txns ↔ t ∈ txns' := by
    intro t
    simp only [mem_of_mapM htxns, mem_of_mapM htxns', honce]
  have hone : Copies txns := copies_of_mapM htxns hcopies
  have hone' : Copies txns' := fun t ht u hu => hone t ((hmem t).mpr ht) u ((hmem u).mpr hu)
  obtain ⟨out', db'', hrun'⟩ := exists_deterministicSync hm fun t ht => hinvoke t ((hmem t).mpr ht)
  obtain ⟨-, -, hsync'⟩ := deterministicSync_refines hm hrun'
  have hdb : db'' = db' := by
    rw [((Exec.processSync_copies_iff hn (hone.asExec cc)).mp hsync).2,
      ((Exec.processSync_copies_iff hm (hone'.asExec cc)).mp hsync').2]
    refine (Exec.block_snd_congr (fun t => ?_) (hone.asExec cc)).symm
    simp only [mem_map, hmem]
  rw [← hdb]
  exact ⟨processed out', .plain rfl htxns' hrun'⟩

end

/-- The settings as transactions. -/
def settingTransactions : List Transaction :=
  settings.filterMap (newTransactionFromEnvelop littleEndian)

/-- The settings run: the transactions are settled one by one. -/
theorem exists_run_settings : ∃ db', ProcessValidatedRequests littleEndian simpleChaincodes false 2
    fiveVotes settings (.ok (processed (settingTransactions.map (settle simpleChaincodes fiveVotes
      (Exec.blockTable fiveVotes (settingTransactions.map (Transaction.asExec simpleChaincodes))))),
      db')) := by
  obtain ⟨r, hr⟩ := exists_processed littleEndian simpleChaincodes false (by decide : 1 ≤ 2)
    fiveVotes settings
  obtain ⟨left, db', rfl, -⟩ := plain_handled (by decide) hr settings_answer
  obtain ⟨txns, out, htxns, hrun, rfl⟩ := plain_inv hr
  rw [settle_blockTable (by decide) hrun, ← filterMap_of_mapM htxns] at hr
  exact ⟨db', hr⟩

/-- **What a block commits.** Positions that are reported as committed and have written a common
key carry the same id; with distinct ids they are one position. Copies of an envelope are reported
alike, with the same read-write set. As long as equal ids are found on copies of one envelope only,
the database ends as if each envelope had come once, or repeated in any other way, whatever the
number of workers. -/
theorem committed_writes_apart {w : Wire} {cc : Chaincodes} {n : Nat} (hn : 1 ≤ n)
    {db db' : Database} {requests : List Replication.Envelop} {left : Processed}
    (h : ProcessValidatedRequests w cc false n db requests (.ok (left, db'))) :
    (∀ i j k, left.Wrote i k → left.Wrote j k →
      requests[i]?.map envelopTid = requests[j]?.map envelopTid) ∧
    ((requests.map envelopTid).Nodup → ∀ i j k, left.Wrote i k → left.Wrote j k → i = j) ∧
    (∀ i j : Nat, requests[i]? = requests[j]? → left.retResults[i]? = left.retResults[j]? ∧
      left.retRWSets[i]? = left.retRWSets[j]?) ∧
    ((∀ e ∈ requests, ∀ e' ∈ requests, envelopTid e = envelopTid e' → e = e') →
      ∀ once : List Replication.Envelop, (∀ e, e ∈ once ↔ e ∈ requests) → ∀ m, 1 ≤ m →
        ∃ left', ProcessValidatedRequests w cc false m db once (.ok (left', db'))) := by
  obtain ⟨txns, out, htxns, hrun, rfl⟩ := plain_inv h
  have hsame : ∀ i j k, (processed out).Wrote i k → (processed out).Wrote j k →
      ∃ tid, requests[i]?.map envelopTid = some tid ∧ requests[j]?.map envelopTid = some tid := by
    intro i j k hi hj
    obtain ⟨t, ht, hkt⟩ := writer_of_wrote hn htxns hrun hi
    obtain ⟨u, hu, hku⟩ := writer_of_wrote hn htxns hrun hj
    have htid : t.tid = u.tid := Exec.tid_eq_of_commits
      (mem_map_of_mem (mem_of_getElem? ht))
      (mem_map_of_mem (mem_of_getElem? hu)) hkt hku
    exact ⟨t.tid, tid_of_mapM htxns ht, by rw [htid]; exact tid_of_mapM htxns hu⟩
  refine ⟨?_, ?_, ?_, ?_⟩
  · intro i j k hi hj
    obtain ⟨tid, hti, htj⟩ := hsame i j k hi hj
    rw [hti, htj]
  · intro hids i j k hi hj
    obtain ⟨tid, hti, htj⟩ := hsame i j k hi hj
    rw [← getElem?_map] at hti htj
    obtain ⟨hlt, -⟩ := List.getElem?_eq_some_iff.mp hti
    exact (getElem?_inj hlt hids).mp (hti.trans htj.symm)
  · intro i j hij
    have htxn : txns[i]? = txns[j]? := by
      rw [getElem?_of_mapM htxns, getElem?_of_mapM htxns, hij]
    simp only [processed, settle_blockTable hn hrun, getElem?_map, htxn, and_self]
  · intro hcopies once honce m hm
    exact database_of_same_envelopes hn htxns hrun hcopies honce hm

/-- A setting, a competitor and the setting again leave the database of the first two. -/
theorem committed_writes_apart_settings : ∃ left db',
    ProcessValidatedRequests littleEndian simpleChaincodes false 2 fiveVotes settings
      (.ok (left, db')) ∧ left.retResults[0]? = left.retResults[2]? ∧
    ∃ left', ProcessValidatedRequests littleEndian simpleChaincodes false 3 fiveVotes
      [setting 1 [1] [2], setting 2 [1] [5]] (.ok (left', db')) := by
  obtain ⟨db', hrun⟩ := exists_run_settings
  obtain ⟨-, -, hcopies, hdb⟩ := committed_writes_apart (by decide) hrun
  refine ⟨_, db', hrun, (hcopies 0 2 rfl).1, ?_⟩
  refine hdb settings_copies _ (fun e => ?_) 3 (by decide)
  simp only [settings, mem_cons, not_mem_nil, or_false]
  constructor
  · rintro (h | h)
    · exact .inl h
    · exact .inr (.inl h)
  · rintro (h | h | h)
    · exact .inl h
    · exact .inr h
    · exact .inl h

/-- The same setting at the positions 0 and 2 is reported as committed twice, with the same
written key. -/
theorem copies_commit_together : ∃ left db',
    ProcessValidatedRequests littleEndian simpleChaincodes false 2 fiveVotes settings
      (.ok (left, db')) ∧ left.Wrote 0 [1] ∧ left.Wrote 2 [1] := by
  obtain ⟨db', hrun⟩ := exists_run_settings
  refine ⟨_, db', hrun, ⟨?_, _, rfl, ?_⟩, ⟨?_, _, rfl, ?_⟩⟩
  all_goals decide +kernel

end MassBFT.Mix
