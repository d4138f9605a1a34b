import MassBFT.Mix.Coordinator

/-!
# Requests that bring a replica down

A request may fail, and is then marked as not committed. It may also take the process down: its
payload does not decode, its chaincode does not exist, or the chaincode crashes. `answer` says
what a request comes to: a return code, or a crash.

**A block is handled exactly if every request of it answers with a code**
(`requests_handled_iff`). The deterministic engine finds the votes of the block counted, in
whichever order they were (`crdtSync_db`), so the answers do not depend on the schedule.
-/

set_option autoImplicit false

namespace MassBFT.Mix

open List
open Exec (Database TxReadWriteSet Crash Chaincodes ReserveTable)
open RoundRobin

/-! ## What a request comes to -/

/-- The votes among some transactions. -/
def votesAmong (txns : List Transaction) : List Transaction :=
  txns.filter fun t => decide (t.userRequest.funcName = votingVote)

/-- The database that the deterministic engine finds. -/
def votedDatabase (w : Wire) (enableMix : Bool) (db : Database)
    (requests : List Replication.Envelop) : Database :=
  if enableMix then
    tally w (votesFor w (votesAmong ((requests.filterMap (newTransactionFromEnvelop w)).filter
      Transaction.isCrdt))) db
  else db

/-- What a transaction comes to, if the CRDT engine starts with `db` and the deterministic engine
with `db₁`. -/
def answerOf (w : Wire) (cc : Chaincodes) (enableMix : Bool) (db db₁ : Database)
    (txn : Transaction) : Except Crash Int :=
  if enableMix && txn.isCrdt then
    .ok (VoteChaincode.invokeChaincode w txn.userRequest.funcName txn.userRequest.args db).1
  else
    (invokeChaincode cc db₁ txn).map Exec.Invocation.ret

/-- What a request of a block comes to. -/
def answer (w : Wire) (cc : Chaincodes) (enableMix : Bool) (db : Database)
    (requests : List Replication.Envelop) (envelop : Replication.Envelop) : Except Crash Int :=
  match newTransactionFromEnvelop w envelop with
  | none => .error .check
  | some txn => answerOf w cc enableMix db (votedDatabase w enableMix db requests) txn

/-- A block is handled: the requests are back, every one of them is decided, and those that are
malformed or have failed are not marked as committed. -/
structure Handled (w : Wire) (cc : Chaincodes) (enableMix : Bool) (db : Database)
    (requests : List Replication.Envelop) (left : Processed) : Prop where
  same : left.requests = requests
  digests : left.retRWSets.map TxReadWriteSet.requestDigest = requests.map envelopTid
  flags : left.retResults = left.retRWSets.map fun rwSet => decide (rwSet.retCode = .COMMIT)
  decided : ∀ rwSet ∈ left.retRWSets, rwSet.retCode ≠ .PENDING
  succeeded : ∀ (i : Nat) (envelop : Replication.Envelop), requests[i]? = some envelop →
    left.retResults[i]? = some true → answer w cc enableMix db requests envelop = .ok 0

/-! ## The CRDT engine -/

section

variable {w : Wire} {n : Nat} {db : Database} {txns : List Transaction}

theorem sum_votesAmong (txns : List Transaction) :
    (txns.map fun t => if t.userRequest.funcName = votingVote then votesOf w t else 0).sum =
      votesFor w (votesAmong txns) := by
  rw [votesFor_eq, votesAmong]
  induction txns with
  | nil => rfl
  | cons t txns ih =>
    rw [map_cons, sum_cons, ih]
    by_cases ht : t.userRequest.funcName = votingVote
    · rw [if_pos ht, filter_cons_of_pos (by simpa using ht), map_cons, sum_cons]
    · rw [if_neg ht, zero_add, filter_cons_of_neg (by simpa using ht)]

/-- What a transaction does to the database. -/
theorem execute_snd (hw : w.FixedInt32) (s : Database) (t : Transaction) : (execute w s t).2 =
    tally w (if t.userRequest.funcName = votingVote then votesOf w t else 0) s := by
  by_cases hvote : t.userRequest.funcName = votingVote
  · rw [if_pos hvote, execute_vote hw s hvote]
  · rw [if_neg hvote, tally_zero hw]
    by_cases hget : t.userRequest.funcName = votingGet
    · rw [execute_get s hget]
    · rw [execute_other s hget hvote]

/-- **The CRDT engine leaves its votes counted**, and nothing else. -/
theorem crdtSync_db (hw : w.FixedInt32) (hn : 1 ≤ n) {out : List Transaction} {db' : Database}
    (h : CrdtSync w n db txns out db') : db' = tally w (votesFor w (votesAmong txns)) db := by
  obtain ⟨hrun⟩ := h
  rw [hrun.state_eq (tally_zero hw) (tally_tally hw) (fun _ t _ s => execute_snd hw s t),
    Schedule.total_eq_sum _ (flatten_scatter_perm hn txns), sum_votesAmong]

/-- Votes do not change what is found. -/
theorem isSome_get_tally (hw : w.FixedInt32) (votes : Bytes → Int) (key : Bytes) :
    (DBShim.get (tally w votes db) key).isSome = (DBShim.get db key).isSome := by
  obtain hc | ⟨c, hc⟩ := Option.eq_none_or_eq_some (counter w (db key))
  · rw [counter, Option.map_eq_none_iff] at hc
    have hsame : tally w votes db key = db key := by rw [tally, bump, hc]
    rw [DBShim.get, DBShim.get, hsame]
  · have hc' : counter w (tally w votes db key) = some (wrap32 (c + votes key)) := by
      rw [tally, counter_bump hw, hc]
      rfl
    obtain ⟨raw, -, hget⟩ := get_of_counter hw hc
    obtain ⟨raw', -, hget'⟩ := get_of_counter hw hc'
    rw [hget, hget']
    rfl

/-- Votes do not change what a transaction returns. -/
theorem ret_tally (hw : w.FixedInt32) (votes : Bytes → Int) (funcName args : Bytes) :
    (VoteChaincode.invokeChaincode w funcName args (tally w votes db)).1 =
      (VoteChaincode.invokeChaincode w funcName args db).1 := by
  unfold VoteChaincode.invokeChaincode
  split_ifs
  · have hfound := @isSome_get_tally w db hw votes args
    cases hget : DBShim.get db args with
    | none =>
      rw [hget, Option.isSome_none, Option.isSome_eq_false_iff, Option.isNone_iff_eq_none] at hfound
      rw [hfound]
    | some value =>
      rw [hget, Option.isSome_some, Option.isSome_iff_exists] at hfound
      obtain ⟨value', hget'⟩ := hfound
      rw [hget']
  · split
    · rfl
    · rename_i candidate count _
      have hcounters := sameCounters_tally hw (fun _ => rfl : SameCounters w db db) votes candidate
      rw [vote_eq hw, vote_eq hw, hcounters]
  · rfl

end

/-! ## Position by position -/

/-- What becomes of a transaction: it is decided, and committed only if it has returned 0. -/
structure SettledAs (w : Wire) (cc : Chaincodes) (enableMix : Bool) (db db₁ : Database)
    (t t' : Transaction) : Prop where
  origin : t'.origin = t.origin
  decided : t'.rwSet.retCode ≠ .PENDING
  succeeded : t'.rwSet.retCode = .COMMIT → answerOf w cc enableMix db db₁ t = .ok 0

section

variable {w : Wire} {cc : Chaincodes} {enableMix : Bool} {n : Nat} {db db₁ : Database}
  {requests : List Replication.Envelop} {txns out : List Transaction}

theorem settledAs_execute (hw : w.FixedInt32) {t : Transaction} (ht : t.isCrdt = true)
    (votes : Bytes → Int) : SettledAs w cc true db db₁ t (execute w (tally w votes db) t).1 where
  origin := rfl
  decided := by
    change (if _ then _ else _) ≠ _
    split_ifs
    · exact nofun
    · exact nofun
  succeeded := by
    intro hcommit
    change (if _ then _ else _) = _ at hcommit
    rw [answerOf, ht, Bool.and_self, if_pos rfl, ← ret_tally hw votes]
    split_ifs at hcommit with hret
    rw [not_not.mp hret]

theorem settledAs_settle {t : Transaction} (ht : (enableMix && t.isCrdt) = false)
    {inv : Exec.Invocation} (hinv : invokeChaincode cc db₁ t = .ok inv) (table : ReserveTable) :
    SettledAs w cc enableMix db db₁ t (settle cc db₁ table t) := by
  have hseen : (t.asExec cc).envelop.invoke db₁ = inv := by
    change (invokeChaincode cc db₁ t).toOption.getD _ = inv
    rw [hinv]
    rfl
  refine ⟨rfl, ?_, ?_⟩
  · change Exec.verdict table _ ≠ _
    unfold Exec.verdict
    split
    · exact nofun
    · exact nofun
    · split_ifs
      · exact nofun
      · exact nofun
    · split_ifs
      · exact nofun
      · exact nofun
  · intro hcommit
    rw [answerOf, ht, if_neg Bool.false_ne_true, hinv]
    change Exec.verdict table _ = _ at hcommit
    by_contra hret
    have hret' : inv.ret ≠ 0 := fun h => hret (congrArg Except.ok h)
    have hfailed : (Exec.executeTransaction db₁ (t.asExec cc)).1.executionResult =
        .ABORT_NO_RETRY := by
      unfold Exec.executeTransaction
      rw [hseen, if_pos hret']
    rw [Exec.verdict, hfailed] at hcommit
    cases hcommit

/-- A block that is settled position by position is handled. -/
theorem handled_of_forall₂ (htxns : requests.mapM (checkedTransaction w) = .ok txns)
    (hall : List.Forall₂
      (SettledAs w cc enableMix db (votedDatabase w enableMix db requests)) txns out) :
    Handled w cc enableMix db requests (processed out) := by
  have horigin := map_origin_of_forall₂ (hall.imp fun _ _ h => h.origin)
  obtain ⟨hrequests, hdigests⟩ := processed_origin htxns horigin
  have hnew := mapM_checked_iff.mp htxns
  refine ⟨hrequests, hdigests, ?_, ?_, ?_⟩
  · rw [processed, map_map]
    rfl
  · intro rwSet hrwSet
    obtain ⟨t', ht', rfl⟩ := mem_map.mp hrwSet
    obtain ⟨i, hi⟩ := mem_iff_getElem?.mp ht'
    obtain ⟨t, -, hsettled⟩ := exists_left_of_forall₂ hall hi
    exact hsettled.decided
  · intro i envelop hrequest hflag
    obtain ⟨t, ht, hmade⟩ := exists_right_of_forall₂ hnew hrequest
    obtain ⟨t', ht', hsettled⟩ := exists_right_of_forall₂ hall ht
    have hcommit : t'.rwSet.retCode = .COMMIT := by
      rw [processed, getElem?_map, ht'] at hflag
      simpa using hflag
    rw [answer, hmade]
    exact hsettled.succeeded hcommit

/-- The transactions of a block are its requests, as far as they decode. -/
theorem filterMap_of_mapM (htxns : requests.mapM (checkedTransaction w) = .ok txns) :
    requests.filterMap (newTransactionFromEnvelop w) = txns := by
  rw [mapM_checked_iff] at htxns
  induction htxns with
  | nil => rfl
  | cons hnew _ ih => rw [filterMap_cons_some hnew, ih]

theorem exists_mapM (h : ∀ e ∈ requests, ∃ t, newTransactionFromEnvelop w e = some t) :
    ∃ txns, requests.mapM (checkedTransaction w) = .ok txns := by
  simp only [mapM_checked_iff]
  induction requests with
  | nil => exact ⟨[], .nil⟩
  | cons e rest ih =>
    obtain ⟨t, ht⟩ := h e mem_cons_self
    obtain ⟨txns, htxns⟩ := ih fun e' he' => h e' (mem_cons_of_mem e he')
    exact ⟨t :: txns, .cons ht htxns⟩

/-- Every request answers with a code: all of them decode, and no chaincode that the deterministic
engine runs crashes. -/
theorem answers_iff (w : Wire) (cc : Chaincodes) (enableMix : Bool) (db : Database)
    (requests : List Replication.Envelop) :
    (∀ e ∈ requests, ∃ code, answer w cc enableMix db requests e = .ok code) ↔
      ∃ txns, requests.mapM (checkedTransaction w) = .ok txns ∧
        ∀ t ∈ txns, (enableMix && t.isCrdt) = false →
          ∃ inv, invokeChaincode cc (votedDatabase w enableMix db requests) t = .ok inv := by
  have hroute : ∀ t, (enableMix && t.isCrdt) = false →
      ((∃ code, answerOf w cc enableMix db (votedDatabase w enableMix db requests) t = .ok code) ↔
        ∃ inv, invokeChaincode cc (votedDatabase w enableMix db requests) t = .ok inv) := by
    intro t ht
    rw [answerOf, ht, if_neg Bool.false_ne_true]
    cases invokeChaincode cc (votedDatabase w enableMix db requests) t with
    | error what => simp [Except.map]
    | ok inv => simp [Except.map]
  constructor
  · intro h
    obtain ⟨txns, htxns⟩ := @exists_mapM w requests fun e he => by
      obtain ⟨code, hcode⟩ := h e he
      unfold answer at hcode
      cases hnew : newTransactionFromEnvelop w e with
      | none =>
        rw [hnew] at hcode
        cases hcode
      | some t => exact ⟨t, rfl⟩
    refine ⟨txns, htxns, fun t ht hdet => ?_⟩
    obtain ⟨i, hi⟩ := mem_iff_getElem?.mp ht
    obtain ⟨e, he, hnew⟩ := exists_left_of_forall₂ (mapM_checked_iff.mp htxns) hi
    obtain ⟨code, hcode⟩ := h e (mem_of_getElem? he)
    rw [answer, hnew] at hcode
    exact (hroute t hdet).mp ⟨code, hcode⟩
  · rintro ⟨txns, htxns, hrun⟩ e he
    obtain ⟨i, hi⟩ := mem_iff_getElem?.mp he
    obtain ⟨t, ht, hnew⟩ := exists_right_of_forall₂ (mapM_checked_iff.mp htxns) hi
    rw [answer, hnew]
    cases hdet : (enableMix && t.isCrdt) with
    | false => exact (hroute t hdet).mpr (hrun t (mem_of_getElem? ht) hdet)
    | true =>
      dsimp only
      rw [answerOf, hdet, if_pos rfl]
      exact ⟨_, rfl⟩

/-- What the CRDT engine leaves is what the deterministic engine finds. -/
theorem votedDatabase_eq (hw : w.FixedInt32) (hn : 1 ≤ n)
    (htxns : requests.mapM (checkedTransaction w) = .ok txns)
    (hcrdt : CrdtSync w n db (txns.filter Transaction.isCrdt) out db₁) :
    votedDatabase w true db requests = db₁ := by
  rw [crdtSync_db hw hn hcrdt, votedDatabase, if_pos rfl, filterMap_of_mapM htxns]

end

/-! ## Blocks -/

section

variable {w : Wire} {cc : Chaincodes} {enableMix : Bool} {n : Nat} {db : Database}
  {requests : List Replication.Envelop} {r : Except Crash (Processed × Database)}

/-- Every block ends, in one way or the other. -/
theorem exists_processed (w : Wire) (cc : Chaincodes) (enableMix : Bool) (hn : 1 ≤ n)
    (db : Database) (requests : List Replication.Envelop) :
    ∃ r, ProcessValidatedRequests w cc enableMix n db requests r := by
  cases enableMix with
  | false =>
    cases hstart : requests.mapM (checkedTransaction w) with
    | error what => exact ⟨_, .plainCheck rfl hstart⟩
    | ok txns =>
      obtain ⟨r, hrun⟩ := @exists_deterministicSync_result cc n db txns hn
      exact ⟨_, .plain rfl hstart hrun⟩
  | true =>
    cases hsort : classify w requests with
    | error what => exact ⟨_, .mixedCheck rfl hsort⟩
    | ok c =>
      obtain ⟨out, db₁, hcrdt⟩ := exists_crdtSync w n db c.crdtTxn
      obtain ⟨r, hrun⟩ := @exists_deterministicSync_result cc n db₁ c.deterministicTxn hn
      exact ⟨_, .mixed rfl hsort hcrdt hrun⟩

/-- Without mixing, a block that passes its checks is one of the deterministic engine. -/
theorem plain_iff {txns : List Transaction}
    (htxns : requests.mapM (checkedTransaction w) = .ok txns)
    :
    ProcessValidatedRequests w cc false n db requests r ↔
      ∃ r', DeterministicSync cc n db txns r' ∧
        r = r'.map fun left => (processed left.1, left.2) := by
  constructor
  · intro h
    cases h with
    | plainCheck _ hstart =>
      rw [htxns] at hstart
      cases hstart
    | @plain txns' r' _ hstart hrun =>
      rw [htxns] at hstart
      cases hstart
      exact ⟨r', hrun, rfl⟩
    | mixed henable _ _ _ => cases henable
    | mixedCheck henable _ => cases henable
  · rintro ⟨r', hrun, rfl⟩
    exact .plain rfl htxns hrun

/-- Without mixing, if every request answers with a code. -/
theorem plain_handled (hn : 1 ≤ n) (h : ProcessValidatedRequests w cc false n db requests r)
    (hcodes : ∀ e ∈ requests, ∃ code, answer w cc false db requests e = .ok code) :
    ∃ left db', r = .ok (left, db') ∧ Handled w cc false db requests left := by
  obtain ⟨txns, htxns, hinv⟩ := (answers_iff w cc false db requests).mp hcodes
  have hinv' : ∀ t ∈ txns, ∃ inv, invokeChaincode cc db t = .ok inv := fun t ht => hinv t ht rfl
  obtain ⟨r', hrun, rfl⟩ := (plain_iff htxns).mp h
  cases r' with
  | error what => exact absurd hrun (not_deterministicSync_error hn hinv' what)
  | ok leftDet =>
    refine ⟨_, _, rfl, handled_of_forall₂ htxns (deterministicSync_forall₂ hn hrun ?_)⟩
    intro t ht table
    obtain ⟨inv, hok⟩ := hinv' t ht
    exact settledAs_settle rfl hok table

/-- With mixing, if every request answers with a code. -/
theorem mixed_handled (hw : w.FixedInt32) (hn : 1 ≤ n)
    (h : ProcessValidatedRequests w cc true n db requests r)
    (hcodes : ∀ e ∈ requests, ∃ code, answer w cc true db requests e = .ok code) :
    ∃ left db', r = .ok (left, db') ∧ Handled w cc true db requests left := by
  obtain ⟨txns, htxns, hinv⟩ := (answers_iff w cc true db requests).mp hcodes
  obtain ⟨what, hstart, -⟩ | ⟨txns', crdtTxn, db₁, r', hstart, hcrdt, hrun, rfl⟩ := mixed_inv h
  · rw [htxns] at hstart
    cases hstart
  rw [htxns] at hstart
  cases hstart
  have hvoted := votedDatabase_eq hw hn htxns hcrdt
  have hinv' : ∀ t ∈ txns.filter (!·.isCrdt), (true && t.isCrdt) = false ∧
      ∃ inv, invokeChaincode cc db₁ t = .ok inv := by
    intro t ht
    obtain ⟨hmem, hdet⟩ := mem_filter.mp ht
    have hdet' : (true && t.isCrdt) = false := by simpa using hdet
    rw [← hvoted]
    exact ⟨hdet', hinv t hmem hdet'⟩
  cases r' with
  | error what =>
    exact absurd hrun (not_deterministicSync_error hn (fun t ht => (hinv' t ht).2) what)
  | ok leftDet =>
    obtain ⟨deterministicTxn, db₂⟩ := leftDet
    have hjob : ∀ t ∈ txns.filter Transaction.isCrdt, ∀ s, (∃ votes, s = tally w votes db) →
        SettledAs w cc true db db₁ t (execute w s t).1 ∧
          ∃ votes, (execute w s t).2 = tally w votes db := by
      rintro t ht _ ⟨votes, rfl⟩
      exact ⟨settledAs_execute hw (mem_filter.mp ht).2 votes, _,
        (execute_snd hw _ t).trans (tally_tally hw _ _ _)⟩
    obtain ⟨out, hmerge, hall, -, -⟩ := merge_sorted (fun t t' h => SettledAs.origin h)
      (crdtSync_forall₂ hn hcrdt ⟨0, (tally_zero hw db).symm⟩ hjob)
      (deterministicSync_forall₂ hn hrun fun t ht table => by
        obtain ⟨hdet, inv, hok⟩ := hinv' t ht
        exact settledAs_settle hdet hok table)
    dsimp only [Except.bind]
    rw [hmerge]
    rw [← hvoted] at hall
    exact ⟨_, _, rfl, handled_of_forall₂ htxns hall⟩

/-- What a block without mixing is made of. -/
theorem plain_inv {left : Processed} {db' : Database}
    (h : ProcessValidatedRequests w cc false n db requests (.ok (left, db'))) :
    ∃ txns out, requests.mapM (checkedTransaction w) = .ok txns ∧
      DeterministicSync cc n db txns (.ok (out, db')) ∧ left = processed out := by
  generalize hr : (Except.ok (left, db') : Except Crash (Processed × Database)) = r at h
  cases h with
  | plainCheck _ _ => cases hr
  | @plain txns r' _ hstart hrun =>
    cases r' with
    | error what => cases hr
    | ok leftDet =>
      cases hr
      exact ⟨txns, leftDet.1, hstart, hrun, rfl⟩
  | mixed henable _ _ _ => cases henable
  | mixedCheck henable _ => cases henable

/-- A block without mixing that returns has had an answer to every request. -/
theorem plain_answers (hn : 1 ≤ n) {left : Processed × Database}
    (h : ProcessValidatedRequests w cc false n db requests (.ok left)) :
    ∀ e ∈ requests, ∃ code, answer w cc false db requests e = .ok code := by
  rw [answers_iff]
  obtain ⟨txns, out, htxns, hrun, -⟩ := plain_inv h
  exact ⟨txns, htxns, fun t ht _ => (deterministicSync_refines hn hrun).1 t ht⟩

/-- A block that returns has had an answer to every request. -/
theorem answers_of_processed (hw : w.FixedInt32) (hn : 1 ≤ n) {left : Processed} {db' : Database}
    (h : ProcessValidatedRequests w cc enableMix n db requests (.ok (left, db'))) :
    ∀ e ∈ requests, ∃ code, answer w cc enableMix db requests e = .ok code := by
  cases enableMix with
  | false => exact plain_answers hn h
  | true =>
    rw [answers_iff]
    obtain ⟨what, -, hr⟩ | ⟨txns, crdtTxn, db₁, r', htxns, hcrdt, hrun, hr⟩ := mixed_inv h
    · cases hr
    cases r' with
    | error what => cases hr
    | ok leftDet =>
      refine ⟨txns, htxns, fun t ht hdet => ?_⟩
      rw [votedDatabase_eq hw hn htxns hcrdt]
      refine (deterministicSync_refines hn hrun).1 t (mem_filter.mpr ⟨ht, ?_⟩)
      simpa using hdet

end

/-- The requests that answer with a code: votes, and those that a chaincode answers. -/
theorem answer_ok_iff {w : Wire} {ycsb tpcc smallBank sessionStore : Bytes → Bytes → Exec.Program}
    {enableMix : Bool} {db : Database} {requests : List Replication.Envelop}
    {e : Replication.Envelop} :
    (∃ code, answer w (Exec.newChaincodeByName w ycsb tpcc smallBank sessionStore) enableMix db
        requests e = .ok code) ↔
      ∃ txn, newTransactionFromEnvelop w e = some txn ∧ ((enableMix && txn.isCrdt) = true ∨
        Exec.Answers w ycsb tpcc smallBank sessionStore (votedDatabase w enableMix db requests)
          txn.userRequest.ccName txn.userRequest.funcName txn.userRequest.args) := by
  unfold answer
  cases newTransactionFromEnvelop w e with
  | none => simp
  | some txn =>
    simp only [answerOf, Option.some.injEq, exists_eq_left', ← Exec.newChaincodeByName_answers]
    by_cases hcrdt : (enableMix && txn.isCrdt) = true
    · simp [hcrdt]
    · rw [if_neg hcrdt, invokeChaincode]
      cases hcc : Exec.newChaincodeByName w ycsb tpcc smallBank sessionStore
          txn.userRequest.ccName with
      | none => simp [hcrdt, Except.map]
      | some invoke =>
        simp only [hcrdt, Option.some.injEq, exists_eq_left', Bool.false_eq_true, false_or,
          Exec.Program.returns_iff_invoke]
        cases (invoke txn.userRequest.funcName txn.userRequest.args).invoke _ with
        | error what => simp [Except.map]
        | ok inv => simp [Except.map]

/-- **Blocks that are handled.** Every block ends. It always ends with all requests handled exactly
if each of them answers with a code: its payload decodes, and unless it is a vote its chaincode
exists and does not crash. With the chaincodes of `NewChaincodeByName` this means that they answer
it (`Exec.Answers`). -/
theorem requests_handled_iff {w : Wire} (hw : w.FixedInt32) {n : Nat} (hn : 1 ≤ n)
    (cc : Chaincodes) (enableMix : Bool) (db : Database) (requests : List Replication.Envelop) :
    (∃ r, ProcessValidatedRequests w cc enableMix n db requests r) ∧
      ((∀ r, ProcessValidatedRequests w cc enableMix n db requests r →
          ∃ left db', r = .ok (left, db') ∧ Handled w cc enableMix db requests left) ↔
        ∀ e ∈ requests, ∃ code, answer w cc enableMix db requests e = .ok code) ∧
      ∀ ycsb tpcc smallBank sessionStore,
        cc = Exec.newChaincodeByName w ycsb tpcc smallBank sessionStore →
        ((∀ e ∈ requests, ∃ code, answer w cc enableMix db requests e = .ok code) ↔
          ∀ e ∈ requests, ∃ txn, newTransactionFromEnvelop w e = some txn ∧
            ((enableMix && txn.isCrdt) = true ∨
              Exec.Answers w ycsb tpcc smallBank sessionStore
                (votedDatabase w enableMix db requests) txn.userRequest.ccName
                txn.userRequest.funcName txn.userRequest.args)) := by
  have hends := exists_processed w cc enableMix hn db requests
  refine ⟨hends, ⟨fun h => ?_, fun hcodes r hr => ?_⟩, ?_⟩
  · obtain ⟨r, hr⟩ := hends
    obtain ⟨left, db', rfl, -⟩ := h r hr
    exact answers_of_processed hw hn hr
  · cases enableMix with
    | false => exact plain_handled hn hr hcodes
    | true => exact mixed_handled hw hn hr hcodes
  · rintro ycsb tpcc smallBank sessionStore rfl
    exact forall₂_congr fun e _ => answer_ok_iff

/-- Requests whose answers can be computed. -/
theorem answers_of_isSome {w : Wire} {cc : Chaincodes} {enableMix : Bool} {db : Database}
    {requests : List Replication.Envelop} (h : ∀ e ∈ requests,
      (answer w cc enableMix db requests e).toOption.isSome = true) :
    ∀ e ∈ requests, ∃ code, answer w cc enableMix db requests e = .ok code := by
  intro e he
  have hcode := h e he
  revert hcode
  cases answer w cc enableMix db requests e with
  | error what => exact nofun
  | ok code => exact fun _ => ⟨code, rfl⟩

/-- The mixed requests, and a request of the hash chaincode without arguments: it fails, and the
others are handled with it. -/
theorem mixedRequests_handled : ∃ left db',
    ProcessValidatedRequests littleEndian simpleChaincodes true 2 fiveVotes
      (request 4 hashName [83, 101, 116] [] :: mixedRequests) (.ok (left, db')) ∧
    Handled littleEndian simpleChaincodes true fiveVotes
      (request 4 hashName [83, 101, 116] [] :: mixedRequests) left := by
  have hnames : ∀ e ∈ request 4 hashName [83, 101, 116] [] :: mixedRequests,
      (newTransactionFromEnvelop littleEndian e).any (fun txn =>
        txn.isCrdt || decide (txn.userRequest.ccName = hashName)) = true := by
    decide +kernel
  obtain ⟨⟨r, hr⟩, hiff, hanswers⟩ := requests_handled_iff littleEndian.fixedInt32
    (by decide : 1 ≤ 2) simpleChaincodes true fiveVotes
    (request 4 hashName [83, 101, 116] [] :: mixedRequests)
  have hcodes := (hanswers _ _ _ _ rfl).mpr fun e he => by
    obtain ⟨txn, htxn, hname⟩ := (Option.any_eq_true _ _).mp (hnames e he)
    rw [Bool.or_eq_true, decide_eq_true_eq] at hname
    refine ⟨txn, htxn, hname.imp_right fun hname => ?_⟩
    simp [Exec.Answers, hname, hashName]
  obtain ⟨left, db', rfl, hleft⟩ := hiff.mpr hcodes r hr
  exact ⟨left, db', hr, hleft⟩

/-- A request that does not decode, one for a chaincode that does not exist, and a transfer that
is to be initialised with x accounts. -/
def fatalRequests : List Replication.Envelop :=
  [⟨[], ⟨[], ⟨List.replicate 64 0, length_zeros⟩⟩⟩, request 1 [120] [] [],
    request 2 [116, 114, 97, 110, 115, 102, 101, 114] [105, 110, 105, 116]
      ((Codec.vector littleEndian littleEndian.string).put [[120]])]

/-- **Each of these requests brings a replica down.** -/
theorem requests_bring_down : fatalRequests.Forall fun e => ∃ what,
    ProcessValidatedRequests littleEndian simpleChaincodes true 1 (fun _ => none) [e]
      (.error what) := by
  refine forall_iff_forall_mem.mpr fun e he => ?_
  have hcrash : ∀ e ∈ fatalRequests,
      (answer littleEndian simpleChaincodes true (fun _ => none) [e] e).toOption = none := by
    decide +kernel
  obtain ⟨r, hr⟩ := exists_processed littleEndian simpleChaincodes true (by decide : 1 ≤ 1)
    (fun _ => none) [e]
  cases r with
  | error what => exact ⟨what, hr⟩
  | ok left =>
    obtain ⟨code, hcode⟩ := answers_of_processed littleEndian.fixedInt32 (by decide : 1 ≤ 1) hr e
      mem_cons_self
    have hnone := hcrash e he
    rw [hcode] at hnone
    cases hnone

end MassBFT.Mix
