import MassBFT.Exec.Coordinator
import MassBFT.Exec.Chaincode
import MassBFT.Lib.Schedule
import MassBFT.Replication.Block

/-!
# Votes

The CRDT engine runs the vote chaincode straight on the shared database: a vote adds to a
counter under the lock of its key, and a get reads a value under that lock. Every transaction
makes at most one such call, so a transaction is one atomic job (`execute`), and the workers
schedule their jobs in any order.

A counter is the front of a value, four bytes; what stands behind it stays. **A vote moves its
counter by its count, modulo `2 ^ 32`, and fails exactly where there is no counter**, so votes
commute (`execute_vote`), and every schedule of votes ends alike (`votes_converge`).
-/

set_option autoImplicit false

namespace MassBFT.Mix

open Function Option List
open Exec (Tid Database ExecutionResult TxReadWriteSet)

/-! ## Requests and transactions -/

/-- `proto::UserRequest` -/
structure UserRequest where
  ccName : Bytes
  funcName : Bytes
  args : Bytes
  nonce : Int
  deriving DecidableEq

/-- `UserRequest::serialize` -/
def UserRequest.codec (w : Wire) : Codec UserRequest :=
  .conv (.pair w.string (.pair w.string (.pair w.string w.int64)))
    (fun p => ⟨p.1, p.2.1, p.2.2.1, p.2.2.2⟩) (fun r => (r.ccName, r.funcName, r.args, r.nonce))

/-- `proto::Transaction`, with its envelope and its decoded request. -/
structure Transaction where
  tid : Tid
  envelop : Replication.Envelop
  userRequest : UserRequest
  rwSet : TxReadWriteSet
  deriving DecidableEq

/-- The transaction id: the digest of the envelope's signature. -/
def envelopTid (envelop : Replication.Envelop) : Tid :=
  ⟨envelop.signature.digest.1, envelop.signature.digest.2⟩

/-- `NewTransactionFromEnvelop`; `none` is the null pointer for a payload that does not decode. -/
def newTransactionFromEnvelop (w : Wire) (envelop : Replication.Envelop) : Option Transaction :=
  match (UserRequest.codec w).get envelop.payload with
  | none => none
  | some (userRequest, _) => some
    { tid := envelopTid envelop
      envelop := envelop
      userRequest := userRequest
      rwSet := ⟨envelopTid envelop, [], .PENDING, [], []⟩ }

/-- `DestroyTransaction` -/
def destroyTransaction (txn : Transaction) : Replication.Envelop × TxReadWriteSet :=
  (txn.envelop, txn.rwSet)

/-! ## The vote chaincode -/

/-- `VOTING_CHAINCODE_NAME`: vote -/
def votingChaincodeName : Bytes := [118, 111, 116, 101]

/-- `VOTING_VOTE`: vote -/
def votingVote : Bytes := [118, 111, 116, 101]

/-- `VOTING_GET`: get -/
def votingGet : Bytes := [103, 101, 116]

/-- `isCrdtChainCode` -/
def isCrdtChainCode (ccName : Bytes) : Bool := decide (ccName = votingChaincodeName)

namespace DBShim

/-- `DBShim::get`; an empty value is marked deleted. -/
def get (db : Database) (key : Bytes) : Option Bytes :=
  match db key with
  | none => none
  | some value => if value.isEmpty then none else some value

/-- `DBShim::put`, under the lock of the key; a missing value is an empty one. -/
def put (db : Database) (key : Bytes) (callback : Bytes → Option Bytes) : Bool × Database :=
  match callback ((db key).getD []) with
  | none => (false, db)
  | some value => (true, update db key (some value))

end DBShim

/-- `zpp::bits::out` on a string that is not empty: the front is replaced. -/
def overwrite (raw front : Bytes) : Bytes := front ++ raw.drop front.length

namespace VoteChaincode

/-- The callback of `Vote`. -/
def callback (w : Wire) (count : Int) (rawValue : Bytes) : Option Bytes :=
  match w.getInt32 rawValue with
  | none => none
  | some (oldCount, _) => some (overwrite rawValue (w.putInt32 (wrap32 (oldCount + count))))

/-- The arguments of a vote: the candidate and a count. -/
def voteArgs (w : Wire) (args : Bytes) : Option (Bytes × Int) :=
  ((w.string.pair w.int32).get args).map Prod.fst

/-- `Vote` -/
def vote (w : Wire) (candidate : Bytes) (count : Int) (db : Database) : Int × Database :=
  let put := DBShim.put db candidate (callback w count)
  (if put.1 then 0 else -1, put.2)

/-- `InvokeChaincode`, and the result that `CrdtORM::reset` hands over. -/
def invokeChaincode (w : Wire) (funcName args : Bytes) (db : Database) : Int × Bytes × Database :=
  if funcName = votingGet then
    match DBShim.get db args with
    | none => (-1, [], db)
    | some value => (0, value, db)
  else if funcName = votingVote then
    match voteArgs w args with
    | none => (-1, [], db)
    | some (candidate, count) =>
      let voted := vote w candidate count db
      (voted.1, [], voted.2)
  else
    (-1, [], db)

end VoteChaincode

/-- What `OnExecuteTransaction` sets in a transaction. -/
def Transaction.finish (txn : Transaction) (ret : Int) (retValue : Bytes) : Transaction :=
  { txn with rwSet := { txn.rwSet with
      retValue := retValue
      retCode := if ret ≠ 0 then .ABORT_NO_RETRY else .COMMIT } }

/-- The body of the loop in `crdtFSM::OnExecuteTransaction`. -/
def execute (w : Wire) (db : Database) (txn : Transaction) : Transaction × Database :=
  let out := VoteChaincode.invokeChaincode w txn.userRequest.funcName txn.userRequest.args db
  (txn.finish out.1 out.2.1, out.2.2)

/-! ## Counters -/

section

variable (w : Wire)

/-- The counter at the front of a value. -/
def counter (value : Option Bytes) : Option Int := (w.getInt32 (value.getD [])).map Prod.fst

/-- A value whose counter is moved. -/
def bump (c : Int) (value : Option Bytes) : Option Bytes :=
  match w.getInt32 (value.getD []) with
  | none => value
  | some (old, rest) => some (w.putInt32 (wrap32 (old + c)) ++ rest)

/-- All counters are moved. -/
def tally (votes : Bytes → Int) (db : Database) : Database := fun k => bump w (votes k) (db k)

variable {w}

section

variable (hw : w.FixedInt32)

include hw

theorem counter_bump (c : Int) (value : Option Bytes) :
    counter w (bump w c value) = (counter w value).map fun old => wrap32 (old + c) := by
  unfold bump counter
  cases hget : w.getInt32 (value.getD []) with
  | none =>
    dsimp only
    rw [hget]
    rfl
  | some p =>
    obtain ⟨old, rest⟩ := p
    dsimp only
    rw [getD_some, hw.carries _ (isInt32_wrap32 _) rest]
    rfl

theorem bump_bump (a b : Int) (value : Option Bytes) :
    bump w a (bump w b value) = bump w (a + b) value := by
  unfold bump
  cases hget : w.getInt32 (value.getD []) with
  | none =>
    dsimp only
    rw [hget]
  | some p =>
    obtain ⟨old, rest⟩ := p
    dsimp only
    rw [getD_some, hw.carries _ (isInt32_wrap32 _) rest]
    dsimp only
    rw [wrap32_add_left, add_assoc, add_comm b a]

/-- A missing value has no counter. -/
theorem counter_none : counter w none = none := by
  unfold counter
  cases hget : w.getInt32 ((none : Option Bytes).getD []) with
  | none => rfl
  | some p =>
    obtain ⟨old, rest⟩ := p
    obtain ⟨hrange, hraw⟩ := hw.canonical _ old rest hget
    have hlen := congrArg List.length hraw
    rw [length_append, hw.width old hrange] at hlen
    change 0 = 4 + rest.length at hlen
    omega

/-- A value that is read back as it was written is not changed by nothing. -/
theorem bump_zero (value : Option Bytes) : bump w 0 value = value := by
  cases value with
  | none =>
    have hnone := counter_none hw
    rw [counter, map_eq_none_iff] at hnone
    rw [bump, hnone]
  | some raw =>
    rw [bump, getD_some]
    cases hget : w.getInt32 raw with
    | none => rfl
    | some p =>
      obtain ⟨old, rest⟩ := p
      obtain ⟨hrange, hraw⟩ := hw.canonical _ old rest hget
      dsimp only
      rw [add_zero, wrap32_of_isInt32 hrange, ← hraw]

theorem tally_zero (db : Database) : tally w 0 db = db := by
  funext k
  exact bump_zero hw (db k)

theorem tally_tally (a b : Bytes → Int) (db : Database) :
    tally w a (tally w b db) = tally w (a + b) db := by
  funext k
  exact bump_bump hw (a k) (b k) (db k)

/-- A vote succeeds exactly if its key has a counter, and moves it. -/
theorem vote_eq (candidate : Bytes) (count : Int) (db : Database) :
    VoteChaincode.vote w candidate count db =
      (if (counter w (db candidate)).isSome then 0 else -1,
        tally w (Pi.single candidate count) db) := by
  have hothers : ∀ v, update db candidate v = tally w (Pi.single candidate count) db ↔
      v = bump w count (db candidate) := by
    intro v
    constructor
    · intro h
      have hkey := congrFun h candidate
      rwa [update_self, tally, Pi.single_eq_same] at hkey
    · rintro rfl
      funext k
      by_cases hk : k = candidate
      · rw [hk, update_self, tally, Pi.single_eq_same]
      · rw [update_of_ne hk, tally, Pi.single_eq_of_ne hk, bump_zero hw]
  unfold VoteChaincode.vote DBShim.put VoteChaincode.callback counter
  cases hget : w.getInt32 ((db candidate).getD []) with
  | none =>
    have hsame : bump w count (db candidate) = db candidate := by rw [bump, hget]
    have htally := (hothers (db candidate)).mpr hsame.symm
    rw [update_eq_self] at htally
    rw [← htally]
    rfl
  | some p =>
    obtain ⟨old, rest⟩ := p
    obtain ⟨hrange, hraw⟩ := hw.canonical _ old rest hget
    -- the new counter is as wide as the old one, so the tail stays
    have hvalue : some (overwrite ((db candidate).getD []) (w.putInt32 (wrap32 (old + count)))) =
        bump w count (db candidate) := by
      rw [bump, hget, overwrite, hw.width _ (isInt32_wrap32 _), hraw]
      dsimp only
      rw [← hw.width old hrange, drop_left]
    have htally := (hothers _).mpr hvalue
    dsimp only
    rw [htally]
    rfl

end

end

/-! ## One vote -/

section

variable (w : Wire)

/-- The votes of one transaction. -/
def votesOf (txn : Transaction) : Bytes → Int :=
  match VoteChaincode.voteArgs w txn.userRequest.args with
  | none => 0
  | some (candidate, count) => Pi.single candidate count

/-- The arguments do not decode, or the key has no counter. -/
def voteFails (db : Database) (txn : Transaction) : Bool :=
  match VoteChaincode.voteArgs w txn.userRequest.args with
  | none => true
  | some (candidate, _) => (counter w (db candidate)).isNone

/-- The votes of a list of transactions for one key. -/
def votesFor (txns : List Transaction) (k : Bytes) : Int := (txns.map fun t => votesOf w t k).sum

variable {w}

theorem votesFor_eq (txns : List Transaction) : votesFor w txns = (txns.map (votesOf w)).sum := by
  induction txns with
  | nil => rfl
  | cons t txns ih =>
    rw [map_cons, sum_cons, ← ih]
    rfl

/-- **A vote moves its counter, or fails where there is none.** -/
theorem execute_vote (hw : w.FixedInt32) (db : Database) {txn : Transaction}
    (hvote : txn.userRequest.funcName = votingVote) : execute w db txn =
      (txn.finish (if voteFails w db txn then -1 else 0) [], tally w (votesOf w txn) db) := by
  unfold execute VoteChaincode.invokeChaincode voteFails votesOf
  rw [hvote, if_neg (by decide), if_pos rfl]
  cases hargs : VoteChaincode.voteArgs w txn.userRequest.args with
  | none =>
    dsimp only
    rw [tally_zero hw]
    rfl
  | some p =>
    obtain ⟨candidate, count⟩ := p
    dsimp only
    rw [vote_eq hw]
    obtain hc | ⟨c, hc⟩ := eq_none_or_eq_some (counter w (db candidate))
    · simp only [hc, isSome_none, isNone_none, Bool.false_eq_true, ↓reduceIte]
    · simp only [hc, isSome_some, isNone_some, Bool.false_eq_true, ↓reduceIte]

/-- The counters are where they were. -/
def SameCounters (w : Wire) (db s : Database) : Prop :=
  ∀ k, (counter w (s k)).isSome = (counter w (db k)).isSome

theorem sameCounters_tally (hw : w.FixedInt32) {db s : Database} (h : SameCounters w db s)
    (votes : Bytes → Int) : SameCounters w db (tally w votes s) := by
  intro k
  rw [tally, counter_bump hw, isSome_map]
  exact h k

theorem voteFails_congr {db s : Database} (h : SameCounters w db s) (txn : Transaction) :
    voteFails w s txn = voteFails w db txn := by
  unfold voteFails
  cases VoteChaincode.voteArgs w txn.userRequest.args with
  | none => rfl
  | some p =>
    dsimp only
    rw [← not_isSome, ← not_isSome, h p.1]

end

/-! ## All votes -/

/-- **Concurrent votes converge.** However the votes are assigned to workers and their puts are
scheduled, every vote ends as it would alone on the initial database, and every counter is moved
by the votes for it. -/
theorem votes_converge {w : Wire} (hw : w.FixedInt32) (db : Database) {txns : List Transaction}
    (hvotes : ∀ t ∈ txns, t.userRequest.funcName = votingVote) {n : Nat}
    {ls : Fin n → List Transaction} (hassign : (List.ofFn ls).flatten.Perm txns) :
    (∀ outs db', Schedule (execute w) ls db outs db' ↔
      (outs = fun i => (ls i).map fun t => t.finish (if voteFails w db t then -1 else 0) []) ∧
        db' = tally w (votesFor w txns) db) ∧
      ∀ k, counter w (tally w (votesFor w txns) db k) =
        (counter w (db k)).map fun old => wrap32 (old + votesFor w txns k) := by
  have hvote : ∀ i, ∀ t ∈ ls i, t.userRequest.funcName = votingVote := by
    intro i t ht
    refine hvotes t (hassign.mem_iff.mp (mem_flatten.mpr ⟨ls i, ?_, ht⟩))
    exact mem_ofFn.mpr ⟨i, rfl⟩
  have hall : ∀ outs db', Schedule (execute w) ls db outs db' →
      (outs = fun i => (ls i).map fun t => t.finish (if voteFails w db t then -1 else 0) []) ∧
        db' = tally w (votesFor w txns) db := by
    intro outs db' hrun
    constructor
    · refine (hrun.answers (I := SameCounters w db) (fun _ => rfl) fun i t ht s hs => ?_).1
      rw [execute_vote hw s (hvote i t ht), voteFails_congr hs]
      exact ⟨rfl, sameCounters_tally hw hs _⟩
    · have hstate := hrun.state_eq (tally_zero hw) (tally_tally hw) fun i t ht s => by
        rw [execute_vote hw s (hvote i t ht)]
      rw [hstate, Schedule.total_eq_sum _ hassign, votesFor_eq]
  refine ⟨fun outs db' => ⟨hall outs db', ?_⟩, fun k => counter_bump hw _ _⟩
  rintro ⟨rfl, rfl⟩
  obtain ⟨outs, db', hrun⟩ := Schedule.exists_run (execute w) ls db
  obtain ⟨rfl, rfl⟩ := hall outs db' hrun
  exact hrun

/-- A transaction of the vote chaincode. -/
def voteTransaction (id : UInt8) (funcName args : Bytes) : Transaction where
  tid := ⟨List.replicate 63 0 ++ [id], length_zeros_concat id⟩
  envelop := ⟨[], ⟨[], ⟨List.replicate 63 0 ++ [id], length_zeros_concat id⟩⟩⟩
  userRequest := ⟨votingChaincodeName, funcName, args, 0⟩
  rwSet := ⟨⟨List.replicate 63 0 ++ [id], length_zeros_concat id⟩, [], .PENDING, [], []⟩

/-- A vote for candidate 7. -/
def voteForSeven (id : UInt8) (count : Int) : Transaction :=
  voteTransaction id votingVote ((littleEndian.string.pair littleEndian.int32).put ([7], count))

/-- Candidate 7 has 5 votes, and something stands behind the counter. -/
def fiveVotes : Database := update (fun _ => none) [7] (some [5, 0, 0, 0, 9])

/-- Two workers with three votes for candidate 7, the last of them without a count. -/
theorem votes_converge_seven : ∃ outs db', Schedule (execute littleEndian)
    ![[voteForSeven 1 2, voteTransaction 3 votingVote []], [voteForSeven 2 3]] fiveVotes
      outs db' ∧ counter littleEndian (db' [7]) = some 10 := by
  obtain ⟨outs, db', hrun⟩ := Schedule.exists_run (execute littleEndian)
    ![[voteForSeven 1 2, voteTransaction 3 votingVote []], [voteForSeven 2 3]] fiveVotes
  refine ⟨outs, db', hrun, ?_⟩
  obtain ⟨hall, hcounter⟩ := @votes_converge littleEndian littleEndian.fixedInt32 fiveVotes
    [voteForSeven 1 2, voteTransaction 3 votingVote [], voteForSeven 2 3] (by decide) 2
    ![[voteForSeven 1 2, voteTransaction 3 votingVote []], [voteForSeven 2 3]] (.refl _)
  obtain ⟨-, rfl⟩ := (hall outs db').mp hrun
  rw [hcounter]
  decide

end MassBFT.Mix
