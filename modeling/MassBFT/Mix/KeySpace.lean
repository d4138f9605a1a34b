import MassBFT.Mix.Robust

/-!
# One key space

All chaincodes keep their state in one database, under keys that they choose: SmallBank puts the
prefix of a table in front of an account id, the vote chaincode takes the key that the request
names. So a vote can be for a SmallBank key. A block of votes then does to that key what it does
to every other one: it adds to the first four bytes of the value, if there are four
(`votes_block`). **A table entry stays what it was exactly if its votes add up to nothing**, modulo
`2 ^ 32` (`smallBank_untouched_iff`).
-/

set_option autoImplicit false

namespace MassBFT.Mix

open Exec (Database Crash Chaincodes)
open RoundRobin

/-! ## The keys of SmallBank -/

/-- The tables of SmallBank. -/
inductive SmallBankTable where
  | ACCOUNTS | SAVINGS | CHECKING
  deriving DecidableEq, Repr

/-- `TableNamesPrefix`: a_, s_ and c_. -/
def SmallBankTable.tablePrefix : SmallBankTable → Bytes
  | .ACCOUNTS => [97, 95]
  | .SAVINGS => [115, 95]
  | .CHECKING => [99, 95]

/-- The key that `getValue` and `insertIntoTable` use: the account id is written behind the
prefix. -/
def smallBankKey (w : Wire) (table : SmallBankTable) (acctId : Int) : Bytes :=
  table.tablePrefix ++ w.putInt32 acctId

/-! ## Blocks of votes -/

section

variable {w : Wire} {cc : Chaincodes} {n : Nat} {db : Database}
  {requests : List Replication.Envelop}

/-- The request goes to the vote chaincode. -/
def ToVote (w : Wire) (envelop : Replication.Envelop) : Prop :=
  ∃ txn, newTransactionFromEnvelop w envelop = some txn ∧
    txn.userRequest.ccName = votingChaincodeName

/-- What a block votes for a key. -/
def blockVotes (w : Wire) (requests : List Replication.Envelop) (key : Bytes) : Int :=
  votesFor w (votesAmong (requests.filterMap (newTransactionFromEnvelop w))) key

/-- A value stays what it was exactly if it has no counter, or the counter goes full circle. -/
theorem bump_eq_self_iff (hw : w.FixedInt32) {c : Int} {value : Option Bytes} :
    bump w c value = value ↔ ((counter w value).isSome = true → (2 ^ 32 : Int) ∣ c) := by
  obtain hnone | ⟨old, hold⟩ := Option.eq_none_or_eq_some (counter w value)
  · have hget : w.getInt32 (value.getD []) = none := by
      rwa [counter, Option.map_eq_none_iff] at hnone
    rw [bump, hget, hnone]
    simp
  · have hcounter := counter_bump hw c value
    rw [hold, Option.map_some] at hcounter
    rw [hold]
    simp only [Option.isSome_some, forall_const]
    constructor
    · intro hsame
      rw [hsame, hold, Option.some.injEq] at hcounter
      have hdvd := @Int.dvd_bmod_sub_self (old + c) (2 ^ 32)
      have hback : (old + c).bmod (2 ^ 32) = old := hcounter.symm
      rw [hback] at hdvd
      have hneg : old - (old + c) = -c := by ring
      rw [hneg, Int.dvd_neg] at hdvd
      exact_mod_cast hdvd
    · rintro ⟨m, rfl⟩
      have hbump : bump w (2 ^ 32 * m) value = bump w 0 value := by
        unfold bump
        have hwrap : ∀ a : Int, wrap32 (a + 2 ^ 32 * m) = wrap32 (a + 0) := by
          intro a
          unfold wrap32
          rw [add_zero]
          exact_mod_cast Int.add_mul_bmod_self_left a (2 ^ 32) m
        simp only [hwrap]
      rw [hbump, bump_zero hw]

/-- The deterministic engine has nothing to do. -/
theorem deterministicSync_nil (hn : 1 ≤ n) {r : Except Crash (List Transaction × Database)}
    (h : DeterministicSync cc n db [] r) : r = .ok ([], db) := by
  cases r with
  | error what => exact absurd h (not_deterministicSync_error hn (by simp) what)
  | ok left =>
    obtain ⟨out, db'⟩ := left
    obtain ⟨-, ⟨table, rfl⟩, hrun⟩ := deterministicSync_refines hn h
    obtain ⟨-, rfl⟩ := (Exec.processSync_copies_iff hn (by simp)).mp hrun
    rfl

/-- **A block of votes leaves its votes counted.** -/
theorem votes_block (hw : w.FixedInt32) (hn : 1 ≤ n) (hvotes : ∀ e ∈ requests, ToVote w e)
    {r : Except Crash (Processed × Database)}
    (h : ProcessValidatedRequests w cc true n db requests r) :
    ∃ left, r = .ok (left, tally w (blockVotes w requests) db) := by
  obtain ⟨txns₀, htxns₀⟩ := exists_mapM fun e he => (hvotes e he).imp fun t ht => ht.1
  obtain ⟨what, herror, -⟩ | ⟨txns, crdtTxn, db₁, r', htxns, hcrdt, hrun, hr⟩ := mixed_inv h
  · rw [htxns₀] at herror
    cases herror
  have hmade := filterMap_of_mapM htxns
  have hall : ∀ t ∈ txns, t.isCrdt = true := by
    intro t ht
    rw [← hmade] at ht
    obtain ⟨e, he, hnew⟩ := List.mem_filterMap.mp ht
    obtain ⟨t', hnew', hname⟩ := hvotes e he
    rw [hnew] at hnew'
    cases hnew'
    exact decide_eq_true hname
  have hvote : txns.filter Transaction.isCrdt = txns := List.filter_eq_self.mpr hall
  have hother : txns.filter (!·.isCrdt) = [] := by
    refine List.filter_eq_nil_iff.mpr fun t ht => ?_
    simp [hall t ht]
  obtain rfl : r' = .ok ([], db₁) := deterministicSync_nil hn (hother ▸ hrun)
  obtain ⟨out, hmerge, -⟩ := merge_left hn hcrdt hrun
  dsimp only [Except.bind] at hr
  rw [hmerge] at hr
  rw [hvote] at hcrdt
  have hdb := crdtSync_db hw hn hcrdt
  rw [← hmade] at hdb
  exact ⟨processed out, by rw [hr, hdb]; rfl⟩

end

/-- **What votes do to SmallBank.** A block of requests to the vote chaincode always returns, and
it leaves a table entry as it was exactly if the entry has no four bytes to count with, or what
the block votes for its key adds up to a multiple of `2 ^ 32`. -/
theorem smallBank_untouched_iff {w : Wire} (hw : w.FixedInt32) {n : Nat} (hn : 1 ≤ n)
    (cc : Chaincodes) (db : Database) {requests : List Replication.Envelop}
    (hvotes : ∀ e ∈ requests, ToVote w e) :
    (∃ r, ProcessValidatedRequests w cc true n db requests r) ∧
      ∀ r, ProcessValidatedRequests w cc true n db requests r → ∃ left db', r = .ok (left, db') ∧
        ∀ table acctId, db' (smallBankKey w table acctId) = db (smallBankKey w table acctId) ↔
          ((counter w (db (smallBankKey w table acctId))).isSome = true →
            (2 ^ 32 : Int) ∣ blockVotes w requests (smallBankKey w table acctId)) := by
  refine ⟨exists_processed w cc true hn db requests, fun r hr => ?_⟩
  obtain ⟨left, rfl⟩ := votes_block hw hn hvotes hr
  exact ⟨left, _, rfl, fun table acctId => bump_eq_self_iff hw⟩

/-- The checking account 1, with a balance of eight bytes. -/
def oneAccount : Database :=
  Function.update (fun _ => none) (smallBankKey littleEndian .CHECKING 1)
    (some [0, 0, 0, 0, 0, 0, 89, 64])

/-- A vote on the little-endian wire. -/
def voteRequest (id : UInt8) (key : Bytes) (count : Int) : Replication.Envelop :=
  request id votingChaincodeName votingVote
    ((littleEndian.string.pair littleEndian.int32).put (key, count))

theorem smallBank_untouched_candidate : ∃ left db',
    ProcessValidatedRequests littleEndian simpleChaincodes true 2 oneAccount
      [voteRequest 1 [55] 3] (.ok (left, db')) ∧
    db' (smallBankKey littleEndian .CHECKING 1) = some [0, 0, 0, 0, 0, 0, 89, 64] := by
  have hvotes : ∀ e ∈ [voteRequest 1 [55] 3], ToVote littleEndian e := by
    intro e he
    rw [List.mem_singleton.mp he]
    exact ⟨_, rfl, rfl⟩
  obtain ⟨⟨r, hr⟩, hall⟩ := smallBank_untouched_iff littleEndian.fixedInt32 (by decide : 1 ≤ 2)
    simpleChaincodes oneAccount hvotes
  obtain ⟨left, db', rfl, hiff⟩ := hall r hr
  refine ⟨left, db', hr, ?_⟩
  rw [(hiff .CHECKING 1).mpr fun _ => ?_]
  · rfl
  · have hnone : blockVotes littleEndian [voteRequest 1 [55] 3]
        (smallBankKey littleEndian .CHECKING 1) = 0 := by decide +kernel
    rw [hnone]
    exact dvd_zero _

/-- **A vote for the key of the account changes its balance.** -/
theorem smallBank_touched : ∃ left db',
    ProcessValidatedRequests littleEndian simpleChaincodes true 1 oneAccount
      [voteRequest 1 (smallBankKey littleEndian .CHECKING 1) 3] (.ok (left, db')) ∧
    db' (smallBankKey littleEndian .CHECKING 1) = some [3, 0, 0, 0, 0, 0, 89, 64] ∧
    oneAccount (smallBankKey littleEndian .CHECKING 1) = some [0, 0, 0, 0, 0, 0, 89, 64] := by
  have hvotes : ∀ e ∈ [voteRequest 1 (smallBankKey littleEndian .CHECKING 1) 3],
      ToVote littleEndian e := by
    intro e he
    rw [List.mem_singleton.mp he]
    exact ⟨_, rfl, rfl⟩
  obtain ⟨r, hr⟩ := exists_processed littleEndian simpleChaincodes true (by decide : 1 ≤ 1)
    oneAccount [voteRequest 1 (smallBankKey littleEndian .CHECKING 1) 3]
  obtain ⟨left, rfl⟩ := votes_block littleEndian.fixedInt32 (by decide : 1 ≤ 1) hvotes hr
  exact ⟨left, _, hr, by decide +kernel, rfl⟩

end MassBFT.Mix
