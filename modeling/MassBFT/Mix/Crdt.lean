import MassBFT.Mix.Vote

/-!
# Blocks of the CRDT engine

`CrdtCoordinator` deals a block out round robin, and its workers run their transactions on the
shared database without any reservation. Votes do not mind. **A get returns what it happens to
find**, and the value that it returns goes into the read-write set.

What a block records is independent of the schedule exactly if no key with a counter is both
asked for and voted for (`results_independent_iff`), votes of zero apart: then the gets find
what they would find at the start. Otherwise the get may be scheduled before the vote or right
after it.
-/

set_option autoImplicit false

namespace MassBFT.Mix

open Exec (Database ExecutionResult)
open RoundRobin

/-- `CrdtCoordinator::processValidatedRequests` with `n` workers: what it can leave. The phases are
apart, with the proviso of `Exec.ProcessSync`. -/
inductive CrdtSync (w : Wire) (n : Nat) (db : Database) (txns : List Transaction) :
    List Transaction → Database → Prop
  | run {outs : Fin n → List Transaction} {db' : Database}
      (h : Schedule (execute w) (fun i : Fin n => scatter n i txns) db outs db') :
      CrdtSync w n db txns (collect n txns.length outs) db'

/-- The result and the return value of every transaction. -/
def results (txns : List Transaction) : List (ExecutionResult × Bytes) :=
  txns.map fun t => (t.rwSet.retCode, t.rwSet.retValue)

/-- No key with a counter is both asked for and voted for, apart from votes of zero. -/
def ReadsApart (w : Wire) (db : Database) (txns : List Transaction) : Prop :=
  ∀ t ∈ txns, t.userRequest.funcName = votingGet →
    ∀ u ∈ txns, u.userRequest.funcName = votingVote →
      ∀ count, VoteChaincode.voteArgs w u.userRequest.args = some (t.userRequest.args, count) →
        (counter w (db t.userRequest.args)).isSome = true → count = 0

section

variable {w : Wire} {db : Database} {txns : List Transaction}

/-! ## Gets -/

theorem execute_get (db : Database) {txn : Transaction}
    (hget : txn.userRequest.funcName = votingGet) : execute w db txn =
      (txn.finish (if (DBShim.get db txn.userRequest.args).isSome then 0 else -1)
        ((DBShim.get db txn.userRequest.args).getD []), db) := by
  unfold execute VoteChaincode.invokeChaincode
  rw [hget, if_pos rfl]
  cases DBShim.get db txn.userRequest.args with
  | none => rfl
  | some value => rfl

/-- Any other function fails. -/
theorem execute_other (db : Database) {txn : Transaction}
    (hget : txn.userRequest.funcName ≠ votingGet) (hvote : txn.userRequest.funcName ≠ votingVote) :
    execute w db txn = (txn.finish (-1) [], db) := by
  unfold execute VoteChaincode.invokeChaincode
  rw [if_neg hget, if_neg hvote]

/-- A value with a counter is found. -/
theorem get_of_counter (hw : w.FixedInt32) {key : Bytes} {c : Int}
    (h : counter w (db key) = some c) :
    ∃ raw, db key = some raw ∧ DBShim.get db key = some raw := by
  cases hkey : db key with
  | none =>
    rw [hkey, counter_none hw] at h
    cases h
  | some raw =>
    refine ⟨raw, rfl, ?_⟩
    have hne : raw ≠ [] := by
      rintro rfl
      rw [hkey] at h
      exact absurd (h.symm.trans (counter_none hw)) (by simp)
    rw [DBShim.get, hkey]
    exact if_neg (by simpa using hne)

/-- Counts are 32-bit integers. -/
theorem isInt32_of_voteArgs (hw : w.FixedInt32) {args candidate : Bytes} {count : Int}
    (h : VoteChaincode.voteArgs w args = some (candidate, count)) : IsInt32 count := by
  rw [VoteChaincode.voteArgs, Option.map_eq_some_iff] at h
  obtain ⟨⟨p, rest⟩, hget, rfl⟩ := h
  simp only [Codec.pair] at hget
  split at hget
  · cases hget
  · split at hget
    · cases hget
    · rename_i hint
      cases hget
      exact (hw.canonical _ _ _ hint).1

/-! ## Blocks whose gets are apart -/

/-- The database is the initial one with some votes, none of them for a key that is asked for. -/
def VotedApart (w : Wire) (db : Database) (txns : List Transaction) (s : Database) : Prop :=
  ∃ votes : Bytes → Int, s = tally w votes db ∧
    ∀ t ∈ txns, t.userRequest.funcName = votingGet →
      (counter w (db t.userRequest.args)).isSome = true → votes t.userRequest.args = 0

/-- A get finds what it would find at the start. -/
theorem VotedApart.get_eq (hw : w.FixedInt32) {s : Database} (h : VotedApart w db txns s)
    {t : Transaction} (ht : t ∈ txns) (hget : t.userRequest.funcName = votingGet) :
    DBShim.get s t.userRequest.args = DBShim.get db t.userRequest.args := by
  obtain ⟨votes, rfl, hzero⟩ := h
  have hsame : tally w votes db t.userRequest.args = db t.userRequest.args := by
    by_cases hc : (counter w (db t.userRequest.args)).isSome = true
    · rw [tally, hzero t ht hget hc, bump_zero hw]
    · rw [Bool.not_eq_true, Option.isSome_eq_false_iff, Option.isNone_iff_eq_none, counter,
        Option.map_eq_none_iff] at hc
      rw [tally, bump, hc]
  rw [DBShim.get, DBShim.get, hsame]

theorem VotedApart.vote (hw : w.FixedInt32) (hapart : ReadsApart w db txns) {s : Database}
    (h : VotedApart w db txns s) {u : Transaction} (hu : u ∈ txns)
    (hvote : u.userRequest.funcName = votingVote) :
    VotedApart w db txns (tally w (votesOf w u) s) := by
  obtain ⟨votes, rfl, hzero⟩ := h
  refine ⟨votesOf w u + votes, tally_tally hw _ _ _, fun t ht hget hc => ?_⟩
  rw [Pi.add_apply, hzero t ht hget hc, add_zero, votesOf]
  cases hargs : VoteChaincode.voteArgs w u.userRequest.args with
  | none => rfl
  | some p =>
    obtain ⟨candidate, count⟩ := p
    dsimp only
    by_cases hkey : t.userRequest.args = candidate
    · rw [← hkey] at hargs
      rw [← hkey, Pi.single_eq_same]
      exact hapart t ht hget u hu hvote count hargs hc
    · rw [Pi.single_eq_of_ne hkey]

/-- **Every transaction of the block answers as it would at the start.** -/
theorem VotedApart.execute (hw : w.FixedInt32) (hapart : ReadsApart w db txns) {s : Database}
    (h : VotedApart w db txns s) {t : Transaction} (ht : t ∈ txns) :
    (execute w s t).1 = (execute w db t).1 ∧ VotedApart w db txns (Mix.execute w s t).2 := by
  by_cases hget : t.userRequest.funcName = votingGet
  · rw [execute_get s hget, execute_get db hget, h.get_eq hw ht hget]
    exact ⟨rfl, h⟩
  · by_cases hvote : t.userRequest.funcName = votingVote
    · have hcounters : SameCounters w db s := by
        obtain ⟨votes, rfl, -⟩ := h
        exact sameCounters_tally hw (fun _ => rfl) votes
      rw [execute_vote hw s hvote, execute_vote hw db hvote, voteFails_congr hcounters]
      exact ⟨rfl, h.vote hw hapart ht hvote⟩
    · rw [execute_other s hget hvote, execute_other db hget hvote]
      exact ⟨rfl, h⟩

theorem crdtSync_of_readsApart (hw : w.FixedInt32) (hapart : ReadsApart w db txns) {n : Nat}
    (hn : 1 ≤ n) {out : List Transaction} {db' : Database} (h : CrdtSync w n db txns out db') :
    out = txns.map fun t => (execute w db t).1 := by
  obtain ⟨hrun⟩ := h
  have hstart : VotedApart w db txns db := ⟨0, (tally_zero hw db).symm, fun _ _ _ _ => rfl⟩
  obtain ⟨rfl, -⟩ := hrun.answers hstart fun i t ht s hs =>
    hs.execute hw hapart ((mem_scatter hn).mp ⟨i, ht⟩)
  exact collect_scatter hn _

/-! ## Blocks whose gets are not apart -/

/-- What the worker with the first position of a block records there. -/
theorem results_getElem? {n i : Nat} (hi : i < n) {outs : Fin n → List Transaction}
    {db' : Database} (h : Schedule (execute w) (fun i : Fin n => scatter n i txns) db outs db')
    {t : Transaction} (ht : (outs ⟨i, hi⟩)[0]? = some t) :
    (results (collect n txns.length outs))[i]? = some (t.rwSet.retCode, t.rwSet.retValue) := by
  rw [results, List.getElem?_map, getElem?_collect h.length_outs hi, ht]
  rfl

/-- A get before a vote and a get after it find different values. -/
theorem get_vote_ne (hw : w.FixedInt32) {key : Bytes} {count : Int} (hcount : IsInt32 count)
    (hzero : count ≠ 0) (hc : (counter w (db key)).isSome = true) :
    (DBShim.get db key).getD [] ≠ (DBShim.get (tally w (Pi.single key count) db) key).getD [] := by
  obtain ⟨c, hc⟩ := Option.isSome_iff_exists.mp hc
  have hc' : counter w (tally w (Pi.single key count) db key) = some (wrap32 (c + count)) := by
    rw [tally, counter_bump hw, Pi.single_eq_same, hc]
    rfl
  obtain ⟨raw, hraw, hget⟩ := get_of_counter hw hc
  obtain ⟨raw', hraw', hget'⟩ := get_of_counter hw hc'
  rw [hget, hget']
  rintro (rfl : raw = raw')
  rw [hraw', ← hraw, hc, Option.some.injEq] at hc'
  exact hzero (eq_zero_of_wrap32 hcount hc'.symm)

/-- The get is scheduled first, or right after the vote. -/
theorem readsApart_of_independent (hw : w.FixedInt32)
    (h : ∀ n, 1 ≤ n → ∀ out db' out' db'', CrdtSync w n db txns out db' →
      CrdtSync w n db txns out' db'' → results out = results out') : ReadsApart w db txns := by
  intro t ht hget u hu hvote count hargs hc
  by_contra hzero
  obtain ⟨p, hp⟩ := List.mem_iff_getElem?.mp ht
  obtain ⟨q, hq⟩ := List.mem_iff_getElem?.mp hu
  have hpn : p < txns.length := (List.getElem?_eq_some_iff.mp hp).1
  have hqn : q < txns.length := (List.getElem?_eq_some_iff.mp hq).1
  have hn : 1 ≤ txns.length := Nat.one_le_of_lt hpn
  have hne : (⟨q, hqn⟩ : Fin txns.length) ≠ ⟨p, hpn⟩ := by
    intro he
    rw [Fin.mk.injEq] at he
    subst he
    rw [hp, Option.some.injEq] at hq
    subst hq
    exact absurd (hget.symm.trans hvote) (by decide)
  -- one worker for each transaction
  obtain ⟨rest, hfirst⟩ := scatter_eq_cons hn hp
  obtain ⟨rest', hother⟩ := scatter_eq_cons hn hq
  obtain ⟨outs, db', hrun, hans⟩ := @Schedule.exists_first _ _ _ _ (execute w)
    (fun i : Fin txns.length => scatter txns.length i txns) ⟨p, hpn⟩ t rest hfirst db
  obtain ⟨outs', db'', hrun', hans'⟩ := @Schedule.exists_second _ _ _ _ (execute w)
    (fun i : Fin txns.length => scatter txns.length i txns) _ _ hne u t rest' rest hother hfirst db
  have heq := congrArg (·[p]?) (h _ hn _ _ _ _ ⟨hrun⟩ ⟨hrun'⟩)
  rw [results_getElem? hpn hrun hans, results_getElem? hpn hrun' hans', execute_get _ hget,
    execute_get _ hget, execute_vote hw db hvote, votesOf, hargs] at heq
  simp only [Transaction.finish, Option.some.injEq, Prod.mk.injEq] at heq
  exact get_vote_ne hw (isInt32_of_voteArgs hw hargs) hzero hc heq.2

end

/-! ## What a block records -/

/-- **What a block records is independent of the schedule exactly if its gets are apart from its
votes.** -/
theorem results_independent_iff {w : Wire} (hw : w.FixedInt32) (db : Database)
    (txns : List Transaction) :
    (∀ n m, 1 ≤ n → 1 ≤ m → ∀ out db' out' db'', CrdtSync w n db txns out db' →
      CrdtSync w m db txns out' db'' → results out = results out') ↔ ReadsApart w db txns := by
  constructor
  · intro h
    exact readsApart_of_independent hw fun n hn => h n n hn hn
  · intro h n m hn hm out db' out' db'' hrun hrun'
    rw [crdtSync_of_readsApart hw h hn hrun, crdtSync_of_readsApart hw h hm hrun']

/-- A get for candidate 8, who has no votes yet, next to a vote for candidate 7. -/
theorem results_independent_eight :
    ReadsApart littleEndian fiveVotes [voteTransaction 1 votingGet [8], voteForSeven 2 3] ∧
      ∀ n m, 1 ≤ n → 1 ≤ m → ∀ out db' out' db'',
        CrdtSync littleEndian n fiveVotes [voteTransaction 1 votingGet [8], voteForSeven 2 3]
          out db' →
        CrdtSync littleEndian m fiveVotes [voteTransaction 1 votingGet [8], voteForSeven 2 3]
          out' db'' → results out = results out' := by
  have hapart : ReadsApart littleEndian fiveVotes
      [voteTransaction 1 votingGet [8], voteForSeven 2 3] := by
    intro t ht hget u hu hvote count hargs
    simp only [List.mem_cons, List.not_mem_nil, or_false] at ht
    rcases ht with rfl | rfl
    · intro hc
      exact absurd hc (by decide)
    · exact absurd hget (by decide)
  exact ⟨hapart, (results_independent_iff littleEndian.fixedInt32 fiveVotes _).mpr hapart⟩

/-- **A get next to a vote for the same candidate**: two workers, and the get records 5 votes or 8
votes. -/
theorem not_results_independent :
    ∃ out db' out' db'',
      CrdtSync littleEndian 2 fiveVotes [voteTransaction 1 votingGet [7], voteForSeven 2 3]
        out db' ∧
      CrdtSync littleEndian 2 fiveVotes [voteTransaction 1 votingGet [7], voteForSeven 2 3]
        out' db'' ∧
      results out = [(.COMMIT, [5, 0, 0, 0, 9]), (.COMMIT, [])] ∧
      results out' = [(.COMMIT, [8, 0, 0, 0, 9]), (.COMMIT, [])] := by
  refine ⟨_, _, _, _, ⟨.step 0 rfl (.step 1 rfl (.done ?_))⟩,
    ⟨.step 1 rfl (.step 0 rfl (.done ?_))⟩, by decide +kernel, by decide +kernel⟩
  · decide
  · decide

end MassBFT.Mix
