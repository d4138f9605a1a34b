import MassBFT.Exec.Serializable

/-!
# The write-based engine

`WBCoordinator` commits in two phases. After the execute phase, `rsTable` holds for each key
the smallest id that wants to write it. The first commit phase aborts a writer that has read a
key which a smaller id wants to write, and enters the writes of the others in `cmtTable`, where
the largest id is to win. The second commit phase writes to the database.

**`updateDB` asks `rsTable`, not `cmtTable`**: a write reaches the database if its id is the
smallest one that wanted to write the key, committed or not. `cmtTable` is never read.

When the ids are distinct, every parallel run ends as `block` does (`processSync_iff`).
-/

set_option autoImplicit false

namespace MassBFT.Exec

open List

/-- `try_emplace_l` with the comparison the other way: a larger or equal id that is already there
stays. -/
def MutexTable.tryReplace (table : MutexTable) (key : Bytes) (tid : Tid) : MutexTable :=
  match table key with
  | none => Function.update table key (some tid)
  | some t => if 0 ≤ t.compareTID tid then table else Function.update table key (some tid)

/-- `WBReserveTable` -/
structure WBReserveTable where
  rsTable : MutexTable
  cmtTable : MutexTable

namespace WBReserveTable

/-- `reset` -/
def reset : WBReserveTable := ⟨fun _ => none, fun _ => none⟩

/-- One map operation of `reserveWrites`. -/
def reserve (table : WBReserveTable) (op : Bytes × Tid) : WBReserveTable :=
  { table with rsTable := table.rsTable.tryEmplace op.1 op.2 }

/-- One map operation of `mvccReserveWrites`. -/
def mvccReserve (table : WBReserveTable) (op : Bytes × Tid) : WBReserveTable :=
  { table with cmtTable := table.cmtTable.tryReplace op.1 op.2 }

/-- The operations of `reserveWrites`, and those of `mvccReserveWrites`. -/
def reserveWrites (writes : List KV) (tid : Tid) : List (Bytes × Tid) :=
  writes.map fun kv => (kv.key, tid)

/-- `detectRAW` -/
def detectRAW (table : WBReserveTable) (reads : List KV) (tid : Tid) : Bool :=
  table.rsTable.dependsOn tid reads

/-- `updateDB`: the writes that the callback gets. -/
def updateDB (table : WBReserveTable) (writes : List KV) (tid : Tid) : List KV :=
  writes.filter fun kv =>
    match table.rsTable kv.key with
    | some t => decide (t.compareTID tid = 0)
    | none => false

end WBReserveTable

namespace WriteBased

open WBReserveTable

/-! ## One worker -/

/-- The body of the loop in `OnExecuteTransaction`. -/
def executeTransaction (db : Database) (txn : Transaction) : Transaction × List (Bytes × Tid) :=
  let inv := txn.envelop.invoke db
  let txn := { txn with
    retValue := inv.retValue
    reads := inv.reads
    writes := inv.writes }
  if inv.ret ≠ 0 then
    ({ txn with executionResult := .ABORT_NO_RETRY }, [])
  else if txn.writes.isEmpty then
    (txn, [])
  else
    (txn, reserveWrites txn.writes txn.tid)

/-- `OnExecuteTransaction` -/
def onExecuteTransaction (db : Database) (txnList : List Transaction) :
    List Transaction × List (Bytes × Tid) :=
  (txnList.map fun txn => (executeTransaction db txn).1,
    txnList.flatMap fun txn => (executeTransaction db txn).2)

/-- The body of the loop in `onFirstCommit`. -/
def firstCommit (table : WBReserveTable) (txn : Transaction) : Transaction × List (Bytes × Tid) :=
  match txn.executionResult with
  | .ABORT_NO_RETRY => (txn, [])
  | .COMMIT | .PENDING | .ABORT =>
    if txn.writes.isEmpty then
      ({ txn with executionResult := .COMMIT }, [])
    else if table.detectRAW txn.reads txn.tid then
      ({ txn with executionResult := .ABORT }, [])
    else
      ({ txn with executionResult := .COMMIT }, reserveWrites txn.writes txn.tid)

/-- `onFirstCommit`. The flag `firstCommit` of a worker is set when a block starts, and toggled by
both commit phases. -/
def onFirstCommit (table : WBReserveTable) (txnList : List Transaction) :
    List Transaction × List (Bytes × Tid) :=
  (txnList.map fun txn => (firstCommit table txn).1,
    txnList.flatMap fun txn => (firstCommit table txn).2)

/-- The body of the loop in `onSecondCommit`: what goes into the batch. -/
def secondCommit (table : WBReserveTable) (txn : Transaction) : List KV :=
  match txn.executionResult with
  | .ABORT_NO_RETRY | .ABORT => []
  | .COMMIT | .PENDING => table.updateDB txn.writes txn.tid

/-- `onSecondCommit`: the updates that `syncWriteBatch` issues. -/
def onSecondCommit (table : WBReserveTable) (txnList : List Transaction) : List DbOp :=
  (txnList.foldl (fun batch txn => (secondCommit table txn).foldl WriteBatch.add batch) .empty).ops

/-! ## The coordinator -/

/-- What the workers have after the first commit phase, if the execute phase has made the
reservations `ops`. -/
def firstCommitted (n : Nat) (db : Database) (transactions : List Transaction)
    (ops : List (Bytes × Tid)) (w : Nat) : List Transaction × List (Bytes × Tid) :=
  onFirstCommit (ops.foldl reserve reset) (onExecuteTransaction db (afterStart n w transactions)).1

/-- `WBCoordinator::processSync` with `n` workers: the transactions and the database it can leave
behind. The phases are apart, with the proviso of `Exec.ProcessSync`. -/
inductive ProcessSync (n : Nat) (db : Database) (transactions : List Transaction) :
    List Transaction → Database → Prop
  | run {ops cmts : List (Bytes × Tid)} {updates : List DbOp}
      (exec : Interleave
        (fun w : Fin n => (onExecuteTransaction db (afterStart n w transactions)).2) ops)
      (first : Interleave (fun w : Fin n => (firstCommitted n db transactions ops w).2) cmts)
      (second : Interleave
        (fun w : Fin n => onSecondCommit (cmts.foldl mvccReserve (ops.foldl reserve reset))
          (firstCommitted n db transactions ops w).1) updates) :
      ProcessSync n db transactions
        (afterCommit n transactions.length fun w => (firstCommitted n db transactions ops w).1)
        (DbOp.applyAll db updates)

/-! ## What `rsTable` holds -/

section

open MutexTable

variable {ops cmts : List (Bytes × Tid)} {k : Bytes} {tid : Tid} {table : WBReserveTable}

theorem below_foldl_reserve {m : Nat} :
    (ops.foldl reserve table).rsTable.Below k m ↔
      table.rsTable.Below k m ∨ ∃ t, (k, t) ∈ ops ∧ t.val < m := by
  induction ops generalizing table with
  | nil => simp
  | cons op ops ih =>
    obtain ⟨key, tid⟩ := op
    rw [foldl_cons, ih, reserve, below_tryEmplace, or_assoc]
    refine or_congr_right ⟨?_, ?_⟩
    · rintro (⟨rfl, hlt⟩ | ⟨t, ht, hlt⟩)
      · exact ⟨tid, mem_cons_self, hlt⟩
      · exact ⟨t, mem_cons_of_mem _ ht, hlt⟩
    · rintro ⟨t, ht, hlt⟩
      rcases mem_cons.mp ht with heq | ht
      · cases heq
        exact Or.inl ⟨rfl, hlt⟩
      · exact Or.inr ⟨t, ht, hlt⟩

/-- Some id below `m` wants to write the key. -/
theorem below_reserved {m : Nat} : (ops.foldl reserve reset).rsTable.Below k m ↔
    ∃ t, (k, t) ∈ ops ∧ t.val < m := by
  rw [below_foldl_reserve]
  simp [reset, Below]

/-- The first commit phase leaves `rsTable` alone. -/
theorem rsTable_foldl_mvccReserve (table : WBReserveTable) :
    (cmts.foldl mvccReserve table).rsTable = table.rsTable := by
  induction cmts generalizing table with
  | nil => rfl
  | cons op cmts ih => exact ih _

/-- **The smallest id that wants to write a key holds it.** -/
theorem rsTable_eq_some : (ops.foldl reserve reset).rsTable k = some tid ↔
    (k, tid) ∈ ops ∧ ∀ t, (k, t) ∈ ops → tid.val ≤ t.val := by
  have hbelow := fun m => @below_reserved ops k m
  constructor
  · intro h
    have hmin : ∀ t, (k, t) ∈ ops → tid.val ≤ t.val := by
      intro t ht
      by_contra hlt
      obtain ⟨t', ht', hlt'⟩ := (hbelow tid.val).mpr ⟨t, ht, Nat.lt_of_not_le hlt⟩
      rw [h, Option.some.injEq] at ht'
      rw [ht'] at hlt'
      exact lt_irrefl _ hlt'
    obtain ⟨t, ht, hlt⟩ := (hbelow (tid.val + 1)).mp ⟨tid, h, Nat.lt_succ_self _⟩
    have heq : t.val = tid.val := le_antisymm (Nat.lt_succ_iff.mp hlt) (hmin t ht)
    rw [Tid.val_inj.mp heq] at ht
    exact ⟨ht, hmin⟩
  · rintro ⟨hmem, hmin⟩
    obtain ⟨t, ht, hlt⟩ := (hbelow (tid.val + 1)).mpr ⟨tid, hmem, Nat.lt_succ_self _⟩
    obtain ⟨t', ht', hlt'⟩ := (hbelow (t.val + 1)).mp ⟨t, ht, Nat.lt_succ_self _⟩
    have hle := hmin t' ht'
    rw [ht, Option.some.injEq, ← Tid.val_inj]
    omega

/-- The order of the reservations does not matter. -/
theorem rsTable_congr {ops' : List (Bytes × Tid)} (h : ∀ op, op ∈ ops ↔ op ∈ ops') :
    (ops.foldl reserve reset).rsTable = (ops'.foldl reserve reset).rsTable := by
  funext k
  refine Option.ext fun tid => ?_
  rw [rsTable_eq_some, rsTable_eq_some]
  simp only [h]

theorem mem_keys_updateDB {writes : List KV} :
    k ∈ keys (table.updateDB writes tid) ↔ k ∈ keys writes ∧ table.rsTable k = some tid := by
  have hzero : ∀ t : Tid, t.compareTID tid = 0 ↔ t = tid := by
    intro t
    rw [← Tid.val_inj]
    have hle := @Tid.compareTID_nonpos t tid
    have hlt := @Tid.compareTID_neg t tid
    omega
  simp only [keys, updateDB, mem_map, mem_filter]
  constructor
  · rintro ⟨kv, ⟨hkv, hholds⟩, rfl⟩
    refine ⟨⟨kv, hkv, rfl⟩, ?_⟩
    cases ht : table.rsTable kv.key with
    | none =>
      rw [ht] at hholds
      cases hholds
    | some t =>
      rw [ht] at hholds
      rw [(hzero t).mp (of_decide_eq_true hholds)]
  · rintro ⟨⟨kv, hkv, rfl⟩, ht⟩
    refine ⟨kv, ⟨hkv, ?_⟩, rfl⟩
    rw [ht]
    exact decide_eq_true ((hzero tid).mpr rfl)

/-- Of a key that it holds, a transaction writes what it wants to write. -/
theorem filter_updateDB {writes : List KV} (h : table.rsTable k = some tid) :
    (table.updateDB writes tid).filter (·.key = k) = writes.filter (·.key = k) := by
  rw [updateDB, filter_filter]
  refine filter_congr fun kv _ => ?_
  by_cases hk : kv.key = k
  · have hself : tid.compareTID tid = 0 := by
      have hle := @Tid.compareTID_nonpos tid tid
      have hlt := @Tid.compareTID_neg tid tid
      omega
    simp [hk, h, hself]
  · simp [hk]

end

/-! ## Any schedule -/

section

variable {n : Nat} {db : Database} {txns : List Transaction} {ops cmts : List (Bytes × Tid)}

/-- The tables after the execute phase of a block. -/
def blockTable (db : Database) (txns : List Transaction) : WBReserveTable :=
  (onExecuteTransaction db txns).2.foldl reserve reset

/-- A transaction after the first commit phase of a block. -/
def decided (db : Database) (txns : List Transaction) (t : Transaction) : Transaction :=
  (firstCommit (blockTable db txns) (executeTransaction db t).1).1

/-- What a transaction of the block adds to the batches. -/
def blockWrites (db : Database) (txns : List Transaction) (t : Transaction) : List KV :=
  secondCommit (blockTable db txns) (decided db txns t)

/-- The engine as a function. -/
def block (db : Database) (txns : List Transaction) : List Transaction × Database :=
  (txns.map (decided db txns), DbOp.applyAll db (updatesOf (txns.flatMap (blockWrites db txns))))

theorem firstCommit_congr {table table' : WBReserveTable} (h : table.rsTable = table'.rsTable) :
    firstCommit table = firstCommit table' := by
  funext txn
  unfold firstCommit detectRAW
  rw [h]

theorem secondCommit_congr {table table' : WBReserveTable} (h : table.rsTable = table'.rsTable) :
    secondCommit table = secondCommit table' := by
  funext txn
  unfold secondCommit updateDB
  rw [h]

theorem onSecondCommit_eq (table : WBReserveTable) (l : List Transaction) :
    onSecondCommit table l = updatesOf (l.flatMap (secondCommit table)) := by
  rw [onSecondCommit, updatesOf, foldl_flatMap]

@[simp] theorem executeTransaction_tid (t : Transaction) :
    (executeTransaction db t).1.tid = t.tid := by
  unfold executeTransaction
  dsimp only
  split_ifs <;> rfl

@[simp] theorem firstCommit_tid (table : WBReserveTable) (t : Transaction) :
    (firstCommit table t).1.tid = t.tid := by
  unfold firstCommit
  split
  · rfl
  all_goals split_ifs <;> rfl

@[simp] theorem decided_tid (t : Transaction) : (decided db txns t).tid = t.tid := by
  rw [decided, firstCommit_tid, executeTransaction_tid]

theorem keys_blockWrites {t : Transaction} {k : Bytes} (h : k ∈ keys (blockWrites db txns t)) :
    (blockTable db txns).rsTable k = some t.tid := by
  unfold blockWrites secondCommit at h
  split at h
  · cases h
  · cases h
  all_goals
    rw [mem_keys_updateDB, decided_tid] at h
    exact h.2

theorem mem_reservations {op : Bytes × Tid} : op ∈ (onExecuteTransaction db txns).2 ↔
    ∃ t ∈ txns, op ∈ (executeTransaction db t).2 := by
  simp [onExecuteTransaction, mem_flatMap]

/-- The workers reserve what the block reserves. -/
theorem rsTable_eq (hn : 1 ≤ n) (hexec : Interleave
      (fun w : Fin n => (onExecuteTransaction db (afterStart n w txns)).2) ops) :
    (ops.foldl reserve reset).rsTable = (blockTable db txns).rsTable := by
  refine rsTable_congr fun op => ?_
  rw [hexec.mem_iff, mem_reservations]
  simp only [mem_reservations, ← @mem_afterStart n txns hn]
  constructor
  · rintro ⟨w, t, ht, hop⟩
    exact ⟨t, ⟨w, ht⟩, hop⟩
  · rintro ⟨t, ⟨w, ht⟩, hop⟩
    exact ⟨w, t, ht, hop⟩

theorem firstCommitted_fst (hn : 1 ≤ n) (hexec : Interleave
      (fun w : Fin n => (onExecuteTransaction db (afterStart n w txns)).2) ops) (w : Nat) :
    (firstCommitted n db txns ops w).1 = (afterStart n w txns).map (decided db txns) := by
  rw [firstCommitted, onFirstCommit, onExecuteTransaction, map_map,
    firstCommit_congr (rsTable_eq hn hexec)]
  rfl

/-- **A block with distinct ids has one outcome, and some schedule reaches it.** -/
theorem processSync_iff (hn : 1 ≤ n) (hids : (txns.map Transaction.tid).Nodup)
    {out : List Transaction} {db' : Database} :
    ProcessSync n db txns out db' ↔ out = (block db txns).1 ∧ db' = (block db txns).2 := by
  have hcopies : ∀ t ∈ txns, ∀ u ∈ txns, ∀ k, k ∈ keys (blockWrites db txns t) →
      k ∈ keys (blockWrites db txns u) → blockWrites db txns u = blockWrites db txns t := by
    intro t ht u hu k hkt hku
    have htid : u.tid = t.tid :=
      Option.some.inj ((keys_blockWrites hku).symm.trans (keys_blockWrites hkt))
    rw [inj_on_of_nodup_map hids hu ht htid]
  have hone : ∀ out db', ProcessSync n db txns out db' →
      out = (block db txns).1 ∧ db' = (block db txns).2 := by
    rintro out db' ⟨hexec, hfirst, hsecond⟩
    rename_i ops cmts updates
    have htable : (cmts.foldl mvccReserve (ops.foldl reserve reset)).rsTable =
        (blockTable db txns).rsTable := by
      rw [rsTable_foldl_mvccReserve, rsTable_eq hn hexec]
    simp only [onSecondCommit_eq, secondCommit_congr htable, firstCommitted_fst hn hexec,
      flatMap_map] at hsecond ⊢
    exact ⟨afterCommit_afterStart hn _, applyAll_interleave hn hcopies hsecond⟩
  refine ⟨hone out db', ?_⟩
  rintro ⟨rfl, rfl⟩
  obtain ⟨ops, hexec⟩ := Interleave.exists_out
    fun w : Fin n => (onExecuteTransaction db (afterStart n w txns)).2
  obtain ⟨cmts, hfirst⟩ := Interleave.exists_out fun w : Fin n => (firstCommitted n db txns ops w).2
  obtain ⟨updates, hsecond⟩ := Interleave.exists_out
    fun w : Fin n => onSecondCommit (cmts.foldl mvccReserve (ops.foldl reserve reset))
      (firstCommitted n db txns ops w).1
  have hrun := ProcessSync.run hexec hfirst hsecond
  obtain ⟨hout, hdb⟩ := hone _ _ hrun
  rwa [hout, hdb] at hrun

end

end WriteBased

end MassBFT.Exec
