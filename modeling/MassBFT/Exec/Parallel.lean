import MassBFT.Exec.Deterministic

/-!
# Every schedule of a block ends alike

The commit phase lets a transaction through when its flags allow it (`commits`), and
then its write set goes into the batch of its worker. So a worker's batch is read off
the write sets it let through (`onCommitTransaction_batch`), and **two transactions
that are let through never write a common key unless they carry the same id**
(`tid_eq_of_commits`). If the same id means the same request, all workers that touch a key
issue the same last update for it, and the interleaving of the batches cannot be seen in the
database. This covers blocks in which a request is repeated; distinct ids are a special case.
-/

set_option autoImplicit false

namespace MassBFT.Exec

open Function List ReserveTable WriteBatch

/-- The last branch of the commit phase is taken. -/
def commits (table : ReserveTable) (txn : Transaction) : Bool :=
  match txn.executionResult with
  | .ABORT_NO_RETRY | .COMMIT => false
  | .PENDING | .ABORT =>
    let dep := table.getDependence txn.reads txn.writes txn.tid
    !dep.waw && !(dep.war && dep.raw)

/-- What a transaction adds to the batch of its worker. -/
def contribution (table : ReserveTable) (txn : Transaction) : List KV :=
  if commits table txn then txn.writes else []

/-- The updates that `syncWriteBatch` issues for a list of writes. -/
def updatesOf (writes : List KV) : List DbOp := (writes.foldl add .empty).ops

/-- The result that the commit phase leaves in a transaction. -/
def verdict (table : ReserveTable) (txn : Transaction) : ExecutionResult :=
  match txn.executionResult with
  | .ABORT_NO_RETRY => .ABORT_NO_RETRY
  | .COMMIT => .COMMIT
  | .PENDING | .ABORT => if commits table txn then .COMMIT else .ABORT

/-- The transaction as the commit phase leaves it. -/
def decided (table : ReserveTable) (txn : Transaction) : Transaction :=
  { txn with executionResult := verdict table txn }

/-! ## The batch of one worker -/

theorem commitTransaction_eq (table : ReserveTable) (batch : WriteBatch) (txn : Transaction) :
    commitTransaction table batch txn =
      (decided table txn, (contribution table txn).foldl add batch) := by
  obtain ⟨envelop, tid, result, retValue, reads, writes⟩ := txn
  unfold commitTransaction decided contribution verdict commits
  cases result with
  | ABORT_NO_RETRY | COMMIT => rfl
  | PENDING | ABORT =>
    dsimp only
    by_cases hwaw : (table.getDependence reads writes tid).waw = true
    · simp [hwaw]
    by_cases hboth : ((table.getDependence reads writes tid).war &&
        (table.getDependence reads writes tid).raw) = true
    · simp [hwaw, hboth]
    · simp [hwaw, hboth]

theorem onCommitTransaction_fst (table : ReserveTable) (batch : WriteBatch) (l : List Transaction) :
    (onCommitTransaction table batch l).1 = l.map (decided table) := by
  induction l generalizing batch with
  | nil => rfl
  | cons txn rest ih =>
    rw [onCommitTransaction, map_cons, ih, commitTransaction_eq]

theorem onCommitTransaction_batch (table : ReserveTable) (batch : WriteBatch)
    (l : List Transaction) : (onCommitTransaction table batch l).2 =
      (l.flatMap (contribution table)).foldl add batch := by
  induction l generalizing batch with
  | nil => rfl
  | cons txn rest ih =>
    rw [onCommitTransaction, ih, commitTransaction_eq, flatMap_cons, foldl_append]

/-- Only the answers of the table count. -/
theorem onCommitTransaction_congr {table table' : ReserveTable} (h : ∀ reads writes tid,
      table.getDependence reads writes tid = table'.getDependence reads writes tid)
    (batch : WriteBatch) (l : List Transaction) :
    onCommitTransaction table batch l = onCommitTransaction table' batch l := by
  induction l generalizing batch with
  | nil => rfl
  | cons txn rest ih =>
    have hone : commitTransaction table batch txn = commitTransaction table' batch txn := by
      unfold commitTransaction
      rw [h]
    rw [onCommitTransaction, onCommitTransaction, hone, ih]

/-! ## The updates of one key -/

theorem foldl_add (writes : List KV) (batch : WriteBatch) :
    (writes.foldl add batch).writes =
      batch.writes ++ (writes.filter (!·.value.isEmpty)).map (fun kv => (kv.key, kv.value)) ∧
    (writes.foldl add batch).deletes =
      batch.deletes ++ (writes.filter (·.value.isEmpty)).map KV.key := by
  induction writes generalizing batch with
  | nil => simp
  | cons kv rest ih =>
    rw [foldl_cons, (ih _).1, (ih _).2]
    cases hv : kv.value.isEmpty <;>
      simp [add, hv, put, delete]

/-- The puts come first, then the deletes. -/
theorem updatesOf_eq (writes : List KV) : updatesOf writes =
    (writes.filter (!·.value.isEmpty)).map (fun kv => .put kv.key kv.value) ++
      (writes.filter (·.value.isEmpty)).map (fun kv => .delete kv.key) := by
  rw [updatesOf, ops, (foldl_add _ _).1, (foldl_add _ _).2]
  simp [empty, comp_def]

/-- The updates of one key come from the writes of that key. -/
theorem updatesOf_filter (writes : List KV) (k : Bytes) :
    (updatesOf writes).filter (·.key = k) = updatesOf (writes.filter (·.key = k)) := by
  simp only [updatesOf_eq, filter_append, filter_map, filter_filter,
    comp_def, DbOp.key, Bool.and_comm]
  rfl

section

variable {l : List Transaction} {c : Transaction → List KV} {k : Bytes}

theorem filter_key_eq_nil {writes : List KV} (h : k ∉ keys writes) :
    writes.filter (·.key = k) = [] := by
  rw [filter_eq_nil_iff]
  intro kv hkv hk
  exact h (mem_map.mpr ⟨kv, hkv, by simpa using hk⟩)

/-- The writes of a key that one transaction alone writes. -/
theorem filter_flatMap_of_unique (hl : l.Nodup) {t : Transaction} (ht : t ∈ l)
    (huniq : ∀ u ∈ l, k ∈ keys (c u) → u = t) :
    (l.flatMap c).filter (·.key = k) = (c t).filter (·.key = k) := by
  rw [filter_flatMap]
  exact flatMap_eq_of_alone hl ht fun u hu hne =>
    filter_key_eq_nil fun hk => hne (huniq u hu hk)

/-- The writes of a key that no transaction writes. -/
theorem filter_flatMap_of_none (hnone : ∀ u ∈ l, k ∉ keys (c u)) :
    (l.flatMap c).filter (·.key = k) = [] := by
  rw [filter_flatMap, flatMap_eq_nil_iff]
  exact fun u hu => filter_key_eq_nil (hnone u hu)

/-- All transactions that write a key have one write set: so often as it is repeated, the last
update of the key is that of the set alone. -/
theorem getLast?_updatesOf_copies {ws : List KV} (hcopy : ∀ u ∈ l, k ∈ keys (c u) → c u = ws)
    (hone : ∃ u ∈ l, k ∈ keys (c u)) :
    ((updatesOf (l.flatMap c)).filter (·.key = k)).getLast? =
      ((updatesOf ws).filter (·.key = k)).getLast? := by
  have hlast : ∀ f : KV → DbOp, ∀ p : KV → Bool,
      ((((l.flatMap c).filter (·.key = k)).filter p).map f).getLast? =
        (((ws.filter (·.key = k)).filter p).map f).getLast? := by
    intro f p
    rw [filter_flatMap, filter_flatMap, map_flatMap]
    apply getLast?_flatMap_copies
    · intro u hu
      by_cases hk : k ∈ keys (c u)
      · rw [hcopy u hu hk]
        exact Or.inr rfl
      · rw [filter_key_eq_nil hk]
        exact Or.inl rfl
    · obtain ⟨u, hu, hk⟩ := hone
      exact ⟨u, hu, by rw [hcopy u hu hk]⟩
  rw [updatesOf_filter, updatesOf_filter, updatesOf_eq, updatesOf_eq, getLast?_append,
    getLast?_append, hlast, hlast]

theorem updatesOf_filter_ne_nil {ws : List KV} (hk : k ∈ keys ws) :
    (updatesOf ws).filter (·.key = k) ≠ [] := by
  obtain ⟨kv, hkv, rfl⟩ := mem_map.mp hk
  have hmem : ∃ op ∈ updatesOf ws, op.key = kv.key := by
    rw [updatesOf_eq]
    cases hempty : kv.value.isEmpty with
    | false =>
      refine ⟨.put kv.key kv.value, mem_append_left _ (mem_map.mpr ⟨kv, ?_, rfl⟩), rfl⟩
      exact mem_filter.mpr ⟨hkv, by rw [hempty]; rfl⟩
    | true =>
      refine ⟨.delete kv.key, mem_append_right _ (mem_map.mpr ⟨kv, ?_, rfl⟩), rfl⟩
      exact mem_filter.mpr ⟨hkv, hempty⟩
  obtain ⟨op, hop, hkey⟩ := hmem
  exact ne_nil_of_mem (mem_filter.mpr ⟨hop, by simpa using hkey⟩)

end

/-! ## Transactions that commit -/

section

variable {db : Database} {table : ReserveTable} {t : Transaction}

@[simp] theorem executeTransaction_tid : (executeTransaction db t).1.tid = t.tid := by
  unfold executeTransaction
  dsimp only
  split_ifs <;> rfl

/-- Whoever is decided in the commit phase has reserved its keys in the execute phase. -/
theorem reservations_of_commits (h : commits table (executeTransaction db t).1 = true) :
    (executeTransaction db t).2 = updateTable (executeTransaction db t).1.reads
      (executeTransaction db t).1.writes t.tid := by
  unfold executeTransaction at h ⊢
  dsimp only at h ⊢
  split_ifs at h ⊢
  · exact absurd h (by simp [commits])
  · exact absurd h (by simp [commits])
  · rfl

theorem flags_of_commits (h : commits table t = true) :
    (table.getDependence t.reads t.writes t.tid).waw ≠ true ∧
    ¬ ((table.getDependence t.reads t.writes t.tid).war = true ∧
      (table.getDependence t.reads t.writes t.tid).raw = true) := by
  unfold commits at h
  split at h
  · cases h
  · cases h
  all_goals simpa [← Bool.not_eq_true, imp_iff_not_or] using h

theorem commits_of_mem_contribution {k : Bytes} (h : k ∈ keys (contribution table t)) :
    commits table t = true ∧ k ∈ keys t.writes := by
  unfold contribution at h
  split_ifs at h with hc
  · exact ⟨hc, h⟩
  · simp [keys] at h

end

section

variable {db : Database} {txns : List Transaction} {t u : Transaction}

/-- The tables after the execute phase of a block. -/
def blockTable (db : Database) (txns : List Transaction) : ReserveTable :=
  (onExecuteTransaction db txns).2.foldl reserve reset

/-- What a transaction of the block adds to the batches. -/
def blockWrites (db : Database) (txns : List Transaction) (t : Transaction) : List KV :=
  contribution (blockTable db txns) (executeTransaction db t).1

theorem mem_reservations {op : Reservation} : op ∈ (onExecuteTransaction db txns).2 ↔
    ∃ t ∈ txns, op ∈ (executeTransaction db t).2 := by
  simp [onExecuteTransaction, mem_flatMap]

theorem block_fst (db : Database) (txns : List Transaction) : (block db txns).1 =
    txns.map (fun t => decided (blockTable db txns) (executeTransaction db t).1) := by
  rw [block, onCommitTransaction_fst]
  simp only [onExecuteTransaction, map_map, comp_def]
  rfl

theorem block_snd (db : Database) (txns : List Transaction) : (block db txns).2 =
    DbOp.applyAll db (updatesOf (txns.flatMap (blockWrites db txns))) := by
  rw [block, onCommitTransaction_batch, updatesOf]
  simp only [onExecuteTransaction, flatMap_map]
  rfl

/-- A key is left to the smallest id: of two transactions that were let through and
write it, neither id is below the other. -/
theorem tid_eq_of_commits (ht : t ∈ txns) (hu : u ∈ txns) {k : Bytes}
    (hkt : k ∈ keys (blockWrites db txns t)) (hku : k ∈ keys (blockWrites db txns u)) :
    t.tid = u.tid := by
  have hnot : ∀ s v : Transaction, s ∈ txns → k ∈ keys (blockWrites db txns s) →
      k ∈ keys (blockWrites db txns v) → ¬ s.tid.val < v.tid.val := by
    intro s v hs hks hkv hlt
    obtain ⟨hcs, hks⟩ := commits_of_mem_contribution hks
    obtain ⟨hcv, hkv⟩ := commits_of_mem_contribution hkv
    refine (flags_of_commits hcv).1 (waw_iff.mpr ⟨k, hkv, s.tid, ?_, by simpa using hlt⟩)
    refine mem_reservations.mpr ⟨s, hs, ?_⟩
    rw [reservations_of_commits hcs]
    exact mem_updateTable.mpr (Or.inr ⟨k, hks, rfl⟩)
  have h₁ := hnot t u ht hkt hku
  have h₂ := hnot u t hu hku hkt
  exact Tid.val_inj.mp (by omega)

/-- With distinct ids, the writer of a key is unique. -/
theorem writer_unique (hids : (txns.map Transaction.tid).Nodup) (ht : t ∈ txns)
    (hu : u ∈ txns) {k : Bytes} (hkt : k ∈ keys (blockWrites db txns t))
    (hku : k ∈ keys (blockWrites db txns u)) : u = t :=
  inj_on_of_nodup_map hids hu ht (tid_eq_of_commits hu ht hku hkt)

/-! ## Any schedule -/

variable {n : Nat} {ops : List Reservation} {out : List Transaction}

/-- The workers decide with the tables of the sequential run. -/
theorem workerCommit_eq (hn : 1 ≤ n)
    (hexec : Interleave (fun w : Fin n => (onExecuteTransaction db (afterStart n w txns)).2) ops)
    (w : Nat) : workerCommit n db txns ops w =
      ((afterStart n w txns).map fun t => decided (blockTable db txns) (executeTransaction db t).1,
        ((afterStart n w txns).flatMap (blockWrites db txns)).foldl add .empty) := by
  have hmem : ∀ op, op ∈ ops ↔ op ∈ (onExecuteTransaction db txns).2 := by
    intro op
    rw [hexec.mem_iff, mem_reservations]
    simp only [mem_reservations, ← mem_afterStart hn (l := txns)]
    constructor
    · rintro ⟨w, t, ht, hop⟩
      exact ⟨t, ⟨w, ht⟩, hop⟩
    · rintro ⟨t, ⟨w, ht⟩, hop⟩
      exact ⟨w, t, ht, hop⟩
  rw [workerCommit, onCommitTransaction_congr fun reads writes tid =>
    getDependence_congr hmem reads writes tid]
  refine Prod.ext ?_ ?_
  · rw [onCommitTransaction_fst]
    simp only [onExecuteTransaction, map_map, blockTable, comp_def]
  · rw [onCommitTransaction_batch]
    simp only [onExecuteTransaction, flatMap_map]
    rfl

/-- In a block of copies, all write sets of a key are the same. -/
theorem blockWrites_eq_of_copies (hcopies : ∀ t ∈ txns, ∀ u ∈ txns, t.tid = u.tid → t = u)
    (ht : t ∈ txns) (hu : u ∈ txns) {k : Bytes}
    (hkt : k ∈ keys (blockWrites db txns t)) (hku : k ∈ keys (blockWrites db txns u)) :
    blockWrites db txns u = blockWrites db txns t := by
  rw [hcopies u hu t ht (tid_eq_of_commits hu ht hku hkt)]

/-- **The interleaving of the batches cannot be seen**, if the transactions that write a key all
write the same: the workers that touch it end with the same update of it, so whichever comes
last, the key holds what the sequential run leaves. -/
theorem applyAll_interleave (hn : 1 ≤ n) {c : Transaction → List KV}
    (hcopies : ∀ t ∈ txns, ∀ u ∈ txns, ∀ k, k ∈ keys (c t) → k ∈ keys (c u) → c u = c t)
    {updates : List DbOp} (hupd : Interleave
      (fun w : Fin n => updatesOf ((afterStart n w txns).flatMap c)) updates) :
    DbOp.applyAll db updates = DbOp.applyAll db (updatesOf (txns.flatMap c)) := by
  funext k
  rw [DbOp.applyAll_last, DbOp.applyAll_last]
  have hfilter := hupd.filter (·.key = k)
  have hsub : ∀ w : Fin n, ∀ u ∈ afterStart n w txns, u ∈ txns :=
    fun w u hu => (mem_afterStart hn).mp ⟨w, hu⟩
  congr 1
  by_cases hk : ∃ t ∈ txns, k ∈ keys (c t)
  · obtain ⟨t, ht, hkt⟩ := hk
    have hcopy : ∀ u ∈ txns, k ∈ keys (c u) → c u = c t :=
      fun u hu hku => hcopies t ht u hu k hkt hku
    have hworker : ∀ w : Fin n, (∃ u ∈ afterStart n w txns, k ∈ keys (c u)) →
        ((updatesOf ((afterStart n w txns).flatMap c)).filter (·.key = k)).getLast? =
        ((updatesOf (c t)).filter (·.key = k)).getLast? :=
      fun w hone => getLast?_updatesOf_copies (fun u hu => hcopy u (hsub w u hu)) hone
    rw [getLast?_updatesOf_copies hcopy ⟨t, ht, hkt⟩]
    -- the worker of `t` has something to do, so there is a last update, and it is some worker's
    obtain ⟨w, hw⟩ := (mem_afterStart hn).mpr ht
    obtain ⟨x, hx⟩ := Option.ne_none_iff_exists'.mp
      (mt getLast?_eq_none_iff.mp (updatesOf_filter_ne_nil hkt))
    have hmem : x ∈ updates.filter (·.key = k) :=
      hfilter.mem_iff.mpr ⟨w, mem_of_getLast? ((hworker w ⟨t, hw, hkt⟩).trans hx)⟩
    obtain ⟨y, hy⟩ := Option.ne_none_iff_exists'.mp
      (mt getLast?_eq_none_iff.mp (ne_nil_of_mem hmem))
    obtain ⟨w', hw'⟩ := hfilter.exists_getLast? hy
    rw [hy, ← hw', hworker w' ?_]
    by_contra hnone
    rw [updatesOf_filter, filter_flatMap_of_none fun u hu hku => hnone ⟨u, hu, hku⟩] at hw'
    cases hw'
  · have hnone : ∀ u ∈ txns, k ∉ keys (c u) := fun u hu hku => hk ⟨u, hu, hku⟩
    rw [updatesOf_filter, filter_flatMap_of_none hnone, hfilter.eq_nil fun w => ?_]
    · rfl
    rw [updatesOf_filter, filter_flatMap_of_none fun u hu => hnone u (hsub w u hu)]
    rfl

/-- In every run the transactions are decided as in the sequential one. -/
theorem processSync_out (hn : 1 ≤ n) {db' : Database}
    (h : ProcessSync n db txns out db') : out = (block db txns).1 := by
  obtain ⟨hexec, -⟩ := h
  simp only [workerCommit_eq hn hexec]
  rw [block_fst]
  exact afterCommit_afterStart hn _

/-- The database that a block of copies leaves depends on the set of its transactions alone. -/
theorem block_snd_congr {txns' : List Transaction} (hmem : ∀ t, t ∈ txns ↔ t ∈ txns')
    (hcopies : ∀ t ∈ txns, ∀ u ∈ txns, t.tid = u.tid → t = u) :
    (block db txns).2 = (block db txns').2 := by
  have hwrites : blockWrites db txns = blockWrites db txns' := by
    funext t
    have hops : ∀ op, op ∈ (onExecuteTransaction db txns).2 ↔
        op ∈ (onExecuteTransaction db txns').2 := by
      intro op
      simp only [mem_reservations, hmem]
    have hcommits : commits (blockTable db txns) (executeTransaction db t).1 =
        commits (blockTable db txns') (executeTransaction db t).1 := by
      unfold commits blockTable
      rw [getDependence_congr hops]
    rw [blockWrites, blockWrites, contribution, contribution, hcommits]
  rw [block_snd, block_snd, ← hwrites]
  funext k
  rw [DbOp.applyAll_last, DbOp.applyAll_last]
  congr 1
  by_cases hk : ∃ t ∈ txns, k ∈ keys (blockWrites db txns t)
  · obtain ⟨t, ht, hkt⟩ := hk
    have hcopy : ∀ u ∈ txns, k ∈ keys (blockWrites db txns u) →
        blockWrites db txns u = blockWrites db txns t :=
      fun u hu hku => blockWrites_eq_of_copies hcopies ht hu hkt hku
    rw [getLast?_updatesOf_copies hcopy ⟨t, ht, hkt⟩,
      getLast?_updatesOf_copies (fun u hu => hcopy u ((hmem u).mpr hu)) ⟨t, (hmem t).mp ht, hkt⟩]
  · have hnone : ∀ u ∈ txns, k ∉ keys (blockWrites db txns u) := fun u hu hku => hk ⟨u, hu, hku⟩
    rw [updatesOf_filter, updatesOf_filter, filter_flatMap_of_none hnone,
      filter_flatMap_of_none fun u hu => hnone u ((hmem u).mpr hu)]

/-- **A block has one outcome, and some schedule reaches it**, if equal ids are found on copies of
one request only. Whatever the number of workers and however their operations interleave, the
run ends as the sequential one. -/
theorem processSync_copies_iff (hn : 1 ≤ n)
    (hcopies : ∀ t ∈ txns, ∀ u ∈ txns, t.tid = u.tid → t = u) {db' : Database} :
    ProcessSync n db txns out db' ↔ out = (block db txns).1 ∧ db' = (block db txns).2 := by
  have hone : ∀ out db', ProcessSync n db txns out db' →
      out = (block db txns).1 ∧ db' = (block db txns).2 := by
    intro out db' h
    refine ⟨processSync_out hn h, ?_⟩
    obtain ⟨hexec, hcommit⟩ := h
    simp only [workerCommit_eq hn hexec] at hcommit
    rw [block_snd]
    apply applyAll_interleave hn _ hcommit
    exact fun t ht u hu k hkt hku => blockWrites_eq_of_copies hcopies ht hu hkt hku
  refine ⟨hone out db', ?_⟩
  rintro ⟨rfl, rfl⟩
  obtain ⟨ops, hexec⟩ := Interleave.exists_out
    fun w : Fin n => (onExecuteTransaction db (afterStart n w txns)).2
  obtain ⟨updates, hcommit⟩ := Interleave.exists_out
    fun w : Fin n => (workerCommit n db txns ops w).2.ops
  have hrun := ProcessSync.run hexec hcommit
  obtain ⟨hout, hdb⟩ := hone _ _ hrun
  rwa [hout, hdb] at hrun

/-- The same for distinct ids. -/
theorem processSync_iff (hn : 1 ≤ n) (hids : (txns.map Transaction.tid).Nodup) {db' : Database} :
    ProcessSync n db txns out db' ↔ out = (block db txns).1 ∧ db' = (block db txns).2 :=
  processSync_copies_iff hn fun _ ht _ hu heq => inj_on_of_nodup_map hids ht hu heq

end

end MassBFT.Exec
