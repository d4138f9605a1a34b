import Mathlib.Data.List.Sort
import MassBFT.Exec.Parallel

/-!
# The deterministic engine is serializable

All transactions of a block read the database as it was before the block, and the
commit phase filters them by three flags. Take the committed ones in this order:

* first those that write nothing;
* then the writers with the flag `raw`, by falling id;
* then the other writers, by rising id.

**In this order nobody reads a key that somebody before them wrote**
(`pairwise_serialOrder`). If `a` comes before `b` and writes what `b` reads, then
either the id of `a` is smaller and `b` has `raw`, or the id of `b` is smaller and `a`
has `war`; the order leaves no place for the first, and in the second `a` has `raw`
too and would have been aborted. So each of them, run alone in its turn, finds the
values it found in the block.
-/

set_option autoImplicit false

namespace MassBFT.Exec

open List ReserveTable

/-- One block after another, each of a single transaction. -/
inductive SerialRun (n : Nat) : Database → List Transaction → List Transaction → Database → Prop
  | nil (db : Database) : SerialRun n db [] [] db
  | cons {db db₁ db₂ : Database} {txn : Transaction} {rest out outs : List Transaction}
      (now : ProcessSync n db [txn] out db₁) (later : SerialRun n db₁ rest outs db₂) :
      SerialRun n db (txn :: rest) (out ++ outs) db₂

/-- The request of a transaction, as it was before the engine saw it. -/
def restart (txn : Transaction) : Transaction := newTransactionFromEnvelop txn.envelop

/-- The transactions that are made of some requests. -/
abbrev requested (envs : List Envelop) : List Transaction := envs.map newTransactionFromEnvelop

theorem nodup_requested {envs : List Envelop} (hids : (envs.map Envelop.digest).Nodup) :
    ((requested envs).map Transaction.tid).Nodup := by
  rw [map_map]
  exact hids

/-- The transactions that commit are distinct, if the engine leaves the ids as they are. -/
theorem nodup_commits {envs : List Envelop} (hids : (envs.map Envelop.digest).Nodup)
    {out : List Transaction} (htids : out.map Transaction.tid = envs.map Envelop.digest) :
    (out.filter (·.executionResult = .COMMIT)).Nodup :=
  (Nodup.of_map Transaction.tid (htids ▸ hids)).filter _

/-! ## A transaction alone -/

/-- A request that succeeded on `db` and waits for its verdict. -/
def undecided (db : Database) (e : Envelop) : Transaction where
  envelop := e
  tid := e.digest
  executionResult := .PENDING
  retValue := (e.invoke db).retValue
  reads := (e.invoke db).reads
  writes := (e.invoke db).writes

/-- What a request leaves when it succeeds on `db` and commits. -/
def finished (db : Database) (e : Envelop) : Transaction :=
  { undecided db e with executionResult := .COMMIT }

/-- The execute phase on a fresh transaction. -/
theorem executeTransaction_fresh (db : Database) (e : Envelop) :
    ((e.invoke db).ret ≠ 0 ∧ (executeTransaction db (newTransactionFromEnvelop e)).2 = [] ∧
      (executeTransaction db (newTransactionFromEnvelop e)).1.executionResult = .ABORT_NO_RETRY) ∨
    ((e.invoke db).ret = 0 ∧ (e.invoke db).writes = [] ∧
      executeTransaction db (newTransactionFromEnvelop e) = (finished db e, [])) ∨
    ((e.invoke db).ret = 0 ∧ (e.invoke db).writes ≠ [] ∧
      executeTransaction db (newTransactionFromEnvelop e) =
        (undecided db e, updateTable (undecided db e).reads (undecided db e).writes e.digest)) := by
  unfold executeTransaction newTransactionFromEnvelop finished undecided
  by_cases hret : (e.invoke db).ret = 0
  · by_cases hw : (e.invoke db).writes = []
    · simp [hret, hw]
    · simp [hret, hw]
  · simp [hret]

/-- A fresh transaction that ends with `COMMIT` has succeeded, has reserved its keys if
it writes, was let through, and its write set is in the batch. -/
theorem decided_commit {db : Database} {table : ReserveTable} {e : Envelop}
    (h : (decided table (executeTransaction db (newTransactionFromEnvelop e)).1).executionResult =
      .COMMIT) :
    decided table (executeTransaction db (newTransactionFromEnvelop e)).1 = finished db e ∧
    (e.invoke db).ret = 0 ∧
    contribution table (executeTransaction db (newTransactionFromEnvelop e)).1 =
      (finished db e).writes := by
  obtain ⟨_, _, hr⟩ | ⟨hret, hw, hx⟩ | ⟨hret, hw, hx⟩ := executeTransaction_fresh db e
  · simp [decided, verdict, hr] at h
  · rw [hx]
    refine ⟨rfl, hret, ?_⟩
    simp [contribution, commits, finished, undecided, hw]
  · rw [hx] at h ⊢
    have hpending : (undecided db e).executionResult = .PENDING := rfl
    have hc : commits table (undecided db e) = true := by
      by_contra hc
      simp [decided, verdict, hpending, hc] at h
    refine ⟨?_, hret, ?_⟩
    · simp [decided, verdict, hpending, hc, finished]
    · simp [contribution, hc, finished]

/-- A transaction that does not end with `COMMIT` writes nothing. -/
theorem contribution_of_not_commit {table : ReserveTable} {txn : Transaction}
    (h : (decided table txn).executionResult ≠ .COMMIT) : contribution table txn = [] := by
  by_contra hne
  have hc : commits table txn = true := by
    by_contra hc
    exact hne (by simp [contribution, hc])
  refine h ?_
  unfold decided verdict
  cases hr : txn.executionResult with
  | ABORT_NO_RETRY | COMMIT => simp [commits, hr] at hc
  | PENDING | ABORT => simp [hc]

/-- **A request that succeeds commits when it is a block of its own**: the only
reservations are its own, and no id is below itself. -/
theorem block_single {db : Database} {e : Envelop} (hret : (e.invoke db).ret = 0) :
    block db [newTransactionFromEnvelop e] =
      ([finished db e], DbOp.applyAll db (updatesOf (finished db e).writes)) := by
  have hcommit : (decided (blockTable db [newTransactionFromEnvelop e])
      (executeTransaction db (newTransactionFromEnvelop e)).1).executionResult = .COMMIT := by
    obtain ⟨hne, _⟩ | ⟨_, _, hx⟩ | ⟨_, _, hx⟩ := executeTransaction_fresh db e
    · exact absurd hret hne
    · rw [hx]
      rfl
    · have hops : (onExecuteTransaction db [newTransactionFromEnvelop e]).2 =
          updateTable (undecided db e).reads (undecided db e).writes e.digest := by
        simp [onExecuteTransaction, hx]
      have hown : ∀ k t, (.write k t ∈ (onExecuteTransaction db [newTransactionFromEnvelop e]).2 ∨
          .read k t ∈ (onExecuteTransaction db [newTransactionFromEnvelop e]).2) →
          t = e.digest := by
        intro k t h
        rw [hops, mem_updateTable, mem_updateTable] at h
        rcases h with (⟨_, _, h⟩ | ⟨_, _, h⟩) | (⟨_, _, h⟩ | ⟨_, _, h⟩) <;> cases h <;> rfl
      have hwaw : ((blockTable db [newTransactionFromEnvelop e]).getDependence
          (undecided db e).reads (undecided db e).writes e.digest).waw ≠ true := by
        intro h
        obtain ⟨k, _, t, ht, hlt⟩ := waw_iff.mp h
        rw [hown k t (Or.inl ht)] at hlt
        exact lt_irrefl _ hlt
      have hwar : ((blockTable db [newTransactionFromEnvelop e]).getDependence
          (undecided db e).reads (undecided db e).writes e.digest).war ≠ true := by
        intro h
        obtain ⟨k, _, t, ht, hlt⟩ := war_iff.mp h
        rw [hown k t (Or.inr ht)] at hlt
        exact lt_irrefl _ hlt
      have hpending : (undecided db e).executionResult = .PENDING := rfl
      have hid : (undecided db e).tid = e.digest := rfl
      have hc : commits (blockTable db [newTransactionFromEnvelop e]) (undecided db e) = true := by
        simp [commits, hpending, hid, hwaw, hwar]
      rw [hx]
      simp [decided, verdict, hpending, hc]
  obtain ⟨hfin, _, hcontr⟩ := decided_commit hcommit
  apply Prod.ext
  · rw [block_fst, map_singleton, hfin]
  · rw [block_snd, flatMap_singleton, blockWrites, hcontr]

/-! ## The committed transactions of a block -/

section

variable {db : Database} {envs : List Envelop}

/-- The transactions of a block that end with `COMMIT`. -/
def committed (db : Database) (envs : List Envelop) : List Transaction :=
  (block db (envs.map newTransactionFromEnvelop)).1.filter (·.executionResult = .COMMIT)

theorem mem_committed {f : Transaction} (hf : f ∈ committed db envs) :
    f.envelop ∈ envs ∧ f = finished db f.envelop ∧ (f.envelop.invoke db).ret = 0 ∧
    blockWrites db (requested envs) (newTransactionFromEnvelop f.envelop) = f.writes := by
  rw [committed, block_fst, map_map, mem_filter, mem_map] at hf
  obtain ⟨⟨e, he, rfl⟩, hc⟩ := hf
  obtain ⟨hfin, hret, hcontr⟩ := decided_commit (of_decide_eq_true hc)
  rw [Function.comp_apply, hfin]
  exact ⟨he, rfl, hret, hcontr⟩

/-- A request of the block that is let through is among the committed ones. -/
theorem finished_mem_committed {e : Envelop} (he : e ∈ envs)
    (hw : blockWrites db (requested envs) (newTransactionFromEnvelop e) ≠ []) :
    finished db e ∈ committed db envs := by
  have hc : (decided (blockTable db (requested envs))
      (executeTransaction db (newTransactionFromEnvelop e)).1).executionResult = .COMMIT := by
    by_contra hc
    exact hw (contribution_of_not_commit hc)
  rw [committed, block_fst, map_map, mem_filter, mem_map]
  refine ⟨⟨e, he, (decided_commit hc).1⟩, rfl⟩

theorem nodup_committed (hids : (envs.map Envelop.digest).Nodup) : (committed db envs).Nodup := by
  refine nodup_commits hids ?_
  rw [block_fst, map_map, map_map]
  refine map_congr_left fun e _ => ?_
  simp [decided, newTransactionFromEnvelop]

/-- A committed writer was let through, and its reservations are in the tables. -/
theorem committed_writer {f : Transaction} (hf : f ∈ committed db envs) (hw : f.writes ≠ []) :
    (∀ k ∈ keys f.reads, .read k f.tid ∈ (onExecuteTransaction db (requested envs)).2) ∧
    (∀ k ∈ keys f.writes, .write k f.tid ∈ (onExecuteTransaction db (requested envs)).2) ∧
    commits (blockTable db (requested envs)) (undecided db f.envelop) = true := by
  obtain ⟨he, hfin, hret, hcontr⟩ := mem_committed hf
  obtain ⟨hne, _⟩ | ⟨_, hnil, _⟩ | ⟨_, _, hx⟩ := executeTransaction_fresh db f.envelop
  · exact absurd hret hne
  · exact absurd (by rw [hfin]; exact hnil) hw
  have hops : ∀ op ∈ updateTable f.reads f.writes f.tid,
      op ∈ (onExecuteTransaction db (requested envs)).2 := by
    intro op hop
    refine mem_reservations.mpr ⟨_, mem_map_of_mem he, ?_⟩
    rw [hx]
    rw [hfin] at hop
    exact hop
  refine ⟨fun k hk => hops _ (mem_updateTable.mpr (Or.inl ⟨k, hk, rfl⟩)),
    fun k hk => hops _ (mem_updateTable.mpr (Or.inr ⟨k, hk, rfl⟩)), ?_⟩
  by_contra hc
  rw [blockWrites, hx, contribution, if_neg hc] at hcontr
  exact hw hcontr.symm

end

/-! ## The serial order -/

section

/-- The flag `raw` of a transaction. -/
def hasRaw (table : ReserveTable) (txn : Transaction) : Bool :=
  (table.getDependence txn.reads txn.writes txn.tid).raw

/-- Writers with `raw` by falling id, then the others by rising id. -/
def writerOrder (table : ReserveTable) (l : List Transaction) : List Transaction :=
  (l.filter (hasRaw table ·)).mergeSort (fun a b => b.tid.val ≤ a.tid.val) ++
    (l.filter (!hasRaw table ·)).mergeSort (fun a b => a.tid.val ≤ b.tid.val)

/-- Readers come first. -/
def serialOrder (table : ReserveTable) (l : List Transaction) : List Transaction :=
  l.filter (·.writes = []) ++ writerOrder table (l.filter (¬ ·.writes = []))

theorem writerOrder_perm (table : ReserveTable) (l : List Transaction) :
    (writerOrder table l).Perm l :=
  ((mergeSort_perm _ _).append (mergeSort_perm _ _)).trans (filter_append_perm _ _)

theorem serialOrder_perm (table : ReserveTable) (l : List Transaction) :
    (serialOrder table l).Perm l := by
  refine ((writerOrder_perm table _).append_left _).trans ?_
  simpa using filter_append_perm (fun t : Transaction => decide (t.writes = [])) l

variable {db : Database} {envs : List Envelop}

/-- Of two committed writers, the one with the smaller id decides which flag the other
carries when one writes what the other reads. -/
theorem flags_of_conflict {a b : Transaction} (ha : a ∈ committed db envs)
    (hb : b ∈ committed db envs) (hwb : b.writes ≠ []) {k : Bytes} (hka : k ∈ keys a.writes)
    (hkb : k ∈ keys b.reads) :
    (a.tid.val < b.tid.val → hasRaw (blockTable db (requested envs)) b = true) ∧
    (b.tid.val < a.tid.val → hasRaw (blockTable db (requested envs)) a = false)
    := by
  have hwa : a.writes ≠ [] := fun h => by simp [h, keys] at hka
  obtain ⟨_, hwrite, hc⟩ := committed_writer ha hwa
  obtain ⟨hread, _, _⟩ := committed_writer hb hwb
  constructor
  · intro hlt
    exact raw_iff.mpr ⟨k, hkb, a.tid, hwrite k hka, hlt⟩
  · intro hlt
    rw [← Bool.not_eq_true]
    intro hraw
    -- `a` has `war` because of `b`, so with `raw` it would have been aborted
    rw [(mem_committed ha).2.1] at hraw hka hlt
    exact (flags_of_commits hc).2 ⟨war_iff.mpr ⟨k, hka, b.tid, hread k hkb, hlt⟩, hraw⟩

theorem tid_injOn_committed (hids : (envs.map Envelop.digest).Nodup) {a b : Transaction}
    (ha : a ∈ committed db envs) (hb : b ∈ committed db envs) (h : a.tid.val = b.tid.val) :
    a = b := by
  obtain ⟨hea, hfa, _⟩ := mem_committed ha
  obtain ⟨heb, hfb, _⟩ := mem_committed hb
  have hdig : a.envelop.digest = b.envelop.digest := by
    have := Tid.val_inj.mp h
    rw [hfa, hfb] at this
    exact this
  rw [hfa, hfb, inj_on_of_nodup_map hids hea heb hdig]

/-- The writers are sorted so that a flag never points forward. -/
theorem pairwise_writerOrder (table : ReserveTable) (l : List Transaction) :
    (writerOrder table l).Pairwise fun a b => (hasRaw table b = true → b.tid.val ≤ a.tid.val) ∧
      (hasRaw table a = false → a.tid.val ≤ b.tid.val) := by
  have hdown : ((l.filter (hasRaw table ·)).mergeSort (fun a b => b.tid.val ≤ a.tid.val)).Pairwise
      fun a b => decide (b.tid.val ≤ a.tid.val) = true :=
    pairwise_mergeSort (fun a b c => by simp; omega) (fun a b => by simp; omega) _
  have hup : ((l.filter (!hasRaw table ·)).mergeSort (fun a b => a.tid.val ≤ b.tid.val)).Pairwise
      fun a b => decide (a.tid.val ≤ b.tid.val) = true :=
    pairwise_mergeSort (fun a b c => by simp; omega) (fun a b => by simp; omega) _
  rw [writerOrder, pairwise_append]
  refine ⟨hdown.imp_of_mem ?_, hup.imp_of_mem ?_, ?_⟩
  · intro a b ha _ hle
    have hraw := (mem_filter.mp (mem_mergeSort.mp ha)).2
    simpa [hraw] using fun _ => hle
  · intro a b _ hb hle
    have hraw := (mem_filter.mp (mem_mergeSort.mp hb)).2
    rw [Bool.not_eq_true'] at hraw
    simpa [hraw] using fun _ => hle
  · intro a ha b hb
    have hraw := (mem_filter.mp (mem_mergeSort.mp ha)).2
    have hraw' := (mem_filter.mp (mem_mergeSort.mp hb)).2
    rw [Bool.not_eq_true'] at hraw'
    simp [hraw, hraw']

/-- **In the serial order nobody reads a key that somebody before them wrote.** -/
theorem pairwise_serialOrder (hids : (envs.map Envelop.digest).Nodup) :
    (serialOrder (blockTable db (requested envs)) (committed db envs)).Pairwise
      fun a b => ∀ k ∈ keys a.writes, k ∉ keys b.reads := by
  have hnodup := (serialOrder_perm (blockTable db (requested envs))
    (committed db envs)).nodup_iff.mpr (nodup_committed hids)
  rw [serialOrder] at hnodup ⊢
  have hreader : ∀ a ∈ (committed db envs).filter (·.writes = []), ∀ k, k ∉ keys a.writes := by
    intro a ha k
    have hnil : a.writes = [] := by simpa using (mem_filter.mp ha).2
    simp [hnil, keys]
  rw [pairwise_append]
  refine ⟨?_, ?_, fun a ha b _ k hk => absurd hk (hreader a ha k)⟩
  · exact pairwise_of_forall_mem_list fun a ha b _ k hk => absurd hk (hreader a ha k)
  have hwriter : ∀ f ∈ writerOrder (blockTable db (requested envs))
      ((committed db envs).filter (¬ ·.writes = [])), f ∈ committed db envs ∧ f.writes ≠ [] := by
    intro f hf
    simpa using (writerOrder_perm _ _).mem_iff.mp hf
  refine (Pairwise.and (pairwise_writerOrder _ _) hnodup.of_append_right).imp_of_mem ?_
  rintro a b ha hb ⟨⟨hraw, hnraw⟩, hne⟩ k hka hkb
  obtain ⟨hlt, hgt⟩ := flags_of_conflict (hwriter a ha).1 (hwriter b hb).1 (hwriter b hb).2 hka hkb
  rcases Nat.lt_trichotomy a.tid.val b.tid.val with h | h | h
  · exact absurd (hraw (hlt h)) (by omega)
  · exact hne (tid_injOn_committed hids (hwriter a ha).1 (hwriter b hb).1 h)
  · exact absurd (hnraw (hgt h)) (by omega)

end

/-! ## Running the order -/

section

variable {n : Nat} {db : Database} {envs : List Envelop}

/-- A transaction that reads in `d` what it read in `db` does the same when it runs again. -/
theorem processSync_restart_iff (hn : 1 ≤ n) {f : Transaction}
    (hf : f = finished db f.envelop) (hret : (f.envelop.invoke db).ret = 0)
    (hdecide : f.envelop.ReadsDecide) {d : Database} (hagree : ∀ k ∈ keys f.reads, db k = d k)
    {out : List Transaction} {d' : Database} :
    ProcessSync n d [restart f] out d' ↔ out = [f] ∧ d' = DbOp.applyAll d (updatesOf f.writes) := by
  have hsame : f.envelop.invoke d = f.envelop.invoke db := by
    refine hdecide db d fun k hk => hagree k ?_
    rw [hf]
    exact hk
  have hfd : finished d f.envelop = f := by
    rw [hf]
    simp [finished, undecided, hsame]
  have hblock : block d [restart f] = ([f], DbOp.applyAll d (updatesOf f.writes)) := by
    rw [restart, block_single (by rw [hsame, hret]), hfd]
  rw [processSync_iff hn (by simp), hblock]

/-- Writes leave every other key alone. -/
theorem applyAll_updatesOf_of_notMem {writes : List KV} {k : Bytes} (hk : k ∉ keys writes)
    (d : Database) : DbOp.applyAll d (updatesOf writes) k = d k := by
  rw [DbOp.applyAll_filter, updatesOf_filter, filter_key_eq_nil hk]
  rfl

/-- A run of finished transactions whose reads nobody before them disturbs gives each
of them again what it had on `db`. -/
theorem serialRun_iff (hn : 1 ≤ n) {l : List Transaction}
    (hfin : ∀ f ∈ l, f = finished db f.envelop ∧ (f.envelop.invoke db).ret = 0 ∧
      f.envelop.ReadsDecide)
    (hpair : l.Pairwise fun a b => ∀ k ∈ keys a.writes, k ∉ keys b.reads) {d : Database}
    (hagree : ∀ f ∈ l, ∀ k ∈ keys f.reads, db k = d k) {out : List Transaction} {d' : Database} :
    SerialRun n d (l.map restart) out d' ↔
      out = l ∧ d' = DbOp.applyAll d (l.flatMap fun f => updatesOf f.writes) := by
  induction l generalizing d out with
  | nil =>
    constructor
    · intro h
      cases h
      exact ⟨rfl, rfl⟩
    · rintro ⟨rfl, rfl⟩
      exact .nil _
  | cons f rest ih =>
    rw [pairwise_cons] at hpair
    obtain ⟨hf, hret, hdecide⟩ := hfin f mem_cons_self
    have hnow : ∀ o d₁, ProcessSync n d [restart f] o d₁ ↔
        o = [f] ∧ d₁ = DbOp.applyAll d (updatesOf f.writes) := fun _ _ =>
      processSync_restart_iff hn hf hret hdecide (hagree f mem_cons_self)
    have hlater : ∀ g ∈ rest, ∀ k ∈ keys g.reads,
        db k = DbOp.applyAll d (updatesOf f.writes) k := by
      intro g hg k hk
      rw [applyAll_updatesOf_of_notMem fun hw => hpair.1 g hg k hw hk]
      exact hagree g (mem_cons_of_mem f hg) k hk
    have hrest : ∀ o, SerialRun n (DbOp.applyAll d (updatesOf f.writes)) (rest.map restart) o d' ↔
        o = rest ∧ d' = DbOp.applyAll (DbOp.applyAll d (updatesOf f.writes))
          (rest.flatMap fun f => updatesOf f.writes) := fun o =>
      ih (fun g hg => hfin g (mem_cons_of_mem f hg)) hpair.2 hlater
    rw [flatMap_cons, DbOp.applyAll_append]
    constructor
    · intro h
      obtain _ | ⟨now, later⟩ := h
      obtain ⟨rfl, rfl⟩ := (hnow _ _).mp now
      obtain ⟨rfl, rfl⟩ := (hrest _).mp later
      exact ⟨rfl, rfl⟩
    · rintro ⟨rfl, rfl⟩
      exact SerialRun.cons ((hnow _ _).mpr ⟨rfl, rfl⟩) ((hrest _).mpr ⟨rfl, rfl⟩)

/-- What a committed transaction writes is what the block writes for its envelope. -/
theorem writes_of_committed {f : Transaction} (hf : f ∈ committed db envs) :
    newTransactionFromEnvelop f.envelop ∈ requested envs ∧
      f = finished db f.envelop ∧ blockWrites db (requested envs)
        (newTransactionFromEnvelop f.envelop) = f.writes := by
  obtain ⟨he, hfin, _, hw⟩ := mem_committed hf
  exact ⟨mem_map_of_mem he, hfin, hw⟩

/-- A key that one transaction of the block writes: of the committed ones, only that one does. -/
theorem writes_of_other (hids : (envs.map Envelop.digest).Nodup) {e : Envelop}
    (he : e ∈ envs) {k : Bytes} (hk : k ∈ keys (blockWrites db (requested envs)
      (newTransactionFromEnvelop e))) {f : Transaction} (hf : f ∈ committed db envs)
    (hne : f ≠ finished db e) : k ∉ keys f.writes := by
  obtain ⟨hft, hfin, hw⟩ := writes_of_committed hf
  have htids := nodup_requested hids
  intro hkf
  rw [← hw] at hkf
  have heq := congrArg Transaction.envelop (writer_unique htids (mem_map_of_mem he) hft hk hkf)
  refine hne ?_
  rw [hfin]
  exact congrArg (finished db) heq

/-- The committed transactions, in any order, leave the database of the block: no two
of them write a common key. -/
theorem applyAll_committed (hids : (envs.map Envelop.digest).Nodup)
    {l : List Transaction} (hl : l.Perm (committed db envs)) :
    DbOp.applyAll db (l.flatMap fun f => updatesOf f.writes) = (block db (requested envs)).2 := by
  have htids := nodup_requested hids
  set txns := requested envs
  rw [block_snd]
  funext k
  rw [DbOp.applyAll_filter, DbOp.applyAll_filter db (updatesOf _), updatesOf_filter, filter_flatMap]
  simp only [updatesOf_filter]
  congr 1
  by_cases hk : ∃ t ∈ txns, k ∈ keys (blockWrites db txns t)
  · obtain ⟨t, ht, hkt⟩ := hk
    obtain ⟨e, he, rfl⟩ := mem_map.mp ht
    have hmem : finished db e ∈ l := by
      refine hl.mem_iff.mpr (finished_mem_committed he fun hnil => ?_)
      rw [hnil] at hkt
      simp [keys] at hkt
    rw [filter_flatMap_of_unique (Nodup.of_map _ htids) ht fun u hu hku =>
      writer_unique htids ht hu hkt hku]
    rw [flatMap_eq_of_alone (hl.nodup_iff.mpr (nodup_committed hids)) hmem]
    · rw [← (writes_of_committed (hl.mem_iff.mp hmem)).2.2]
      rfl
    · intro f hf hne
      rw [filter_key_eq_nil (writes_of_other hids he hkt (hl.mem_iff.mp hf) hne)]
      rfl
  · have hnone : ∀ u ∈ txns, k ∉ keys (blockWrites db txns u) := fun u hu hku => hk ⟨u, hu, hku⟩
    rw [filter_flatMap_of_none hnone, flatMap_eq_nil_iff.mpr]
    · rfl
    intro f hf
    obtain ⟨hft, _, hw⟩ := writes_of_committed (hl.mem_iff.mp hf)
    rw [filter_key_eq_nil fun hkf => hnone _ hft (hw ▸ hkf)]
    rfl

/-- **The serial order has one outcome, that of the block.** -/
theorem serialRun_serialOrder (hn : 1 ≤ n)
    (hids : (envs.map Envelop.digest).Nodup) (hdecide : ∀ e ∈ envs, e.ReadsDecide)
    (o : List Transaction) (d : Database) :
    SerialRun n db ((serialOrder (blockTable db (requested envs)) (committed db envs)).map restart)
      o d ↔ o = serialOrder (blockTable db (requested envs)) (committed db envs) ∧
        d = (block db (requested envs)).2 := by
  have hperm := serialOrder_perm (blockTable db (requested envs)) (committed db envs)
  rw [serialRun_iff hn ?_ (pairwise_serialOrder hids) fun f _ k _ => rfl,
    applyAll_committed hids hperm]
  intro f hf
  obtain ⟨he, hfin, hret, _⟩ := mem_committed (hperm.mem_iff.mp hf)
  exact ⟨hfin, hret, hdecide _ he⟩

end

/-- **Serializability.** A block of fresh transactions with distinct ids has one outcome
on `n` workers, and there is an order of its committed transactions such that running
them one by one through the same engine gives each of them the same reads, writes,
return value and result, and ends in the database the block left. -/
theorem block_serializable {n : Nat} (hn : 1 ≤ n) (db : Database) {envs : List Envelop}
    (hids : (envs.map Envelop.digest).Nodup) (hdecide : ∀ e ∈ envs, e.ReadsDecide) :
    ∃ (out : List Transaction) (db' : Database),
      (∀ o d, ProcessSync n db (envs.map newTransactionFromEnvelop) o d ↔ o = out ∧ d = db') ∧
      ∃ order : List Transaction, order.Perm (out.filter (·.executionResult = .COMMIT)) ∧
        ∀ o d, SerialRun n db (order.map restart) o d ↔ o = order ∧ d = db' := by
  exact ⟨_, _, fun o d => processSync_iff hn (nodup_requested hids), _, serialOrder_perm _ _,
    serialRun_serialOrder hn hids hdecide⟩

/-- A request that copies the value of one key to another. -/
def copyRequest (id : UInt8) (src dst : Bytes) : Envelop where
  digest := ⟨List.replicate 63 0 ++ [id], length_zeros_concat id⟩
  invoke db :=
    { ret := 0
      reads := [⟨src, (db src).getD []⟩]
      writes := [⟨dst, (db src).getD []⟩]
      retValue := [] }

theorem copyRequest_readsDecide (id : UInt8) (src dst : Bytes) :
    (copyRequest id src dst).ReadsDecide := by
  intro db db' h
  have hsrc : db src = db' src := h src (by simp [copyRequest, keys])
  simp [copyRequest, hsrc]

/-- The first two each read what the other writes; the third one reads what the first one writes,
and the fourth one writes it too. -/
def crossing : List Envelop :=
  [copyRequest 1 [0] [1], copyRequest 2 [1] [0], copyRequest 3 [1] [2], copyRequest 4 [3] [1]]

theorem crossing_readsDecide : ∀ e ∈ crossing, e.ReadsDecide := by
  intro e he
  simp only [crossing, mem_cons, not_mem_nil, or_false] at he
  rcases he with rfl | rfl | rfl | rfl <;> exact copyRequest_readsDecide _ _ _

/-- The first and the third commit; the third one comes first. -/
theorem block_serializable_crossing : (crossing.map Envelop.digest).Nodup ∧
    ∃ (out : List Transaction) (db' : Database),
      (∀ o d, ProcessSync 2 (fun k => some k) (crossing.map newTransactionFromEnvelop) o d ↔
        o = out ∧ d = db') ∧
      out.map Transaction.executionResult = [.COMMIT, .ABORT, .COMMIT, .ABORT] ∧
      db' [1] = some [0] ∧ db' [2] = some [1] ∧
      ∃ order : List Transaction, order.Perm (out.filter (·.executionResult = .COMMIT)) ∧
        ∀ o d, SerialRun 2 (fun k => some k) (order.map restart) o d ↔ o = order ∧ d = db' := by
  have hids : (crossing.map Envelop.digest).Nodup := by decide
  obtain ⟨out, db', hout, hserial⟩ := @block_serializable 2 (by decide) (fun k => some k) _ hids
    crossing_readsDecide
  have hcomputed := (processSync_iff (by decide) (nodup_requested hids)).mp
    ((hout out db').mpr ⟨rfl, rfl⟩)
  refine ⟨hids, out, db', hout, ?_, ?_, ?_, hserial⟩
  · rw [hcomputed.1]
    decide +kernel
  · rw [hcomputed.2]
    decide +kernel
  · rw [hcomputed.2]
    decide +kernel

end MassBFT.Exec
