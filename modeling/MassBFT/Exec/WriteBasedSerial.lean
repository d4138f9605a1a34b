import MassBFT.Exec.WriteBased
import MassBFT.Lib.Precedence

/-!
# When the write-based engine is serializable

What the engine commits and whose writes reach the database depends only on the ids of the
transactions, on which of them fail, and on the keys they read and write (`Access`). Two things
are asked of a serial order of the committed transactions:

* whoever has read a key has read it before anybody wrote it;
* the last one to write a key is the one whose write has reached the database, that is the
  smallest id that wanted to write the key.

The second is hopeless if this smallest id was aborted: the writes of the others are lost.
**A block is serializable, whatever the values, exactly if the smallest writers of all written
keys commit and the two demands do not form a cycle** (`serializable_iff`).
-/

set_option autoImplicit false

namespace MassBFT.Exec.WriteBased

open Function List WBReserveTable Precedence DbOp

/-! ## Accesses -/

/-- What the engine looks at in a transaction: its id, whether it has failed, and the keys that it
has read and wants to write. -/
structure Access where
  id : Tid
  fails : Bool
  reads : List Bytes
  writes : List Bytes
  deriving DecidableEq

/-- The access of a request that runs on `db`. -/
def access (db : Database) (e : Envelop) : Access where
  id := e.digest
  fails := decide ((e.invoke db).ret ≠ 0)
  reads := keys (e.invoke db).reads
  writes := keys (e.invoke db).writes

/-- The key is reserved. -/
def Access.Reserves (a : Access) (k : Bytes) : Prop := a.fails = false ∧ k ∈ a.writes

section

variable (P : List Access)

/-- The smallest id that wants to write a key. -/
def FirstWriter (a : Access) (k : Bytes) : Prop :=
  a ∈ P ∧ a.Reserves k ∧ ∀ b ∈ P, b.Reserves k → a.id.val ≤ b.id.val

/-- A smaller id wants to write what this one has read. -/
def Raw (a : Access) : Prop := ∃ k ∈ a.reads, ∃ b ∈ P, b.Reserves k ∧ b.id.val < a.id.val

/-- The access is one of a transaction that commits. -/
def Commits (a : Access) : Prop := a ∈ P ∧ a.fails = false ∧ (a.writes = [] ∨ ¬ Raw P a)

/-- Of two that commit, `a` has to come first: it has read what `b` writes, or its write of a key
is not the one that stays. -/
def Precedes (a b : Access) : Prop :=
  a ≠ b ∧ Commits P a ∧ Commits P b ∧
    ((∃ k ∈ a.reads, k ∈ b.writes) ∨ ∃ k ∈ a.writes, FirstWriter P b k)

instance (a : Access) (k : Bytes) : Decidable (a.Reserves k) := inferInstanceAs (Decidable (_ ∧ _))

instance (a : Access) (k : Bytes) : Decidable (FirstWriter P a k) :=
  inferInstanceAs (Decidable (_ ∧ _ ∧ _))

instance (a : Access) : Decidable (Raw P a) :=
  inferInstanceAs (Decidable (∃ k ∈ a.reads, ∃ b ∈ P, _))

instance (a : Access) : Decidable (Commits P a) := inferInstanceAs (Decidable (_ ∧ _ ∧ _))

instance (a b : Access) : Decidable (Precedes P a b) := inferInstanceAs (Decidable (_ ∧ _ ∧ _ ∧ _))

/-- Nothing is lost, and there is no cycle. -/
structure Resolved : Prop where
  kept : ∀ a k, Commits P a → k ∈ a.writes → ∃ b, FirstWriter P b k ∧ Commits P b
  acyclic : Acyclic (Precedes P)

end

/-- **Serializability** of a block on `n` workers: it has one outcome, and there is an order of
the transactions that end with `COMMIT` such that running them one after another from the same
database gives each of them what it has recorded, and ends in the database of the block. -/
def Serializable (n : Nat) (db : Database) (envs : List Envelop) : Prop :=
  ∃ (out : List Transaction) (db' : Database),
    (∀ o d, ProcessSync n db (envs.map newTransactionFromEnvelop) o d ↔ o = out ∧ d = db') ∧
    ∃ order : List Transaction, order.Perm (out.filter (·.executionResult = .COMMIT)) ∧
      SerialRun n db (order.map restart) order db'

/-! ## What the engine does, read off the accesses -/

section

variable {db : Database} {envs : List Envelop} {e : Envelop} {k : Bytes}

/-- The execute phase on a fresh transaction. -/
theorem executeTransaction_fresh (db : Database) (e : Envelop) :
    ((access db e).fails = true ∧ (executeTransaction db (newTransactionFromEnvelop e)).2 = [] ∧
      (executeTransaction db (newTransactionFromEnvelop e)).1.executionResult = .ABORT_NO_RETRY) ∨
    ((access db e).fails = false ∧ executeTransaction db (newTransactionFromEnvelop e) =
      (undecided db e, reserveWrites (undecided db e).writes e.digest)) := by
  unfold executeTransaction newTransactionFromEnvelop undecided access
  by_cases hret : (e.invoke db).ret = 0
  · by_cases hw : (e.invoke db).writes = []
    · simp [hret, hw, reserveWrites]
    · simp [hret, hw]
  · simp [hret]

theorem mem_reserved {tid : Tid} :
    (k, tid) ∈ (onExecuteTransaction db (requested envs)).2 ↔
      ∃ a ∈ envs.map (access db), a.Reserves k ∧ a.id = tid := by
  have hone : ∀ e, (k, tid) ∈ (executeTransaction db (newTransactionFromEnvelop e)).2 ↔
      (access db e).Reserves k ∧ (access db e).id = tid := by
    intro e
    unfold Access.Reserves
    obtain ⟨hfails, hnone, -⟩ | ⟨hfails, hsome⟩ := executeTransaction_fresh db e
    · rw [hnone, hfails]
      simp
    · rw [hsome, hfails]
      simp only [reserveWrites, access, keys, undecided, mem_map, Prod.mk.injEq, true_and]
      constructor
      · rintro ⟨kv, hkv, hk, hid⟩
        exact ⟨⟨kv, hkv, hk⟩, hid⟩
      · rintro ⟨⟨kv, hkv, hk⟩, hid⟩
        exact ⟨kv, hkv, hk, hid⟩
  rw [mem_reservations]
  constructor
  · rintro ⟨t, ht, hop⟩
    obtain ⟨e, he, rfl⟩ := mem_map.mp ht
    exact ⟨_, mem_map_of_mem he, (hone e).mp hop⟩
  · rintro ⟨a, ha, hop⟩
    obtain ⟨e, he, rfl⟩ := mem_map.mp ha
    exact ⟨_, mem_map_of_mem he, (hone e).mpr hop⟩

variable (hids : (envs.map Envelop.digest).Nodup)

include hids in
/-- `rsTable` names the first writer. -/
theorem rsTable_iff (he : e ∈ envs) :
    (blockTable db (requested envs)).rsTable k = some e.digest ↔
      FirstWriter (envs.map (access db)) (access db e) k := by
  rw [blockTable, rsTable_eq_some, mem_reserved]
  constructor
  · rintro ⟨⟨a, ha, hres, hid⟩, hmin⟩
    obtain ⟨e', he', rfl⟩ := mem_map.mp ha
    rw [inj_on_of_nodup_map hids he' he hid] at hres
    refine ⟨mem_map_of_mem he, hres, fun b hb hres' => ?_⟩
    exact hmin b.id (mem_reserved.mpr ⟨b, hb, hres', rfl⟩)
  · rintro ⟨ha, hres, hmin⟩
    refine ⟨⟨_, ha, hres, rfl⟩, fun t ht => ?_⟩
    obtain ⟨b, hb, hres', rfl⟩ := mem_reserved.mp ht
    exact hmin b hb hres'

theorem detectRAW_iff : (blockTable db (requested envs)).detectRAW
    (e.invoke db).reads e.digest = true ↔ Raw (envs.map (access db)) (access db e) := by
  rw [detectRAW, MutexTable.dependsOn_iff]
  simp only [blockTable, below_reserved, mem_reserved]
  constructor
  · rintro ⟨k, hk, t, ⟨b, hb, hres, rfl⟩, hlt⟩
    exact ⟨k, hk, b, hb, hres, hlt⟩
  · rintro ⟨k, hk, b, hb, hres, hlt⟩
    exact ⟨k, hk, b.id, ⟨b, hb, hres, rfl⟩, hlt⟩

/-- **What becomes of a request.** -/
theorem decided_fresh (he : e ∈ envs) :
    (Commits (envs.map (access db)) (access db e) ∧
      decided db (requested envs) (newTransactionFromEnvelop e) = finished db e) ∨
    (¬ Commits (envs.map (access db)) (access db e) ∧
      ((decided db (requested envs) (newTransactionFromEnvelop e)).executionResult = .ABORT ∨
      (decided db (requested envs)
        (newTransactionFromEnvelop e)).executionResult = .ABORT_NO_RETRY)) := by
  obtain ⟨hfails, -, hresult⟩ | ⟨hfails, hexec⟩ := executeTransaction_fresh db e
  · refine Or.inr ⟨fun h => ?_, Or.inr ?_⟩
    · rw [h.2.1] at hfails
      cases hfails
    · rw [decided, firstCommit, hresult]
      exact hresult
  · have hdecided : decided db (requested envs) (newTransactionFromEnvelop e) =
        (firstCommit (blockTable db (requested envs)) (undecided db e)).1 := by
      rw [decided, hexec]
    rw [hdecided]
    by_cases hw : (e.invoke db).writes = []
    · refine Or.inl ⟨⟨mem_map_of_mem he, hfails, Or.inl ?_⟩, ?_⟩
      · simp [access, hw, keys]
      · simp [firstCommit, undecided, finished, hw]
    · have hw' : (access db e).writes ≠ [] := by simpa [access, keys] using hw
      by_cases hraw : Raw (envs.map (access db)) (access db e)
      · refine Or.inr ⟨fun h => ?_, Or.inl ?_⟩
        · exact h.2.2.elim hw' (fun hn => hn hraw)
        · have hdetect := detectRAW_iff.mpr hraw
          simp [firstCommit, undecided, hw, hdetect]
      · refine Or.inl ⟨⟨mem_map_of_mem he, hfails, Or.inr hraw⟩, ?_⟩
        have hdetect := mt detectRAW_iff.mp hraw
        rw [Bool.not_eq_true] at hdetect
        simp [firstCommit, undecided, finished, hw, hdetect]

/-- The transactions of a block that end with `COMMIT`. -/
def committed (db : Database) (envs : List Envelop) : List Transaction :=
  (block db (envs.map newTransactionFromEnvelop)).1.filter (·.executionResult = .COMMIT)

theorem mem_committed {f : Transaction} : f ∈ committed db envs ↔
    ∃ e ∈ envs, f = finished db e ∧ Commits (envs.map (access db)) (access db e) := by
  rw [committed, block, map_map, mem_filter, mem_map]
  constructor
  · rintro ⟨⟨e, he, rfl⟩, hcommit⟩
    rw [comp_apply] at hcommit ⊢
    obtain ⟨hcommits, hfin⟩ | ⟨-, hresult⟩ := @decided_fresh db envs e he
    · exact ⟨e, he, hfin, hcommits⟩
    · rcases hresult with hresult | hresult
      · rw [hresult] at hcommit
        cases hcommit
      · rw [hresult] at hcommit
        cases hcommit
  · rintro ⟨e, he, rfl, hcommits⟩
    obtain ⟨-, hfin⟩ | ⟨hno, -⟩ := @decided_fresh db envs e he
    · exact ⟨⟨e, he, hfin⟩, rfl⟩
    · exact absurd hcommits hno

include hids in
theorem nodup_committed : (committed db envs).Nodup := by
  refine nodup_commits hids ?_
  rw [block, map_map, map_map]
  refine map_congr_left fun e _ => ?_
  rw [comp_apply, comp_apply, decided_tid]
  rfl

/-- What a request adds to the batches: the writes that it is the first to want, if it commits. -/
theorem blockWrites_fresh (he : e ∈ envs) :
    blockWrites db (requested envs) (newTransactionFromEnvelop e) = [] ∨
    (Commits (envs.map (access db)) (access db e) ∧
      blockWrites db (requested envs) (newTransactionFromEnvelop e) =
        (blockTable db (requested envs)).updateDB (finished db e).writes e.digest) := by
  rw [blockWrites]
  obtain ⟨hcommits, hfin⟩ | ⟨-, hresult | hresult⟩ := @decided_fresh db envs e he
  · rw [hfin]
    exact Or.inr ⟨hcommits, rfl⟩
  · rw [secondCommit, hresult]
    exact Or.inl rfl
  · rw [secondCommit, hresult]
    exact Or.inl rfl

include hids in
theorem mem_blockWrites (he : e ∈ envs) :
    k ∈ keys (blockWrites db (requested envs) (newTransactionFromEnvelop e)) ↔
      Commits (envs.map (access db)) (access db e) ∧
        FirstWriter (envs.map (access db)) (access db e) k := by
  constructor
  · intro hk
    obtain hnil | ⟨hcommits, -⟩ := @blockWrites_fresh db envs e he
    · rw [hnil] at hk
      cases hk
    · exact ⟨hcommits, (rsTable_iff hids he).mp (keys_blockWrites hk)⟩
  · rintro ⟨hcommits, hfirst⟩
    rw [blockWrites]
    obtain ⟨-, hfin⟩ | ⟨hno, -⟩ := @decided_fresh db envs e he
    · rw [hfin]
      exact mem_keys_updateDB.mpr ⟨hfirst.2.1.2, (rsTable_iff hids he).mpr hfirst⟩
    · exact absurd hcommits hno

include hids in
/-- **The write that stays** is that of the first writer, if it commits. -/
theorem block_first (he : e ∈ envs) (hcommits : Commits (envs.map (access db)) (access db e))
    (hfirst : FirstWriter (envs.map (access db)) (access db e) k) :
    (block db (requested envs)).2 k =
      (((updatesOf (finished db e).writes).filter (·.key = k)).getLast?).elim (db k) value := by
  have hmem := (mem_blockWrites hids he).mpr ⟨hcommits, hfirst⟩
  have htxns : (requested envs).Nodup := Nodup.of_map Transaction.tid (nodup_requested hids)
  unfold block
  dsimp only
  rw [applyAll_last, updatesOf_filter, filter_flatMap_of_unique htxns
    (mem_map_of_mem he), updatesOf_filter]
  · obtain hnil | ⟨-, hwrites⟩ := @blockWrites_fresh db envs e he
    · rw [hnil] at hmem
      cases hmem
    · rw [hwrites, filter_updateDB ((rsTable_iff hids he).mpr hfirst)]
  · intro u hu hku
    obtain ⟨e', he', rfl⟩ := mem_map.mp hu
    have hid := (keys_blockWrites hku).symm.trans (keys_blockWrites hmem)
    rw [inj_on_of_nodup_map hids he' he (Option.some.inj hid)]

include hids in
/-- A key without such a writer stays as it was. -/
theorem block_none (hnone : ∀ e ∈ envs, Commits (envs.map (access db)) (access db e) →
      ¬ FirstWriter (envs.map (access db)) (access db e) k) :
    (block db (requested envs)).2 k = db k := by
  unfold block
  dsimp only
  rw [applyAll_last, updatesOf_filter, filter_flatMap_of_none]
  · rfl
  · intro u hu hku
    obtain ⟨e, he, rfl⟩ := mem_map.mp hu
    obtain ⟨hcommits, hfirst⟩ := (mem_blockWrites hids he).mp hku
    exact hnone e he hcommits hfirst

/-- **A request alone runs as in the deterministic engine**, so a serial run may be one of either
engine. -/
theorem block_alone (hret : (e.invoke db).ret = 0) :
    block db [newTransactionFromEnvelop e] = Exec.block db [newTransactionFromEnvelop e] := by
  have hids : ([e].map Envelop.digest).Nodup := by simp
  have hfails : (access db e).fails = false := by simpa [access] using hret
  have hcommits : Commits ([e].map (access db)) (access db e) := by
    refine ⟨mem_cons_self, hfails, Or.inr ?_⟩
    rintro ⟨k, -, b, hb, -, hlt⟩
    rw [mem_singleton.mp hb] at hlt
    exact lt_irrefl _ hlt
  have hfirst : ∀ k ∈ keys (finished db e).writes,
      FirstWriter ([e].map (access db)) (access db e) k := by
    refine fun k hk => ⟨mem_cons_self, ⟨hfails, hk⟩, fun b hb _ => ?_⟩
    rw [mem_singleton.mp hb]
  rw [Exec.block_single hret]
  refine Prod.ext ?_ ?_
  · obtain ⟨-, hfin⟩ | ⟨hno, -⟩ := @decided_fresh db [e] e mem_cons_self
    · exact congrArg (fun f => [f]) hfin
    · exact absurd hcommits hno
  · funext k
    change (block db ([e].map newTransactionFromEnvelop)).2 k =
      applyAll db (updatesOf (finished db e).writes) k
    rw [applyAll_last]
    by_cases hk : k ∈ keys (finished db e).writes
    · rw [block_first hids mem_cons_self hcommits (hfirst k hk)]
    · rw [updatesOf_filter, filter_key_eq_nil hk, block_none hids fun e' he' _ hfirst' => ?_]
      · rfl
      · rw [mem_singleton.mp he'] at hfirst'
        exact hk hfirst'.2.1.2

end

/-! ## A serial run -/

section

variable {d : Database} {k : Bytes} {l : List Transaction}

theorem filter_noWriter (hnone : ∀ g ∈ l, k ∉ keys g.writes) :
    (l.flatMap fun g => updatesOf g.writes).filter (·.key = k) = [] := by
  rw [filter_flatMap, flatMap_eq_nil_iff]
  intro g hg
  rw [updatesOf_filter, filter_key_eq_nil (hnone g hg)]
  rfl

/-- The last transaction that writes a key decides what it holds. -/
theorem applyAll_lastWriter {l₁ l₂ : List Transaction} {f : Transaction} (hk : k ∈ keys f.writes)
    (hlater : ∀ g ∈ l₂, k ∉ keys g.writes) :
    applyAll d ((l₁ ++ f :: l₂).flatMap fun g => updatesOf g.writes) k =
      (((updatesOf f.writes).filter (·.key = k)).getLast?).elim (d k) value := by
  obtain ⟨op, hop⟩ := Option.ne_none_iff_exists'.mp
    (mt getLast?_eq_none_iff.mp (updatesOf_filter_ne_nil hk))
  rw [applyAll_last, flatMap_append, flatMap_cons, filter_append,
    filter_append, filter_noWriter hlater, append_nil, getLast?_append, hop]
  rfl

theorem applyAll_noWriter (hnone : ∀ g ∈ l, k ∉ keys g.writes) :
    applyAll d (l.flatMap fun g => updatesOf g.writes) k = d k := by
  rw [applyAll_last, filter_noWriter hnone]
  rfl

/-- There is a last one. -/
theorem exists_lastWriter (h : ∃ g ∈ l, k ∈ keys g.writes) :
    ∃ l₁ f l₂, l = l₁ ++ f :: l₂ ∧ k ∈ keys f.writes ∧ ∀ g ∈ l₂, k ∉ keys g.writes := by
  induction l with
  | nil =>
    obtain ⟨g, hg, -⟩ := h
    cases hg
  | cons f l ih =>
    by_cases hlater : ∃ g ∈ l, k ∈ keys g.writes
    · obtain ⟨l₁, f', l₂, rfl, hf', hl₂⟩ := ih hlater
      exact ⟨f :: l₁, f', l₂, rfl, hf', hl₂⟩
    · have hnone : ∀ g ∈ l, k ∉ keys g.writes := fun g hg hk => hlater ⟨g, hg, hk⟩
      obtain ⟨g, hg, hk⟩ := h
      rcases mem_cons.mp hg with rfl | hg
      · exact ⟨[], g, l, rfl, hk, hnone⟩
      · exact absurd hk (hnone g hg)

end

/-! ## Resolved blocks -/

section

variable {n : Nat} {db : Database} {envs : List Envelop}

variable (hids : (envs.map Envelop.digest).Nodup)

include hids in
theorem access_ne {f g : Transaction}
    (hf : f ∈ committed db envs) (hg : g ∈ committed db envs) (hne : f ≠ g) :
    access db f.envelop ≠ access db g.envelop := by
  obtain ⟨e, he, rfl, -⟩ := mem_committed.mp hf
  obtain ⟨e', he', rfl, -⟩ := mem_committed.mp hg
  intro heq
  exact hne (congrArg (finished db) (inj_on_of_nodup_map hids he he' (congrArg Access.id heq)))

include hids in
theorem precedes_committed {f g : Transaction}
    (hf : f ∈ committed db envs) (hg : g ∈ committed db envs) (hne : f ≠ g)
    (h : (∃ k ∈ keys f.reads, k ∈ keys g.writes) ∨
      ∃ k ∈ keys f.writes, FirstWriter (envs.map (access db)) (access db g.envelop) k) :
    Precedes (envs.map (access db)) (access db f.envelop) (access db g.envelop) := by
  refine ⟨access_ne hids hf hg hne, ?_⟩
  obtain ⟨e, he, rfl, hcommits⟩ := mem_committed.mp hf
  obtain ⟨e', he', rfl, hcommits'⟩ := mem_committed.mp hg
  exact ⟨hcommits, hcommits', h⟩

include hids in
/-- A resolved block leaves what its committed transactions leave in an order that respects the
precedence. -/
theorem applyAll_respects (hkept : ∀ a k, Commits (envs.map (access db)) a → k ∈ a.writes →
      ∃ b, FirstWriter (envs.map (access db)) b k ∧ Commits (envs.map (access db)) b)
    {order : List Transaction} (hperm : order.Perm (committed db envs))
    (hresp : Respects (fun f g => Precedes (envs.map (access db)) (access db f.envelop)
      (access db g.envelop)) order) :
    applyAll db (order.flatMap fun f => updatesOf f.writes) = (block db (requested envs)).2 := by
  have hnodup := hperm.nodup_iff.mpr (nodup_committed hids)
  funext k
  by_cases hk : ∃ f ∈ order, k ∈ keys f.writes
  · obtain ⟨f, hf, hkf⟩ := hk
    obtain ⟨e, he, rfl, hcommits⟩ := mem_committed.mp (hperm.mem_iff.mp hf)
    obtain ⟨b, hfirst, hcommits'⟩ := hkept _ k hcommits hkf
    obtain ⟨e', he', rfl⟩ := mem_map.mp hfirst.1
    have hmem : finished db e' ∈ order :=
      hperm.mem_iff.mpr (mem_committed.mpr ⟨e', he', rfl, hcommits'⟩)
    -- whoever writes the key after its first writer would have to precede it
    obtain ⟨l₁, l₂, rfl⟩ := append_of_mem hmem
    have hlater : ∀ g ∈ l₂, k ∉ keys g.writes := by
      intro g hg hkg
      have hgmem := mem_append_right l₁ (mem_cons_of_mem (finished db e') hg)
      have hbefore := (pairwise_append.mp hresp).2.1
      have hne := (pairwise_append.mp hnodup).2.1
      refine (pairwise_cons.mp hbefore).1 g hg ?_
      exact precedes_committed hids (hperm.mem_iff.mp hgmem) (hperm.mem_iff.mp hmem)
        ((pairwise_cons.mp hne).1 g hg).symm (Or.inr ⟨k, hkg, hfirst⟩)
    rw [applyAll_lastWriter hfirst.2.1.2 hlater, block_first hids he' hcommits' hfirst]
  · have hnone : ∀ f ∈ order, k ∉ keys f.writes := fun f hf hkf => hk ⟨f, hf, hkf⟩
    rw [applyAll_noWriter hnone, block_none hids]
    intro e he hcommits hfirst
    exact hnone _ (hperm.mem_iff.mpr (mem_committed.mpr ⟨e, he, rfl, hcommits⟩)) hfirst.2.1.2

/-- **A resolved block is serializable.** -/
theorem serializable_of_resolved (hn : 1 ≤ n) (hids : (envs.map Envelop.digest).Nodup)
    (hdecide : ∀ e ∈ envs, e.ReadsDecide) (h : Resolved (envs.map (access db))) :
    Serializable n db envs := by
  have hacyclic : Acyclic fun f g : Transaction => Precedes (envs.map (access db))
      (access db f.envelop) (access db g.envelop) := by
    intro f hf
    exact h.acyclic _ (hf.lift (fun f : Transaction => access db f.envelop) fun _ _ h => h)
  obtain ⟨order, hperm, hresp⟩ := hacyclic.exists_respects (committed db envs)
  have hnodup := hperm.nodup_iff.mpr (nodup_committed hids)
  refine ⟨_, _, fun o d => processSync_iff hn (nodup_requested hids), order, hperm, ?_⟩
  have hpair : order.Pairwise fun a b => ∀ k ∈ keys a.writes, k ∉ keys b.reads := by
    refine (Pairwise.and hresp hnodup).imp_of_mem ?_
    rintro a b ha hb ⟨hnot, hne⟩ k hka hkb
    exact hnot (precedes_committed hids (hperm.mem_iff.mp hb) (hperm.mem_iff.mp ha)
      (Ne.symm hne) (Or.inl ⟨k, hkb, hka⟩))
  refine (serialRun_iff hn (fun f hf => ?_) hpair fun f _ k _ => rfl).mpr
    ⟨rfl, (applyAll_respects hids h.kept hperm hresp).symm⟩
  obtain ⟨e, he, rfl, hcommits⟩ := mem_committed.mp (hperm.mem_iff.mp hf)
  have hret : (e.invoke db).ret = 0 := by simpa [access] using hcommits.2.1
  exact ⟨rfl, hret, hdecide e he⟩

end

/-! ## Serializable blocks -/

section

variable {n : Nat} {P : List Access}

/-- A request with a given access, which writes its own id. -/
def requestOf (a : Access) : Envelop where
  digest := a.id
  invoke db :=
    { ret := if a.fails then -1 else 0
      reads := a.reads.map fun k => ⟨k, (db k).getD []⟩
      writes := a.writes.map fun k => ⟨k, a.id.bytes⟩
      retValue := [] }

/-- A database that holds no id. -/
def ones : Database := fun _ => some [1]

theorem access_requestOf (db : Database) (a : Access) : access db (requestOf a) = a := by
  obtain ⟨id, fails, reads, writes⟩ := a
  have hkeys : ∀ (l : List Bytes) (v : Bytes → Bytes), keys (l.map fun k => ⟨k, v k⟩) = l := by
    intro l v
    rw [keys, map_map]
    exact map_id l
  cases fails with
  | false => simp [access, requestOf, hkeys]
  | true => simp [access, requestOf, hkeys]

theorem readsDecide_requestOf (a : Access) : (requestOf a).ReadsDecide := by
  intro db db' h
  have hreads : (a.reads.map fun k => (⟨k, (db' k).getD []⟩ : KV)) =
      a.reads.map fun k => ⟨k, (db k).getD []⟩ := by
    refine map_congr_left fun k hk => ?_
    rw [h k (by simpa [requestOf, keys] using hk)]
  simp only [requestOf, hreads]

theorem map_access_requestOf (db : Database) (P : List Access) :
    (P.map requestOf).map (access db) = P := by
  rw [map_map]
  exact (map_congr_left fun a _ => access_requestOf db a).trans (map_id P)

/-- The update of a key by such a request. -/
theorem getLast?_requestOf {db : Database} {a : Access} {k : Bytes} (hk : k ∈ a.writes) :
    ((updatesOf (finished db (requestOf a)).writes).filter (·.key = k)).getLast? =
      some (.put k a.id.bytes) := by
  have hne : a.id.bytes.isEmpty = false := by
    rw [isEmpty_eq_false_iff, ← length_pos_iff, a.id.size]
    decide
  have hkeys : k ∈ keys (finished db (requestOf a)).writes := by
    simpa [finished, undecided, requestOf, keys] using hk
  obtain ⟨op, hop⟩ := Option.ne_none_iff_exists'.mp
    (mt getLast?_eq_none_iff.mp (updatesOf_filter_ne_nil hkeys))
  obtain ⟨hmem, hkey⟩ := mem_filter.mp (mem_of_getLast? hop)
  rw [hop]
  have hwrites : ∀ kv ∈ (finished db (requestOf a)).writes, kv.value = a.id.bytes := by
    intro kv hkv
    obtain ⟨k', -, rfl⟩ := mem_map.mp hkv
    rfl
  rw [updatesOf_eq, mem_append, mem_map, mem_map] at hmem
  rcases hmem with ⟨kv, hkv, rfl⟩ | ⟨kv, hkv, rfl⟩
  · have hkey' : kv.key = k := of_decide_eq_true hkey
    rw [hwrites kv (mem_filter.mp hkv).1, hkey']
  · have hempty := (mem_filter.mp hkv).2
    rw [hwrites kv (mem_filter.mp hkv).1, hne] at hempty
    cases hempty

theorem serialRun_cons {txn : Transaction} {rest outs : List Transaction} {d d' : Database}
    (h : SerialRun n d (txn :: rest) outs d') : ∃ out d₁ later, Exec.ProcessSync n d [txn] out d₁ ∧
      SerialRun n d₁ rest later d' ∧ outs = out ++ later := by
  obtain _ | ⟨now, later⟩ := h
  exact ⟨_, _, _, now, later, rfl⟩

/-- What a serial run shows: every transaction finds again what it has recorded. -/
theorem serialRun_inv (hn : 1 ≤ n) {l : List Transaction}
    (hret : ∀ f ∈ l, ∀ s, (f.envelop.invoke s).ret = 0) {d d' : Database}
    (h : SerialRun n d (l.map restart) l d') :
    d' = applyAll d (l.flatMap fun f => updatesOf f.writes) ∧
      ∀ l₁ f l₂, l = l₁ ++ f :: l₂ →
        finished (applyAll d (l₁.flatMap fun f => updatesOf f.writes)) f.envelop = f := by
  induction l generalizing d with
  | nil =>
    cases h
    exact ⟨rfl, fun l₁ f l₂ hl => by cases l₁ <;> cases hl⟩
  | cons f rest ih =>
    obtain ⟨out, d₁, later, hnow, hlater, hout⟩ := serialRun_cons h
    obtain ⟨hone, hd₁⟩ := (Exec.processSync_iff hn (by simp)).mp hnow
    rw [restart, block_single (hret f mem_cons_self d)] at hone hd₁
    rw [hone] at hout
    obtain ⟨hf, rfl⟩ := List.cons.inj hout
    have hd₁' : d₁ = applyAll d (updatesOf f.writes) := by
      rw [hd₁]
      exact congrArg (fun f : Transaction => applyAll d (updatesOf f.writes)) hf.symm
    obtain ⟨hd', hrest⟩ := ih (fun g hg => hret g (mem_cons_of_mem f hg)) hlater
    rw [hd₁'] at hd' hrest
    refine ⟨?_, fun l₁ g l₂ hl => ?_⟩
    · rw [hd', flatMap_cons, applyAll_append]
    · cases l₁ with
      | nil =>
        obtain ⟨rfl, rfl⟩ := List.cons.inj hl
        exact hf.symm
      | cons f' l₁ =>
        obtain ⟨rfl, htail⟩ := List.cons.inj hl
        rw [flatMap_cons, applyAll_append]
        exact hrest l₁ g l₂ htail

/-- In a serial run of such requests, every key holds the id of its last writer. -/
theorem applyAll_requestOf {l₁ l₂ : List Transaction} {a : Access} {k : Bytes} (hk : k ∈ a.writes)
    (hlater : ∀ g ∈ l₂, k ∉ keys g.writes) :
    applyAll ones ((l₁ ++ finished ones (requestOf a) :: l₂).flatMap
      fun g => updatesOf g.writes) k = some a.id.bytes := by
  have hkeys : k ∈ keys (finished ones (requestOf a)).writes := by
    simpa [finished, undecided, requestOf, keys] using hk
  rw [applyAll_lastWriter hkeys hlater, getLast?_requestOf hk]
  rfl

theorem keys_writes_requestOf (a : Access) : keys (finished ones (requestOf a)).writes = a.writes :=
  congrArg Access.writes (access_requestOf ones a)

theorem mem_committed_requestOf {f : Transaction} : f ∈ committed ones (P.map requestOf) ↔
    ∃ a, Commits P a ∧ f = finished ones (requestOf a) := by
  rw [mem_committed, map_access_requestOf]
  constructor
  · rintro ⟨e, he, rfl, hcommits⟩
    obtain ⟨a, ha, rfl⟩ := mem_map.mp he
    rw [access_requestOf] at hcommits
    exact ⟨a, hcommits, rfl⟩
  · rintro ⟨a, hcommits, rfl⟩
    refine ⟨requestOf a, mem_map_of_mem hcommits.1, rfl, ?_⟩
    rwa [access_requestOf]

theorem nodup_digest_requestOf (hids : (P.map Access.id).Nodup) :
    ((P.map requestOf).map Envelop.digest).Nodup := by
  rw [map_map]
  exact hids

/-- What a block of such requests leaves in a key. -/
theorem block_requestOf (hids : (P.map Access.id).Nodup) (k : Bytes) :
    (∃ b, Commits P b ∧ FirstWriter P b k ∧
      (block ones (requested (P.map requestOf))).2 k = some b.id.bytes) ∨
    (block ones (requested (P.map requestOf))).2 k = some [1] := by
  have hids' := nodup_digest_requestOf hids
  have hP := map_access_requestOf ones P
  by_cases h : ∃ b, Commits P b ∧ FirstWriter P b k
  · obtain ⟨b, hcommits, hfirst⟩ := h
    refine Or.inl ⟨b, hcommits, hfirst, ?_⟩
    rw [block_first hids' (mem_map_of_mem hcommits.1) (by rwa [hP, access_requestOf])
      (by rwa [hP, access_requestOf]), getLast?_requestOf hfirst.2.1.2]
    rfl
  · refine Or.inr ?_
    rw [block_none hids']
    · rfl
    intro e he hcommits hfirst
    obtain ⟨b, hb, rfl⟩ := mem_map.mp he
    rw [hP, access_requestOf] at hcommits hfirst
    exact h ⟨b, hcommits, hfirst⟩

section

variable {order : List Transaction} (hids : (P.map Access.id).Nodup)
  (hperm : order.Perm (committed ones (P.map requestOf)))
  (hdb : (block ones (requested (P.map requestOf))).2 =
    applyAll ones (order.flatMap fun f => updatesOf f.writes))
  (hfound : ∀ l₁ f l₂, order = l₁ ++ f :: l₂ →
    finished (applyAll ones (l₁.flatMap fun f => updatesOf f.writes)) f.envelop = f)

include hids hdb in
/-- The last writer of a key in the serial run is the one whose write has reached the database. -/
theorem firstWriter_of_last {l₁ l₂ : List Transaction} {a : Access} {k : Bytes}
    (horder : order = l₁ ++ finished ones (requestOf a) :: l₂) (ha : a ∈ P) (hk : k ∈ a.writes)
    (hlater : ∀ g ∈ l₂, k ∉ keys g.writes) : FirstWriter P a k := by
  have hserial := @applyAll_requestOf l₁ l₂ a k hk hlater
  rw [← horder, ← hdb] at hserial
  have hsize := a.id.size
  obtain ⟨b, hcommits, hfirst, hb⟩ | hb := block_requestOf hids k
  · rw [hserial, Option.some.injEq] at hb
    have hid : a.id = b.id := by
      cases ha : a.id
      cases hb' : b.id
      rw [ha, hb'] at hb
      cases hb
      rfl
    rwa [inj_on_of_nodup_map hids ha hcommits.1 hid]
  · rw [hserial, Option.some.injEq] at hb
    rw [hb] at hsize
    cases hsize

include hids hperm hdb in
/-- Every key that somebody writes has a last writer. -/
theorem exists_firstWriter {l l' : List Transaction} {k : Bytes} (horder : order = l ++ l')
    (hk : ∃ g ∈ l', k ∈ keys g.writes) :
    ∃ b, finished ones (requestOf b) ∈ l' ∧ Commits P b ∧ FirstWriter P b k := by
  obtain ⟨l₁, f, l₂, rfl, hkf, hlater⟩ := exists_lastWriter hk
  have hf : f ∈ order := by
    rw [horder]
    exact mem_append_right l (mem_append_right l₁ mem_cons_self)
  obtain ⟨b, hcommits, rfl⟩ := mem_committed_requestOf.mp (hperm.mem_iff.mp hf)
  rw [keys_writes_requestOf] at hkf
  refine ⟨b, mem_append_right l₁ mem_cons_self, hcommits, ?_⟩
  exact @firstWriter_of_last P order hids hdb (l ++ l₁) l₂ b k
    (by rw [horder, append_assoc]) hcommits.1 hkf hlater

include hperm hfound in
/-- Whoever has read a key has read it before it was written. -/
theorem not_reads_of_written {l₁ l₂ : List Transaction} {b : Access} {k : Bytes}
    (horder : order = l₁ ++ finished ones (requestOf b) :: l₂)
    (hk : ∃ g ∈ l₁, k ∈ keys g.writes) : k ∉ b.reads := by
  intro hread
  have hagain := congrArg Transaction.reads (hfound _ _ _ horder)
  have hvalue := congrArg KV.value (map_inj_left.mp hagain k hread)
  obtain ⟨m₁, f, m₂, rfl, hkf, hlater⟩ := exists_lastWriter hk
  have hf : f ∈ order := by
    rw [horder]
    exact mem_append_left _ (mem_append_right m₁ mem_cons_self)
  obtain ⟨a, hcommits, rfl⟩ := mem_committed_requestOf.mp (hperm.mem_iff.mp hf)
  rw [keys_writes_requestOf] at hkf
  dsimp only at hvalue
  rw [applyAll_requestOf hkf hlater] at hvalue
  have hsize := a.id.size
  rw [show a.id.bytes = [1] from hvalue] at hsize
  cases hsize

include hids hperm hdb hfound in
/-- **The serial order respects the precedence.** -/
theorem respects_order (hnodup : order.Nodup) :
    Respects (Precedes P) (order.map fun f => access ones f.envelop) := by
  rw [Respects, pairwise_map]
  refine pairwise_of_splits fun l₁ f l₂ horder g hg hprec => ?_
  have hf : f ∈ order := by
    rw [horder]
    exact mem_append_right l₁ mem_cons_self
  have hg' : g ∈ order := by
    rw [horder]
    exact mem_append_right l₁ (mem_cons_of_mem f hg)
  obtain ⟨a, -, rfl⟩ := mem_committed_requestOf.mp (hperm.mem_iff.mp hf)
  obtain ⟨b, -, rfl⟩ := mem_committed_requestOf.mp (hperm.mem_iff.mp hg')
  obtain ⟨-, -, -, hprec⟩ : Precedes P b a := by
    rwa [← access_requestOf ones a, ← access_requestOf ones b]
  rcases hprec with ⟨k, hread, hwrite⟩ | ⟨k, hwrite, hfirst⟩
  · obtain ⟨m₁, m₂, rfl⟩ := append_of_mem hg
    refine not_reads_of_written hperm hfound
      (by rw [horder, ← cons_append, ← append_assoc])
      ⟨finished ones (requestOf a), ?_, ?_⟩ hread
    · exact mem_append_right l₁ mem_cons_self
    · rwa [keys_writes_requestOf]
  · obtain ⟨c, hc, hcommits, hfirst'⟩ := @exists_firstWriter P order hids hperm hdb
      (l₁ ++ [finished ones (requestOf a)]) l₂ k (by rw [horder, append_assoc]; rfl)
      ⟨_, hg, by rwa [keys_writes_requestOf]⟩
    -- two first writers are one, but `a` is not among those behind itself
    have hid : c.id = a.id := Tid.val_inj.mp (le_antisymm
      (hfirst'.2.2 a hfirst.1 hfirst.2.1) (hfirst.2.2 c hfirst'.1 hfirst'.2.1))
    rw [inj_on_of_nodup_map hids hfirst'.1 hfirst.1 hid] at hc
    rw [horder] at hnodup
    exact (nodup_cons.mp hnodup.of_append_right).1 hc

end

/-- **The accesses of a serializable block are resolved**, if all written values are different. -/
theorem resolved_of_serializable (hn : 1 ≤ n) (hids : (P.map Access.id).Nodup)
    (h : Serializable n ones (P.map requestOf)) : Resolved P := by
  have hids' := nodup_digest_requestOf hids
  obtain ⟨out, db', hone, order, hperm, hrun⟩ := h
  obtain ⟨rfl, rfl⟩ := (hone _ _).mp ((processSync_iff hn (nodup_requested hids')).mpr ⟨rfl, rfl⟩)
  change order.Perm (committed ones (P.map requestOf)) at hperm
  have hnodup := hperm.nodup_iff.mpr (nodup_committed hids')
  have hmem : ∀ a, Commits P a → finished ones (requestOf a) ∈ order := fun a ha =>
    hperm.mem_iff.mpr (mem_committed_requestOf.mpr ⟨a, ha, rfl⟩)
  obtain ⟨hdb, hfound⟩ := serialRun_inv hn (fun f hf s => by
    obtain ⟨a, hcommits, rfl⟩ := mem_committed_requestOf.mp (hperm.mem_iff.mp hf)
    change (if a.fails = true then (-1 : Int) else 0) = 0
    rw [hcommits.2.1, if_neg Bool.false_ne_true]) hrun
  constructor
  · intro a k hcommits hk
    obtain ⟨b, -, hb⟩ := @exists_firstWriter P order hids hperm hdb [] order k rfl
      ⟨_, hmem a hcommits, by rwa [keys_writes_requestOf]⟩
    exact ⟨b, hb.2, hb.1⟩
  · refine (respects_order hids hperm hdb hfound hnodup).acyclic fun a b hprec =>
      ⟨hprec.1, ?_, ?_⟩
    · exact mem_map.mpr ⟨_, hmem a hprec.2.1, access_requestOf ones a⟩
    · exact mem_map.mpr ⟨_, hmem b hprec.2.2.1, access_requestOf ones b⟩

end

/-- **When the write-based engine is serializable.** Of some accesses with distinct ids, all
blocks that have them are serializable if and only if the accesses are resolved. -/
theorem serializable_iff {n : Nat} (hn : 1 ≤ n) {P : List Access} (hids : (P.map Access.id).Nodup) :
    (∀ (db : Database) (envs : List Envelop), envs.map (access db) = P →
        (∀ e ∈ envs, e.ReadsDecide) → Serializable n db envs) ↔ Resolved P := by
  constructor
  · intro h
    refine resolved_of_serializable hn hids (h ones _ (map_access_requestOf ones P) ?_)
    intro e he
    obtain ⟨a, -, rfl⟩ := mem_map.mp he
    exact readsDecide_requestOf a
  · rintro h db envs rfl hdecide
    refine serializable_of_resolved hn ?_ hdecide h
    rw [map_map] at hids
    exact hids

/-- The first and the fourth commit; the fourth one comes first, for the write of the first one
stays. -/
theorem serializable_crossing :
    (block (fun k => some k) (crossing.map newTransactionFromEnvelop)).1.map
      Transaction.executionResult = [.COMMIT, .ABORT, .ABORT, .COMMIT] ∧
    Serializable 2 (fun k => some k) crossing := by
  have hids : ((crossing.map (access fun k => some k)).map Access.id).Nodup := by decide
  refine ⟨by decide +kernel, (serializable_iff (by decide) hids).mpr
    ⟨fun a k hcommits => ?_, fun a hcycle => ?_⟩ _ crossing rfl crossing_readsDecide⟩
  · have hkept : ∀ a ∈ crossing.map (access fun k => some k), ∀ k ∈ a.writes,
        Commits (crossing.map (access fun k => some k)) a →
        ∃ b ∈ crossing.map (access fun k => some k),
          FirstWriter (crossing.map (access fun k => some k)) b k ∧
          Commits (crossing.map (access fun k => some k)) b := by
      decide +kernel
    intro hk
    obtain ⟨b, -, hb⟩ := hkept a hcommits.1 k hk hcommits
    exact ⟨b, hb⟩
  · -- every demand goes against the order of the ids
    have hback : ∀ a ∈ crossing.map (access fun k => some k),
        ∀ b ∈ crossing.map (access fun k => some k),
        Precedes (crossing.map (access fun k => some k)) a b → b.id.val < a.id.val := by
      decide +kernel
    have hdown : ∀ b, Relation.TransGen (Precedes (crossing.map (access fun k => some k))) a b →
        b.id.val < a.id.val := by
      intro b hpath
      induction hpath with
      | single hprec => exact hback _ hprec.2.1.1 _ hprec.2.2.1.1 hprec
      | tail _ hprec ih => exact (hback _ hprec.2.1.1 _ hprec.2.2.1.1 hprec).trans ih
    exact lt_irrefl _ (hdown a hcycle)

/-- An id that ends with `i`. -/
def tidOf (i : UInt8) : Tid := ⟨List.replicate 63 0 ++ [i], length_zeros_concat i⟩

/-- The first writes key 0; the second has read key 0 and wants to write key 1; the third writes
key 1. -/
def lostWrite : List Access :=
  [⟨tidOf 1, false, [], [[0]]⟩, ⟨tidOf 2, false, [[0]], [[1]]⟩, ⟨tidOf 3, false, [], [[1]]⟩]

/-- **A committed write is lost.** The second transaction is aborted, but it is the one that
`rsTable` knows for key 1, and the write of the third one does not reach the database. -/
theorem lostWrite_not_serializable :
    (lostWrite.map Access.id).Nodup ∧ (∀ e ∈ lostWrite.map requestOf, e.ReadsDecide) ∧
    (block ones ((lostWrite.map requestOf).map newTransactionFromEnvelop)).1.map
      Transaction.executionResult = [.COMMIT, .ABORT, .COMMIT] ∧
    (block ones ((lostWrite.map requestOf).map newTransactionFromEnvelop)).2 [1] = ones [1] ∧
    ¬ Serializable 2 ones (lostWrite.map requestOf) := by
  have hids : (lostWrite.map Access.id).Nodup := by decide
  refine ⟨hids, fun e he => ?_, by decide +kernel, by decide +kernel, fun h => ?_⟩
  · obtain ⟨a, -, rfl⟩ := mem_map.mp he
    exact readsDecide_requestOf a
  · have hcommits : Commits lostWrite ⟨tidOf 3, false, [], [[1]]⟩ := by decide +kernel
    have hlost : ∀ b ∈ lostWrite, FirstWriter lostWrite b [1] → ¬ Commits lostWrite b := by
      decide +kernel
    obtain ⟨b, hfirst, hb⟩ :=
      (resolved_of_serializable (by decide) hids h).kept _ [1] hcommits mem_cons_self
    exact hlost b hfirst.1 hfirst hb

end MassBFT.Exec.WriteBased
