import MassBFT.Consensus.LocalConsensus
import MassBFT.Order.Manager
import MassBFT.Replication.BlockWindow

/-!
# Executing the ordered blocks

A node stores the content of all regions as it arrives and orders the blocks by the votes
that it delivers. Each block that `InterChainOrderManager` gives out becomes a task of one
serial executor, and `onConsensusBlockOrder` looks the block up by region and number. Nothing
ties the two sides together: votes that come late leave the order behind, and meanwhile the
content of a region goes on.

The storage keeps 256 blocks of a region. So **a task finds its block exactly if fewer than
256 newer blocks of the region have been inserted when it runs**
(`ordered_block_available_iff`); a task that runs later fails its `CHECK` and takes the node
down (`ordered_block_deleted`).
-/

set_option autoImplicit false

namespace MassBFT.Consensus

open Function List Replication

/-! ## The coordinator -/

/-- How far `onConsensusBlockOrder` gets with its block. -/
inductive Fetch where
  /-- `waitForBlock` is still waiting -/
  | waiting
  /-- the `CHECK` fails: "The block is already deleted!" -/
  | deleted
  | fetched (realBlock : Block)

/-- The first two lines of `onConsensusBlockOrder`: `waitForBlock`, and the `CHECK` on what it
returns. -/
def fetchBlock (contentStorage : MRBlockStorage) (regionId blockId : Nat) : Fetch :=
  match contentStorage.waitForBlock regionId blockId with
  | none => .waiting
  | some none => .deleted
  | some (some realBlock) =>
    if toInt32 realBlock.header.number = blockId then .fetched realBlock else .deleted

/-- `_cc->processValidatedRequests`: the database before, the requests, the database after,
what is written into the block, and whether it succeeds. -/
abbrev Processes (DB : Type) := DB → List Envelop → DB → ExecuteResult → Bool → Prop

/-- The part of `ModuleCoordinator` that executes blocks. `DB` is the state behind `_cc`. -/
structure ModuleCoordinator (G : Nat) (DB : Type) where
  contentStorage : MRBlockStorage
  orderManager : Order.Manager G
  /-- how many tasks the thread of `_serialExecutor` has finished -/
  executed : Nat
  db : DB
  /-- the blocks inserted into `_userRPCNotifier` -/
  userRPCNotifier : List (Fin G × Block)

namespace ModuleCoordinator

variable {G : Nat} {DB : Type}

/-- `NewModuleCoordinator`; the content storage is constructed with its default size. -/
def new (G : Nat) (db : DB) : ModuleCoordinator G DB where
  contentStorage := .empty G 256
  orderManager := Order.setGroupCount G
  executed := 0
  db := db
  userRPCNotifier := []

/-- The queue of `_serialExecutor`: `deliveredCallback` adds a task for every block that the
order manager delivers, and one thread runs them in this order. -/
def serialExecutor (mc : ModuleCoordinator G DB) : List (Fin G × Nat) :=
  mc.orderManager.blocks.drop mc.executed

/-- The task at the front: `onConsensusBlockOrder(regionId, blockId)` runs. -/
def Runs (mc : ModuleCoordinator G DB) (regionId : Fin G) (blockId : Nat) : Prop :=
  mc.serialExecutor.head? = some (regionId, blockId)

/-- The rest of `onConsensusBlockOrder`. The results are written into the block that the
storage holds; a block whose execution fails is not shown to users. -/
def finish (mc : ModuleCoordinator G DB) (regionId : Fin G) (blockId : Nat) (realBlock : Block)
    (db : DB) (result : ExecuteResult) (ok : Bool) : ModuleCoordinator G DB :=
  { mc with
    contentStorage := mc.contentStorage.setExecuteResult regionId blockId result
    executed := mc.executed + 1
    db := db
    userRPCNotifier :=
      if ok then mc.userRPCNotifier ++ [(regionId, { realBlock with executeResult := result })]
      else mc.userRPCNotifier }

section

variable (process : Processes DB)

/-- What happens at a node, one call at a time and in any interleaving, and the blocks it has
inserted for each region. The blocks of a region are inserted in order, and their numbers are
what an `int` holds. A node whose `CHECK` fails does not go on. -/
inductive Reaches (db : DB) : (Fin G → List Block) → ModuleCoordinator G DB → Prop
  | init : Reaches db (fun _ => []) (new G db)
  | insertBlockAndNotify {inserted : Fin G → List Block} {mc : ModuleCoordinator G DB}
      (regionId : Fin G) (block : Block) :
      Reaches db inserted mc → block.header.number = (inserted regionId).length →
      block.header.number < 2 ^ 31 →
      Reaches db (update inserted regionId (inserted regionId ++ [block]))
        { mc with contentStorage := mc.contentStorage.insertBlockAndNotify regionId block }
  | newSubscriber {inserted : Fin G → List Block} {mc : ModuleCoordinator G DB} :
      Reaches db inserted mc →
      Reaches db inserted { mc with contentStorage := mc.contentStorage.newSubscriber }
  | subscriberWaitForBlock {inserted : Fin G → List Block} {mc : ModuleCoordinator G DB}
      (subscriberId place : Nat) : Reaches db inserted mc →
      Reaches db inserted
        { mc with contentStorage := mc.contentStorage.subscriberWaitForBlock subscriberId place }
  | call {inserted : Fin G → List Block} {mc : ModuleCoordinator G DB} {fuel : Nat}
      (c : Order.Call G) {orderManager : Order.Manager G} : Reaches db inserted mc →
      mc.orderManager.call fuel c = .done orderManager →
      Reaches db inserted { mc with orderManager := orderManager }
  | onConsensusBlockOrder {inserted : Fin G → List Block} {mc : ModuleCoordinator G DB}
      {regionId : Fin G} {blockId : Nat} {realBlock : Block} {db' : DB} {result : ExecuteResult}
      {ok : Bool} : Reaches db inserted mc → mc.Runs regionId blockId →
      fetchBlock mc.contentStorage regionId blockId = .fetched realBlock →
      process mc.db realBlock.body.userRequests db' result ok →
      Reaches db inserted (mc.finish regionId blockId realBlock db' result ok)

end

/-! ## What the storage holds -/

/-- Every region has its window of 256 blocks, and numbers that fit. -/
structure Stores (mc : ModuleCoordinator G DB) (inserted : Fin G → List Block) : Prop where
  regionCount : mc.contentStorage.regionCount = G
  maxSize : mc.contentStorage.maxSize = 256
  length : ∀ r, (inserted r).length ≤ 2 ^ 31
  window : ∀ r : Fin G, mc.contentStorage.Window r (inserted r)

variable {mc : ModuleCoordinator G DB} {inserted : Fin G → List Block}

theorem stores_new (db : DB) : (new G db).Stores fun _ => [] where
  regionCount := rfl
  maxSize := rfl
  length _ := Nat.zero_le _
  window r := MRBlockStorage.window_empty G 256 r

theorem Stores.insertBlockAndNotify (h : mc.Stores inserted) {regionId : Fin G} {block : Block}
    (hnumber : block.header.number = (inserted regionId).length)
    (hlt : block.header.number < 2 ^ 31) :
    Stores { mc with contentStorage := mc.contentStorage.insertBlockAndNotify regionId block }
      (update inserted regionId (inserted regionId ++ [block])) := by
  refine ⟨?_, ?_, fun r => ?_, fun r => ?_⟩
  · rw [MRBlockStorage.regionCount_insert, h.regionCount]
  · rw [MRBlockStorage.maxSize_insert, h.maxSize]
  · by_cases hr : r = regionId
    · subst hr
      rw [update_self, length_append, length_singleton]
      omega
    · rw [update_of_ne hr]
      exact h.length r
  · by_cases hr : r = regionId
    · subst hr
      rw [update_self]
      refine (h.window r).insertBlockAndNotify ?_ ?_ hnumber (hnumber ▸ hlt)
      · rw [h.regionCount]
        exact r.isLt
      · rw [h.maxSize]
        decide
    · rw [update_of_ne hr]
      exact (h.window r).insert_of_ne (Fin.val_ne_of_ne hr) block

/-- **The invariant of a run**: whatever is voted and executed in between, the storage holds
the newest 256 blocks that have been inserted for each region. -/
theorem Reaches.stores {process : Processes DB} {db : DB}
    (h : Reaches process db inserted mc) : mc.Stores inserted := by
  induction h with
  | init => exact stores_new db
  | insertBlockAndNotify regionId block _ hnumber hlt ih =>
    exact ih.insertBlockAndNotify hnumber hlt
  | newSubscriber _ ih => exact ⟨ih.regionCount, ih.maxSize, ih.length, fun r =>
      (ih.window r).congr rfl rfl rfl⟩
  | subscriberWaitForBlock _ _ _ ih => exact ⟨ih.regionCount, ih.maxSize, ih.length, fun r =>
      (ih.window r).congr rfl rfl rfl⟩
  | call _ _ _ ih => exact ⟨ih.regionCount, ih.maxSize, ih.length, ih.window⟩
  | onConsensusBlockOrder _ _ _ _ ih => exact ⟨ih.regionCount, ih.maxSize, ih.length, fun r =>
      (ih.window r).setExecuteResult ..⟩

/-! ## What a task finds -/

variable {r : Fin G} {b : Nat}

/-- Once a block has been inserted its task no longer waits. -/
theorem Stores.fetchBlock_eq (h : mc.Stores inserted) (hb : b < (inserted r).length) :
    fetchBlock mc.contentStorage r b = match mc.contentStorage.getBlock r b with
      | none => .deleted
      | some realBlock =>
        if toInt32 realBlock.header.number = b then .fetched realBlock else .deleted := by
  have hr : (r : Nat) < mc.contentStorage.regionCount := by
    rw [h.regionCount]
    exact r.isLt
  rw [fetchBlock, (h.window r).waitForBlock_eq hr (h.length r) hb]
  cases mc.contentStorage.getBlock r b <;> rfl

theorem Stores.fetchBlock_kept (h : mc.Stores inserted) {block : Block}
    (hget : (inserted r)[b]? = some block) (hkept : (inserted r).length ≤ b + 256) :
    ∃ realBlock, fetchBlock mc.contentStorage r b = .fetched realBlock ∧
      MRBlockStorage.SameBlock realBlock block := by
  have hb : b < (inserted r).length := (List.getElem?_eq_some_iff.mp hget).1
  obtain ⟨realBlock, hstored, hsame⟩ := (h.window r).kept b block hget (by rwa [h.maxSize])
  have hnumber : realBlock.header.number = b := by
    rw [hsame.header]
    exact (h.window r).numbered b block hget
  refine ⟨realBlock, ?_, hsame⟩
  have hint : toInt32 realBlock.header.number = b := by
    rw [hnumber]
    exact toInt32_natCast (lt_of_lt_of_le hb (h.length r))
  rw [h.fetchBlock_eq hb, hstored]
  exact if_pos hint

theorem Stores.fetchBlock_pruned (h : mc.Stores inserted)
    (hpruned : b + 256 < (inserted r).length) :
    fetchBlock mc.contentStorage r b = .deleted := by
  have hnone := (h.window r).pruned b (by rwa [h.maxSize])
  rw [h.fetchBlock_eq (by omega), hnone]

/-! ## An order that lags behind the content -/

/-- A block without transactions. -/
def emptyBlockAt (number : Nat) : Block :=
  { emptyBlock with header := { emptyBlock.header with number := number } }

/-- The content of region 0 goes on by `n` blocks while no votes arrive. -/
theorem Reaches.insertAll {process : Processes DB} {db : DB}
    {n : Nat} (hn : n ≤ 2 ^ 31) : ∃ mc : ModuleCoordinator 2 DB, mc.executed = 0 ∧
      mc.orderManager = Order.setGroupCount 2 ∧
      Reaches process db (update (fun _ => []) 0 ((List.range n).map emptyBlockAt)) mc := by
  induction n with
  | zero =>
    refine ⟨new 2 db, rfl, rfl, ?_⟩
    rw [range_zero, map_nil, update_eq_self]
    exact .init
  | succ n ih =>
    obtain ⟨mc, hexecuted, horder, hreach⟩ := ih (by omega)
    have hnext := hreach.insertBlockAndNotify 0 (emptyBlockAt n)
      (by rw [update_self, length_map, length_range]; rfl)
      (Nat.lt_of_succ_le hn)
    rw [update_self, update_idem] at hnext
    refine ⟨{ mc with contentStorage := mc.contentStorage.insertBlockAndNotify 0 (emptyBlockAt n) },
      hexecuted, horder, ?_⟩
    rw [range_succ, map_append]
    exact hnext

/-- Group 1 votes for block 0 of group 0, group 0 for block 0 of group 1, and that puts the
first of the two in order. -/
theorem exists_delivered : ∃ s t : Order.Manager 2,
    (Order.setGroupCount 2).call 2 (.pushDecision 0 0 1 0) = .done s ∧
      s.call 2 (.pushDecision 1 0 0 1) = .done t ∧ t.blocks = [(0, 0)] :=
  ⟨_, _, rfl, rfl, by decide⟩

/-- The votes arrive after `n` blocks of region 0. -/
theorem exists_lag (process : Processes DB) (db : DB) {n : Nat} (hn : n ≤ 2 ^ 31) :
    ∃ (inserted : Fin 2 → List Block) (mc : ModuleCoordinator 2 DB),
      Reaches process db inserted mc ∧ mc.Runs 0 0 ∧
        inserted 0 = (List.range n).map emptyBlockAt := by
  obtain ⟨mc, hexecuted, horder, hreach⟩ := @Reaches.insertAll DB process db n hn
  obtain ⟨s, t, hs, ht, hblocks⟩ := exists_delivered
  rw [← horder] at hs
  refine ⟨_, _, (hreach.call _ hs).call _ ht, ?_, update_self ..⟩
  change (t.blocks.drop mc.executed).head? = some (0, 0)
  rw [hexecuted, hblocks]
  rfl

/-! ## The main result -/

/-- **An ordered block is available exactly inside the window of the storage.** At any moment
of any run, a task whose block has been inserted passes its `CHECK`, with that block, if and
only if fewer than 256 newer blocks of the region are in. -/
theorem ordered_block_available_iff {process : Processes DB} {db : DB}
    (h : Reaches process db inserted mc) (regionId : Fin G) (blockId : Nat) :
    mc.Runs regionId blockId → ∀ block, (inserted regionId)[blockId]? = some block →
      ((∃ realBlock, fetchBlock mc.contentStorage regionId blockId = .fetched realBlock ∧
          MRBlockStorage.SameBlock realBlock block) ↔
        (inserted regionId).length ≤ blockId + 256) := by
  intro _ block hget
  refine ⟨fun ⟨realBlock, hfetch, _⟩ => ?_, h.stores.fetchBlock_kept hget⟩
  by_contra hpruned
  rw [h.stores.fetchBlock_pruned (by omega)] at hfetch
  cases hfetch

/-- With 255 newer blocks the first one is still there when its votes arrive. -/
theorem ordered_block_available_lag : ∃ (inserted : Fin 2 → List Block)
    (mc : ModuleCoordinator 2 Unit), Reaches (fun _ _ _ _ _ => True) () inserted mc ∧
      mc.Runs 0 0 ∧ (inserted 0).length = 256 ∧ ∃ realBlock,
        fetchBlock mc.contentStorage 0 0 = .fetched realBlock ∧
          MRBlockStorage.SameBlock realBlock (emptyBlockAt 0) := by
  obtain ⟨inserted, mc, hreach, hruns, hinserted⟩ :=
    @exists_lag Unit (fun _ _ _ _ _ => True) () 256 (by norm_num)
  have hlen : (inserted 0).length = 256 := by rw [hinserted, length_map, length_range]
  have hget : (inserted 0)[0]? = some (emptyBlockAt 0) := by rw [hinserted]; rfl
  exact ⟨inserted, mc, hreach, hruns, hlen,
    (ordered_block_available_iff hreach 0 0 hruns _ hget).mpr hlen.le⟩

/-- One more, and the task fails its `CHECK`. -/
theorem ordered_block_deleted : ∃ (inserted : Fin 2 → List Block)
    (mc : ModuleCoordinator 2 Unit), Reaches (fun _ _ _ _ _ => True) () inserted mc ∧
      mc.Runs 0 0 ∧ (inserted 0).length = 257 ∧ fetchBlock mc.contentStorage 0 0 = .deleted := by
  obtain ⟨inserted, mc, hreach, hruns, hinserted⟩ :=
    @exists_lag Unit (fun _ _ _ _ _ => True) () 257 (by norm_num)
  have hlen : (inserted 0).length = 257 := by rw [hinserted, length_map, length_range]
  have hdeleted : fetchBlock mc.contentStorage (0 : Fin 2) 0 = .deleted :=
    hreach.stores.fetchBlock_pruned (by omega)
  exact ⟨inserted, mc, hreach, hruns, hlen, hdeleted⟩

end ModuleCoordinator
end MassBFT.Consensus
