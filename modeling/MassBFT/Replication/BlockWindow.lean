import MassBFT.Replication.MRBlockReceiver

/-!
# The window of the block storage

`insertBlockAndNotify` erases the block `maxSize` below the one it inserts, so a storage that
sees the blocks of a region in order keeps the newest `maxSize` of them. `Window` says so of
one region and the list of the blocks inserted for it; **every insert in order keeps it**
(`Window.insertBlockAndNotify`), inserts for other regions do not touch it
(`Window.insert_of_ne`), and neither does execution, which only fills in the result of a
block (`Window.setExecuteResult`).

The erased key is computed in `uint64_t`, and the number of the newest block is kept in an
`int`. Block numbers that an `int` holds never make the first wrap around to a key in use.
-/

set_option autoImplicit false

namespace MassBFT.Replication.MRBlockStorage

open Function List

/-- `getBlock` -/
def getBlock (s : MRBlockStorage) (regionId blockId : Nat) : Option Block :=
  s.blockStorage regionId blockId

/-- `waitForBlock` without a timeout: `none` as long as it waits on the futex of the region,
and then what it returns. -/
def waitForBlock (s : MRBlockStorage) (regionId blockId : Nat) : Option (Option Block) :=
  if s.regionCount ≤ regionId then some none
  else if s.newBlockFutexList regionId < toInt32 blockId then none
  else some (s.getBlock regionId blockId)

/-- What execution writes into the block that the storage shares with the executor. -/
def setExecuteResult (s : MRBlockStorage) (regionId blockId : Nat) (result : ExecuteResult) :
    MRBlockStorage :=
  { s with
    blockStorage := update s.blockStorage regionId
      (update (s.blockStorage regionId) blockId
        ((s.blockStorage regionId blockId).map fun block =>
          { block with executeResult := result })) }

/-- The same block, up to what its execution has written into it. -/
structure SameBlock (stored block : Block) : Prop where
  header : stored.header = block.header
  body : stored.body = block.body

/-- The storage has seen the blocks `inserted` of a region, in this order, and keeps the
newest `maxSize` of them under their numbers. -/
structure Window (s : MRBlockStorage) (regionId : Nat) (inserted : List Block) : Prop where
  newest : s.newBlockFutexList regionId = (inserted.length : Int) - 1
  numbered : ∀ (id : Nat) (block : Block), inserted[id]? = some block → block.header.number = id
  kept : ∀ (id : Nat) (block : Block), inserted[id]? = some block →
    inserted.length ≤ id + s.maxSize →
      ∃ stored, s.getBlock regionId id = some stored ∧ SameBlock stored block
  pruned : ∀ id, id + s.maxSize < inserted.length → s.getBlock regionId id = none
  coming : ∀ id, inserted.length ≤ id → s.getBlock regionId id = none

variable {s : MRBlockStorage} {regionId : Nat} {inserted : List Block}

theorem window_empty (regionCount maxSize regionId : Nat) :
    (empty regionCount maxSize).Window regionId [] where
  newest := rfl
  numbered _ _ h := by cases h
  kept _ _ h := by cases h
  pruned _ h := absurd h (Nat.not_lt_zero _)
  coming _ _ := rfl

/-! ## Inserting a block -/

/-- The key that is erased, as long as nothing exceeds an `int`. -/
theorem prune_key {maxSize blockId id : Nat} (hm : maxSize < 2 ^ 31) (hb : blockId < 2 ^ 31)
    (hid : id ≤ blockId) :
    id = (blockId + 2 ^ 64 - maxSize) % 2 ^ 64 ↔ id + maxSize = blockId := by
  omega

/-- The region after an insert, at the keys up to the one of the new block. -/
theorem getBlock_insert (hr : regionId < s.regionCount) (hm : s.maxSize < 2 ^ 31) {block : Block}
    (hb : block.header.number < 2 ^ 31) (hfree : s.getBlock regionId block.header.number = none)
    {id : Nat} (hid : id ≤ block.header.number) :
    (s.insertBlockAndNotify regionId block).getBlock regionId id =
      if id + s.maxSize = block.header.number then none
      else if id = block.header.number then some block else s.getBlock regionId id := by
  rw [getBlock] at hfree
  rw [getBlock, MRBlockStorage.insertBlockAndNotify, if_neg (by omega)]
  dsimp only
  rw [update_self, pruneWithMaxBlockId, tryEmplaceBlock, hfree, if_neg (by simp),
    update_apply, update_apply]
  simp only [prune_key hm hb hid, getBlock]

theorem getBlock_insert_of_gt (hr : regionId < s.regionCount) {block : Block}
    (hfree : s.getBlock regionId block.header.number = none) {id : Nat}
    (hid : block.header.number < id) (hnone : s.getBlock regionId id = none) :
    (s.insertBlockAndNotify regionId block).getBlock regionId id = none := by
  rw [getBlock] at hfree hnone
  rw [getBlock, MRBlockStorage.insertBlockAndNotify, if_neg (by omega)]
  dsimp only
  rw [update_self, pruneWithMaxBlockId, tryEmplaceBlock, hfree, if_neg (by simp),
    update_apply, update_apply, hnone, if_neg hid.ne']
  exact ite_self none

theorem newBlockFutexList_insert (hr : regionId < s.regionCount) (block : Block) :
    (s.insertBlockAndNotify regionId block).newBlockFutexList regionId =
      toInt32 block.header.number := by
  rw [MRBlockStorage.insertBlockAndNotify, if_neg (by omega)]
  exact update_self ..

@[simp] theorem maxSize_insert (r : Nat) (block : Block) :
    (s.insertBlockAndNotify r block).maxSize = s.maxSize := by
  rw [MRBlockStorage.insertBlockAndNotify]
  split_ifs <;> rfl

@[simp] theorem regionCount_insert (r : Nat) (block : Block) :
    (s.insertBlockAndNotify r block).regionCount = s.regionCount := by
  rw [MRBlockStorage.insertBlockAndNotify]
  split_ifs <;> rfl

/-- **The next block of a region moves its window by one.** -/
theorem Window.insertBlockAndNotify (h : s.Window regionId inserted)
    (hr : regionId < s.regionCount) (hm : s.maxSize < 2 ^ 31) {block : Block}
    (hnumber : block.header.number = inserted.length) (hlt : inserted.length < 2 ^ 31) :
    (s.insertBlockAndNotify regionId block).Window regionId (inserted ++ [block]) := by
  have hb : block.header.number < 2 ^ 31 := hnumber ▸ hlt
  have hfree : s.getBlock regionId block.header.number = none := h.coming _ hnumber.ge
  have hget : ∀ {id b}, (inserted ++ [block])[id]? = some b →
      inserted[id]? = some b ∧ id < inserted.length ∨ b = block ∧ id = inserted.length := by
    intro id b hid
    rcases Nat.lt_trichotomy id inserted.length with hlt | rfl | hgt
    · rw [getElem?_append_left hlt] at hid
      exact .inl ⟨hid, hlt⟩
    · rw [getElem?_concat_length, Option.some.injEq] at hid
      exact .inr ⟨hid.symm, rfl⟩
    · rw [getElem?_eq_none (by simp; omega)] at hid
      cases hid
  refine ⟨?_, ?_, ?_, ?_, ?_⟩
  · rw [newBlockFutexList_insert hr, toInt32_natCast hb, hnumber, length_append]
    simp
  · intro id b hid
    rcases hget hid with ⟨hid, -⟩ | ⟨rfl, rfl⟩
    · exact h.numbered id b hid
    · exact hnumber
  · intro id b hid hkept
    rw [length_append, length_singleton, maxSize_insert] at hkept
    rcases hget hid with ⟨hid, hlt⟩ | ⟨rfl, rfl⟩
    · rw [getBlock_insert hr hm hb hfree (by omega), if_neg (by omega), if_neg (by omega)]
      exact h.kept id b hid (by omega)
    · rw [getBlock_insert hr hm hb hfree hnumber.ge, if_neg (by omega), if_pos hnumber.symm]
      exact ⟨b, rfl, rfl, rfl⟩
  · intro id hpruned
    rw [length_append, length_singleton, maxSize_insert] at hpruned
    rw [getBlock_insert hr hm hb hfree (by omega)]
    split_ifs with heq
    · rfl
    · omega
    · exact h.pruned id (by omega)
  · intro id hid
    rw [length_append, length_singleton] at hid
    exact getBlock_insert_of_gt hr hfree (by omega) (h.coming id (by omega))

/-- A window reads the storage only at its own region. -/
theorem Window.congr {t : MRBlockStorage} (h : s.Window regionId inserted)
    (hsize : t.maxSize = s.maxSize)
    (hfutex : t.newBlockFutexList regionId = s.newBlockFutexList regionId)
    (hregion : t.blockStorage regionId = s.blockStorage regionId) :
    t.Window regionId inserted := by
  have hget : ∀ id, t.getBlock regionId id = s.getBlock regionId id := congrFun hregion
  refine ⟨hfutex.trans h.newest, h.numbered, fun id => ?_, fun id => ?_, fun id => ?_⟩
  · rw [hget, hsize]
    exact h.kept id
  · rw [hget, hsize]
    exact h.pruned id
  · rw [hget]
    exact h.coming id

theorem Window.insert_of_ne (h : s.Window regionId inserted) {other : Nat}
    (hne : regionId ≠ other) (block : Block) :
    (s.insertBlockAndNotify other block).Window regionId inserted := by
  refine h.congr (maxSize_insert ..) ?_ ?_
  · rw [MRBlockStorage.insertBlockAndNotify]
    split_ifs
    · rfl
    · exact update_of_ne hne ..
  · rw [MRBlockStorage.insertBlockAndNotify]
    split_ifs
    · rfl
    · exact update_of_ne hne ..

/-! ## Executing a block -/

theorem getBlock_setExecuteResult (r b : Nat) (result : ExecuteResult) (id : Nat) :
    (s.setExecuteResult r b result).getBlock regionId id = s.getBlock regionId id ∨
      (s.setExecuteResult r b result).getBlock regionId id =
        (s.getBlock regionId id).map fun block => { block with executeResult := result } := by
  rw [getBlock, getBlock, setExecuteResult]
  dsimp only
  by_cases hr : regionId = r
  · subst hr
    rw [update_self, update_apply]
    split_ifs with hid
    · exact .inr (by rw [hid])
    · exact .inl rfl
  · exact .inl (by rw [update_of_ne hr])

theorem Window.setExecuteResult (h : s.Window regionId inserted) (r b : Nat)
    (result : ExecuteResult) : (s.setExecuteResult r b result).Window regionId inserted := by
  have hnone : ∀ id, s.getBlock regionId id = none →
      (s.setExecuteResult r b result).getBlock regionId id = none := by
    intro id hid
    rcases @getBlock_setExecuteResult s regionId r b result id with heq | heq <;>
      rw [heq, hid]
    rfl
  refine ⟨h.newest, h.numbered, fun id block hid hkept => ?_, fun id hid => ?_, fun id hid => ?_⟩
  · obtain ⟨stored, hstored, hsame⟩ := h.kept id block hid hkept
    rcases @getBlock_setExecuteResult s regionId r b result id with heq | heq
    · exact ⟨stored, heq.trans hstored, hsame⟩
    · rw [hstored] at heq
      exact ⟨_, heq, hsame.header, hsame.body⟩
  · exact hnone id (h.pruned id hid)
  · exact hnone id (h.coming id hid)

/-! ## Reading a block -/

/-- A reader that finds the futex at the block or beyond it does not wait. -/
theorem Window.waitForBlock_eq (h : s.Window regionId inserted) (hr : regionId < s.regionCount)
    (hlen : inserted.length ≤ 2 ^ 31) {id : Nat} (hid : id < inserted.length) :
    s.waitForBlock regionId id = some (s.getBlock regionId id) := by
  rw [waitForBlock, if_neg (by omega), h.newest, toInt32_natCast (by omega), if_neg (by omega)]

end MassBFT.Replication.MRBlockStorage
