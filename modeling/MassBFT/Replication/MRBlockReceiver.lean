import MassBFT.Replication.Block

/-!
# Blocks of remote regions

`MRBlockReceiver` gives every remote region a `BlockReceiver` whose callback decodes the
regenerated bytes, counts the signatures of the first fragment that verify over the header,
and inserts the block into the storage that all regions share.

The receivers of the regions run in parallel, so the storage sees the calls of their
callbacks in any order. `Reaches` is the relation of such runs, with a condition on the
messages that the callbacks are given; **what a receiver does to the storage is a run**
(`Reaches.genBlockFromQueue`).
-/

set_option autoImplicit false

namespace MassBFT.Replication

open Function List

/-! ## The storage -/

/-- `MRBlockStorage` -/
structure MRBlockStorage where
  regionCount : Nat
  maxSize : Nat
  blockStorage : Nat → Nat → Option Block
  newBlockFutexList : Nat → Int
  subscriberList : List (List (Nat × Block))

namespace MRBlockStorage

/-- The constructor. -/
def empty (regionCount maxSize : Nat) : MRBlockStorage where
  regionCount := regionCount
  maxSize := maxSize
  blockStorage := fun _ _ => none
  newBlockFutexList := fun _ => -1
  subscriberList := []

def newSubscriber (s : MRBlockStorage) : MRBlockStorage :=
  { s with subscriberList := s.subscriberList ++ [[]] }

/-- `subscriberWaitForBlock`: what it leaves in the queues. A queue has many producers and keeps
the order of each alone, so the place of the block that it hands out is not fixed. -/
def subscriberWaitForBlock (s : MRBlockStorage) (subscriberId place : Nat) : MRBlockStorage :=
  { s with subscriberList := s.subscriberList.modify subscriberId (·.eraseIdx place) }

/-- `try_emplace`: a block that is there stays. -/
def tryEmplaceBlock (region : Nat → Option Block) (blockId : Nat) (block : Block) :
    Nat → Option Block :=
  if (region blockId).isSome then region else update region blockId (some block)

/-- `pruneWithMaxBlockId`, in the arithmetic of `uint64_t`. -/
def pruneWithMaxBlockId (maxSize : Nat) (region : Nat → Option Block) (blockId : Nat) :
    Nat → Option Block :=
  update region ((blockId + 2 ^ 64 - maxSize) % 2 ^ 64) none

/-- `insertBlockAndNotify` -/
def insertBlockAndNotify (s : MRBlockStorage) (regionId : Nat) (block : Block) : MRBlockStorage :=
  if s.regionCount ≤ regionId then s
  else
    let blockId := block.header.number
    { s with
      subscriberList := s.subscriberList.map (· ++ [(regionId, block)])
      blockStorage := update s.blockStorage regionId (pruneWithMaxBlockId s.maxSize
        (tryEmplaceBlock (s.blockStorage regionId) blockId block) blockId)
      newBlockFutexList := update s.newBlockFutexList regionId (toInt32 blockId) }

/-- Every block of the storage, and every block on the way to a subscriber. -/
structure All (P : Block → Prop) (s : MRBlockStorage) : Prop where
  stored : ∀ regionId blockId block, s.blockStorage regionId blockId = some block → P block
  queued : ∀ queue ∈ s.subscriberList, ∀ entry ∈ queue, P entry.2

variable {P : Block → Prop} {s : MRBlockStorage}

theorem all_empty (P : Block → Prop) (regionCount maxSize : Nat) :
    (empty regionCount maxSize).All P := by
  refine ⟨?_, ?_⟩
  · rintro _ _ _ ⟨⟩
  · rintro _ ⟨⟩

theorem All.newSubscriber (h : s.All P) : s.newSubscriber.All P := by
  refine ⟨h.stored, fun queue hq entry he => ?_⟩
  rcases mem_append.mp hq with hq | hq
  · exact h.queued queue hq entry he
  · rw [mem_singleton.mp hq] at he
    cases he

theorem All.subscriberWaitForBlock (h : s.All P) (subscriberId place : Nat) :
    (s.subscriberWaitForBlock subscriberId place).All P := by
  refine ⟨h.stored, fun queue hq entry he => ?_⟩
  obtain ⟨i, hi⟩ := mem_iff_getElem?.mp hq
  rw [MRBlockStorage.subscriberWaitForBlock, getElem?_modify] at hi
  cases hget : s.subscriberList[i]? with
  | none => rw [hget] at hi; cases hi
  | some old =>
    rw [hget] at hi
    have hold := h.queued old (mem_of_getElem? hget) entry
    simp only [Option.map_eq_map, Option.map_some, Option.some.injEq] at hi
    subst hi
    split_ifs at he
    · exact hold (mem_of_mem_eraseIdx he)
    · exact hold he

theorem tryEmplaceBlock_some {region : Nat → Option Block} {blockId id : Nat} {block b : Block}
    (h : tryEmplaceBlock region blockId block id = some b) : region id = some b ∨ b = block := by
  rw [tryEmplaceBlock] at h
  split_ifs at h
  · exact .inl h
  · by_cases hid : id = blockId
    · subst hid
      rw [update_self] at h
      exact .inr (Option.some.inj h).symm
    · rw [update_of_ne hid] at h
      exact .inl h

/-- A block is added; nothing else appears. -/
theorem All.insertBlockAndNotify (h : s.All P) (regionId : Nat) {block : Block} (hb : P block) :
    (s.insertBlockAndNotify regionId block).All P := by
  rw [MRBlockStorage.insertBlockAndNotify]
  split_ifs
  · exact h
  refine ⟨fun r id b hr => ?_, fun queue hq entry he => ?_⟩
  · dsimp only at hr
    by_cases hregion : r = regionId
    · subst hregion
      rw [update_self, pruneWithMaxBlockId] at hr
      by_cases hid : id = (block.header.number + 2 ^ 64 - s.maxSize) % 2 ^ 64
      · rw [← hid, update_self] at hr
        cases hr
      · rw [update_of_ne hid] at hr
        rcases tryEmplaceBlock_some hr with hold | rfl
        · exact h.stored r id b hold
        · exact hb
    · rw [update_of_ne hregion] at hr
      exact h.stored r id b hr
  · obtain ⟨old, hold, rfl⟩ := mem_map.mp hq
    rcases mem_append.mp he with he | he
    · exact h.queued old hold entry he
    · rw [mem_singleton.mp he]
      exact hb

end MRBlockStorage

/-! ## What the callback has kept -/

/-- What a call leaves of what the callback keeps. -/
def Progress.kept? {σ : Type} : Progress σ → Option σ
  | .waiting r => some r.kept
  | .returned _ kept => some kept
  | .blocked => none
  | .fault _ => none

namespace BlockReceiver

variable {σ : Type} {br : BlockReceiver σ} {validate : ValidateFunc σ} {r r' : Receiving σ}
  {f : EncodeBlockFragment} {s : σ}

theorem regenerate_kept (hcb : br.validateCallback = some validate)
    (h : (br.regenerate r f).kept? = some s) :
    s = r.kept ∨ ∃ raw fragments left b, validate r.kept raw fragments = .ok (s, left, b) := by
  rw [regenerate, hcb] at h
  dsimp only at h
  split_ifs at h
  · cases h
  split at h
  · cases h
  · cases h
    exact .inl rfl
  · split at h
    · cases h
    · rename_i hcall
      cases h
      exact .inr ⟨_, _, _, _, hcall⟩
    · rename_i hcall
      cases h
      exact .inr ⟨_, _, _, _, hcall⟩

theorem prepare_kept {root : HashString} (h : prepare r root = some r') : r'.kept = r.kept := by
  rw [prepare] at h
  split_ifs at h
  · cases h
    rfl
  · cases h
    rfl
  · cases h
    rfl

/-- A round calls the callback at most once. -/
theorem round_kept (hcb : br.validateCallback = some validate) {number : Nat}
    (h : (br.round number r f).kept? = some s) :
    s = r.kept ∨ ∃ raw fragments left b, validate r.kept raw fragments = .ok (s, left, b) := by
  rw [round] at h
  split_ifs at h
  · cases h
    exact .inl rfl
  cases hprep : prepare r f.root with
  | none => rw [hprep] at h; cases h
  | some r' =>
    rw [hprep] at h
    dsimp only [receive] at h
    rw [← prepare_kept hprep]
    split at h
    · cases h
      exact .inl rfl
    · split at h
      · cases h
      · cases h
        exact .inl rfl
      · split at h
        · exact @regenerate_kept _ _ _ (accept r' f _) _ _ hcb h
        · cases h
          exact .inl rfl

end BlockReceiver

/-! ## The receiver -/

/-- `BCCSP`: the key that a ski names, and `VerifyRaw` of such a key. -/
structure BCCSP (Key : Type) where
  getKey : Bytes → Option Key
  verifyRaw : Key → DigestString → Bytes → Bool

/-- `Key::Verify`, which hashes the data first. -/
def BCCSP.verify {Key : Type} (sha256 : Bytes → HashString) (bccsp : BCCSP Key) (key : Key)
    (md : DigestString) (d : Bytes) : Bool :=
  bccsp.verifyRaw key md (sha256 d).bytes

/-- `MRBlockReceiver`, with the fragment configuration of every region. -/
structure MRBlockReceiver (Key : Type) where
  sha256 : Bytes → HashString
  wire : Wire
  ec : ErasureCode
  bccsp : BCCSP Key
  localRegionId : Nat
  bfgConfig : Nat → Config

namespace MRBlockReceiver

variable {Key : Type} (mr : MRBlockReceiver Key)

/-- The task that checks one signature. -/
def sigVerified (serHeader : Bytes) (sig : SignaturePair) : Bool :=
  match mr.bccsp.getKey sig.2.ski with
  | none => false
  | some key => mr.bccsp.verify mr.sha256 key sig.2.digest serHeader

/-- `getBlockFromRawString`. The signatures are those of the first fragment. -/
def getBlockFromRawString (raw : Bytes) (peerList : List EncodeBlockFragment) :
    Except Fault (Option Block) :=
  match Block.deserializeFromString mr.wire raw with
  | none => .ok none
  | some (block, ret) =>
    match peerList with
    | [] => .error .undefined
    | first :: _ =>
      let signatures := first.blockSignatures
      let verifiedSigCnt := signatures.countP (mr.sigVerified (raw.take ret.bodyPos))
      if verifiedSigCnt < (signatures.length + 1) / 2 then .ok none
      else .ok (some
        { block with metadata := { block.metadata with consensusSignatures := signatures } })

/-- The callback of region `idx`. It takes the content of the message in any case. -/
def validateFunc (idx : Nat) : ValidateFunc MRBlockStorage := fun storage raw peerList =>
  match mr.getBlockFromRawString raw peerList with
  | .error e => .error e
  | .ok none => .ok (storage, [], false)
  | .ok (some block) =>
    if peerList.isEmpty then .ok (storage, [], false)
    else if peerList.any fun f => decide (f.blockNumber ≠ block.header.number) then
      .ok (storage, [], false)
    else .ok (storage.insertBlockAndNotify idx block, [], true)

/-- `checkAndStartService`: the receiver of region `idx`, with its callback. -/
def blockReceiver (idx : Nat) : BlockReceiver MRBlockStorage :=
  ⟨mr.sha256, mr.wire, mr.ec, mr.bfgConfig idx, some (mr.validateFunc idx)⟩

variable {mr}

/-- What a block that is returned was made from. -/
theorem getBlockFromRawString_eq_some {raw : Bytes} {peerList : List EncodeBlockFragment}
    {block : Block} (h : mr.getBlockFromRawString raw peerList = .ok (some block)) :
    ∃ decoded ret first rest, Block.deserializeFromString mr.wire raw = some (decoded, ret) ∧
      peerList = first :: rest ∧
      (first.blockSignatures.length + 1) / 2 ≤
        first.blockSignatures.countP (mr.sigVerified (raw.take ret.bodyPos)) ∧
      block = { decoded with
        metadata := { decoded.metadata with consensusSignatures := first.blockSignatures } } := by
  rw [getBlockFromRawString] at h
  cases hdec : Block.deserializeFromString mr.wire raw with
  | none => rw [hdec] at h; cases h
  | some t =>
    obtain ⟨decoded, ret⟩ := t
    rw [hdec] at h
    cases peerList with
    | nil => cases h
    | cons first rest =>
      dsimp only at h
      split_ifs at h with hcnt
      · cases h
      · cases h
        exact ⟨decoded, ret, first, rest, rfl, rfl, not_lt.mp hcnt, rfl⟩

/-- The callback leaves the storage as it is, or inserts a block that was returned. -/
theorem validateFunc_ok {idx : Nat} {storage storage' : MRBlockStorage} {raw left : Bytes}
    {peerList : List EncodeBlockFragment} {b : Bool}
    (h : mr.validateFunc idx storage raw peerList = .ok (storage', left, b)) :
    storage' = storage ∨ ∃ block, mr.getBlockFromRawString raw peerList = .ok (some block) ∧
      storage' = storage.insertBlockAndNotify idx block := by
  rw [validateFunc] at h
  split at h
  · cases h
  · cases h
    exact .inl rfl
  · rename_i block hblock
    split_ifs at h
    · cases h
      exact .inl rfl
    · cases h
      exact .inl rfl
    · cases h
      exact .inr ⟨block, hblock, rfl⟩

/-! ## Runs -/

variable (mr) in
/-- The storages that are reached when the callbacks of the remote regions are called, in any
order, with messages that meet `P` for their region, while others subscribe and take blocks. -/
inductive Reaches (P : Nat → Bytes → Prop) (s₀ : MRBlockStorage) : MRBlockStorage → Prop
  | start : Reaches P s₀ s₀
  | newSubscriber {s : MRBlockStorage} (h : Reaches P s₀ s) : Reaches P s₀ s.newSubscriber
  | subscriberWaitForBlock {s : MRBlockStorage} (h : Reaches P s₀ s) (subscriberId place : Nat) :
    Reaches P s₀ (s.subscriberWaitForBlock subscriberId place)
  | call {s s' : MRBlockStorage} {idx : Nat} {raw left : Bytes}
    {peerList : List EncodeBlockFragment} {b : Bool} (h : Reaches P s₀ s)
    (hidx : idx ≠ mr.localRegionId) (hraw : P idx raw)
    (hcall : mr.validateFunc idx s raw peerList = .ok (s', left, b)) : Reaches P s₀ s'

/-- **The run rule**: what holds of every block that is returned for a message that meets
`P` holds of all blocks in every storage that is reached. -/
theorem Reaches.all {P : Nat → Bytes → Prop} {Q : Block → Prop}
    (hblock : ∀ idx raw peerList block, P idx raw →
      mr.getBlockFromRawString raw peerList = .ok (some block) → Q block)
    {s₀ s : MRBlockStorage} (h₀ : s₀.All Q) (h : mr.Reaches P s₀ s) : s.All Q := by
  induction h with
  | start => exact h₀
  | newSubscriber _ ih => exact ih.newSubscriber
  | subscriberWaitForBlock _ subscriberId place ih =>
    exact ih.subscriberWaitForBlock subscriberId place
  | call _ _ hraw hcall ih =>
    rcases validateFunc_ok hcall with rfl | ⟨block, hget, rfl⟩
    · exact ih
    · exact ih.insertBlockAndNotify _ (hblock _ _ _ block hraw hget)

/-- **What a receiver does to the storage is a run.** -/
theorem Reaches.genBlockFromQueue {idx : Nat} (hidx : idx ≠ mr.localRegionId) {number : Nat}
    {s₀ s : MRBlockStorage} {r : Receiving MRBlockStorage}
    (h : mr.Reaches (fun _ _ => True) s₀ r.kept) {queue : List EncodeBlockFragment}
    (hs : ((mr.blockReceiver idx).genBlockFromQueue number r queue).kept? = some s) :
    mr.Reaches (fun _ _ => True) s₀ s := by
  induction queue generalizing r with
  | nil =>
    cases hs
    exact h
  | cons f queue ih =>
    have hround : ∀ s', ((mr.blockReceiver idx).round number r f).kept? = some s' →
        mr.Reaches (fun _ _ => True) s₀ s' := by
      intro s' hs'
      rcases BlockReceiver.round_kept rfl hs' with rfl | ⟨raw, fragments, left, b, hcall⟩
      · exact h
      · exact .call h hidx trivial hcall
    rw [BlockReceiver.genBlockFromQueue] at hs
    cases hprog : (mr.blockReceiver idx).round number r f with
    | waiting r' =>
      rw [hprog] at hs hround
      exact ih (hround r'.kept rfl) hs
    | returned msg kept =>
      rw [hprog] at hs hround
      exact hround s hs
    | blocked => rw [hprog] at hs; cases hs
    | fault e => rw [hprog] at hs; cases hs

end MRBlockReceiver

end MassBFT.Replication
