import MassBFT.Replication.MRBlockReceiver

/-!
# The consensus of one region

`LocalConsensus` is driven by callbacks. `pushUnorderedBlock` makes a block of a batch, with
the root over the batch in its header, and puts it into a cache under that root; the number
and the previous hash come later, from `OnRequestProposal` on the leader and from
`OnVerifyProposal` on everybody else, which write them through a shared pointer.
`OnDeliver` takes the block out of the cache and serializes it as it is.

A block is an object here, and a pointer its number, because **the queue of the leader, the
cache and the last proposed and delivered blocks may be one object**. `OnVerifyProposal`
waits for its block, and is two steps: what it does before, and the block or the timeout.

**Every block keeps the root of its own batch** (`Reaches.bodyMatches`), whatever becomes of
the rest of its header.
-/

set_option autoImplicit false

namespace MassBFT.Consensus

open Function Replication

/-- What a replica is given: the hash, the format, its keys and its name. -/
structure LocalNode (Key : Type) where
  sha256 : Bytes → HashString
  wire : Wire
  bccsp : BCCSP Key
  isPrivate : Key → Bool
  signRaw : Key → Bytes → Option DigestString
  ski : Bytes

/-- `SignatureCache`: a ring of ten. -/
structure SignatureCache where
  front : Nat
  back : Nat
  signature : Nat → Option SignaturePair

namespace SignatureCache

def reset : SignatureCache := ⟨0, 0, fun _ => none⟩

def push (c : SignatureCache) (sig : SignaturePair) : SignatureCache :=
  { c with
    back := c.back + 1
    signature := update c.signature (c.back % 10) (some sig) }

def pop (c : SignatureCache) : Option SignaturePair × SignatureCache :=
  match c.signature (c.front % 10) with
  | none => (none, c)
  | some sig => (some sig,
    { c with
      front := c.front + 1
      signature := update c.signature (c.front % 10) none })

end SignatureCache

/-- `LocalConsensus`, with its block cache. Objects `0` to `next - 1` exist; `verifying` are the
calls of `OnVerifyProposal` that wait for their block, and `delivered` is what the deliver
callback has been given. -/
structure LocalConsensus where
  isLeader : Bool
  blocks : Nat → Block
  next : Nat
  cache : HashString → Option Nat
  requestBatchQueue : List Nat
  proposedLastBlock : Option Nat
  deliveredBlock : Option Nat
  signatureCache : SignatureCache
  verifying : List Header
  delivered : List Block

/-- `proto::Block{}` -/
def emptyBlock : Block where
  header := ⟨0, default, default⟩
  body := ⟨[]⟩
  executeResult := ⟨[], []⟩
  metadata := ⟨[], []⟩
  storage := none

/-- The header of a block that nobody has proposed yet. -/
def unproposed (dataHash : HashString) : Header := ⟨0, default, dataHash⟩

/-- The block of a batch. -/
def batchBlock (batch : List Envelop) (dataHash : HashString) : Block :=
  { emptyBlock with body := ⟨batch⟩, header := unproposed dataHash }

namespace LocalConsensus

/-- The constructor. -/
def start : LocalConsensus where
  isLeader := false
  blocks := fun _ => emptyBlock
  next := 0
  cache := fun _ => none
  requestBatchQueue := []
  proposedLastBlock := none
  deliveredBlock := none
  signatureCache := .reset
  verifying := []
  delivered := []

/-- `block->header = header` -/
def setHeader (s : LocalConsensus) (p : Nat) (header : Header) : LocalConsensus :=
  { s with blocks := update s.blocks p { s.blocks p with header := header } }

@[simp] theorem setHeader_self (s : LocalConsensus) (p : Nat) (header : Header) :
    (s.setHeader p header).blocks p = { s.blocks p with header := header } :=
  update_self _ _ _

theorem setHeader_of_ne (s : LocalConsensus) {p q : Nat} (h : q ≠ p) (header : Header) :
    (s.setHeader p header).blocks q = s.blocks q :=
  update_of_ne h _ _

/-- A new block: the leader queues it, and `storeCachedBlock` replaces what the cache has under
its data hash. -/
def storeBlock (s : LocalConsensus) (block : Block) : LocalConsensus :=
  { s with
    blocks := update s.blocks s.next block
    next := s.next + 1
    requestBatchQueue := if s.isLeader then s.requestBatchQueue ++ [s.next] else s.requestBatchQueue
    cache := update s.cache block.header.dataHash (some s.next) }

@[simp] theorem storeBlock_next (s : LocalConsensus) (block : Block) :
    (s.storeBlock block).blocks s.next = block :=
  update_self _ _ _

theorem storeBlock_of_ne (s : LocalConsensus) (block : Block) {p : Nat} (h : p ≠ s.next) :
    (s.storeBlock block).blocks p = s.blocks p :=
  update_of_ne h _ _

@[simp] theorem storeBlock_cache (s : LocalConsensus) (block : Block) :
    (s.storeBlock block).cache block.header.dataHash = some s.next :=
  update_self _ _ _

theorem storeBlock_cache_of_ne (s : LocalConsensus) (block : Block) {d : HashString}
    (h : d ≠ block.header.dataHash) : (s.storeBlock block).cache d = s.cache d :=
  update_of_ne h _ _

section

variable {Key : Type} (node : LocalNode Key) (s : LocalConsensus)

/-- The check of a follower on the signature of a user. -/
def validateHandle : ValidateHandle := fun signature hash =>
  match node.bccsp.getKey signature.ski with
  | none => false
  | some key => node.bccsp.verifyRaw key signature.digest hash.bytes

/-- `pushUnorderedBlock` -/
def pushUnorderedBlock (batch : List Envelop) : Bool × LocalConsensus :=
  match generateMerkleTree node.sha256 batch
    (if s.isLeader then none else some (validateHandle node)) with
  | none => (false, s)
  | some mt =>
    (true, s.storeBlock (batchBlock batch mt.root))

/-- `CalculatePreviousHash` -/
def calculatePreviousHash (header : Header) : HashString :=
  node.sha256 ((Header.codec node.wire).put header)

/-- `isDeliveredBlockHeaderValid`; block numbers are of type `uint64_t`. -/
def isDeliveredBlockHeaderValid (header : Header) : Bool :=
  match s.deliveredBlock with
  | none => true
  | some p =>
    let previous := (s.blocks p).header
    decide (header.previousHash = calculatePreviousHash node previous ∧
      header.number = (previous.number + 1) % 2 ^ 64)

/-- The signature of this node over some bytes. -/
def sign (data : Bytes) : Option SignaturePair :=
  match node.bccsp.getKey node.ski with
  | none => none
  | some key =>
    if ¬ node.isPrivate key then none
    else (node.signRaw key (node.sha256 data).bytes).map fun digest => ([], ⟨node.ski, digest⟩)

/-- `OnVerifyProposal`, up to the wait: the header it waits for the block of. -/
def onVerifyProposal (serializedHeader : Bytes) : Option Header × LocalConsensus :=
  match (Header.codec node.wire).get serializedHeader with
  | none => (none, s)
  | some (header, _) =>
    if ¬ isDeliveredBlockHeaderValid node s header then (none, s)
    else
      match sign node serializedHeader with
      | none => (none, s)
      | some pair => (some header,
        { s with
          signatureCache := s.signatureCache.push pair
          verifying := header :: s.verifying })

/-- `OnVerifyProposal`, once `loadCachedBlock` has found the block: it returns `true`. -/
def loadCachedBlock (header : Header) : Option LocalConsensus :=
  match s.cache header.dataHash with
  | none => none
  | some p => some { s.setHeader p header with verifying := s.verifying.erase header }

/-- `OnVerifyProposal`, after the timeout of `loadCachedBlock`: it returns `false`. -/
def loadTimeout (header : Header) : LocalConsensus :=
  { s with verifying := s.verifying.erase header }

/-- `OnSignProposal` -/
def onSignProposal : Option SignaturePair × LocalConsensus :=
  let popped := s.signatureCache.pop
  (popped.1, { s with signatureCache := popped.2 })

/-- `updateBlockHeaderWithProposedBlock` -/
def updatedHeader (header : Header) : Header :=
  match s.proposedLastBlock with
  | none => header
  | some q =>
    { header with
      previousHash := calculatePreviousHash node (s.blocks q).header
      number := ((s.blocks q).header.number + 1) % 2 ^ 64 }

/-- `OnRequestProposal`, if a block is in the queue: the header that is proposed. -/
def onRequestProposal (p : Nat) (queue : List Nat) : Option Bytes × LocalConsensus :=
  let header := updatedHeader node s (s.blocks p).header
  let s := { s.setHeader p header with
    requestBatchQueue := queue
    proposedLastBlock := some p }
  let serializedHeader := (Header.codec node.wire).put header
  match sign node serializedHeader with
  | none => (none, s)
  | some pair => (some serializedHeader,
    { s with signatureCache := s.signatureCache.push pair })

/-- `OnDeliver` of a header that can be read; `none` is a failed check. -/
def onDeliver (header : Header) (signatures : List SignaturePair) :
    Option (Block × LocalConsensus) :=
  match s.cache header.dataHash with
  | none => none
  | some p =>
    let block := s.blocks p
    let block := { block with
      storage := some (Block.serializeToString node.wire block)
      metadata := { block.metadata with consensusSignatures := signatures } }
    some (block,
      { s with
        blocks := update s.blocks p block
        cache := update s.cache header.dataHash none
        deliveredBlock := some p
        delivered := s.delivered ++ [block] })

def onLeaderStart : LocalConsensus :=
  { s with
    proposedLastBlock := s.deliveredBlock
    signatureCache := .reset
    isLeader := true }

def onLeaderChange : LocalConsensus :=
  { s with
    isLeader := false
    proposedLastBlock := none
    signatureCache := .reset }

variable {node s} {batch : List Envelop}

theorem pushUnorderedBlock_true {s' : LocalConsensus}
    (h : pushUnorderedBlock node s batch = (true, s')) :
    ∃ mt, generateMerkleTree node.sha256 batch none = some mt ∧
      s' = s.storeBlock (batchBlock batch mt.root) := by
  rw [pushUnorderedBlock] at h
  split at h
  · cases h
  · rename_i mt hmt
    cases h
    exact ⟨mt, generateMerkleTree_unchecked hmt, rfl⟩

theorem pushUnorderedBlock_false {s' : LocalConsensus}
    (h : pushUnorderedBlock node s batch = (false, s')) : s' = s := by
  rw [pushUnorderedBlock] at h
  split at h
  · cases h
    rfl
  · cases h

/-- A leader does not check the signatures of the users. -/
theorem pushUnorderedBlock_leader (hleader : s.isLeader = true)
    {mt : MerkleTree} (h : generateMerkleTree node.sha256 batch none = some mt) :
    pushUnorderedBlock node s batch = (true, s.storeBlock (batchBlock batch mt.root)) := by
  rw [pushUnorderedBlock, if_pos hleader, h]

/-- Nothing happens to the blocks before the wait. -/
theorem onVerifyProposal_state (serializedHeader : Bytes) :
    ∃ signatures verifying, (onVerifyProposal node s serializedHeader).2 =
      { s with signatureCache := signatures, verifying := verifying } := by
  unfold onVerifyProposal
  split
  · exact ⟨_, _, rfl⟩
  · rename_i header _ _
    by_cases hvalid : isDeliveredBlockHeaderValid node s header = true
    · rw [if_neg (not_not.mpr hvalid)]
      split
      · exact ⟨_, _, rfl⟩
      · exact ⟨_, _, rfl⟩
    · rw [if_pos hvalid]
      exact ⟨_, _, rfl⟩

/-- The first block of the queue gets the next header, whether it can be signed or not. -/
theorem onRequestProposal_state (p : Nat) (queue : List Nat) :
    ∃ signatures, (onRequestProposal node s p queue).2 =
      { s.setHeader p (updatedHeader node s (s.blocks p).header) with
        requestBatchQueue := queue
        proposedLastBlock := some p
        signatureCache := signatures } := by
  unfold onRequestProposal
  dsimp only
  split
  · exact ⟨_, rfl⟩
  · exact ⟨_, rfl⟩

theorem updatedHeader_dataHash (header : Header) :
    (updatedHeader node s header).dataHash = header.dataHash := by
  unfold updatedHeader
  split
  · rfl
  · rfl

end

end LocalConsensus

/-! ## Runs -/

/-- What a replica does in one step, as far as anybody can see it. -/
inductive Event where
  /-- A batch with this data hash has been stored. -/
  | pushed (dataHash : HashString)
  /-- A batch has been turned down. -/
  | refused
  /-- `OnVerifyProposal` has been called. -/
  | verify (serializedHeader : Bytes)
  /-- `OnVerifyProposal` has found the block and has returned `true`. -/
  | verified (header : Header)
  /-- `OnVerifyProposal` has timed out. -/
  | timedOut (header : Header)
  | signed (signature : Option SignaturePair)
  /-- `OnRequestProposal` has given a block this header. -/
  | proposed (header : Header)
  /-- `OnDeliver` has been called with this header and has delivered this block. -/
  | delivered (header : Header) (block : Block)
  | leaderStart
  | leaderChange

open LocalConsensus

section

variable {Key : Type} (node : LocalNode Key)

/-- The steps of a replica. A call that cannot read its header changes nothing and is left out;
a call of `OnRequestProposal` may get its block after the replica has lost the lead. -/
inductive Step : LocalConsensus → Event → LocalConsensus → Prop
  | push {s s' : LocalConsensus} {batch : List Envelop}
    (h : pushUnorderedBlock node s batch = (true, s')) :
    Step s (.pushed (s'.blocks s.next).header.dataHash) s'
  | refuse {s s' : LocalConsensus} {batch : List Envelop}
    (h : pushUnorderedBlock node s batch = (false, s')) : Step s .refused s'
  | verify (s : LocalConsensus) (serializedHeader : Bytes) :
    Step s (.verify serializedHeader) (onVerifyProposal node s serializedHeader).2
  | load {s s' : LocalConsensus} {header : Header} (hmem : header ∈ s.verifying)
    (h : loadCachedBlock s header = some s') : Step s (.verified header) s'
  | timeout {s : LocalConsensus} {header : Header} (hmem : header ∈ s.verifying) :
    Step s (.timedOut header) (loadTimeout s header)
  | sign (s : LocalConsensus) : Step s (.signed (onSignProposal s).1) (onSignProposal s).2
  | request {s : LocalConsensus} {p : Nat} {queue : List Nat}
    (hqueue : s.requestBatchQueue = p :: queue) :
    Step s (.proposed (updatedHeader node s (s.blocks p).header))
      (onRequestProposal node s p queue).2
  | deliver {s s' : LocalConsensus} {header : Header} {signatures : List SignaturePair}
    {block : Block} (h : onDeliver node s header signatures = some (block, s')) :
    Step s (.delivered header block) s'
  | leaderStart (s : LocalConsensus) : Step s .leaderStart (onLeaderStart s)
  | leaderChange (s : LocalConsensus) : Step s .leaderChange (onLeaderChange s)

/-- The runs of a replica, the last event first. -/
inductive Reaches : List Event → LocalConsensus → Prop
  | start : Reaches [] .start
  | step {events : List Event} {s s' : LocalConsensus} {e : Event} (h : Reaches events s)
    (hstep : Step node s e s') : Reaches (e :: events) s'

end

/-! ## Objects -/

/-- Pointers lead to objects, the cache to objects with the right data hash, and what holds of
new blocks, and does not depend on number and previous hash, holds of all objects. -/
structure Objects (P : Block → Prop) (s : LocalConsensus) : Prop where
  block : ∀ p, p < s.next → P (s.blocks p)
  cached : ∀ d p, s.cache d = some p → p < s.next ∧ (s.blocks p).header.dataHash = d
  queued : ∀ p ∈ s.requestBatchQueue, p < s.next
  delivered : ∀ block ∈ s.delivered, P block

/-- The property is about body and data hash only. -/
def AboutBody (P : Block → Prop) : Prop :=
  ∀ block block' : Block, block'.body = block.body →
    block'.header.dataHash = block.header.dataHash → P block → P block'

section

variable {Key : Type} {node : LocalNode Key} {P : Block → Prop} {s s' : LocalConsensus}

/-- An object gets a header with the same data hash. -/
theorem Objects.setHeader (hP : AboutBody P) (h : Objects P s) (p : Nat) {header : Header}
    (hhash : header.dataHash = (s.blocks p).header.dataHash) :
    Objects P (s.setHeader p header) := by
  refine ⟨fun q hq => ?_, fun d q hd => ?_, h.queued, h.delivered⟩
  · by_cases hqp : q = p
    · subst hqp
      rw [setHeader_self]
      exact hP (s.blocks q) _ rfl hhash (h.block q hq)
    · rw [setHeader_of_ne s hqp]
      exact h.block q hq
  · obtain ⟨hlt, hdata⟩ := h.cached d q hd
    refine ⟨hlt, ?_⟩
    by_cases hqp : q = p
    · subst hqp
      rw [setHeader_self]
      exact hhash.trans hdata
    · rw [setHeader_of_ne s hqp]
      exact hdata

theorem Objects.storeBlock (h : Objects P s) {block : Block} (hb : P block) :
    Objects P (s.storeBlock block) := by
  have hnext : ∀ p, p < s.next → p ≠ s.next := fun p hp => Nat.ne_of_lt hp
  refine ⟨fun p hp => ?_, fun d p hd => ?_, fun p hp => ?_, h.delivered⟩
  · change p < s.next + 1 at hp
    by_cases hpn : p = s.next
    · rw [hpn, storeBlock_next]
      exact hb
    · rw [storeBlock_of_ne s block hpn]
      exact h.block p (by omega)
  · change p < s.next + 1 ∧ _
    by_cases hdr : d = block.header.dataHash
    · rw [hdr, storeBlock_cache] at hd
      cases hd
      rw [storeBlock_next]
      exact ⟨Nat.lt_succ_self _, hdr.symm⟩
    · rw [storeBlock_cache_of_ne s block hdr] at hd
      obtain ⟨hlt, hdata⟩ := h.cached d p hd
      rw [storeBlock_of_ne s block (hnext p hlt)]
      exact ⟨Nat.lt_succ_of_lt hlt, hdata⟩
  · change p < s.next + 1
    have hold : ∀ q ∈ s.requestBatchQueue, q < s.next + 1 :=
      fun q hq => Nat.lt_succ_of_lt (h.queued q hq)
    rw [LocalConsensus.storeBlock] at hp
    dsimp only at hp
    split_ifs at hp
    · rcases List.mem_append.mp hp with hp | hp
      · exact hold p hp
      · rw [List.mem_singleton.mp hp]
        exact Nat.lt_succ_self _
    · exact hold p hp

theorem Objects.deliver (hP : AboutBody P) (h : Objects P s) {header : Header}
    {signatures : List SignaturePair} {block : Block}
    (hdel : onDeliver node s header signatures = some (block, s')) : Objects P s' := by
  rw [onDeliver] at hdel
  split at hdel
  · cases hdel
  · rename_i p hp
    cases hdel
    obtain ⟨hlt, -⟩ := h.cached _ p hp
    have hblock : P { s.blocks p with
        storage := some (Block.serializeToString node.wire (s.blocks p))
        metadata := { (s.blocks p).metadata with consensusSignatures := signatures } } :=
      hP (s.blocks p) _ rfl rfl (h.block p hlt)
    refine ⟨fun q hq => ?_, fun d q hd => ?_, h.queued, fun b hb => ?_⟩
    · dsimp only at hq ⊢
      by_cases hqp : q = p
      · subst hqp
        rw [update_self]
        exact hblock
      · rw [update_of_ne hqp]
        exact h.block q hq
    · dsimp only at hd ⊢
      by_cases hdh : d = header.dataHash
      · rw [hdh, update_self] at hd
        cases hd
      · rw [update_of_ne hdh] at hd
        obtain ⟨hlt', hdata⟩ := h.cached d q hd
        refine ⟨hlt', ?_⟩
        by_cases hqp : q = p
        · subst hqp
          rw [update_self]
          exact hdata
        · rw [update_of_ne hqp]
          exact hdata
    · rcases List.mem_append.mp hb with hb | hb
      · exact h.delivered b hb
      · rw [List.mem_singleton.mp hb]
        exact hblock

/-- **One step keeps the objects.** -/
theorem Objects.step (hP : AboutBody P)
    (hnew : ∀ batch mt, generateMerkleTree node.sha256 batch none = some mt →
      P (batchBlock batch mt.root))
    (h : Objects P s) {e : Event} (hstep : Step node s e s') : Objects P s' := by
  cases hstep with
  | push hpush =>
    obtain ⟨mt, hmt, rfl⟩ := pushUnorderedBlock_true hpush
    exact h.storeBlock (hnew _ mt hmt)
  | refuse hpush =>
    rw [pushUnorderedBlock_false hpush]
    exact h
  | verify serializedHeader =>
    obtain ⟨_, _, hs⟩ := @onVerifyProposal_state _ node s serializedHeader
    rw [hs]
    exact ⟨h.block, h.cached, h.queued, h.delivered⟩
  | load hmem hload =>
    rw [loadCachedBlock] at hload
    split at hload
    · cases hload
    · rename_i header p hp
      cases hload
      have hset := h.setHeader hP p (h.cached _ p hp).2.symm
      exact ⟨hset.block, hset.cached, hset.queued, hset.delivered⟩
  | timeout hmem => exact ⟨h.block, h.cached, h.queued, h.delivered⟩
  | sign => exact ⟨h.block, h.cached, h.queued, h.delivered⟩
  | request hqueue =>
    rename_i p queue
    have hset := h.setHeader hP p (@updatedHeader_dataHash _ node s (s.blocks p).header)
    have hrest : ∀ q ∈ queue, q < s.next :=
      fun q hq => h.queued q (by rw [hqueue]; exact List.mem_cons_of_mem p hq)
    obtain ⟨_, hs⟩ := @onRequestProposal_state _ node s p queue
    rw [hs]
    exact ⟨hset.block, hset.cached, hrest, hset.delivered⟩
  | deliver hdel => exact h.deliver hP hdel
  | leaderStart => exact ⟨h.block, h.cached, h.queued, h.delivered⟩
  | leaderChange => exact ⟨h.block, h.cached, h.queued, h.delivered⟩

theorem objects_start (P : Block → Prop) : Objects P .start := by
  refine ⟨fun p hp => ?_, fun d p hd => ?_, fun p hp => ?_, fun b hb => ?_⟩
  · cases hp
  · cases hd
  · cases hp
  · cases hb

theorem aboutBody_bodyMatches (sha256 : Bytes → HashString) :
    AboutBody (Block.BodyMatches sha256) := by
  rintro block block' hbody hhash ⟨mt, hmt, hroot⟩
  refine ⟨mt, ?_, hhash.trans hroot⟩
  rw [hbody]
  exact hmt

/-- **In every run, every block has the root of its own batch.** -/
theorem Reaches.bodyMatches {events : List Event} (h : Reaches node events s) :
    Objects (Block.BodyMatches node.sha256) s := by
  induction h with
  | start => exact objects_start _
  | step _ hstep ih =>
    refine ih.step (aboutBody_bodyMatches node.sha256) (fun batch mt hmt => ?_) hstep
    exact ⟨mt, hmt, rfl⟩

end

end MassBFT.Consensus
