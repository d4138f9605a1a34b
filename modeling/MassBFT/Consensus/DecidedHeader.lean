import MassBFT.Consensus.RemoteBlocks

/-!
# The header of a delivered block

`OnDeliver` is told which header the group has decided, and uses its data hash only: it takes
the block under that hash out of the cache and delivers it **with the header it happens to
have**. That header was written by `OnVerifyProposal` or `OnRequestProposal`, and before
either of them by `pushUnorderedBlock`, which leaves number and previous hash empty.

So the decided header is delivered exactly if it is the last one that a callback has written
for its data hash (`delivered_header_iff`). It is not if `OnVerifyProposal` gave up waiting and
the batch came later, although the rest of the group went on and decided.
-/

set_option autoImplicit false

namespace MassBFT.Consensus

open Function List Replication LocalConsensus

/-! ## What the callbacks have written -/

/-- The header that a callback gives to a block. -/
def Event.written : Event → Option Header
  | .pushed dataHash => some (unproposed dataHash)
  | .verified header => some header
  | .proposed header => some header
  | _ => none

def Event.pushedHash : Event → Option HashString
  | .pushed dataHash => some dataHash
  | _ => none

/-- The data hashes of the batches that have been pushed. -/
def pushes (events : List Event) : List HashString := events.filterMap Event.pushedHash

/-- The last header that a callback has written for a data hash. -/
def lastWritten (dataHash : HashString) (events : List Event) : Option Header :=
  (events.filterMap Event.written).find? fun header => header.dataHash = dataHash

theorem pushes_cons_of_none {e : Event} (h : e.pushedHash = none) (events : List Event) :
    pushes (e :: events) = pushes events :=
  filterMap_cons_none h

@[simp] theorem pushes_pushed (d : HashString) (events : List Event) :
    pushes (.pushed d :: events) = d :: pushes events :=
  filterMap_cons_some rfl

theorem lastWritten_cons_of_none {e : Event} (h : e.written = none) (d : HashString)
    (events : List Event) : lastWritten d (e :: events) = lastWritten d events := by
  rw [lastWritten, filterMap_cons_none h]
  rfl

theorem lastWritten_cons_self {e : Event} {header : Header} (h : e.written = some header)
    (events : List Event) : lastWritten header.dataHash (e :: events) = some header := by
  rw [lastWritten, filterMap_cons_some h]
  exact find?_cons_of_pos (decide_eq_true rfl)

theorem lastWritten_cons_of_ne {e : Event} {header : Header} (h : e.written = some header)
    {d : HashString} (hd : header.dataHash ≠ d) (events : List Event) :
    lastWritten d (e :: events) = lastWritten d events := by
  rw [lastWritten, filterMap_cons_some h]
  exact find?_cons_of_neg (by rw [decide_eq_true_eq]; exact hd)

/-! ## The cache has what was written last -/

/-- No two objects have the same data hash, and those in the cache have the header that was
written last. -/
structure Written (events : List Event) (s : LocalConsensus) : Prop where
  pushed : ∀ p, p < s.next → (s.blocks p).header.dataHash ∈ pushes events
  inj : ∀ p q, p < s.next → q < s.next →
    (s.blocks p).header.dataHash = (s.blocks q).header.dataHash → p = q
  last : ∀ d p, s.cache d = some p → lastWritten d events = some (s.blocks p).header

section

variable {Key : Type} {node : LocalNode Key} {events : List Event} {e : Event}
  {s s' : LocalConsensus} {header : Header}

/-- A step that writes no header, and puts nothing into the cache. -/
theorem Written.quiet (h : Written events s) (hwritten : e.written = none)
    (hpushed : e.pushedHash = none)
    (hheader : ∀ p, (s'.blocks p).header = (s.blocks p).header) (hnext : s'.next = s.next)
    (hcache : ∀ d p, s'.cache d = some p → s.cache d = some p) : Written (e :: events) s' := by
  refine ⟨fun p hp => ?_, fun p q hp hq => ?_, fun d p hd => ?_⟩
  · rw [pushes_cons_of_none hpushed, hheader]
    rw [hnext] at hp
    exact h.pushed p hp
  · rw [hheader, hheader]
    rw [hnext] at hp hq
    exact h.inj p q hp hq
  · rw [lastWritten_cons_of_none hwritten, hheader]
    exact h.last d p (hcache d p hd)

theorem setHeader_dataHash {p : Nat}
    (hhash : header.dataHash = (s.blocks p).header.dataHash) (q : Nat) :
    ((s.setHeader p header).blocks q).header.dataHash = (s.blocks q).header.dataHash := by
  by_cases hqp : q = p
  · rw [hqp, setHeader_self]
    exact hhash
  · rw [setHeader_of_ne s hqp]

/-- A step that writes a header. The object it writes to is the one in the cache, if there is
one under this data hash, because there is no other object with it. -/
theorem Written.setHeader (h : Written events s)
    (hcached : ∀ d p, s.cache d = some p → p < s.next ∧ (s.blocks p).header.dataHash = d)
    {p : Nat} (hp : p < s.next) (hwritten : e.written = some header)
    (hpushed : e.pushedHash = none) (hhash : header.dataHash = (s.blocks p).header.dataHash) :
    Written (e :: events) (s.setHeader p header) := by
  refine ⟨fun q hq => ?_, fun q r hq hr => ?_, fun d q hd => ?_⟩
  · rw [pushes_cons_of_none hpushed, setHeader_dataHash hhash]
    exact h.pushed q hq
  · rw [setHeader_dataHash hhash, setHeader_dataHash hhash]
    exact h.inj q r hq hr
  · obtain ⟨hlt, hdata⟩ := hcached d q hd
    by_cases hqp : q = p
    · subst hqp
      rw [setHeader_self, ← hdata, ← hhash]
      exact lastWritten_cons_self hwritten events
    · rw [setHeader_of_ne s hqp]
      have hne : header.dataHash ≠ d := by
        rw [hhash, ← hdata]
        exact fun heq => hqp (h.inj p q hp hlt heq).symm
      rw [lastWritten_cons_of_ne hwritten hne]
      exact h.last d q hd

/-- A batch that nobody has pushed before. -/
theorem Written.storeBlock (h : Written events s)
    (hcached : ∀ d p, s.cache d = some p → p < s.next) {block : Block} {d : HashString}
    (hblock : block.header = unproposed d) (hd : d ∉ pushes events) :
    Written (.pushed d :: events) (s.storeBlock block) := by
  have hhash : block.header.dataHash = d := by
    rw [hblock]
    rfl
  have hold : ∀ p, p < s.next → (s.blocks p).header.dataHash ≠ d := by
    intro p hp heq
    rw [← heq] at hd
    exact hd (h.pushed p hp)
  have hlt : ∀ p, p < (s.storeBlock block).next → p ≠ s.next → p < s.next := by
    intro p hp hne
    exact Nat.lt_of_le_of_ne (Nat.lt_succ_iff.mp hp) hne
  refine ⟨fun p hp => ?_, fun p q hp hq => ?_, fun d' p hd' => ?_⟩
  · rw [pushes_pushed]
    by_cases hpn : p = s.next
    · rw [hpn, storeBlock_next, hhash]
      exact mem_cons_self
    · rw [storeBlock_of_ne s block hpn]
      exact mem_cons_of_mem d (h.pushed p (hlt p hp hpn))
  · by_cases hpn : p = s.next
    · by_cases hqn : q = s.next
      · rw [hpn, hqn]
        exact fun _ => rfl
      · rw [hpn, storeBlock_next, storeBlock_of_ne s block hqn, hhash]
        exact fun heq => absurd heq.symm (hold q (hlt q hq hqn))
    · by_cases hqn : q = s.next
      · rw [hqn, storeBlock_next, storeBlock_of_ne s block hpn, hhash]
        exact fun heq => absurd heq (hold p (hlt p hp hpn))
      · rw [storeBlock_of_ne s block hpn, storeBlock_of_ne s block hqn]
        exact h.inj p q (hlt p hp hpn) (hlt q hq hqn)
  · by_cases hdd : d' = block.header.dataHash
    · rw [hdd, storeBlock_cache] at hd'
      cases hd'
      rw [storeBlock_next, hdd, hblock]
      exact lastWritten_cons_self rfl events
    · rw [storeBlock_cache_of_ne s block hdd] at hd'
      rw [storeBlock_of_ne s block (Nat.ne_of_lt (hcached d' p hd'))]
      rw [hhash] at hdd
      rw [@lastWritten_cons_of_ne (.pushed d) (unproposed d) rfl d' (Ne.symm hdd)]
      exact h.last d' p hd'

/-- What `OnDeliver` leaves: the object under the data hash, with the header it had. -/
theorem onDeliver_eq_some {signatures : List SignaturePair} {block : Block}
    (h : onDeliver node s header signatures = some (block, s')) :
    ∃ p, s.cache header.dataHash = some p ∧ block.header = (s.blocks p).header ∧
      block.storage = some (Block.serializeToString node.wire (s.blocks p)) ∧
      s' = { s with
        blocks := update s.blocks p block
        cache := update s.cache header.dataHash none
        deliveredBlock := some p
        delivered := s.delivered ++ [block] } := by
  rw [onDeliver] at h
  split at h
  · cases h
  · rename_i p hp
    cases h
    exact ⟨p, hp, rfl, rfl, rfl⟩

theorem Written.deliver (h : Written events s) {signatures : List SignaturePair} {block : Block}
    (hdel : onDeliver node s header signatures = some (block, s')) :
    Written (.delivered header block :: events) s' := by
  obtain ⟨p, -, hheader, -, rfl⟩ := onDeliver_eq_some hdel
  refine h.quiet rfl rfl (fun q => ?_) rfl fun d q hd => ?_
  · dsimp only
    by_cases hqp : q = p
    · rw [hqp, update_self]
      exact hheader
    · rw [update_of_ne hqp]
  · dsimp only at hd
    by_cases hdh : d = header.dataHash
    · rw [hdh, update_self] at hd
      cases hd
    · rwa [update_of_ne hdh] at hd

/-- **One step keeps the cache at what was written last**, if it does not push a batch for the
second time. -/
theorem Written.step {P : Block → Prop} (hobjects : Objects P s) (h : Written events s)
    (hstep : Step node s e s') (hnodup : (pushes (e :: events)).Nodup) :
    Written (e :: events) s' := by
  have hcached := hobjects.cached
  cases hstep with
  | push hpush =>
    obtain ⟨mt, -, rfl⟩ := pushUnorderedBlock_true hpush
    rw [storeBlock_next, pushes_pushed] at hnodup
    rw [storeBlock_next]
    exact h.storeBlock (fun d p hd => (hcached d p hd).1) rfl (nodup_cons.mp hnodup).1
  | refuse hpush =>
    rw [pushUnorderedBlock_false hpush]
    exact h.quiet rfl rfl (fun _ => rfl) rfl fun _ _ hd => hd
  | verify serializedHeader =>
    obtain ⟨_, _, hs⟩ := @onVerifyProposal_state _ node s serializedHeader
    rw [hs]
    exact h.quiet rfl rfl (fun _ => rfl) rfl fun _ _ hd => hd
  | load hmem hload =>
    rename_i header
    rw [loadCachedBlock] at hload
    split at hload
    · cases hload
    · rename_i p hp
      cases hload
      obtain ⟨hlt, hdata⟩ := hcached _ p hp
      have hset := h.setHeader hcached hlt (rfl : (Event.verified header).written = _) rfl
        hdata.symm
      exact ⟨hset.pushed, hset.inj, hset.last⟩
  | timeout hmem => exact h.quiet rfl rfl (fun _ => rfl) rfl fun _ _ hd => hd
  | sign => exact h.quiet rfl rfl (fun _ => rfl) rfl fun _ _ hd => hd
  | request hqueue =>
    rename_i p queue
    have hlt : p < s.next := hobjects.queued p (by rw [hqueue]; exact mem_cons_self)
    have hset := h.setHeader hcached hlt
      (rfl : (Event.proposed (updatedHeader node s (s.blocks p).header)).written = _) rfl
      (@updatedHeader_dataHash _ node s (s.blocks p).header)
    obtain ⟨_, hs⟩ := @onRequestProposal_state _ node s p queue
    rw [hs]
    exact ⟨hset.pushed, hset.inj, hset.last⟩
  | deliver hdel => exact h.deliver hdel
  | leaderStart => exact h.quiet rfl rfl (fun _ => rfl) rfl fun _ _ hd => hd
  | leaderChange => exact h.quiet rfl rfl (fun _ => rfl) rfl fun _ _ hd => hd

theorem pushes_tail_nodup (h : (pushes (e :: events)).Nodup) : (pushes events).Nodup := by
  have hsub : (pushes events).Sublist (pushes (e :: events)) :=
    (sublist_cons_self e events).filterMap Event.pushedHash
  exact h.sublist hsub

/-- **In every run that pushes no batch twice, the cache has what was written last.** -/
theorem Reaches.written (h : Reaches node events s) (hnodup : (pushes events).Nodup) :
    Written events s := by
  induction h with
  | start =>
    refine ⟨fun p hp => ?_, fun p q hp => ?_, fun d p hd => ?_⟩
    · cases hp
    · cases hp
    · cases hd
  | step hrun hstep ih =>
    exact (ih (pushes_tail_nodup hnodup)).step hrun.bodyMatches hstep hnodup

end

/-! ## The decided header -/

/-- The block that `OnDeliver` has serialized, given to the callback and remembered has this
header. -/
structure DeliveredAs {Key : Type} (node : LocalNode Key) (header : Header) (block : Block)
    (s' : LocalConsensus) : Prop where
  header_eq : block.header = header
  serialized : ∃ b : Block, b.header = header ∧
    block.storage = some (Block.serializeToString node.wire b)
  passed : s'.delivered.getLast? = some block
  remembered : ∃ p, s'.deliveredBlock = some p ∧ s'.blocks p = block

/-- The decided headers, the last one first: each continues the one before it. -/
def DecidedChain {Key : Type} (node : LocalNode Key) : List Header → Prop
  | [] => True
  | [first] => first.number = 0 ∧ first.previousHash = default
  | header :: previous :: rest =>
    header.number = previous.number + 1 ∧
      header.previousHash = calculatePreviousHash node previous ∧
      DecidedChain node (previous :: rest)

def Event.decided : Event → Option Header
  | .delivered header _ => some header
  | _ => none

/-! ## A follower of one region -/

section

variable {Key : Type} {node : LocalNode Key} {events : List Event} {s : LocalConsensus}

/-- `OnDeliver` of a block that is there. -/
theorem Reaches.deliver_cached (h : Reaches node events s) {header : Header} {p : Nat}
    (hp : s.cache header.dataHash = some p) :
    ∃ block s', Reaches node (.delivered header block :: events) s' ∧
      block.header = (s.blocks p).header ∧ s'.isLeader = s.isLeader ∧
      s'.deliveredBlock = some p ∧ (s'.blocks p).header = (s.blocks p).header := by
  obtain ⟨⟨block, s'⟩, hdel⟩ : ∃ out, onDeliver node s header [] = some out := by
    rw [onDeliver, hp]
    exact ⟨_, rfl⟩
  obtain ⟨q, hq, hheader, -, hs'⟩ := onDeliver_eq_some hdel
  obtain rfl : q = p := Option.some.inj (hq.symm.trans hp)
  refine ⟨block, s', h.step (.deliver hdel), hheader, ?_⟩
  rw [hs']
  refine ⟨rfl, rfl, ?_⟩
  dsimp only
  rw [update_self]
  exact hheader

section

variable {header : Header}
  (hget : (Header.codec node.wire).get ((Header.codec node.wire).put header) = some (header, []))
  (hvalid : isDeliveredBlockHeaderValid node s header = true)
  (hsign : (sign node ((Header.codec node.wire).put header)).isSome = true)
include hget hvalid hsign

/-- `OnVerifyProposal` of a header that continues the delivered one waits for its block. -/
theorem onVerifyProposal_waits :
    ∃ pair, onVerifyProposal node s ((Header.codec node.wire).put header) = (some header,
      { s with
        signatureCache := s.signatureCache.push pair
        verifying := header :: s.verifying }) := by
  obtain ⟨pair, hpair⟩ := Option.isSome_iff_exists.mp hsign
  refine ⟨pair, ?_⟩
  rw [onVerifyProposal, hget]
  dsimp only
  rw [if_neg (not_not.mpr hvalid), hpair]

/-- … and may never get it. -/
theorem Reaches.verify_timeout (h : Reaches node events s) :
    ∃ s', Reaches node (.timedOut header ::
        .verify ((Header.codec node.wire).put header) :: events) s' ∧
      s'.isLeader = s.isLeader := by
  obtain ⟨pair, hcall⟩ := onVerifyProposal_waits hget hvalid hsign
  have hverify := h.step (.verify s ((Header.codec node.wire).put header))
  rw [hcall] at hverify
  exact ⟨_, hverify.step (.timeout mem_cons_self), rfl⟩

end

end

/-- A request that user 0 has signed. -/
def signedRequest (payload : Bytes) : Envelop :=
  ⟨payload, ⟨[0], MRBlockReceiver.plainSign 0 (lengthHash payload).bytes⟩⟩

theorem Reaches.push_request {events : List Event} {s : LocalConsensus}
    (h : Reaches plainNode events s) (hfollower : s.isLeader = false) {payload : Bytes}
    {mt : MerkleTree} (hmt : generateMerkleTree lengthHash [signedRequest payload]
      (some (validateHandle plainNode)) = some mt) :
    Reaches plainNode (.pushed mt.root :: events)
      (s.storeBlock (batchBlock [signedRequest payload] mt.root)) := by
  have hpush : pushUnorderedBlock plainNode s [signedRequest payload] =
      (true, s.storeBlock (batchBlock [signedRequest payload] mt.root)) := by
    have htree : generateMerkleTree plainNode.sha256 [signedRequest payload]
        (if s.isLeader then none else some (validateHandle plainNode)) = some mt := by
      rw [hfollower]
      exact hmt
    rw [pushUnorderedBlock, htree]
  have hstep := h.step (.push hpush)
  rw [storeBlock_next] at hstep
  exact hstep

theorem plainNode_get_put {header : Header} (h : header.number < 2 ^ 64) :
    (Header.codec plainNode.wire).get ((Header.codec plainNode.wire).put header) =
      some (header, []) := by
  have hcarries : (Header.codec littleEndian).Carries header :=
    Header.Fits.carries littleEndian.inverts h
  have hfront := hcarries []
  rwa [append_nil] at hfront

/-- The first decided header of the sample, and the one that continues it. -/
def firstHeader : Header := unproposed (plainDataHash [1])

def secondHeader : Header := ⟨1, calculatePreviousHash plainNode firstHeader, plainDataHash [2]⟩

theorem exists_first_delivered : ∃ block s,
    Reaches plainNode [.delivered firstHeader block, .pushed (plainDataHash [1])] s ∧
      s.isLeader = false ∧ isDeliveredBlockHeaderValid plainNode s secondHeader = true := by
  obtain ⟨mt, hmt, hroot⟩ : ∃ mt, generateMerkleTree lengthHash [signedRequest [1]]
      (some (validateHandle plainNode)) = some mt ∧ mt.root = plainDataHash [1] := ⟨_, rfl, rfl⟩
  have hpush := Reaches.start.push_request rfl hmt
  rw [hroot] at hpush
  obtain ⟨block, s, hrun, -, hfollower, hdelivered, hheader⟩ :=
    @Reaches.deliver_cached _ _ _ _ hpush firstHeader _ (storeBlock_cache .start _)
  refine ⟨block, s, hrun, hfollower, ?_⟩
  rw [isDeliveredBlockHeaderValid, hdelivered]
  dsimp only
  rw [hheader]
  exact decide_eq_true ⟨rfl, rfl⟩

/-! ## The last header that was written -/

/-- **The decided header is delivered exactly if it was the last one written** for its data hash,
in every run that pushes no batch twice. -/
theorem delivered_header_iff {Key : Type} {node : LocalNode Key} {events : List Event}
    {s' : LocalConsensus} {header : Header} {block : Block}
    (h : Reaches node (.delivered header block :: events) s') (hnodup : (pushes events).Nodup) :
    DeliveredAs node header block s' ↔ lastWritten header.dataHash events = some header := by
  cases h with
  | step hrun hstep =>
    cases hstep with
    | deliver hdel =>
      obtain ⟨p, hp, hheader, hstorage, rfl⟩ := onDeliver_eq_some hdel
      have hlast := (hrun.written hnodup).last _ p hp
      rw [← hheader] at hlast
      constructor
      · intro has
        rw [hlast, has.header_eq]
      · intro hdecided
        have heq : block.header = header := Option.some.inj (hlast.symm.trans hdecided)
        refine ⟨heq, ⟨_, hheader.symm.trans heq, hstorage⟩, getLast?_concat, p, rfl, ?_⟩
        exact update_self _ _ _

/-- The first batch of a follower. -/
theorem delivered_header_first : ∃ block s,
    Reaches plainNode [.delivered firstHeader block, .pushed (plainDataHash [1])] s ∧
      DeliveredAs plainNode firstHeader block s := by
  obtain ⟨block, s, hrun, -, -⟩ := exists_first_delivered
  refine ⟨block, s, hrun, (delivered_header_iff hrun (nodup_singleton _)).mpr ?_⟩
  exact @lastWritten_cons_self (.pushed (plainDataHash [1])) _ rfl []

/-- A batch that comes after the timeout is delivered with number 0. -/
theorem not_always_delivered_header :
    ¬ ∀ (node : LocalNode Nat) (events : List Event) (s' : LocalConsensus) (header : Header)
      (block : Block), Reaches node (.delivered header block :: events) s' →
      DecidedChain node ((.delivered header block :: events).filterMap Event.decided) →
      header.dataHash ∈ pushes events → (pushes events).Nodup →
      DeliveredAs node header block s' := by
  intro h
  obtain ⟨first, s, hrun, hfollower, hvalid⟩ := exists_first_delivered
  have hget := plainNode_get_put (by norm_num [secondHeader] : secondHeader.number < 2 ^ 64)
  obtain ⟨t, hlate, hstill⟩ := hrun.verify_timeout hget hvalid rfl
  obtain ⟨mt, hmt, hroot⟩ : ∃ mt, generateMerkleTree lengthHash [signedRequest [2]]
      (some (validateHandle plainNode)) = some mt ∧ mt.root = plainDataHash [2] := ⟨_, rfl, rfl⟩
  have hpush := hlate.push_request (hstill.trans hfollower) hmt
  rw [hroot] at hpush
  obtain ⟨block, s', hdel, hheader, -⟩ :=
    @Reaches.deliver_cached _ _ _ _ hpush secondHeader _ (storeBlock_cache t _)
  have hdistinct : [plainDataHash [2], plainDataHash [1]].Nodup := by decide +kernel
  have has := h plainNode _ s' secondHeader block hdel ⟨rfl, rfl, rfl, rfl⟩ mem_cons_self hdistinct
  rw [storeBlock_next, has.header_eq] at hheader
  exact absurd (congrArg Header.number hheader) (by decide)

end MassBFT.Consensus
