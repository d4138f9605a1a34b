import MassBFT.Consensus.DecidedHeader

/-!
# The chain of the delivered local blocks

`OnVerifyProposal` compares a header with the block delivered last: its number has to be the next
one, its previous hash the digest of that block's header. **For the first block it compares
nothing**, so whatever the leader proposes first becomes the start of the chain
(`first_delivered_five`).

Behind the first block the check leaves one header for each batch. What it does not do is keep
that header: the block is a shared object, the same batch can be stored again, and a block that
other replicas have proposed can still be in the queue of this one. `Orderly` says when none of
that happens, and then **the delivered blocks form a chain** (`orderly_formsChain`).
-/

set_option autoImplicit false

namespace MassBFT.Consensus

open Function List Replication LocalConsensus

/-! ## Chains -/

section

variable {Key : Type} (node : LocalNode Key)

/-- The header comes next, behind the blocks: it has their number, and the digest of the last
header. Block numbers are of type `uint64_t`. -/
structure Continues (blocks : List Block) (header : Header) : Prop where
  number : header.number = blocks.length % 2 ^ 64
  previousHash : header.previousHash =
    match blocks.getLast? with
    | none => default
    | some last => calculatePreviousHash node last.header

/-- Every block continues those in front of it. -/
def FormsChain (blocks : List Block) : Prop :=
  ∀ pre block post, blocks = pre ++ block :: post → Continues node pre block.header

variable {node} {blocks : List Block}

theorem formsChain_nil : FormsChain node [] := by
  intro pre block post h
  exact absurd h.symm (by simp)

theorem FormsChain.concat (h : FormsChain node blocks) {block : Block}
    (hnext : Continues node blocks block.header) : FormsChain node (blocks ++ [block]) := by
  intro pre b post heq
  rcases eq_nil_or_concat post with rfl | ⟨post', last, rfl⟩
  · obtain ⟨rfl, hb⟩ := append_inj' heq rfl
    cases hb
    exact hnext
  · rw [concat_eq_append, ← cons_append, ← append_assoc] at heq
    obtain ⟨rfl, -⟩ := append_inj' heq rfl
    exact h pre b post' rfl

/-- A batch has one place in a chain. -/
theorem Continues.unique {header header' : Header}
    (h : Continues node blocks header) (h' : Continues node blocks header')
    (hdata : header.dataHash = header'.dataHash) : header = header' := by
  have hnumber := h.number.trans h'.number.symm
  have hprevious := h.previousHash.trans h'.previousHash.symm
  cases header
  cases header'
  simp only at hnumber hprevious hdata
  rw [hnumber, hprevious, hdata]

/-- What the check of `OnVerifyProposal` says when a block has been delivered. -/
theorem FormsChain.continues_of_valid (h : FormsChain node blocks)
    {last : Block} (hlast : blocks.getLast? = some last) {header : Header}
    (hhash : header.previousHash = calculatePreviousHash node last.header)
    (hnumber : header.number = (last.header.number + 1) % 2 ^ 64) :
    Continues node blocks header := by
  obtain ⟨pre, rfl⟩ := getLast?_eq_some_iff.mp hlast
  have hbefore := (h pre last [] rfl).number
  refine ⟨?_, ?_⟩
  · rw [hnumber, hbefore, Nat.mod_add_mod, length_append, length_singleton]
  · rw [hlast]
    exact hhash

end

/-! ## Orderly runs -/

/-- The headers that `OnVerifyProposal` has returned `true` for since the last delivery. -/
def verifiedSince : List Event → List Header
  | [] => []
  | .delivered _ _ :: _ => []
  | .verified header :: events => header :: verifiedSince events
  | _ :: events => verifiedSince events

theorem verified_of_mem_verifiedSince {header : Header} {events : List Event} :
    header ∈ verifiedSince events → Event.verified header ∈ events := by
  fun_induction verifiedSince events with
  | case1 => exact fun h => absurd h (by simp)
  | case2 => exact fun h => absurd h (by simp)
  | case3 header' events ih =>
    intro h
    rcases mem_cons.mp h with rfl | h
    · exact mem_cons_self
    · exact mem_cons_of_mem _ (ih h)
  | case4 e events _ _ ih => exact fun h => mem_cons_of_mem _ (ih h)

/-- Every `OnDeliver` comes after an `OnVerifyProposal` of the same header that has returned
`true`, with no other delivery in between. -/
def VerifiedFirst : List Event → Prop
  | [] => True
  | .delivered header _ :: events => header ∈ verifiedSince events ∧ VerifiedFirst events
  | _ :: events => VerifiedFirst events

theorem VerifiedFirst.tail {e : Event} {events : List Event} (h : VerifiedFirst (e :: events)) :
    VerifiedFirst events := by
  cases e with
  | delivered _ _ => exact h.2
  | _ => exact h

section

variable {Key : Type} (node : LocalNode Key)

/-- The condition on a step: before anything is delivered, only first headers are proposed;
nothing is delivered while a call of `OnVerifyProposal` waits for its block; a batch is not
stored again while it is in the cache; and the queue has no block that has been verified. -/
structure Orderly (events : List Event) (s : LocalConsensus) (e : Event) : Prop where
  first : ∀ serializedHeader header rest, e = .verify serializedHeader →
    s.deliveredBlock = none → (Header.codec node.wire).get serializedHeader = some (header, rest) →
    header.number = 0 ∧ header.previousHash = default
  waits : ∀ header block, e = .delivered header block → s.verifying = []
  stored : ∀ dataHash, e = .pushed dataHash → s.cache dataHash = none
  queued : ∀ header, e = .proposed header → ∀ header', Event.verified header' ∈ events →
    header'.dataHash ≠ header.dataHash

/-- The runs all of whose steps are orderly, the last event first. -/
inductive OrderlyRun : List Event → LocalConsensus → Prop
  | start : OrderlyRun [] .start
  | step {events : List Event} {s s' : LocalConsensus} {e : Event} (h : OrderlyRun events s)
    (hstep : Step node s e s') (horderly : Orderly node events s e) : OrderlyRun (e :: events) s'

variable {node}

theorem OrderlyRun.reaches {events : List Event} {s : LocalConsensus}
    (h : OrderlyRun node events s) : Reaches node events s := by
  induction h with
  | start => exact .start
  | step _ hstep _ ih => exact ih.step hstep

end

/-! ## The invariant -/

section

variable {Key : Type} {node : LocalNode Key} {events : List Event} {e : Event}
  {s s' : LocalConsensus} {header : Header}

/-- The state of an orderly run. Nobody can write to the block delivered last: it is not in the
cache any more, and it has been verified, so the queue does not have it either. The headers that
wait or have been verified since continue it, and the latter are in the cache. -/
structure ChainState (node : LocalNode Key) (events : List Event) (s : LocalConsensus) : Prop where
  chain : FormsChain node s.delivered
  empty : s.deliveredBlock = none → s.delivered = []
  last : ∀ p, s.deliveredBlock = some p → p < s.next ∧ (∀ d, s.cache d ≠ some p) ∧
    (∃ header, Event.verified header ∈ events ∧ header.dataHash = (s.blocks p).header.dataHash) ∧
    ∃ block, s.delivered.getLast? = some block ∧ block.header = (s.blocks p).header
  waiting : ∀ header ∈ s.verifying, Continues node s.delivered header
  verified : ∀ header ∈ verifiedSince events, Continues node s.delivered header ∧
    ∃ p, s.cache header.dataHash = some p ∧ (s.blocks p).header = header

theorem chainState_start : ChainState node [] .start where
  chain := formsChain_nil
  empty _ := rfl
  last _ hp := by cases hp
  waiting _ h := by cases h
  verified _ h := by cases h

section

variable (h : ChainState node events s)
include h

/-- A step that delivers nothing and leaves the block delivered last alone. -/
theorem ChainState.kept (hdelivered : s'.delivered = s.delivered)
    (hblock : s'.deliveredBlock = s.deliveredBlock) (hnext : s.next ≤ s'.next)
    (hlast : ∀ p, s.deliveredBlock = some p →
      (s'.blocks p).header = (s.blocks p).header ∧ ∀ d, s'.cache d ≠ some p)
    (hwaiting : ∀ header ∈ s'.verifying, Continues node s.delivered header)
    (hverified : ∀ header ∈ verifiedSince (e :: events), Continues node s.delivered header ∧
      ∃ p, s'.cache header.dataHash = some p ∧ (s'.blocks p).header = header) :
    ChainState node (e :: events) s' := by
  refine ⟨?_, fun hnone => ?_, fun p hp => ?_, fun header hw => ?_, fun header hv => ?_⟩
  · rw [hdelivered]
    exact h.chain
  · rw [hdelivered]
    rw [hblock] at hnone
    exact h.empty hnone
  · rw [hblock] at hp
    obtain ⟨hlt, -, ⟨header, hmem, hdata⟩, block, hget, heq⟩ := h.last p hp
    obtain ⟨hheader, hcache⟩ := hlast p hp
    rw [hdelivered, hheader]
    exact ⟨lt_of_lt_of_le hlt hnext, hcache, ⟨header, mem_cons_of_mem _ hmem, hdata⟩, block,
      hget, heq⟩
  · rw [hdelivered]
    exact hwaiting header hw
  · rw [hdelivered]
    exact hverified header hv

/-- A step that changes neither the blocks nor the cache. -/
theorem ChainState.quiet (hdelivered : s'.delivered = s.delivered)
    (hblock : s'.deliveredBlock = s.deliveredBlock) (hnext : s'.next = s.next)
    (hblocks : s'.blocks = s.blocks) (hcache : s'.cache = s.cache)
    (hwaiting : ∀ header ∈ s'.verifying, Continues node s.delivered header)
    (hevent : verifiedSince (e :: events) = verifiedSince events) :
    ChainState node (e :: events) s' := by
  refine h.kept hdelivered hblock hnext.ge (fun p hp => ?_) hwaiting fun header hv => ?_
  · rw [hblocks, hcache]
    exact ⟨rfl, (h.last p hp).2.1⟩
  · rw [hevent] at hv
    rw [hblocks, hcache]
    exact h.verified header hv

/-- A header that has passed the check comes next. -/
theorem ChainState.continues (hvalid : isDeliveredBlockHeaderValid node s header = true)
    (hfirst : s.deliveredBlock = none → header.number = 0 ∧ header.previousHash = default) :
    Continues node s.delivered header := by
  unfold isDeliveredBlockHeaderValid at hvalid
  cases hblock : s.deliveredBlock with
  | none =>
    obtain ⟨hnumber, hhash⟩ := hfirst hblock
    rw [h.empty hblock]
    exact ⟨hnumber, hhash⟩
  | some p =>
    rw [hblock] at hvalid
    obtain ⟨hhash, hnumber⟩ := of_decide_eq_true hvalid
    obtain ⟨-, -, -, block, hget, heq⟩ := h.last p hblock
    rw [← heq] at hhash hnumber
    exact h.chain.continues_of_valid hget hhash hnumber

theorem ChainState.verify (serializedHeader : Bytes)
    (hfirst : ∀ header rest, s.deliveredBlock = none →
      (Header.codec node.wire).get serializedHeader = some (header, rest) →
      header.number = 0 ∧ header.previousHash = default) :
    ChainState node (.verify serializedHeader :: events)
      (onVerifyProposal node s serializedHeader).2 := by
  unfold onVerifyProposal
  split
  · exact h.quiet rfl rfl rfl rfl rfl h.waiting rfl
  · rename_i header rest hget
    by_cases hvalid : isDeliveredBlockHeaderValid node s header = true
    · rw [if_neg (not_not.mpr hvalid)]
      split
      · exact h.quiet rfl rfl rfl rfl rfl h.waiting rfl
      · refine h.quiet rfl rfl rfl rfl rfl (fun header' hw => ?_) rfl
        rcases mem_cons.mp hw with rfl | hw
        · exact h.continues hvalid fun hnone => hfirst _ rest hnone hget
        · exact h.waiting header' hw
    · rw [if_pos hvalid]
      exact h.quiet rfl rfl rfl rfl rfl h.waiting rfl

/-- `OnVerifyProposal` finds its block. A header that was verified before for the same batch is
the same header. -/
theorem ChainState.load
    (hcached : ∀ d p, s.cache d = some p → p < s.next ∧ (s.blocks p).header.dataHash = d)
    (hmem : header ∈ s.verifying) (hload : loadCachedBlock s header = some s') :
    ChainState node (.verified header :: events) s' := by
  rw [loadCachedBlock] at hload
  split at hload
  · cases hload
  rename_i p hp
  cases hload
  have hnew := h.waiting header hmem
  refine h.kept rfl rfl le_rfl (fun q hq => ⟨?_, (h.last q hq).2.1⟩)
    (fun header' hw => h.waiting header' (mem_of_mem_erase hw)) fun header' hv => ?_
  · have hne : q ≠ p := by
      rintro rfl
      exact (h.last q hq).2.1 _ hp
    dsimp only
    rw [setHeader_of_ne s hne]
  · rcases mem_cons.mp hv with rfl | hv
    · refine ⟨hnew, p, hp, ?_⟩
      dsimp only
      rw [setHeader_self]
    · obtain ⟨hold, q, hq, heq⟩ := h.verified header' hv
      refine ⟨hold, q, hq, ?_⟩
      dsimp only
      by_cases hqp : q = p
      · subst hqp
        rw [setHeader_self]
        refine hnew.unique hold ?_
        rw [← (hcached _ q hp).2, (hcached _ q hq).2]
      · rw [setHeader_of_ne s hqp]
        exact heq

theorem ChainState.storeBlock
    (hcached : ∀ d p, s.cache d = some p → p < s.next) {block : Block} {d : HashString}
    (hd : block.header.dataHash = d) (hnew : s.cache d = none) :
    ChainState node (.pushed d :: events) (s.storeBlock block) := by
  subst hd
  refine h.kept rfl rfl (Nat.le_succ _) (fun p hp => ?_) h.waiting fun header hv => ?_
  · obtain ⟨hlt, hcache, -⟩ := h.last p hp
    rw [storeBlock_of_ne s block hlt.ne]
    refine ⟨rfl, fun d hd => ?_⟩
    by_cases heq : d = block.header.dataHash
    · rw [heq, storeBlock_cache] at hd
      exact hlt.ne (Option.some.inj hd).symm
    · rw [storeBlock_cache_of_ne s block heq] at hd
      exact hcache d hd
  · obtain ⟨hold, p, hp, heq⟩ := h.verified header hv
    have hne : header.dataHash ≠ block.header.dataHash := by
      intro hsame
      rw [hsame, hnew] at hp
      cases hp
    refine ⟨hold, p, ?_, ?_⟩
    · rw [storeBlock_cache_of_ne s block hne]
      exact hp
    · rw [storeBlock_of_ne s block (hcached _ p hp).ne]
      exact heq

/-- A block of the queue gets a header. It has not been verified. -/
theorem ChainState.setHeader {p : Nat} (hhash : header.dataHash = (s.blocks p).header.dataHash)
    (hfresh : ∀ header', Event.verified header' ∈ events → header'.dataHash ≠ header.dataHash) :
    ChainState node (.proposed header :: events) (s.setHeader p header) := by
  refine h.kept rfl rfl le_rfl (fun q hq => ⟨?_, (h.last q hq).2.1⟩) h.waiting fun header' hv => ?_
  · obtain ⟨-, -, ⟨header', hmem, hdata⟩, -⟩ := h.last q hq
    have hne : q ≠ p := by
      rintro rfl
      exact hfresh header' hmem (hdata.trans hhash.symm)
    rw [setHeader_of_ne s hne]
  · obtain ⟨hold, q, hq, heq⟩ := h.verified header' hv
    refine ⟨hold, q, hq, ?_⟩
    have hne : q ≠ p := by
      rintro rfl
      refine hfresh header' (verified_of_mem_verifiedSince hv) ?_
      rw [hhash, heq]
    rw [setHeader_of_ne s hne]
    exact heq

/-- `OnDeliver` of a header that has been verified: the block still has it. -/
theorem ChainState.deliver
    (hcached : ∀ d p, s.cache d = some p → p < s.next ∧ (s.blocks p).header.dataHash = d)
    {signatures : List SignaturePair} {block : Block}
    (hdel : onDeliver node s header signatures = some (block, s'))
    (hverified : header ∈ verifiedSince events) (hwaits : s.verifying = []) :
    ChainState node (.delivered header block :: events) s' := by
  obtain ⟨p, hp, hheader, -, rfl⟩ := onDeliver_eq_some hdel
  obtain ⟨hnext, q, hq, heq⟩ := h.verified header hverified
  obtain rfl : q = p := Option.some.inj (hq.symm.trans hp)
  rw [heq] at hheader
  refine ⟨?_, fun hnone => ?_, fun r hr => ?_, fun header' hw => ?_, fun _ hv => ?_⟩
  · rw [← hheader] at hnext
    exact h.chain.concat hnext
  · cases hnone
  · cases hr
    refine ⟨(hcached _ q hp).1, fun d hd => ?_, ⟨header, ?_, ?_⟩, block, ?_, ?_⟩
    · dsimp only at hd
      by_cases hdh : d = header.dataHash
      · rw [hdh, update_self] at hd
        cases hd
      · rw [update_of_ne hdh] at hd
        exact hdh ((hcached d q hd).2.symm.trans (hcached _ q hp).2)
    · exact mem_cons_of_mem _ (verified_of_mem_verifiedSince hverified)
    · dsimp only
      rw [update_self, hheader]
    · exact getLast?_concat
    · dsimp only
      rw [update_self]
  · dsimp only at hw
    rw [hwaits] at hw
    cases hw
  · cases hv

end

/-- **One orderly step keeps the chain.** -/
theorem ChainState.step {P : Block → Prop} (hobjects : Objects P s) (h : ChainState node events s)
    (hstep : Step node s e s') (horderly : Orderly node events s e)
    (hverified : VerifiedFirst (e :: events)) : ChainState node (e :: events) s' := by
  have hcached := hobjects.cached
  cases hstep with
  | push hpush =>
    obtain ⟨mt, -, rfl⟩ := pushUnorderedBlock_true hpush
    exact h.storeBlock (fun d p hd => (hcached d p hd).1) (by rw [storeBlock_next])
      (horderly.stored _ rfl)
  | refuse hpush =>
    rw [pushUnorderedBlock_false hpush]
    exact h.quiet rfl rfl rfl rfl rfl h.waiting rfl
  | verify serializedHeader =>
    exact h.verify serializedHeader fun header rest => horderly.first _ header rest rfl
  | load hmem hload => exact h.load hcached hmem hload
  | timeout hmem =>
    exact h.quiet rfl rfl rfl rfl rfl
      (fun header' hw => h.waiting header' (mem_of_mem_erase hw)) rfl
  | sign => exact h.quiet rfl rfl rfl rfl rfl h.waiting rfl
  | request hqueue =>
    rename_i p queue
    have hset := h.setHeader (@updatedHeader_dataHash _ node s (s.blocks p).header)
      (horderly.queued _ rfl)
    obtain ⟨_, hs⟩ := @onRequestProposal_state _ node s p queue
    rw [hs]
    exact ⟨hset.chain, hset.empty, hset.last, hset.waiting, hset.verified⟩
  | deliver hdel => exact h.deliver hcached hdel hverified.1 (horderly.waits _ _ rfl)
  | leaderStart => exact h.quiet rfl rfl rfl rfl rfl h.waiting rfl
  | leaderChange => exact h.quiet rfl rfl rfl rfl rfl h.waiting rfl

theorem OrderlyRun.chainState (h : OrderlyRun node events s) (hverified : VerifiedFirst events) :
    ChainState node events s := by
  induction h with
  | start => exact chainState_start
  | step hrun hstep horderly ih =>
    exact (ih hverified.tail).step hrun.reaches.bodyMatches hstep horderly hverified

end

/-! ## Rounds -/

section

variable {Key : Type} {node : LocalNode Key} {events : List Event} {s : LocalConsensus}
  {header : Header}

theorem OrderlyRun.push (h : OrderlyRun node events s) {batch : List Envelop} {d : HashString}
    (hpush : pushUnorderedBlock node s batch = (true, s.storeBlock (batchBlock batch d)))
    (hnew : s.cache d = none) :
    OrderlyRun node (.pushed d :: events) (s.storeBlock (batchBlock batch d)) := by
  have hstep := Step.push hpush
  rw [storeBlock_next] at hstep
  refine h.step hstep ⟨by rintro _ _ _ ⟨⟩, by rintro _ _ ⟨⟩, ?_, by rintro _ ⟨⟩⟩
  rintro _ ⟨⟩
  exact hnew

/-- A header whose block is there, and that passes the check, is verified and delivered. -/
theorem exists_delivery {p : Nat} (hcache : s.cache header.dataHash = some p)
    (hget : (Header.codec node.wire).get ((Header.codec node.wire).put header) = some (header, []))
    (hvalid : isDeliveredBlockHeaderValid node s header = true)
    (hsign : (sign node ((Header.codec node.wire).put header)).isSome = true)
    (hwaits : s.verifying = []) : ∃ s₁ s₂ s₃ block,
      (Step node s (.verify ((Header.codec node.wire).put header)) s₁ ∧
        Step node s₁ (.verified header) s₂ ∧ Step node s₂ (.delivered header block) s₃) ∧
      s₂.verifying = [] ∧ s₃.verifying = [] ∧ s₃.isLeader = s.isLeader ∧
      s₃.delivered = s.delivered ++ [block] ∧ block.header = header ∧
      s₃.deliveredBlock = some p ∧ s₃.blocks p = block ∧
      s₃.cache = update s.cache header.dataHash none := by
  obtain ⟨pair, hcall⟩ := onVerifyProposal_waits hget hvalid hsign
  have hverify := @Step.verify _ node s ((Header.codec node.wire).put header)
  rw [hcall, hwaits] at hverify
  dsimp only at hverify
  generalize hs₁ : { s with
    signatureCache := s.signatureCache.push pair
    verifying := [header] } = s₁ at hverify
  have hload : loadCachedBlock s₁ header = some { s₁.setHeader p header with verifying := [] } := by
    rw [loadCachedBlock, ← hs₁]
    dsimp only
    rw [hcache, erase_cons_head]
  generalize hs₂ : { s₁.setHeader p header with verifying := [] } = s₂ at hload
  have hobject : s₂.blocks p = { s.blocks p with header := header } := by
    rw [← hs₂, ← hs₁]
    exact setHeader_self _ _ _
  obtain ⟨⟨block, s₃⟩, hdel⟩ : ∃ out, onDeliver node s₂ header [] = some out := by
    have hstored : s₂.cache header.dataHash = some p := by
      rw [← hs₂, ← hs₁]
      exact hcache
    rw [onDeliver, hstored]
    exact ⟨_, rfl⟩
  obtain ⟨q, hq, hheader, -, rfl⟩ := onDeliver_eq_some hdel
  have hmem : header ∈ s₁.verifying := by
    rw [← hs₁]
    exact mem_cons_self
  subst hs₁ hs₂
  obtain rfl : p = q := Option.some.inj (hcache.symm.trans hq)
  rw [hobject] at hheader
  exact ⟨_, _, _, block, ⟨hverify, .load hmem hload, .deliver hdel⟩, rfl, rfl, rfl, rfl, hheader,
    rfl, update_self _ _ _, rfl⟩

/-- The three steps are orderly. -/
theorem OrderlyRun.deliver (h : OrderlyRun node events s) {s₁ s₂ s₃ : LocalConsensus}
    {block : Block} (hsteps : Step node s (.verify ((Header.codec node.wire).put header)) s₁ ∧
      Step node s₁ (.verified header) s₂ ∧ Step node s₂ (.delivered header block) s₃)
    (hget : (Header.codec node.wire).get ((Header.codec node.wire).put header) = some (header, []))
    (hfirst : s.deliveredBlock = none → header.number = 0 ∧ header.previousHash = default)
    (hwaits : s₂.verifying = []) :
    OrderlyRun node (.delivered header block :: .verified header ::
      .verify ((Header.codec node.wire).put header) :: events) s₃ := by
  refine ((h.step hsteps.1 ?_).step hsteps.2.1 ?_).step hsteps.2.2 ?_
  · refine ⟨?_, by rintro _ _ ⟨⟩, by rintro _ ⟨⟩, by rintro _ ⟨⟩⟩
    rintro _ header' rest ⟨⟩ hnone hread
    rw [hget] at hread
    cases hread
    exact hfirst hnone
  · exact ⟨by rintro _ _ _ ⟨⟩, by rintro _ _ ⟨⟩, by rintro _ ⟨⟩, by rintro _ ⟨⟩⟩
  · exact ⟨by rintro _ _ _ ⟨⟩, fun _ _ _ => hwaits, by rintro _ ⟨⟩, by rintro _ ⟨⟩⟩

end

/-! ## The chain -/

/-- **In every orderly run that delivers what it has verified, the delivered blocks form a chain
from the start.** -/
theorem orderly_formsChain {Key : Type} {node : LocalNode Key} {events : List Event}
    {s : LocalConsensus} (h : OrderlyRun node events s) (hverified : VerifiedFirst events) :
    FormsChain node s.delivered :=
  (h.chainState hverified).chain

/-- A follower delivers its first block and the one that continues it. -/
theorem orderly_formsChain_two : ∃ events s first second, OrderlyRun plainNode events s ∧
    VerifiedFirst events ∧ s.delivered = [first, second] ∧ first.header = firstHeader ∧
    second.header = secondHeader ∧ FormsChain plainNode s.delivered := by
  have hget := plainNode_get_put (by decide : firstHeader.number < 2 ^ 64)
  obtain ⟨_, _, s, first, hsteps, hwaits, hidle, hfollower, hdelivered, hfirst, hlast, hobject,
    hcache⟩ := @exists_delivery _ plainNode _ firstHeader _
      (storeBlock_cache .start (batchBlock [signedRequest [1]] _)) hget rfl rfl rfl
  have hone := (OrderlyRun.start.push rfl rfl).deliver hsteps hget (fun _ => ⟨rfl, rfl⟩) hwaits
  have hpush : pushUnorderedBlock plainNode s [signedRequest [2]] =
      (true, s.storeBlock (batchBlock [signedRequest [2]] (plainDataHash [2]))) := by
    rw [pushUnorderedBlock, hfollower]
    rfl
  have hnew : s.cache (plainDataHash [2]) = none := by
    rw [hcache, update_of_ne (by decide +kernel)]
    exact storeBlock_cache_of_ne .start _ (by decide +kernel)
  have hvalid : isDeliveredBlockHeaderValid plainNode
      (s.storeBlock (batchBlock [signedRequest [2]] (plainDataHash [2]))) secondHeader = true := by
    obtain ⟨hlt, -⟩ := (hone.chainState ⟨mem_cons_self, trivial⟩).last _ hlast
    change isDeliveredBlockHeaderValid plainNode { s.storeBlock _ with
      deliveredBlock := s.deliveredBlock } secondHeader = true
    rw [isDeliveredBlockHeaderValid, hlast]
    dsimp only
    rw [storeBlock_of_ne s _ hlt.ne, hobject, hfirst]
    exact decide_eq_true ⟨rfl, rfl⟩
  have hget' := plainNode_get_put (by decide : secondHeader.number < 2 ^ 64)
  obtain ⟨_, _, s', second, hsteps', hwaits', -, -, hdelivered', hsecond, -⟩ :=
    @exists_delivery _ plainNode _ secondHeader _ (storeBlock_cache s _) hget' hvalid rfl hidle
  have hrun := (hone.push hpush hnew).deliver hsteps' hget'
    (fun hnone => absurd (hlast.symm.trans hnone) (by simp)) hwaits'
  refine ⟨_, s', first, second, hrun, ⟨mem_cons_self, mem_cons_self, trivial⟩, ?_, hfirst,
    hsecond, orderly_formsChain hrun ⟨mem_cons_self, mem_cons_self, trivial⟩⟩
  rw [hdelivered']
  change s.delivered ++ [second] = _
  rw [hdelivered]
  rfl

/-- The leader proposes number 5 for the first block, and the block is delivered with it. -/
theorem first_delivered_five : ∃ events s, Reaches plainNode events s ∧ VerifiedFirst events ∧
    s.delivered.map (fun block => block.header.number) = [5] ∧
    ¬FormsChain plainNode s.delivered := by
  obtain ⟨_, _, s, block, ⟨hverify, hload, hdel⟩, -, -, -, hdelivered, hheader, -⟩ :=
    @exists_delivery _ plainNode _ ⟨5, default, plainDataHash [1]⟩ _
      (storeBlock_cache .start (batchBlock [signedRequest [1]] _))
      (plainNode_get_put (by decide)) rfl rfl rfl
  have hpush := @Reaches.push_request _ _ .start rfl [1] _ rfl
  refine ⟨_, s, ((hpush.step hverify).step hload).step hdel, ⟨mem_cons_self, trivial⟩, ?_,
    fun hchain => ?_⟩
  · rw [hdelivered]
    exact congrArg (fun header => [header.number]) hheader
  · rw [hdelivered] at hchain
    have hnumber := (hchain [] block [] rfl).number
    rw [hheader] at hnumber
    exact absurd hnumber (by decide)

end MassBFT.Consensus
