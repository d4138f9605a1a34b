import MassBFT.Consensus.LocalConsensus
import MassBFT.Replication.BlockCodec
import MassBFT.Replication.Certificate

/-!
# The bodies of remote blocks

The nodes of a region sign headers, and a header names its body by `dataHash`. A receiver in
another region decodes header and body from the same bytes, checks the signatures over the
header, and stores the block. **It never computes the data hash of the body**, so whoever
encodes the bytes may put any body behind a header that has been signed.

What remains is what the senders do: the consensus of a region delivers only blocks that
name their own batch (`Reaches.bodyMatches`), so as long as every message starts with header
and body of a block that the consensus of its region has delivered, all stored blocks do
(`stored_bodies_match`).
-/

set_option autoImplicit false

namespace MassBFT.Consensus

open Replication MRBlockReceiver

section

variable {Key : Type} {mr : MRBlockReceiver Key}

variable (mr) in
/-- The local consensus of every region, each in one run as far as it has come, with the hash and
the keys of the receiver. -/
structure RegionRuns where
  node : Nat → LocalNode Key
  events : Nat → List Event
  state : Nat → LocalConsensus
  sha256 : ∀ g, (node g).sha256 = mr.sha256
  bccsp : ∀ g, (node g).bccsp = mr.bccsp
  reaches : ∀ g, Reaches (node g) (events g) (state g)

/-- The message starts with the header and the body of a block that the consensus of region
`idx` has delivered in its run, whatever follows. -/
def RegionRuns.Sends (runs : RegionRuns mr) (idx : Nat) (raw : Bytes) : Prop :=
  ∃ block ∈ (runs.state idx).delivered, ∃ rest,
    raw = (Header.codec mr.wire).put block.header ++ ((Body.codec mr.wire).put block.body ++ rest) ∧
    (Header.codec mr.wire).Carries block.header ∧ (Body.codec mr.wire).Carries block.body

/-- A block that is decoded from such a message names its own body. -/
theorem RegionRuns.Sends.bodyMatches {runs : RegionRuns mr} {idx : Nat} {raw : Bytes}
    (h : runs.Sends idx raw) {peerList : List EncodeBlockFragment} {block : Block}
    (hblock : mr.getBlockFromRawString raw peerList = .ok (some block)) :
    block.BodyMatches mr.sha256 := by
  obtain ⟨sent, hsent, rest, rfl, hheader, hbody⟩ := h
  obtain ⟨decoded, ret, first, others, hdec, -, -, rfl⟩ := getBlockFromRawString_eq_some hblock
  obtain ⟨hsameHeader, hsameBody⟩ := Block.deserialize_front hheader hbody hdec
  have hmatch := (runs.reaches idx).bodyMatches.delivered sent hsent
  rw [runs.sha256 idx] at hmatch
  exact aboutBody_bodyMatches mr.sha256 sent _ hsameBody (congrArg Header.dataHash hsameHeader)
    hmatch

end

/-! ## A body behind another header -/

/-- The data hash of a batch of one request. -/
def plainDataHash (payload : Bytes) : HashString :=
  hashFunc lengthHash (lengthHash payload) (lengthHash payload)

/-- A header over payload `[1]` in front of payload `[2]`. -/
def swappedMessage : Bytes := plainMessage 0 (plainDataHash [1]) [2]

/-- Its two fragments, with the certificate of its header. -/
def swappedFragments : List EncodeBlockFragment :=
  match initWithMessage lengthHash (splitCode 2) ⟨2, 0, 1, 2⟩ swappedMessage with
  | .ok (some enc) => [0, 1].filterMap fun i =>
    (enc.serializeFragments littleEndian ⟨2, 0, 1, 2⟩ i (i + 1)).map fun body =>
      { blockSignatures := [0, 1, 2].map
          (plainSignature (serHeader littleEndian swappedMessage))
        blockNumber := 0
        root := enc.mt.root
        size := swappedMessage.length
        start := i
        stop := i + 1
        encodeMessage := body }
  | _ => []

def storedMismatch (p : Progress MRBlockStorage) : Bool :=
  match p with
  | .returned _ storage =>
    match storage.blockStorage 1 0 with
    | some block => decide ((generateMerkleTree lengthHash block.body.userRequests none).map
        MerkleTree.root ≠ some block.header.dataHash)
    | none => false
  | _ => false

/-- The block is regenerated, passes the signature check, and is stored. -/
theorem swapped_stored : storedMismatch
    ((plainReceiver.blockReceiver 1).genBlockFromQueue 0 (.start 2 (.empty 2 256))
      swappedFragments) = true := by
  decide +kernel

theorem not_bodyMatches_of_mismatch {p : Progress MRBlockStorage} (h : storedMismatch p = true) :
    ∃ msg storage, p = .returned msg storage ∧ ¬ storage.All (Block.BodyMatches lengthHash) := by
  unfold storedMismatch at h
  split at h
  · rename_i msg storage
    refine ⟨msg, storage, rfl, fun hall => ?_⟩
    split at h
    · rename_i block hblock
      obtain ⟨mt, hmt, hroot⟩ := hall.stored 1 0 block hblock
      rw [decide_eq_true_eq, hmt, Option.map_some, hroot] at h
      exact h rfl
    · cases h
  · cases h

/-! ## A run with one block -/

/-- A leader that pushes a batch and delivers it unchanged. -/
theorem exists_delivered {Key : Type} {node : LocalNode Key} {batch : List Envelop}
    {mt : MerkleTree} (hmt : generateMerkleTree node.sha256 batch none = some mt)
    (signatures : List SignaturePair) :
    ∃ events s block, Reaches node events s ∧ block ∈ s.delivered ∧
      block.header = unproposed mt.root ∧ block.body = ⟨batch⟩ := by
  have hlead : Reaches node [.leaderStart] (LocalConsensus.onLeaderStart .start) :=
    Reaches.start.step (.leaderStart _)
  have hpush := hlead.step (.push (LocalConsensus.pushUnorderedBlock_leader rfl hmt))
  have hcache := LocalConsensus.storeBlock_cache (LocalConsensus.onLeaderStart .start)
    (batchBlock batch mt.root)
  have hblock := LocalConsensus.storeBlock_next (LocalConsensus.onLeaderStart .start)
    (batchBlock batch mt.root)
  generalize (LocalConsensus.onLeaderStart .start).storeBlock (batchBlock batch mt.root) = s
    at hpush hcache hblock
  obtain ⟨block, s', hdeliver, hmem, hheader, hbody⟩ : ∃ block s',
      LocalConsensus.onDeliver node s (unproposed mt.root) signatures = some (block, s') ∧
        block ∈ s'.delivered ∧ block.header = unproposed mt.root ∧ block.body = ⟨batch⟩ := by
    rw [LocalConsensus.onDeliver]
    change s.cache (unproposed mt.root).dataHash = _ at hcache
    rw [hcache]
    refine ⟨_, _, rfl, List.mem_append_right _ (List.mem_singleton_self _), ?_, ?_⟩
    · rw [hblock]
      rfl
    · rw [hblock]
      rfl
  exact ⟨_, s', block, hpush.step (.deliver hdeliver), hmem, hheader, hbody⟩

/-- Node 0 of a region, with a key that can sign. -/
def plainNode : LocalNode Nat where
  sha256 := lengthHash
  wire := littleEndian
  bccsp := plainKeys
  isPrivate _ := true
  signRaw key d := some (plainSign key d)
  ski := [0]

/-- A header in front of its own batch. -/
def matchedMessage : Bytes := plainMessage 0 (plainDataHash [1]) [1]

/-- The certificate of its header. -/
def matchedSignatures : List SignaturePair :=
  [0, 1, 2].map (plainSignature (serHeader littleEndian matchedMessage))

/-- Every region runs the same consensus, which has delivered the block of that message. -/
theorem exists_sends_matched : ∃ runs : RegionRuns plainReceiver, runs.Sends 1 matchedMessage := by
  obtain ⟨mt, hmt, hroot⟩ : ∃ mt, generateMerkleTree plainNode.sha256
      [⟨[1], ⟨[], plainSign 0 []⟩⟩] none = some mt ∧ mt.root = plainDataHash [1] :=
    ⟨_, rfl, rfl⟩
  obtain ⟨events, s, block, hreach, hmem, hheader, hbody⟩ := exists_delivered hmt matchedSignatures
  refine ⟨⟨fun _ => plainNode, fun _ => events, fun _ => s, fun _ => rfl, fun _ => rfl,
    fun _ => hreach⟩, block, hmem, (ExecuteResult.codec littleEndian).put ⟨[], []⟩ ++
      (Metadata.codec littleEndian).put ⟨[], []⟩, ?_, ?_, ?_⟩
  · rw [hheader, hbody, hroot]
    rfl
  · rw [hheader]
    exact Header.Fits.carries littleEndian.inverts (by norm_num [unproposed, Header.Fits])
  · rw [hbody]
    refine Body.Fits.carries littleEndian.inverts ⟨by norm_num, fun e he => ?_⟩
    rw [List.mem_singleton.mp he]
    exact ⟨by norm_num, by norm_num [SignatureString.Fits]⟩

/-- What the callback of region 1 leaves under number 0. -/
def storedFirst (answer : Except Fault (MRBlockStorage × Bytes × Bool)) : Option Block :=
  match answer with
  | .ok (storage, _, _) => storage.blockStorage 1 0
  | .error _ => none

/-- All three signatures verify, and they are kept. -/
theorem matchedMessage_stored : (storedFirst (plainReceiver.validateFunc 1
    (.empty 2 256) matchedMessage [signedFragment matchedSignatures])).map
      (fun block => block.metadata.consensusSignatures.map fun sig =>
        plainReceiver.sigVerified (serHeader littleEndian matchedMessage) sig) =
    some [true, true, true] := by
  decide +kernel

/-! ## Stored bodies -/

/-- **In every run in which the messages of each region come from the run of its consensus, every
stored block names its own body.** -/
theorem stored_bodies_match {Key : Type} {mr : MRBlockReceiver Key} (runs : RegionRuns mr)
    {regionCount maxSize : Nat} {s : MRBlockStorage}
    (h : mr.Reaches runs.Sends (.empty regionCount maxSize) s) :
    s.All (Block.BodyMatches mr.sha256) :=
  h.all (fun _ _ _ _ hraw hblock => hraw.bodyMatches hblock)
    (MRBlockStorage.all_empty _ regionCount maxSize)

/-- A block of region 1 is stored, with a certificate of three signatures. -/
theorem stored_bodies_match_one :
    ∃ (runs : RegionRuns plainReceiver) (s : MRBlockStorage) (block : Block),
      plainReceiver.Reaches runs.Sends (.empty 2 256) s ∧
      s.blockStorage 1 0 = some block ∧
      block.metadata.consensusSignatures.map (plainReceiver.sigVerified
        (serHeader littleEndian matchedMessage)) = [true, true, true] ∧
      s.All (Block.BodyMatches lengthHash) := by
  obtain ⟨runs, hsends⟩ := exists_sends_matched
  obtain ⟨block, hblock, hcert⟩ := Option.map_eq_some_iff.mp matchedMessage_stored
  cases hcall : plainReceiver.validateFunc 1 (.empty 2 256) matchedMessage
      [signedFragment matchedSignatures] with
  | error e => rw [hcall] at hblock; cases hblock
  | ok answer =>
    obtain ⟨s, left, b⟩ := answer
    rw [hcall] at hblock
    have hreach : plainReceiver.Reaches runs.Sends (.empty 2 256) s :=
      .call .start (by decide) hsends hcall
    exact ⟨runs, s, block, hreach, hblock, hcert, stored_bodies_match runs hreach⟩

/-- A signed header with the body of another batch. -/
theorem not_every_stored_body_matches :
    ¬ ∀ (mr : MRBlockReceiver Nat) (idx number contexts regionCount maxSize : Nat)
      (queue : List EncodeBlockFragment) (msg : Bytes) (s : MRBlockStorage),
      idx ≠ mr.localRegionId →
      (mr.blockReceiver idx).genBlockFromQueue number
        (.start contexts (.empty regionCount maxSize)) queue = .returned msg s →
      s.All (Block.BodyMatches mr.sha256) := by
  intro h
  obtain ⟨msg, s, hret, hnot⟩ := not_bodyMatches_of_mismatch swapped_stored
  exact hnot (h plainReceiver 1 0 2 2 256 _ msg s (by decide) hret)

end MassBFT.Consensus
