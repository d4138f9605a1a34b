import MassBFT.Replication.BlockReceiver

/-!
# Blocks

`proto::Block` as it travels: a header, the user requests, the results of execution and the
signatures, one after another. A decoded block keeps the bytes it was read from, and the
position at which its body starts, because the signatures are over the bytes in front of it.

The header names its body: `dataHash` is the root of a Merkle tree over the payloads of the
user requests (`generateMerkleTree`). **Nothing in the format ties the two together**; who
decodes a block has to compare them.
-/

set_option autoImplicit false

namespace MassBFT.Replication

/-- `Block::Header` -/
structure Header where
  number : Nat
  previousHash : HashString
  dataHash : HashString
  deriving DecidableEq

/-- `proto::Envelop` -/
structure Envelop where
  payload : Bytes
  signature : SignatureString
  deriving DecidableEq

/-- `Block::Body` -/
structure Body where
  userRequests : List Envelop
  deriving DecidableEq

/-- `proto::KV` -/
structure KV where
  key : Bytes
  value : Bytes
  deriving DecidableEq

/-- `proto::TxReadWriteSet` -/
structure TxReadWriteSet where
  requestDigest : DigestString
  retValue : Bytes
  retCode : Int
  reads : List KV
  writes : List KV
  deriving DecidableEq

/-- `Block::ExecuteResult` -/
structure ExecuteResult where
  txReadWriteSet : List TxReadWriteSet
  transactionFilter : Bytes
  deriving DecidableEq

/-- `Block::Metadata` -/
structure Metadata where
  consensusSignatures : List SignaturePair
  validateSignatures : List SignaturePair
  deriving DecidableEq

/-- `proto::Block`; `storage` is the serialized message it was read from, if any. -/
structure Block where
  header : Header
  body : Body
  executeResult : ExecuteResult
  metadata : Metadata
  storage : Option Bytes
  deriving DecidableEq

/-- `Block::PosList`, of a call that has succeeded. -/
structure PosList where
  headerPos : Nat
  bodyPos : Nat
  execResultPos : Nat
  metadataPos : Nat
  endPos : Nat
  deriving DecidableEq

/-! ## The format -/

section

variable (w : Wire)

/-- `Header::serialize` -/
def Header.codec : Codec Header :=
  (w.uint64.pair (hashString.pair hashString)).conv (fun p => ⟨p.1, p.2.1, p.2.2⟩)
    fun h => (h.number, h.previousHash, h.dataHash)

/-- `Envelop::serialize` -/
def Envelop.codec : Codec Envelop :=
  (w.string.pair (signatureString w)).conv (fun p => ⟨p.1, p.2⟩) fun e => (e.payload, e.signature)

/-- `Body::serialize` -/
def Body.codec : Codec Body := (Codec.vector w (Envelop.codec w)).conv Body.mk Body.userRequests

/-- `KV::serialize` -/
def KV.codec : Codec KV :=
  (w.string.pair w.string).conv (fun p => ⟨p.1, p.2⟩) fun kv => (kv.key, kv.value)

/-- `TxReadWriteSet::serialize` -/
def TxReadWriteSet.codec : Codec TxReadWriteSet :=
  ((Codec.array 64).pair (w.string.pair (w.int32.pair
    ((Codec.vector w (KV.codec w)).pair (Codec.vector w (KV.codec w)))))).conv
    (fun p => ⟨p.1, p.2.1, p.2.2.1, p.2.2.2.1, p.2.2.2.2⟩)
    fun t => (t.requestDigest, t.retValue, t.retCode, t.reads, t.writes)

/-- `ExecuteResult::serialize` -/
def ExecuteResult.codec : Codec ExecuteResult :=
  ((Codec.vector w (TxReadWriteSet.codec w)).pair (Codec.vector w Codec.byte)).conv
    (fun p => ⟨p.1, p.2⟩) fun e => (e.txReadWriteSet, e.transactionFilter)

/-- `Metadata::serialize` -/
def Metadata.codec : Codec Metadata :=
  ((Codec.vector w (signaturePair w)).pair (Codec.vector w (signaturePair w))).conv
    (fun p => ⟨p.1, p.2⟩) fun m => (m.consensusSignatures, m.validateSignatures)

/-- `Block::serializeToString` into an empty buffer. -/
def Block.serializeToString (block : Block) : Bytes :=
  (Header.codec w).put block.header ++ ((Body.codec w).put block.body ++
    ((ExecuteResult.codec w).put block.executeResult ++ (Metadata.codec w).put block.metadata))

/-- `Block::deserializeFromString`, from the front of `raw`. -/
def Block.deserializeFromString (raw : Bytes) : Option (Block × PosList) :=
  match (Header.codec w).get raw with
  | none => none
  | some (header, rest₁) =>
    match (Body.codec w).get rest₁ with
    | none => none
    | some (body, rest₂) =>
      match (ExecuteResult.codec w).get rest₂ with
      | none => none
      | some (executeResult, rest₃) =>
        match (Metadata.codec w).get rest₃ with
        | none => none
        | some (metadata, rest₄) => some
          ({ header := header
             body := body
             executeResult := executeResult
             metadata := metadata
             storage := some raw },
           { headerPos := 0
             bodyPos := raw.length - rest₁.length
             execResultPos := raw.length - rest₂.length
             metadataPos := raw.length - rest₃.length
             endPos := raw.length - rest₄.length })

end

/-- A message that starts with a header and a body decodes to them, whatever follows. -/
theorem Block.deserialize_front {w : Wire} {header : Header} {body : Body}
    (hheader : (Header.codec w).Carries header) (hbody : (Body.codec w).Carries body)
    {rest : Bytes} {block : Block} {pos : PosList} (h : Block.deserializeFromString w
      ((Header.codec w).put header ++ ((Body.codec w).put body ++ rest)) = some (block, pos)) :
    block.header = header ∧ block.body = body := by
  have h1 := hheader ((Body.codec w).put body ++ rest)
  have h2 := hbody rest
  rw [Block.deserializeFromString, h1] at h
  dsimp only at h
  rw [h2] at h
  dsimp only at h
  split at h
  · cases h
  · split at h
    · cases h
    · cases h
      exact ⟨rfl, rfl⟩

/-! ## The data hash -/

/-- `util::ValidateHandleType` -/
abbrev ValidateHandle := SignatureString → HashString → Bool

section

variable (sha256 : Bytes → HashString)

/-- `EnvelopDataBlock::Digest` -/
def Envelop.digest (validateHandle : Option ValidateHandle) (envelop : Envelop) :
    Option HashString :=
  let digest := sha256 envelop.payload
  match validateHandle with
  | none => some digest
  | some validate => if validate envelop.signature digest then some digest else none

/-- `UserRequestMTGenerator::GenerateMerkleTree`; a single request is taken twice, the second
time without a check. -/
def generateMerkleTree (userRequests : List Envelop) (validateHandle : Option ValidateHandle) :
    Option MerkleTree :=
  let blocks := userRequests.map (Envelop.digest sha256 validateHandle)
  let special := if userRequests.length = 1 then userRequests else []
  MerkleTree.new sha256 (blocks ++ special.map (Envelop.digest sha256 none))

variable {sha256}

theorem Envelop.digest_eq {validateHandle : Option ValidateHandle} {envelop : Envelop}
    {hash : HashString} (h : envelop.digest sha256 validateHandle = some hash) :
    envelop.digest sha256 none = some hash := by
  cases validateHandle with
  | none => exact h
  | some validate =>
    simp only [Envelop.digest] at h ⊢
    split_ifs at h
    exact h

/-- **The root does not depend on who checks**: a check can only refuse the tree. -/
theorem generateMerkleTree_unchecked {userRequests : List Envelop}
    {validateHandle : Option ValidateHandle} {mt : MerkleTree}
    (h : generateMerkleTree sha256 userRequests validateHandle = some mt) :
    generateMerkleTree sha256 userRequests none = some mt := by
  rw [generateMerkleTree] at h ⊢
  obtain ⟨leaves, hleaves, -⟩ := MerkleTree.new_built h
  have hsame : userRequests.map (Envelop.digest sha256 none) =
      userRequests.map (Envelop.digest sha256 validateHandle) := by
    apply List.map_congr_left
    intro envelop hmem
    have hin : envelop.digest sha256 validateHandle ∈ leaves.map some := by
      rw [← hleaves]
      exact List.mem_append_left _ (List.mem_map.mpr ⟨envelop, hmem, rfl⟩)
    obtain ⟨hash, -, hhash⟩ := List.mem_map.mp hin
    rw [← hhash]
    exact Envelop.digest_eq hhash.symm
  rw [hsame]
  exact h

variable (sha256) in
/-- The header names the root that `GenerateMerkleTree` computes from the block's requests. -/
def Block.BodyMatches (block : Block) : Prop :=
  ∃ mt, generateMerkleTree sha256 block.body.userRequests none = some mt ∧
    block.header.dataHash = mt.root

end

end MassBFT.Replication
