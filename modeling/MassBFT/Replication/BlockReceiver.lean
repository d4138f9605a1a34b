import MassBFT.Replication.Generator

/-!
# Sending and receiving fragments

`RemoteFragmentSender::encodeAndSendFragment` writes a range of a block behind a header, and
`BlockReceiver::genBlockFromQueue` takes such fragments off a queue until a block can be
regenerated. The receiver keeps one context for each Merkle root it has seen. A context
stores views, not bytes: the fragments they point into are kept in `blockMap` when they are
accepted, and are gone when they are not, or once the callback has turned the block down.

The contexts come from a pool. A root gets a new one for each of its fragments until one of
them has been accepted, and **the call waits for the new one before it gives the old one
back**.
-/

set_option autoImplicit false

namespace MassBFT.Replication

open Function

/-! ## Fragments on the wire -/

/-- `proto::DigestString` -/
abbrev DigestString := { bs : Bytes // bs.length = 64 }

/-- `proto::SignatureString` -/
structure SignatureString where
  ski : Bytes
  digest : DigestString
  deriving DecidableEq

/-- `Block::SignaturePair` -/
abbrev SignaturePair := Bytes × SignatureString

/-- `proto::EncodeBlockFragment`; `stop` is the field `end`. -/
structure EncodeBlockFragment where
  blockSignatures : List SignaturePair
  blockNumber : Nat
  root : HashString
  size : Nat
  start : Nat
  stop : Nat
  encodeMessage : Bytes
  deriving DecidableEq

/-- `SignatureString::serialize` -/
def signatureString (w : Wire) : Codec SignatureString :=
  (w.string.pair (Codec.array 64)).conv (fun p => ⟨p.1, p.2⟩) fun s => (s.ski, s.digest)

def signaturePair (w : Wire) : Codec SignaturePair := w.string.pair (signatureString w)

def hashString : Codec HashString := ⟨HashString.bytes, getHash⟩

/-- The fields in front of `encodeMessage`, in the order in which they are written. -/
def fragmentHeader (w : Wire) :
    Codec (List SignaturePair × Nat × HashString × Nat × Nat × Nat) :=
  (Codec.vector w (signaturePair w)).pair (w.uint64.pair (hashString.pair (w.uint64.pair
    (w.uint32.pair w.uint32))))

namespace EncodeBlockFragment

/-- `serializeToString` -/
def serializeToString (w : Wire) (f : EncodeBlockFragment) (withBody : Bool) : Bytes :=
  let header := (fragmentHeader w).put
    (f.blockSignatures, f.blockNumber, f.root, f.size, f.start, f.stop)
  if withBody then header ++ f.encodeMessage else header

/-- `deserializeFromString` -/
def deserializeFromString (w : Wire) (raw : Bytes) : Option EncodeBlockFragment :=
  match (fragmentHeader w).get raw with
  | none => none
  | some ((blockSignatures, blockNumber, root, size, start, stop), rest) => some
    { blockSignatures := blockSignatures
      blockNumber := blockNumber
      root := root
      size := size
      start := start
      stop := stop
      encodeMessage := rest }

end EncodeBlockFragment

/-- `encodeAndSendFragment`: what goes to the socket. -/
def encodeAndSendFragment (w : Wire) (cfg : Config) (enc : Encoded) (start stop blockNumber
    blockSize : Nat) (blockSignatures : List SignaturePair) : Option Bytes :=
  let localFragment : EncodeBlockFragment :=
    { blockSignatures := blockSignatures
      blockNumber := blockNumber
      root := enc.mt.root
      size := blockSize
      start := start
      stop := stop
      encodeMessage := [] }
  match enc.serializeFragments w cfg start stop with
  | none => none
  | some body => some (localFragment.serializeToString w false ++ body)

/-! ## The receiving loop -/

/-- `(int)ebf.size` -/
def toInt32 (n : Nat) : Int := Int.bmod n (2 ^ 32)

theorem toInt32_natCast {n : Nat} (h : n < 2 ^ 31) : toInt32 n = n := by
  unfold toInt32
  apply Int.bmod_eq_of_le
  · exact le_trans (by norm_num) (Int.natCast_nonneg n)
  · norm_num at h ⊢
    omega

/-- Marks the slots of a range and counts those that were not marked. -/
def markShards (shardsValidated : Nat → Bool) (currentShardCnt start stop : Nat) :
    (Nat → Bool) × Nat :=
  (List.range' start (stop - start)).foldl (fun s i =>
    if s.1 i then s else (update s.1 i true, s.2 + 1)) (shardsValidated, currentShardCnt)

/-- `BlockRegenerateOptions`, with its context. `freed` marks the slots whose views point into
fragments that are gone. -/
structure BlockRegenerateOptions where
  currentShardCnt : Nat
  shardsValidated : Nat → Bool
  hasContext : Bool
  storage : Storage
  freed : Nat → Bool

def BlockRegenerateOptions.empty : BlockRegenerateOptions :=
  ⟨0, fun _ => false, false, Storage.empty, fun _ => false⟩

/-- The same with a new context. -/
def BlockRegenerateOptions.withContext (val : BlockRegenerateOptions) : BlockRegenerateOptions :=
  { val with hasContext := true, storage := Storage.empty, freed := fun _ => false }

/-- A root without accepted shards gets a new context. -/
def BlockRegenerateOptions.prepared (val : BlockRegenerateOptions) : BlockRegenerateOptions :=
  if val.currentShardCnt = 0 then val.withContext else val

/-- The same after a fragment has been accepted: its slots are marked, and what it has stored is
alive. -/
def BlockRegenerateOptions.accepted (val : BlockRegenerateOptions) (f : EncodeBlockFragment)
    (storage : Storage) : BlockRegenerateOptions :=
  let marks := markShards val.shardsValidated val.currentShardCnt f.start f.stop
  { val with
    storage := storage
    freed := fun j => val.freed j && (val.storage j).cacheGuard
    shardsValidated := marks.1
    currentShardCnt := marks.2 }

/-- `ValidateFunc`: the callback may keep things, and may take the content of the block. -/
abbrev ValidateFunc (σ : Type) :=
  σ → Bytes → List EncodeBlockFragment → Except Fault (σ × Bytes × Bool)

/-- `BlockReceiver`, as `genBlockFromQueue` uses it. -/
structure BlockReceiver (σ : Type) where
  sha256 : Bytes → HashString
  wire : Wire
  ec : ErasureCode
  localFragmentConfig : Config
  validateCallback : Option (ValidateFunc σ)

/-- The local variables of `genBlockFromQueue`, the contexts that are left in the pool, and
what the callback keeps. -/
structure Receiving (σ : Type) where
  haveShard : HashString → BlockRegenerateOptions
  blockMap : HashString → List EncodeBlockFragment
  freeContexts : Nat
  kept : σ

def Receiving.start {σ : Type} (contexts : Nat) (kept : σ) : Receiving σ :=
  ⟨fun _ => .empty, fun _ => [], contexts, kept⟩

/-- What a call has come to. -/
inductive Progress (σ : Type) where
  /-- The queue is empty; the call waits for the next fragment. -/
  | waiting (r : Receiving σ)
  | returned (msg : Bytes) (kept : σ)
  /-- No context is left in the pool, and none will be given back. -/
  | blocked
  | fault (e : Fault)

namespace BlockReceiver

variable {σ : Type} (br : BlockReceiver σ)

/-- The first lines of the loop body: `getEmptyContext`, if the root needs one. -/
def prepare (r : Receiving σ) (root : HashString) : Option (Receiving σ) :=
  let val := r.haveShard root
  if val.currentShardCnt = 0 then
    if r.freeContexts = 0 then none
    else some
      { r with
        haveShard := update r.haveShard root val.prepared
        freeContexts := if val.hasContext then r.freeContexts else r.freeContexts - 1 }
  else
    some r

/-- The range of a fragment makes sense. -/
def InRange (f : EncodeBlockFragment) : Prop :=
  f.start + 1 ≤ br.localFragmentConfig.fragmentCnt ∧ f.stop ≤ br.localFragmentConfig.fragmentCnt ∧
    f.start < f.stop

instance (f : EncodeBlockFragment) : Decidable (br.InRange f) :=
  inferInstanceAs (Decidable (_ ∧ _ ∧ _))

/-- Regeneration would read a fragment that is gone. -/
def dangling (val : BlockRegenerateOptions) : Bool :=
  (List.range br.localFragmentConfig.fragmentCnt).any fun j =>
    val.freed j && (val.storage j).encodeFragment.any fun view => !view.isEmpty

/-- Enough shards: regenerate the block and ask the callback. -/
def regenerate (r : Receiving σ) (f : EncodeBlockFragment) : Progress σ :=
  let val := r.haveShard f.root
  if br.dangling val then .fault .undefined
  else
    match regenerateMessage br.ec br.localFragmentConfig val.storage (toInt32 f.size) [] with
    | .error e => .fault e
    | .ok none => .waiting r
    | .ok (some msg) =>
      match br.validateCallback with
      | none => .returned msg r.kept
      | some validate =>
        match validate r.kept msg (r.blockMap f.root) with
        | .error e => .fault e
        | .ok (kept, msg, true) => .returned msg kept
        | .ok (kept, _, false) => .waiting
          { r with
            kept := kept
            blockMap := update r.blockMap f.root []
            haveShard := update r.haveShard f.root
              { val with freed := fun j => val.freed j || (val.storage j).cacheGuard } }

/-- An accepted fragment is kept, so that the views into it stay valid. -/
def accept (r : Receiving σ) (f : EncodeBlockFragment) (storage : Storage) : Receiving σ :=
  { r with
    blockMap := update r.blockMap f.root (r.blockMap f.root ++ [f])
    haveShard := update r.haveShard f.root ((r.haveShard f.root).accepted f storage) }

@[simp] theorem accept_haveShard (r : Receiving σ) (f : EncodeBlockFragment) (storage : Storage) :
    (accept r f storage).haveShard f.root = (r.haveShard f.root).accepted f storage :=
  update_self _ _ _

theorem accept_haveShard_of_ne (r : Receiving σ) {f : EncodeBlockFragment} (storage : Storage)
    {root : HashString} (h : root ≠ f.root) :
    (accept r f storage).haveShard root = r.haveShard root :=
  update_of_ne h _ _

/-- With the slots of the fragment, the root would have enough shards. -/
def Completes (val : BlockRegenerateOptions) (f : EncodeBlockFragment) : Prop :=
  br.localFragmentConfig.dataShardCnt ≤
    (markShards val.shardsValidated val.currentShardCnt f.start f.stop).2

/-- A fragment of the block, once its root has a context. -/
def receive (r : Receiving σ) (f : EncodeBlockFragment) : Progress σ :=
  let val := r.haveShard f.root
  if ¬ br.InRange f then .waiting r
  else
    match validateAndDeserializeFragments br.sha256 br.wire br.localFragmentConfig val.storage
      f.root f.encodeMessage f.start f.stop with
    | .error e => .fault e
    | .ok (false, storage) => .waiting
      { r with
        haveShard := update r.haveShard f.root
          { val with
            storage := storage
            freed := fun j => val.freed j ||
              ((storage j).cacheGuard && !(val.storage j).cacheGuard) } }
    | .ok (true, storage) =>
      let r := accept r f storage
      if br.localFragmentConfig.dataShardCnt ≤ (r.haveShard f.root).currentShardCnt then
        br.regenerate r f
      else
        .waiting r

/-- One round of the loop in `genBlockFromQueue`. -/
def round (number : Nat) (r : Receiving σ) (f : EncodeBlockFragment) : Progress σ :=
  if f.blockNumber ≠ number then .waiting r
  else
    match prepare r f.root with
    | none => .blocked
    | some r => br.receive r f

/-- `genBlockFromQueue`, on the fragments that are in the queue. -/
def genBlockFromQueue (number : Nat) (r : Receiving σ) : List EncodeBlockFragment → Progress σ
  | [] => .waiting r
  | f :: queue =>
    match br.round number r f with
    | .waiting r => genBlockFromQueue number r queue
    | stopped => stopped

end BlockReceiver

end MassBFT.Replication
