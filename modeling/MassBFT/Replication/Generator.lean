import MassBFT.Lib.Wire
import MassBFT.Replication.FragmentUtil
import MassBFT.Replication.MerkleTree

/-!
# The fragment generator

`BlockFragmentGenerator::Context` on both sides. The sender encodes a message with one
Reed-Solomon instance per part, builds a Merkle tree over all shards and serializes ranges
of them, leaving out of each proof what it shares with the proof before it. The receiver
reads such a range back, verifies every shard and keeps the views.

The receiver works on bytes that anybody may have sent. A reader that runs out of bytes
throws; the proofs are vectors of pointers into per-slot caches, so a length field can
also lead out of a vector or to a cache that has moved. **Both are kept apart from the
answers `true` and `false`** (`Fault`).

The wire format, the hash and the Reed-Solomon code are parameters.
-/

set_option autoImplicit false

namespace MassBFT.Replication

/-- How a call can end without returning. -/
inductive Fault where
  /-- An exception leaves the call. -/
  | thrown
  /-- The behaviour is undefined. -/
  | undefined
  deriving DecidableEq, Repr

/-- The native calls behind `GoErasureCode`: the shards of a message, and the first bytes of
the message from the shards that are there, their length and the number of bytes. -/
structure ErasureCode where
  encode : Bytes → Option (List Bytes)
  decode : List (Option Bytes) → Nat → Int → Option Bytes

/-! ## Encoding -/

/-- A context after `initWithMessage`. -/
structure Encoded where
  ecEncodeResult : List Bytes
  mt : MerkleTree

/-- The size of the part that one instance encodes. -/
def partLen (cfg : Config) (messageSize : Nat) : Nat :=
  if messageSize % cfg.instanceCount ≠ 0 then messageSize / cfg.instanceCount + 1
  else messageSize / cfg.instanceCount

/-- `message.substr(idx*len, (idx+1)*len)`, up to the exception if `idx*len` is too large. -/
def msgView (message : Bytes) (len idx : Nat) : Bytes :=
  (message.drop (idx * len)).take ((idx + 1) * len)

/-- `initWithMessage`: the shards of all instances, slot by slot, and the tree over them. -/
def initWithMessage (sha256 : Bytes → HashString) (ec : ErasureCode) (cfg : Config)
    (message : Bytes) : Except Fault (Option Encoded) :=
  let len := partLen cfg message.length
  if (List.range cfg.instanceCount).any fun idx => decide (message.length < idx * len) then
    .error .thrown
  else
    match (List.range cfg.instanceCount).mapM fun idx => ec.encode (msgView message len idx) with
    | none => .ok none
    | some results =>
      let ecEncodeResult := (List.range (cfg.fragmentCnt * cfg.instanceCount)).map fun p =>
        (results.getD (p % cfg.instanceCount) []).getD (p / cfg.instanceCount) []
      match MerkleTree.new sha256 (ecEncodeResult.map fun block => some (sha256 block)) with
      | none => .ok none
      | some mt => .ok (some ⟨ecEncodeResult, mt⟩)

instance : Inhabited Proof := ⟨⟨[], 0⟩⟩

/-- The loop that looks for the last sibling that differs from the proof before: how many
siblings have to be written, of the first `n`. -/
def keptSize (previous current : List HashString) : Nat → Nat
  | 0 => 0
  | n + 1 =>
    if previous.getD n default = current.getD n default then keptSize previous current n else n + 1

namespace Encoded

variable (w : Wire) (cfg : Config) (enc : Encoded)

/-- How many siblings are written for shard `i` of a range that starts at shard `first`. -/
def proofSize (depth first i : Nat) : Nat :=
  if i = first then depth
  else keptSize (enc.mt.proofs.getD (i - 1) default).siblings
    (enc.mt.proofs.getD i default).siblings depth

/-- What `serializeFragments` writes for one shard. -/
def piece (depth first i : Nat) : Bytes :=
  let proof := enc.mt.proofs.getD i default
  let size := enc.proofSize depth first i
  w.putUInt32 proof.path ++ (w.putInt64 size ++
    ((proof.siblings.take size).flatMap HashString.bytes ++
      w.putString (enc.ecEncodeResult.getD i [])))

/-- `serializeFragments`, without the bytes in front of `offset`. -/
def serializeFragments (start stop : Nat) : Option Bytes :=
  if stop ≤ start ∨ cfg.fragmentCnt < stop then
    none
  else
    let depth := (enc.mt.proofs.getD start default).siblings.length
    let first := start * cfg.instanceCount
    some (w.putInt64 depth ++ (List.range' first ((stop - start) * cfg.instanceCount)).flatMap
      (enc.piece w depth first))

end Encoded

/-! ## Decoding -/

/-- `Context::DecodeStorage`, without the proofs and caches that no later call reads. -/
structure DecodeStorage where
  cacheGuard : Bool
  encodeFragment : List Bytes
  deriving DecidableEq, Repr

/-- `decodeStorageList` -/
abbrev Storage := Nat → DecodeStorage

/-- The storage of an empty context. -/
def Storage.empty : Storage := fun _ => ⟨false, []⟩

/-- A pointer into the cache of slot `owner`; the cache may have moved. -/
structure Sibling where
  owner : Nat
  value : Option HashString
  deriving DecidableEq

/-- The local variables of `validateAndDeserializeFragments`. -/
structure Cursor where
  rest : Bytes
  previousProof : Option (List Sibling)
  cacheWhenGuard : List HashString
  cacheWhenGuardFlag : Bool

/-- Reads a digest. -/
def getHash : Reader HashString := fun bs =>
  if h : 32 ≤ bs.length then some (⟨bs.take 32, by simp [h]⟩, bs.drop 32) else none

/-- `for (j...) in(cache[j]).or_throw()`: `n` digests, from index `j` on. -/
def readInto : Nat → Nat → List HashString → Bytes → Except Fault (List HashString × Bytes)
  | 0, _, cache, rest => .ok (cache, rest)
  | n + 1, j, cache, rest =>
    if cache.length ≤ j then .error .undefined
    else
      match getHash rest with
      | none => .error .thrown
      | some (h, rest) => readInto n (j + 1) (cache.set j h) rest

section

variable (w : Wire)

/-- The shards of a slot that is guarded: their digests go to `cacheWhenGuard`. Four bytes are
skipped without a check, so that the next read may start outside the string. -/
def skipPieces : Nat → List HashString → Bytes → Except Fault (List HashString × Bytes)
  | 0, cache, rest => .ok (cache, rest)
  | n + 1, cache, rest =>
    if rest.length < 4 then .error .undefined
    else
      match w.getInt64 (rest.drop 4) with
      | none => .error .thrown
      | some (currentProofSize, rest) =>
        match readInto currentProofSize.toNat 0 cache rest with
        | .error e => .error e
        | .ok (cache, rest) =>
          match w.getString rest with
          | none => .error .thrown
          | some (_, rest) => skipPieces n cache rest

/-- `copy ALL proofs` -/
def copyProof (depth : Nat) (siblings : List Sibling) : Except Fault (List HashString) :=
  if siblings.length < depth then .error .undefined
  else
    match ((siblings.take depth).map Sibling.value).mapM id with
    | none => .error .undefined
    | some hashes => .ok hashes

/-- The branch of a guarded slot. -/
def skipSlot (depth instanceCount : Nat) (c : Cursor) : Except Fault Cursor :=
  match c.previousProof.elim (.ok c.cacheWhenGuard) (copyProof depth) with
  | .error e => .error e
  | .ok cache =>
    match skipPieces w instanceCount cache c.rest with
    | .error e => .error e
    | .ok (cache, rest) => .ok
      { c with
        rest := rest
        cacheWhenGuard := cache
        cacheWhenGuardFlag := true }

end

/-- A vector that grows beyond its capacity moves: pointers into it are lost. -/
def invalidate (slot : Nat) (siblings : List Sibling) : List Sibling :=
  siblings.map fun s => if s.owner = slot then { s with value := none } else s

/-- The siblings that are taken from the proof before: `Siblings[size]` to `Siblings[depth-1]`. -/
def omitted (depth size : Nat) : Option (List Sibling) → Except Fault (List Sibling)
  | none => .ok []
  | some siblings =>
    if depth ≤ size then .ok []
    else if siblings.length < depth then .error .undefined
    else .ok ((siblings.take depth).drop size)

/-- A slot that is being read: the cursor, and size and capacity of the slot's cache. -/
structure SlotCursor where
  cursor : Cursor
  cacheSize : Nat
  capacity : Nat

/-- `3. read proofs`: the siblings of the next shard. -/
def readProof (depth slot : Nat) (s : SlotCursor) (currentProofSize : Int) (rest : Bytes) :
    Except Fault (List Sibling × Bytes × Nat × Nat) :=
  if s.cursor.cacheWhenGuardFlag then
    if currentProofSize < 0 then .error .undefined
    else
      match readInto currentProofSize.toNat 0 s.cursor.cacheWhenGuard rest with
      | .error e => .error e
      | .ok (cache, rest) => .ok (cache.map fun h => ⟨slot, some h⟩, rest, depth, s.capacity)
  else if s.cacheSize + currentProofSize < 0 then .error .thrown
  else if currentProofSize < 0 then .error .undefined
  else
    let newSize := s.cacheSize + currentProofSize.toNat
    let previous := if s.capacity < newSize then s.cursor.previousProof.map (invalidate slot)
      else s.cursor.previousProof
    match getMany getHash currentProofSize.toNat rest with
    | none => .error .thrown
    | some (own, rest) =>
      match omitted depth currentProofSize.toNat previous with
      | .error e => .error e
      | .ok more => .ok (own.map (fun h => ⟨slot, some h⟩) ++ more, rest, newSize,
          max s.capacity newSize)

section

variable (sha256 : Bytes → HashString) (w : Wire)

/-- One shard with its proof, off the front of what is left. -/
def parsePiece (depth slot : Nat) (s : SlotCursor) : Except Fault (SlotCursor × Proof × Bytes) :=
  match w.getUInt32 s.cursor.rest with
  | none => .error .thrown
  | some (path, rest) =>
    match w.getInt64 rest with
    | none => .error .thrown
    | some (currentProofSize, rest) =>
      match readProof depth slot s currentProofSize rest with
      | .error e => .error e
      | .ok (siblings, rest, cacheSize, capacity) =>
        match w.getString rest with
        | none => .error .thrown
        | some (fragment, rest) =>
          match (siblings.map Sibling.value).mapM id with
          | none => .error .undefined
          | some hashes => .ok
            ({ cursor :=
                { rest := rest
                  previousProof := some siblings
                  cacheWhenGuard := s.cursor.cacheWhenGuard
                  cacheWhenGuardFlag := false }
               cacheSize := cacheSize
               capacity := capacity }, ⟨hashes, path⟩, fragment)

/-- The shards of a slot, up to the first one that does not verify: what is stored, and
where to go on if all of them do. -/
def readPieces (root : HashString) (depth slot : Nat) :
    Nat → SlotCursor → Except Fault (Option Cursor × List Bytes)
  | 0, s => .ok (some s.cursor, [])
  | n + 1, s =>
    match parsePiece w depth slot s with
    | .error e => .error e
    | .ok (s, proof, fragment) =>
      if verify sha256 (some (sha256 fragment)) proof root = some true then
        match readPieces root depth slot n s with
        | .error e => .error e
        | .ok (c, fragments) => .ok (c, fragment :: fragments)
      else
        .ok (none, List.replicate (n + 1) [])

/-- The loop over the slots of the range. -/
def validateSlots (root : HashString) (depth instanceCount : Nat) :
    Nat → Nat → Cursor → Storage → Except Fault (Bool × Storage)
  | 0, _, _, storage => .ok (true, storage)
  | n + 1, i, c, storage =>
    if (storage i).cacheGuard then
      match skipSlot w depth instanceCount c with
      | .error e => .error e
      | .ok c => validateSlots root depth instanceCount n (i + 1) c storage
    else
      match readPieces sha256 w root depth i instanceCount ⟨c, 0, instanceCount * depth⟩ with
      | .error e => .error e
      | .ok (none, fragments) => .ok (false, Function.update storage i ⟨true, fragments⟩)
      | .ok (some c, fragments) =>
        validateSlots root depth instanceCount n (i + 1) c
          (Function.update storage i ⟨true, fragments⟩)

/-- `validateAndDeserializeFragments` -/
def validateAndDeserializeFragments (cfg : Config) (storage : Storage) (root : HashString)
    (raw : Bytes) (start stop : Nat) : Except Fault (Bool × Storage) :=
  if stop ≤ start ∨ cfg.fragmentCnt < stop then
    .ok (false, storage)
  else
    match w.getInt64 raw with
    | none => .error .thrown
    | some (depth, rest) =>
      if depth < 0 then .error .thrown
      else
        validateSlots sha256 w root depth.toNat cfg.instanceCount (stop - start) start
          { rest := rest
            previousProof := none
            cacheWhenGuard := List.replicate depth.toNat default
            cacheWhenGuardFlag := false } storage

end

/-! ## Regenerating the message -/

/-- `decodeWithBuffer`: all shards are read with the length of the first one. -/
def decodeWithBuffer (ec : ErasureCode) (fragmentList : List Bytes) (dataLen : Int) :
    Except Fault (Option Bytes) :=
  let fragmentLen := ((fragmentList.find? fun f => !f.isEmpty).getD []).length
  if fragmentList.any fun f => !f.isEmpty && f.length < fragmentLen then .error .undefined
  else .ok (ec.decode
    (fragmentList.map fun f => if f.isEmpty then none else some (f.take fragmentLen))
    fragmentLen dataLen)

/-- The size of the part that one instance decodes, in the arithmetic of `int`. -/
def fragmentLen (cfg : Config) (actualMessageSize : Int) : Int :=
  if actualMessageSize.tmod cfg.instanceCount ≠ 0
    then actualMessageSize.tdiv cfg.instanceCount + 1
    else actualMessageSize.tdiv cfg.instanceCount

/-- `dataSize`: the last part takes what is left of the buffer. -/
def dataSize (cfg : Config) (len : Int) (bufferSize i : Nat) : Int :=
  if i = cfg.instanceCount - 1 then bufferSize - i * len else len

/-- The part lies inside the buffer. -/
def PartFits (cfg : Config) (len : Int) (bufferSize i : Nat) : Prop :=
  0 ≤ i * len ∧ 0 ≤ dataSize cfg len bufferSize i ∧
    i * len + dataSize cfg len bufferSize i ≤ bufferSize

instance (cfg : Config) (len : Int) (bufferSize i : Nat) :
    Decidable (PartFits cfg len bufferSize i) :=
  inferInstanceAs (Decidable (_ ∧ _ ∧ _))

/-- The bytes of the buffer after `new` has been copied to `offset`. -/
def overwrite (buffer : Bytes) (offset : Nat) (new : Bytes) : Bytes :=
  buffer.take offset ++ (new ++ buffer.drop (offset + new.length))

/-- The parts of the message, written one after another; `none` once a part has failed. -/
def regenerateParts (ec : ErasureCode) (cfg : Config) (storage : Storage) (len : Int) :
    List Nat → Option Bytes → Nat → Except Fault (Option Bytes)
  | [], buffer, _ => .ok buffer
  | i :: rest, buffer, size =>
    let fragmentList := (List.range cfg.fragmentCnt).map fun j =>
      (storage j).encodeFragment.getD i []
    match decodeWithBuffer ec fragmentList (dataSize cfg len size i) with
    | .error e => .error e
    | .ok none => regenerateParts ec cfg storage len rest none size
    | .ok (some part) =>
      if ¬ PartFits cfg len size i then .error .undefined
      else
        regenerateParts ec cfg storage len rest (buffer.map fun b =>
          overwrite b (i * len).toNat (part.take (dataSize cfg len size i).toNat)) size

/-- `regenerateMessage`, into `bufferOut`. -/
def regenerateMessage (ec : ErasureCode) (cfg : Config) (storage : Storage)
    (actualMessageSize : Int) (bufferOut : Bytes) : Except Fault (Option Bytes) :=
  let buffer := bufferOut ++ List.replicate (actualMessageSize.toNat - bufferOut.length) 0
  regenerateParts ec cfg storage (fragmentLen cfg actualMessageSize)
    (List.range cfg.instanceCount) (some buffer) buffer.length

end MassBFT.Replication
