import MassBFT.Order.VoteLog
import Mathlib.Data.Finset.Card
import Mathlib.Data.Fintype.Card

/-!
# `OrderAssigner`, and the threads of a raft leader that vote

A group's leader decides its votes in `OrderAssigner`, which is behind a mutex, and appends
them to the raft log, which is thread safe. `BlockOrder::voteNewBlock` does one after the
other with no lock across, and it has two callers: the subscriber loop, for blocks the leader
has received, and the validation callback of every raft group the leader takes part in, which
forces the vote on a block once a majority of groups has voted for it.

So a leader is a set of threads over an assigner and a log, and each access to either is a
step. The `DCHECK`s of the assigner are not compiled into a release build; what they say about
the ring of slots is `Current`.
-/

set_option autoImplicit false

namespace MassBFT.Order

open Function

/-- `proto::BlockOrder`: a vote of `voteChainId` on block `blockId` of `chainId`. -/
structure BlockOrder (G : Nat) where
  chainId : Fin G
  blockId : Nat
  voteChainId : Fin G
  voteBlockId : Int
  deriving DecidableEq

/-- `BlockVotes::Slot`. -/
structure Slot (G : Nat) where
  blockId : Nat
  votes : Finset (Fin G)
  finished : Bool

/-- `BlockVotes::MAX_BLOCK_QUEUE_SIZE`. -/
def maxBlockQueueSize : Nat := 256

/-- Blocks whose numbers agree modulo the queue size share a slot. -/
def slotIndex (blockId : Nat) : Nat := blockId % maxBlockQueueSize

/-- `OrderAssigner`. -/
structure OrderAssigner (G : Nat) where
  myClock : Int
  chainId : Fin G
  /-- `_blockVotesCount[chainId][i]`. -/
  blockVotes : Fin G → Nat → Slot G

namespace OrderAssigner

variable {G : Nat}

/-- After construction and `setLocalChainId`. -/
def init (chainId : Fin G) : OrderAssigner G where
  myClock := -1
  chainId := chainId
  blockVotes _ _ := { blockId := 0, votes := ∅, finished := false }

def slot (a : OrderAssigner G) (g : Fin G) (b : Nat) : Slot G := a.blockVotes g (slotIndex b)

def setSlot (a : OrderAssigner G) (g : Fin G) (b : Nat) (x : Slot G) : OrderAssigner G :=
  { a with
    blockVotes := update a.blockVotes g (update (a.blockVotes g) (slotIndex b) x) }

/-- `BlockVotes::getRef`: the slot is handed to the block if it held an earlier one. -/
def getRef (a : OrderAssigner G) (g : Fin G) (b : Nat) : OrderAssigner G :=
  if (a.slot g b).blockId < b then
    a.setSlot g b { blockId := b, votes := ∅, finished := false }
  else a

/-- What `getRef` checks in a debug build, "Stale get": the slot has not been handed on to a
later block. -/
def Current (a : OrderAssigner G) (g : Fin G) (b : Nat) : Prop := (a.slot g b).blockId ≤ b

/-- `getBlockOrder`; `none` is the pair `(-1, -1)` of a block that was voted on before. -/
def getBlockOrder (a : OrderAssigner G) (g : Fin G) (b : Nat) :
    OrderAssigner G × Option (Fin G × Int) :=
  let a₁ := a.getRef g b
  let res := a₁.slot g b
  if res.finished then (a₁, none)
  else
    (a₁.setSlot g b { res with finished := true },
      some (if a.chainId = g then (a.chainId, (b : Int)) else (a.chainId, a.myClock)))

/-- `addVoteForBlock`. -/
def addVoteForBlock (a : OrderAssigner G) (g : Fin G) (b : Nat) (voteChainId : Fin G) :
    OrderAssigner G × Int :=
  if a.chainId = g then (a, -1)  -- skip local chain
  else
    let a₁ := a.getRef g b
    let res := a₁.slot g b
    if res.finished then (a₁, -1)
    else
      let votes := insert voteChainId res.votes
      (a₁.setSlot g b { res with votes := votes }, (votes.card : Int))

/-- `getVoteForBlock`. -/
def getVoteForBlock (a : OrderAssigner G) (g : Fin G) (b : Nat) : OrderAssigner G × Int :=
  if a.chainId = g then (a, -1)
  else
    let a₁ := a.getRef g b
    let res := a₁.slot g b
    if res.finished then (a₁, -1) else (a₁, (res.votes.card : Int))

/-- `increaseLocalClock`; `none` is the failed check "Consensus local block out of order!". -/
def increaseLocalClock (a : OrderAssigner G) (g : Fin G) (b : Nat) :
    Option (OrderAssigner G × Bool) :=
  if a.chainId = g then
    if (b : Int) - 1 < a.myClock then some (a, false)  -- stale call
    else if (b : Int) - 1 = a.myClock then some ({ a with myClock := b }, true)
    else none
  else some (a, false)

end OrderAssigner

/-- `minThreshHold`: more than half of the groups. -/
def minThreshHold (G : Nat) : Nat := G / 2 + 1

/-- Where a thread that may call `voteNewBlock` stands. -/
inductive Thread (G : Nat) where
  | idle
  /-- The vote count of the block has reached the threshold, `voteNewBlock` is being called. -/
  | voting (chainId : Fin G) (blockId : Nat)
  /-- Inside `voteNewBlock`, between `getBlockOrder` and the append. -/
  | appending (bo : BlockOrder G)
  /-- Waiting for the block or for more votes on it. -/
  | waiting (chainId : Fin G) (blockId : Nat)
  deriving DecidableEq

/-- The threads: `none` is the subscriber loop, `some r` validates the entries of raft group
`r`. -/
abbrev ThreadId (G : Nat) := Option (Fin G)

/-- A raft leader. -/
structure Leader (G : Nat) where
  assigner : OrderAssigner G
  threads : ThreadId G → Thread G
  /-- The next block of every group that `subscriberWaitForBlock` returns. -/
  nextBlock : Fin G → Nat
  /-- The log of the local raft group. -/
  log : List (BlockOrder G)

/-- One atomic access of one thread. -/
inductive Action (G : Nat) where
  /-- `contentLeaderReceiverLoop` gets the next block of a group, up to `getBlockOrder`. -/
  | subscribe (chainId : Fin G)
  /-- The validation of an entry of raft group `r`: the vote is counted. -/
  | validate (r : Fin G) (chainId : Fin G) (blockId : Nat) (voteChainId : Fin G)
  /-- A forced vote: `getBlockOrder`. -/
  | force (r : Fin G)
  /-- `onLeaderVotingNewBlock`. -/
  | append (t : ThreadId G)
  /-- The validation looks at the vote count again. -/
  | poll (r : Fin G)
  /-- The validation answers. -/
  | answer (r : Fin G)
  /-- A committed entry is applied: `_increaseVCCallback`. -/
  | apply (chainId : Fin G) (blockId : Nat)

namespace Leader

variable {G : Nat}

/-- The leader of group `chainId` before anything happened. -/
def init (chainId : Fin G) : Leader G where
  assigner := OrderAssigner.init chainId
  threads _ := .idle
  nextBlock _ := 0
  log := []

def setThread (s : Leader G) (t : ThreadId G) (x : Thread G) : Leader G :=
  { s with threads := update s.threads t x }

/-- `voteNewBlock` up to the append; a thread whose block was voted on before goes on with
`done`. -/
def readOrder (s : Leader G) (t : ThreadId G) (g : Fin G) (b : Nat) (done : Thread G) :
    Leader G :=
  let (a, order) := s.assigner.getBlockOrder g b
  let next := match order with
    | none => done
    | some (voter, clock) => .appending ⟨g, b, voter, clock⟩
  { s.setThread t next with assigner := a }

/-- The transition relation as a partial function: `none` where the action is not enabled, and
where a `CHECK` fails. -/
def step (s : Leader G) : Action G → Option (Leader G)
  | .subscribe g =>
    if s.threads none = .idle then
      some { s.readOrder none g (s.nextBlock g) .idle with
        nextBlock := update s.nextBlock g (s.nextBlock g + 1) }
    else none
  | .validate r g b u =>
    if s.threads (some r) = .idle then
      let (a, count) := s.assigner.addVoteForBlock g b u
      let next := if count = minThreshHold G then .voting g b else .waiting g b
      some { s.setThread (some r) next with assigner := a }
    else none
  | .force r =>
    match s.threads (some r) with
    | .voting g b => some (s.readOrder (some r) g b (.waiting g b))
    | _ => none
  | .append t =>
    match s.threads t with
    | .appending bo =>
      let next := match t with
        | none => .idle
        | some _ => .waiting bo.chainId bo.blockId
      some { s.setThread t next with log := s.log ++ [bo] }
    | _ => none
  | .poll r =>
    match s.threads (some r) with
    | .waiting g b => some { s with assigner := (s.assigner.getVoteForBlock g b).1 }
    | _ => none
  | .answer r =>
    match s.threads (some r) with
    | .waiting _ _ => some (s.setThread (some r) .idle)
    | _ => none
  | .apply g b =>
    match s.assigner.increaseLocalClock g b with
    | some (a, _) => some { s with assigner := a }
    | none => none

/-- A schedule. -/
def runActions : List (Action G) → Leader G → Option (Leader G)
  | [], s => some s
  | a :: as, s => (s.step a).bind (runActions as)

/-- The votes in a log: the entries on other groups' blocks. An entry on an own block carries the
block's number in place of a clock, and `pushDecision` passes over it. -/
def votes (chainId : Fin G) (log : List (BlockOrder G)) : List (BlockOrder G) :=
  log.filter fun bo => bo.chainId ≠ chainId

/-- The votes in a log on the blocks of one group. -/
def votesOn (g : Fin G) (log : List (BlockOrder G)) : List Nat :=
  (log.filter fun bo => bo.chainId = g).map (·.blockId)

/-- What `InterChainOrderManager` relies on in a voter's log. -/
structure WellFormed (chainId : Fin G) (log : List (BlockOrder G)) : Prop where
  clocks : (votes chainId log).Pairwise fun x y => x.voteBlockId ≤ y.voteBlockId
  blocks : ∀ g, g ≠ chainId → (votesOn g log).Pairwise (· < ·)

end Leader

end MassBFT.Order
