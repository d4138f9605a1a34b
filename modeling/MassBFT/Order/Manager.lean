import MassBFT.Order.Cell
import Mathlib.Data.List.GetD
import Mathlib.Data.Fintype.Basic
import Mathlib.Data.Fintype.Pi

/-!
# `InterChainOrderManager` — the merge of the groups' chains

The manager keeps one chain of cells per group and a buffer with the next undelivered
cell of each. A vote fixes one coordinate of one cell and raises the estimates of that
voter's coordinate on all heads; then heads are delivered for as long as one of them is
below every other one (`popBlocks`). A failed group is *invalidated*: whatever its
coordinate is at that moment counts as its vote from then on.

Everything runs under the manager's mutex, so a call is one step, and the only thing a
call can do besides returning is abort at a `CHECK` or stay in the loop of `popBlocks`.
The deliver callback is modelled by the list of cells it was given, as they were when it was
called.
-/

set_option autoImplicit false

namespace MassBFT.Order

open Function

/-- `InterChainOrderManager::Chain`. -/
structure Chain (G : Nat) where
  height : Int
  chain : List (Cell G)

/-- The state behind the mutex. `buffer g` is the position in chain `g` of the cell that
`CommitBuffer::buffer[g]` points to ("the group ID of cell is the index of heads"). -/
structure Manager (G : Nat) where
  chains : Fin G → Chain G
  buffer : Fin G → Nat
  invalidateMap : Fin G → Bool
  /-- The cells given to `deliverCallback`, oldest first. -/
  delivered : List (Cell G)

/-- A call of the public interface. -/
inductive Call (G : Nat) where
  | pushDecision (groupId : Fin G) (blockId : Nat) (voteGroupId : Fin G) (voteGroupWatermark : Int)
  | invalidateChain (groupId : Fin G)

/-- `setGroupCount`: every chain holds its block 0, and that is its head. -/
def setGroupCount (G : Nat) : Manager G where
  chains g := { height := -1, chain := [Cell.new g 0] }
  buffer _ := 0
  invalidateMap _ := false
  delivered := []

namespace Manager

variable {G : Nat}

/-- The cell at position `n` of chain `g`. -/
def cellAt (s : Manager G) (g : Fin G) (n : Nat) : Cell G :=
  (s.chains g).chain.getD n (Cell.new g n)

/-- `buffer[g]`, dereferenced. -/
def head (s : Manager G) (g : Fin G) : Cell G := s.cellAt g (s.buffer g)

/-- `chains[g].chain.size()`. -/
def size (s : Manager G) (g : Fin G) : Nat := (s.chains g).chain.length

/-- The blocks that were delivered: what `OrderACB` passes on as `onExecuteBlock`. -/
def blocks (s : Manager G) : List (Fin G × Nat) := s.delivered.map fun c => (c.groupId, c.blockId)

def setCell (s : Manager G) (g : Fin G) (n : Nat) (c : Cell G) : Manager G :=
  { s with
    chains := update s.chains g
      { s.chains g with chain := (s.chains g).chain.set n c } }

/-- `createBlockIfNotExist`. The loop constructs every missing cell with the *requested*
block id, also those in front of it. -/
def createBlockIfNotExist (s : Manager G) (g : Fin G) (b : Nat) : Manager G :=
  { s with
    chains := update s.chains g
      { s.chains g with
        chain := (s.chains g).chain ++
          List.replicate (b + 1 - (s.chains g).chain.length) (Cell.new g b) } }

/-- The inner loop of `globalMinimum`: `left` against the heads from some group on. -/
def canPop (s : Manager G) (left : Fin G) : List (Fin G) → Except CheckFailed Bool
  | [] => .ok true
  | right :: rest =>
    match Cell.mustLessThan (left = right) (s.head left) (s.head right) with
    | .error e => .error e
    | .ok false => .ok false
    | .ok true => canPop s left rest

/-- The outer loop of `globalMinimum`. -/
def firstMinimum (s : Manager G) : List (Fin G) → Except CheckFailed (Option (Fin G))
  | [] => .ok none
  | left :: rest =>
    match canPop s left (List.finRange G) with
    | .error e => .error e
    | .ok true => .ok (some left)
    | .ok false => firstMinimum s rest

/-- `CommitBuffer::globalMinimum`; the answer is the group whose head it is. -/
def globalMinimum (s : Manager G) : Except CheckFailed (Option (Fin G)) :=
  if G = 0 then .error .emptyBuffer else firstMinimum s (List.finRange G)

/-- The cell that `exchange` leaves behind in `next`: coordinates that are not real are
estimated by the predecessor's, and the coordinates of invalidated groups are copied. -/
def succeed (s : Manager G) (prev next : Cell G) : Cell G :=
  { next with
    watermarks := fun i =>
      if s.invalidateMap i then prev.watermarks i
      else if next.real i then next.watermarks i else prev.watermarks i
    real := fun i => next.real i || s.invalidateMap i }

/-- `CommitBuffer::exchange(prev, next)`, where `prev` is the head of `g` and `next` the
cell at position `n` of the chain of `prev->groupId`. -/
def exchange (s : Manager G) (g : Fin G) (n : Nat) : Except CheckFailed (Manager G) :=
  let prev := s.head g
  let next := s.cellAt prev.groupId n
  if prev.groupId ≠ g then .error .notHead
  else if prev.blockId + 1 ≠ next.blockId then .error .notSuccessor
  else if prev.groupId ≠ next.groupId then .error .otherGroup
  else if ∃ i, next.real i ∧ next.watermarks i < prev.watermarks i then .error .watermarkDrops
  else .ok { s.setCell g n (s.succeed prev next) with buffer := update s.buffer g n }

/-- One round of the loop in `popBlocks`; `none` when `globalMinimum` is `nullptr`. -/
def popRound (s : Manager G) : Except CheckFailed (Option (Manager G)) :=
  match s.globalMinimum with
  | .error e => .error e
  | .ok none => .ok none
  | .ok (some g) =>
    let prev := s.head g
    let s₁ := { s with delivered := s.delivered ++ [prev] }
    let s₂ := s₁.createBlockIfNotExist prev.groupId (prev.blockId + 1)
    match s₂.exchange g (prev.blockId + 1) with
    | .error e => .error e
    | .ok s₃ => .ok (some s₃)

/-- `popBlocks`. -/
def popBlocks (fuel : Nat) (s : Manager G) : Outcome CheckFailed (Manager G) := loop popRound fuel s

/-- `for (auto& it: buffer)`: the loop touches every head once. -/
def modifyHeads (s : Manager G) (f : Cell G → Cell G) : Manager G :=
  { s with
    chains := fun g =>
      { s.chains g with chain := (s.chains g).chain.modify (s.buffer g) f } }

/-- What `updateEstimate` does to one head. -/
def raise (v : Fin G) (w : Int) (c : Cell G) : Cell G :=
  if c.real v then c else { c with watermarks := update c.watermarks v w }

/-- `CommitBuffer::updateEstimate`. -/
def updateEstimate (s : Manager G) (v : Fin G) (w : Int) : Except CheckFailed (Manager G) :=
  if ∃ g, (s.head g).real v = false ∧ (s.head g).groupId = v then .error .localNotPreset
  else if ∃ g, (s.head g).real v = false ∧ w < (s.head g).watermarks v then .error .estimateDrops
  else .ok (s.modifyHeads (raise v w))

/-- The debug heights that `pushDecision` maintains for `invalidateChain`. -/
def raiseHeight (s : Manager G) (g : Fin G) (h : Int) : Manager G :=
  { s with
    chains := update s.chains g
      { s.chains g with height := max (s.chains g).height h } }

/-- `pushDecision`. -/
def pushDecision (fuel : Nat) (s : Manager G) (g : Fin G) (b : Nat) (v : Fin G) (w : Int) :
    Outcome CheckFailed (Manager G) :=
  if G = 1 then
    -- there is only a single group
    let s₁ := s.createBlockIfNotExist g b
    .done { s₁ with delivered := s₁.delivered ++ [s₁.cellAt g b] }
  else if v = g then .done s
  else
    let s₁ := s.createBlockIfNotExist g b
    match (s₁.cellAt g b).setIthWaterMark v w with
    | .error e => .failed e
    | .ok none => .done s₁
    | .ok (some cell) =>
      let s₂ := ((s₁.setCell g b cell).raiseHeight v w).raiseHeight g b
      (Outcome.ofExcept (s₂.updateEstimate v w)).bind (popBlocks fuel)

/-- What `invalidateChain` does to one head. -/
def freeze (f : Fin G) (c : Cell G) : Cell G := { c with real := update c.real f true }

/-- `CommitBuffer::invalidateChain`: the coordinate of group `f` becomes real on every head,
at whatever value it has. -/
def invalidateHeads (s : Manager G) (f : Fin G) (height : Int) : Except CheckFailed (Manager G) :=
  if s.invalidateMap f then .ok s
  else if ∃ g, height < (s.head g).watermarks f then .error .aboveHeight
  else .ok { s.modifyHeads (freeze f) with
    invalidateMap := update s.invalidateMap f true }

/-- `invalidateChain`. -/
def invalidateChain (fuel : Nat) (s : Manager G) (f : Fin G) : Outcome CheckFailed (Manager G) :=
  (Outcome.ofExcept (s.invalidateHeads f (s.chains f).height)).bind (popBlocks fuel)

/-- One call of the public interface. -/
def call (fuel : Nat) (s : Manager G) : Call G → Outcome CheckFailed (Manager G)
  | .pushDecision g b v w => s.pushDecision fuel g b v w
  | .invalidateChain f => s.invalidateChain fuel f

/-- A sequence of calls, each one starting when the one before it has returned. -/
def run (fuel : Nat) : List (Call G) → Manager G → Outcome CheckFailed (Manager G)
  | [], s => .done s
  | c :: cs, s => (s.call fuel c).bind (run fuel cs)

end Manager

end MassBFT.Order
