import MassBFT.Lib.Loop
import Mathlib.Data.List.FinRange
import Mathlib.Logic.Function.Basic

/-!
# `InterChainOrderManager::Cell` — one block and what is known of its vector clock

A cell stands for block `blockId` of group `groupId`. Coordinate `v` of its vector
clock is group `v`'s vote on it; `real v` says that the vote has arrived, and until
then `watermarks v` is an estimate. Two cells are compared by `mustLessThan` *before*
all the votes are in, which is the whole point of the data structure and the reason
the order manager needs a proof.

Group ids are `Fin G`, with `G` what `setGroupCount` was given: the source indexes its
vectors with them, and an id out of range is a failed check or an access outside a
vector, never a vote.
-/

set_option autoImplicit false

namespace MassBFT.Order

open Function List

/-- `INVALID_WATERMARK`. -/
def invalidWatermark : Int := -1

/-- The `CHECK`s of the order manager, one constructor for each line that has one. -/
inductive CheckFailed where
  /-- `mustLessThan`: `CHECK(this == rhs)`. -/
  | differentCell
  /-- `setIthWaterMark`: `CHECK(watermarks[i] <= value)`, "ensure compare fairness". -/
  | compareFairness
  /-- `globalMinimum`: `CHECK(!buffer.empty())`. -/
  | emptyBuffer
  /-- `exchange`: `CHECK(buffer[prev->groupId] == prev)`. -/
  | notHead
  /-- `exchange`: `CHECK(prev->blockId == next->blockId - 1)`. -/
  | notSuccessor
  /-- `exchange`: `CHECK(prev->groupId == next->groupId)`. -/
  | otherGroup
  /-- `exchange`: `CHECK(prev->watermarks[i] <= next->watermarks[i])`. -/
  | watermarkDrops
  /-- `updateEstimate`: "local group watermark must be pre-set". -/
  | localNotPreset
  /-- `updateEstimate`: `CHECK(it->watermarks[groupId] <= watermark)`. -/
  | estimateDrops
  /-- `CommitBuffer::invalidateChain`: `CHECK(it->watermarks[groupId] <= height)`. -/
  | aboveHeight
  deriving DecidableEq, Repr

/-- `InterChainOrderManager::Cell`. -/
structure Cell (G : Nat) where
  groupId : Fin G
  blockId : Nat
  watermarks : Fin G → Int
  real : Fin G → Bool

namespace Cell

variable {G : Nat}

/-- The constructor: nothing is known but the block's own coordinate, which is preset. -/
def new (groupId : Fin G) (blockId : Nat) : Cell G where
  groupId := groupId
  blockId := blockId
  watermarks := update (fun _ => invalidWatermark) groupId blockId
  real := update (fun _ => false) groupId true

/-- The `for` loop of `mustLessThan` from some coordinate on, and the tie break behind it. -/
def mustLessThanFrom (lhs rhs : Cell G) : List (Fin G) → Bool
  | [] =>
    if lhs.blockId ≠ rhs.blockId then decide (lhs.blockId < rhs.blockId)
    else decide (lhs.groupId < rhs.groupId)
  | i :: is =>
    if lhs.real i then
      if lhs.watermarks i < rhs.watermarks i then true
      else if rhs.real i ∧ lhs.watermarks i = rhs.watermarks i then mustLessThanFrom lhs rhs is
      else false
    else false

/-- `mustLessThan`. The source compares the two pointers when the ids agree; `same` is the
outcome of that comparison. -/
def mustLessThan (same : Bool) (lhs rhs : Cell G) : Except CheckFailed Bool :=
  if lhs.groupId = rhs.groupId ∧ lhs.blockId = rhs.blockId then
    if same then .ok true else .error .differentCell
  else .ok (mustLessThanFrom lhs rhs (List.finRange G))

/-- `setIthWaterMark`: `none` when the coordinate is already real, which is how repeated
votes are recognised. -/
def setIthWaterMark (c : Cell G) (i : Fin G) (value : Int) : Except CheckFailed (Option (Cell G)) :=
  if c.real i then .ok none
  else if c.watermarks i ≤ value then
    .ok (some { c with
      watermarks := update c.watermarks i value
      real := update c.real i true })
  else .error .compareFairness

theorem new_watermarks_self (g : Fin G) (b : Nat) : (new g b).watermarks g = b := by
  simp [new]

theorem new_watermarks_of_ne {g v : Fin G} (h : v ≠ g) (b : Nat) : (new g b).watermarks v = -1 := by
  simp [new, invalidWatermark, update_of_ne h]

theorem new_real_iff (g v : Fin G) (b : Nat) : (new g b).real v = true ↔ v = g := by
  by_cases h : v = g
  · subst h; simp [new]
  · simp [new, h]

/-! ## What `mustLessThan` answers -/

variable {lhs rhs : Cell G}

/-- Coordinate `k` is known on both sides and equal: the loop goes on behind it. -/
def Settled (lhs rhs : Cell G) (k : Fin G) : Prop :=
  lhs.real k = true ∧ rhs.real k = true ∧ lhs.watermarks k = rhs.watermarks k

/-- The tie break behind the loop. -/
def Before (lhs rhs : Cell G) : Prop :=
  lhs.blockId < rhs.blockId ∨ lhs.blockId = rhs.blockId ∧ lhs.groupId < rhs.groupId

theorem mustLessThanFrom_nil : mustLessThanFrom lhs rhs [] = true ↔ Before lhs rhs := by
  unfold mustLessThanFrom Before
  split
  · rename_i hne
    simp [hne]
  · rename_i heq
    rw [not_not] at heq
    simp [heq]

theorem mustLessThanFrom_cons {i : Fin G} {is : List (Fin G)} :
    mustLessThanFrom lhs rhs (i :: is) = true ↔
      (lhs.real i = true ∧ lhs.watermarks i < rhs.watermarks i) ∨
      (Settled lhs rhs i ∧ mustLessThanFrom lhs rhs is = true) := by
  conv_lhs => unfold mustLessThanFrom
  unfold Settled
  by_cases hr : lhs.real i = true
  · by_cases hlt : lhs.watermarks i < rhs.watermarks i
    · simp [hr, hlt]
    · by_cases heq : rhs.real i = true ∧ lhs.watermarks i = rhs.watermarks i
      · simp [hr, heq]
      · simp [hr, hlt, heq]
  · simp [hr]

/-- The loop stops at the first coordinate that is not settled, and answers `true` there if the
left one is known and smaller. -/
theorem mustLessThanFrom_iff : ∀ {l : List (Fin G)}, l.Pairwise (· < ·) →
    (mustLessThanFrom lhs rhs l = true ↔
      (∃ j ∈ l, (∀ k ∈ l, k < j → Settled lhs rhs k) ∧ lhs.real j = true ∧
        lhs.watermarks j < rhs.watermarks j) ∨
      ((∀ k ∈ l, Settled lhs rhs k) ∧ Before lhs rhs))
  | [], _ => by
    rw [mustLessThanFrom_nil]
    simp
  | i :: is, hs => by
    rw [pairwise_cons] at hs
    rw [mustLessThanFrom_cons, mustLessThanFrom_iff hs.2]
    constructor
    · rintro (⟨hr, hlt⟩ | ⟨hi, ⟨j, hj, hk, hr, hlt⟩ | ⟨hk, htie⟩⟩)
      · refine Or.inl ⟨i, mem_cons_self, fun k hk hki => ?_, hr, hlt⟩
        rcases mem_cons.mp hk with rfl | hk
        · exact absurd hki (lt_irrefl _)
        · exact absurd (hs.1 k hk) (not_lt.mpr hki.le)
      · refine Or.inl ⟨j, mem_cons_of_mem _ hj, fun k hk' hkj => ?_, hr, hlt⟩
        rcases mem_cons.mp hk' with rfl | hk'
        · exact hi
        · exact hk k hk' hkj
      · refine Or.inr ⟨fun k hk' => ?_, htie⟩
        rcases mem_cons.mp hk' with rfl | hk'
        · exact hi
        · exact hk k hk'
    · rintro (⟨j, hj, hk, hr, hlt⟩ | ⟨hk, htie⟩)
      · rcases mem_cons.mp hj with rfl | hj
        · exact Or.inl ⟨hr, hlt⟩
        · refine Or.inr ⟨hk i mem_cons_self (hs.1 j hj),
            Or.inl ⟨j, hj, fun k hk' => ?_, hr, hlt⟩⟩
          exact hk k (mem_cons_of_mem _ hk')
      · refine Or.inr ⟨hk i mem_cons_self, Or.inr ⟨fun k hk' => ?_, htie⟩⟩
        exact hk k (mem_cons_of_mem _ hk')

/-- **The comparison of two cells of different groups.** -/
theorem mustLessThan_iff {same : Bool} (hne : lhs.groupId ≠ rhs.groupId) :
    mustLessThan same lhs rhs = .ok true ↔
      (∃ j, (∀ k < j, Settled lhs rhs k) ∧ lhs.real j = true ∧
        lhs.watermarks j < rhs.watermarks j) ∨
      ((∀ k, Settled lhs rhs k) ∧ Before lhs rhs) := by
  have hloop := @mustLessThanFrom_iff G lhs rhs _ (pairwise_lt_finRange G)
  simp only [mem_finRange, true_and, true_implies] at hloop
  rw [← hloop]
  unfold mustLessThan
  rw [if_neg (fun he => hne he.1)]
  simp

end Cell

end MassBFT.Order
