import MassBFT.Order.SlotRecords

/-!
# The slots of a leader that counts votes in order

A leader votes on the blocks of a group one after another, and each voter's votes on the group
are counted one after another, so two counts say it all: the blocks of each group that have been
voted on, and the votes of each voter that have been counted. `SlotsOk` is the record of the
slots for such counts (`slotsOk_iff`): every call for a block whose slot has not been handed on
keeps it, and answers what the counts say.
-/

set_option autoImplicit false

namespace MassBFT.Order

open Function

variable {G : Nat}

/-- How many votes on the blocks of a group have been counted, by voter. -/
abbrev Seen (G : Nat) := Fin G → Fin G → Nat

/-- Slot `i` of a group of which the first `k` blocks have been voted on. -/
structure SlotOk (k : Nat) (seen : Fin G → Nat) (i : Nat) (x : Slot G) : Prop where
  touched : ∀ b, slotIndex b = i → (b < k ∨ ∃ u, b < seen u) → b ≤ x.blockId
  finished : slotIndex x.blockId = i → (x.finished = true ↔ x.blockId < k)
  votes : slotIndex x.blockId = i → x.finished = false →
    x.votes = Finset.univ.filter fun u => x.blockId < seen u

/-- All slots. -/
def SlotsOk (a : OrderAssigner G) (k : Fin G → Nat) (seen : Seen G) : Prop :=
  ∀ g i, SlotOk (k g) (seen g) i (a.blockVotes g i)

/-- A voter's next vote changes nothing about the other blocks of the group … -/
theorem lt_update_iff {f : Fin G → Nat} {u : Fin G} {b c : Nat} (hb : b = f u) (hc : c ≠ b)
    (v : Fin G) : c < update f u (b + 1) v ↔ c < f v := by
  by_cases hv : v = u
  · subst hv
    rw [update_self]
    omega
  · rw [update_of_ne hv]

/-- … and adds the voter to those who have voted for the block. -/
theorem insert_voted (f : Fin G → Nat) (u : Fin G) (b : Nat) :
    insert u (Finset.univ.filter fun v => b < f v) =
      Finset.univ.filter fun v => b < update f u (b + 1) v := by
  ext v
  by_cases hv : v = u
  · subst hv
    simp
  · simp [hv]

/-- The record that two counts stand for. -/
def Record.ofCounts (k : Fin G → Nat) (seen : Seen G) : Record G where
  done g b := b < k g
  voted g b u := b < seen g u

theorem slotsOk_iff {a : OrderAssigner G} {k : Fin G → Nat} {seen : Seen G} :
    SlotsOk a k seen ↔ Recorded (.ofCounts k seen) a := by
  refine forall_congr' fun g => forall_congr' fun i => ⟨fun h => ?_, fun h => ?_⟩
  · refine ⟨h.touched, h.finished, fun hi hf u => ?_⟩
    rw [h.votes hi hf, Finset.mem_filter]
    exact ⟨fun hu => hu.2, fun hu => ⟨Finset.mem_univ u, hu⟩⟩
  · refine ⟨h.touched, h.finished, fun hi hf => ?_⟩
    ext u
    rw [h.votes hi hf, Finset.mem_filter]
    exact ⟨fun hu => ⟨Finset.mem_univ u, hu⟩, fun hu => hu.2⟩

namespace OrderAssigner

variable {a : OrderAssigner G} {k : Fin G → Nat} {seen : Seen G} {g : Fin G} {b : Nat}

theorem slotsOk_getRef (h : SlotsOk a k seen) (g : Fin G) (b : Nat) :
    SlotsOk (a.getRef g b) k seen :=
  slotsOk_iff.mpr ((slotsOk_iff.mp h).getRef g b)

/-- A block that was voted on is recognised … -/
theorem getBlockOrder_of_lt (h : SlotsOk a k seen) (hc : a.Current g b) (hb : b < k g) :
    a.getBlockOrder g b = (a.getRef g b, none) := by
  have hdone : ((a.getRef g b).slot g b).finished = true :=
    ((slotsOk_iff.mp h).finished_getRef hc).mpr hb
  unfold getBlockOrder
  simp only [hdone, if_true]

/-- … and the next one gets the clock, or its own number on the local chain. -/
theorem getBlockOrder_next (h : SlotsOk a k seen) (hc : a.Current g (k g)) :
    ∃ a', a.getBlockOrder g (k g) = (a', some (a.chainId,
        if a.chainId = g then (k g : Int) else a.myClock)) ∧
      a'.chainId = a.chainId ∧ a'.myClock = a.myClock ∧
      SlotsOk a' (update k g (k g + 1)) seen := by
  obtain ⟨hrec, -, hnext⟩ := (slotsOk_iff.mp h).getBlockOrder hc
  refine ⟨(a.getBlockOrder g (k g)).1, ?_, ?_, ?_, ?_⟩
  · rw [← hnext (lt_irrefl (k g))]
  · exact chainId_getBlockOrder
  · exact myClock_getBlockOrder
  · refine slotsOk_iff.mpr (hrec.congr (fun c d => ?_) (fun _ _ _ => Iff.rfl))
    change d < update k g (k g + 1) c ↔ (c = g ∧ d = k g) ∨ d < k c
    by_cases hcg : c = g
    · subst hcg
      rw [update_self]
      omega
    · rw [update_of_ne hcg]
      simp [hcg]

/-- Counting the next vote of a voter on a group: the count is the number of groups that have
voted for the block, unless the block is voted on already. -/
theorem addVoteForBlock_next (h : SlotsOk a k seen) (hg : a.chainId ≠ g) {u : Fin G}
    (hb : b = seen g u) (hc : a.Current g b) :
    ∃ a' count, a.addVoteForBlock g b u = (a', count) ∧ a'.chainId = a.chainId ∧
      a'.myClock = a.myClock ∧
      SlotsOk a' k (update seen g (update (seen g) u (b + 1))) ∧
      count = if b < k g then -1 else
        ((Finset.univ.filter fun v => b < update (seen g) u (b + 1) v).card : Int) := by
  obtain ⟨hrec, hdone, hopen⟩ := (slotsOk_iff.mp h).addVoteForBlock hc hg u
  have hvoted : ∀ c d v, d < update seen g (update (seen g) u (b + 1)) c v ↔
      (c = g ∧ d = b ∧ v = u) ∨ d < seen c v := by
    intro c d v
    by_cases hcg : c = g
    · subst hcg
      rw [update_self]
      by_cases hv : v = u
      · subst hv
        rw [update_self]
        simp only [true_and, and_true]
        omega
      · rw [update_of_ne hv]
        simp [hv]
    · rw [update_of_ne hcg]
      simp [hcg]
  refine ⟨(a.addVoteForBlock g b u).1, (a.addVoteForBlock g b u).2, rfl,
    chainId_addVoteForBlock, myClock_addVoteForBlock,
    slotsOk_iff.mpr (hrec.congr (fun _ _ => Iff.rfl) hvoted), ?_⟩
  by_cases hbk : b < k g
  · rw [if_pos hbk]
    exact hdone hbk
  · rw [if_neg hbk]
    obtain ⟨votes, hcount, hmem⟩ := hopen hbk
    rw [hcount]
    congr 2
    ext v
    have hv := hvoted g b v
    rw [update_self] at hv
    rw [hmem, Finset.mem_filter, hv]
    exact ⟨fun hu => ⟨Finset.mem_univ v, hu⟩, fun hu => hu.2⟩

theorem getVoteForBlock_fst (h : SlotsOk a k seen) (g : Fin G) (b : Nat) :
    SlotsOk (a.getVoteForBlock g b).1 k seen ∧ (a.getVoteForBlock g b).1.chainId = a.chainId ∧
      (a.getVoteForBlock g b).1.myClock = a.myClock :=
  ⟨slotsOk_iff.mpr ((slotsOk_iff.mp h).getVoteForBlock_fst g b), chainId_getVoteForBlock,
    myClock_getVoteForBlock⟩

/-- The clock never goes back. -/
theorem increaseLocalClock_eq_some {a' : OrderAssigner G} {r : Bool}
    (h : a.increaseLocalClock g b = some (a', r)) :
    a'.blockVotes = a.blockVotes ∧ a'.chainId = a.chainId ∧ a.myClock ≤ a'.myClock := by
  unfold increaseLocalClock at h
  split at h
  · split at h
    · cases h
      exact ⟨rfl, rfl, le_refl _⟩
    · split at h
      · rename_i heq
        cases h
        refine ⟨rfl, rfl, ?_⟩
        show a.myClock ≤ (b : Int)
        omega
      · cases h
  · cases h
    exact ⟨rfl, rfl, le_refl _⟩

end OrderAssigner

end MassBFT.Order
