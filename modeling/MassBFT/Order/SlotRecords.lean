import MassBFT.Order.Assigner

/-!
# What the slots of `OrderAssigner` record

The assigner keeps 256 slots for each group and hands a slot on whenever a block with a larger
number asks for it. What it is meant to keep is a record for each block: whether the block has
been voted on, and whose votes on it have been counted.

`Recorded` relates the two: the slots agree with the record on every block that still has its
slot, and no block with an entry in the record comes behind the block that has its slot.
**A call for a block whose slot has not been handed on answers what the record says**, and
leaves slots that agree with the record after the call (`Recorded.getBlockOrder`,
`Recorded.addVoteForBlock`, `Recorded.getVoteForBlock`).
-/

set_option autoImplicit false

namespace MassBFT.Order

variable {G : Nat}

/-- The blocks that have been voted on, and the voters that have been counted for a block. -/
@[ext] structure Record (G : Nat) where
  done : Fin G → Nat → Prop
  voted : Fin G → Nat → Fin G → Prop

namespace Record

/-- The block is voted on. -/
def finish (r : Record G) (g : Fin G) (b : Nat) : Record G :=
  { r with done := fun h c => (h = g ∧ c = b) ∨ r.done h c }

/-- A vote on the block is counted. -/
def vote (r : Record G) (g : Fin G) (b : Nat) (u : Fin G) : Record G :=
  { r with voted := fun h c v => (h = g ∧ c = b ∧ v = u) ∨ r.voted h c v }

end Record

/-- Slot `i` of group `g`, against a record. -/
structure SlotRecorded (r : Record G) (g : Fin G) (i : Nat) (x : Slot G) : Prop where
  touched : ∀ b, slotIndex b = i → (r.done g b ∨ ∃ u, r.voted g b u) → b ≤ x.blockId
  finished : slotIndex x.blockId = i → (x.finished = true ↔ r.done g x.blockId)
  votes : slotIndex x.blockId = i → x.finished = false → ∀ u, u ∈ x.votes ↔ r.voted g x.blockId u

/-- All slots. -/
def Recorded (r : Record G) (a : OrderAssigner G) : Prop :=
  ∀ g i, SlotRecorded r g i (a.blockVotes g i)

namespace OrderAssigner

variable {a : OrderAssigner G} {g : Fin G} {b : Nat}

theorem blockVotes_setSlot (x : Slot G) (h : Fin G) (i : Nat) :
    (a.setSlot g b x).blockVotes h i = if h = g ∧ i = slotIndex b then x else a.blockVotes h i := by
  unfold setSlot
  by_cases hg : h = g
  · subst hg
    by_cases hi : i = slotIndex b
    · simp [hi]
    · simp [hi]
  · simp [hg]

theorem slot_setSlot (x : Slot G) : (a.setSlot g b x).slot g b = x := by
  unfold slot
  rw [blockVotes_setSlot, if_pos ⟨rfl, rfl⟩]

theorem setSlot_slot : a.setSlot g b (a.slot g b) = a := by
  unfold setSlot slot
  rw [Function.update_eq_self, Function.update_eq_self]

@[simp] theorem chainId_setSlot (x : Slot G) : (a.setSlot g b x).chainId = a.chainId := rfl

@[simp] theorem myClock_setSlot (x : Slot G) : (a.setSlot g b x).myClock = a.myClock := rfl

@[simp] theorem chainId_getRef : (a.getRef g b).chainId = a.chainId := by
  unfold getRef; split <;> rfl

@[simp] theorem myClock_getRef : (a.getRef g b).myClock = a.myClock := by
  unfold getRef; split <;> rfl

@[simp] theorem chainId_getBlockOrder : (a.getBlockOrder g b).1.chainId = a.chainId := by
  unfold getBlockOrder; dsimp only; split <;> simp

@[simp] theorem myClock_getBlockOrder : (a.getBlockOrder g b).1.myClock = a.myClock := by
  unfold getBlockOrder; dsimp only; split <;> simp

@[simp] theorem chainId_addVoteForBlock {u : Fin G} :
    (a.addVoteForBlock g b u).1.chainId = a.chainId := by
  unfold addVoteForBlock; dsimp only; split_ifs <;> simp

@[simp] theorem myClock_addVoteForBlock {u : Fin G} :
    (a.addVoteForBlock g b u).1.myClock = a.myClock := by
  unfold addVoteForBlock; dsimp only; split_ifs <;> simp

@[simp] theorem chainId_getVoteForBlock : (a.getVoteForBlock g b).1.chainId = a.chainId := by
  unfold getVoteForBlock; dsimp only; split_ifs <;> simp

@[simp] theorem myClock_getVoteForBlock : (a.getVoteForBlock g b).1.myClock = a.myClock := by
  unfold getVoteForBlock; dsimp only; split_ifs <;> simp

theorem slot_getRef (hc : a.Current g b) : ((a.getRef g b).slot g b).blockId = b := by
  unfold getRef
  split
  · rw [slot_setSlot]
  · rename_i hlt
    exact le_antisymm hc (not_lt.mp hlt)

end OrderAssigner

section

variable {r r' : Record G} {a a' : OrderAssigner G} {g : Fin G} {b : Nat}

/-- A record that says the same. -/
theorem Recorded.congr (h : Recorded r a) (hdone : ∀ g b, r'.done g b ↔ r.done g b)
    (hvoted : ∀ g b u, r'.voted g b u ↔ r.voted g b u) : Recorded r' a := by
  intro g i
  obtain ⟨htouched, hfinished, hvotes⟩ := h g i
  refine ⟨fun b hb ht => htouched b hb ?_, fun hi => ?_, fun hi hf u => ?_⟩
  · simpa only [hdone, hvoted] using ht
  · rw [hdone]
    exact hfinished hi
  · rw [hvoted]
    exact hvotes hi hf u

/-- A change in the slot of block `b`, with a record that changes only for blocks of that slot. -/
theorem Recorded.update (h : Recorded r a)
    (hsame : ∀ c i, ¬(c = g ∧ i = slotIndex b) → a'.blockVotes c i = a.blockVotes c i)
    (hslot : SlotRecorded r' g (slotIndex b) (a'.slot g b))
    (hdone : ∀ c d, ¬(c = g ∧ slotIndex d = slotIndex b) → (r'.done c d ↔ r.done c d))
    (hvoted : ∀ c d, ¬(c = g ∧ slotIndex d = slotIndex b) →
      ∀ u, r'.voted c d u ↔ r.voted c d u) : Recorded r' a' := by
  intro c i
  by_cases hci : c = g ∧ i = slotIndex b
  · obtain ⟨rfl, rfl⟩ := hci
    exact hslot
  · rw [hsame c i hci]
    obtain ⟨htouched, hfinished, hvotes⟩ := h c i
    have hother : ∀ d, slotIndex d = i → ¬(c = g ∧ slotIndex d = slotIndex b) := by
      rintro d rfl
      exact hci
    refine ⟨fun d hd ht => htouched d hd ?_, fun hd => ?_, fun hd hf u => ?_⟩
    · rw [← hdone c d (hother d hd)]
      exact ht.imp_right fun ⟨u, hu⟩ => ⟨u, (hvoted c d (hother d hd) u).mp hu⟩
    · rw [hdone c _ (hother _ hd)]
      exact hfinished hd
    · rw [hvoted c _ (hother _ hd)]
      exact hvotes hd hf u

/-- Handing a slot on to a later block is right: the record has no entry for that block. -/
theorem Recorded.getRef (h : Recorded r a) (g : Fin G) (b : Nat) : Recorded r (a.getRef g b) := by
  unfold OrderAssigner.getRef
  split
  · rename_i hlt
    have hold := h g (slotIndex b)
    have hnew : ¬(r.done g b ∨ ∃ u, r.voted g b u) :=
      fun ht => absurd (hold.touched b rfl ht) (not_le.mpr hlt)
    push Not at hnew
    refine h.update (b := b) (g := g) (fun c i hc => ?_) ?_ (fun _ _ _ => Iff.rfl)
      (fun _ _ _ _ => Iff.rfl)
    · rw [OrderAssigner.blockVotes_setSlot, if_neg hc]
    · rw [OrderAssigner.slot_setSlot]
      refine ⟨fun d hd ht => le_trans (hold.touched d hd ht) hlt.le, fun _ => ?_, fun _ _ u => ?_⟩
      · simpa using hnew.1
      · simpa using hnew.2 u
  · exact h

/-- **One access to the slot of a current block**, which leaves there what the new record says of
the block; of other blocks the record says what it said. -/
theorem Recorded.access (h : Recorded r a) (hc : a.Current g b) {x : Slot G} (hid : x.blockId = b)
    (hdone : ∀ c d, ¬(c = g ∧ d = b) → (r'.done c d ↔ r.done c d))
    (hvoted : ∀ c d, ¬(c = g ∧ d = b) → ∀ u, r'.voted c d u ↔ r.voted c d u)
    (hfin : x.finished = true ↔ r'.done g b)
    (hvotes : x.finished = false → ∀ u, u ∈ x.votes ↔ r'.voted g b u) :
    Recorded r' ((a.getRef g b).setSlot g b x) := by
  have hother : ∀ c d, ¬(c = g ∧ slotIndex d = slotIndex b) → ¬(c = g ∧ d = b) := by
    rintro c d hcd ⟨rfl, rfl⟩
    exact hcd ⟨rfl, rfl⟩
  refine (h.getRef g b).update (b := b) (g := g) (fun c i hci => ?_) ?_
    (fun c d hcd => hdone c d (hother c d hcd)) (fun c d hcd => hvoted c d (hother c d hcd))
  · rw [OrderAssigner.blockVotes_setSlot, if_neg hci]
  · rw [OrderAssigner.slot_setSlot]
    refine ⟨fun d hd ht => ?_, fun _ => by rwa [hid], fun _ => by rwa [hid]⟩
    rw [hid]
    by_cases hdb : d = b
    · exact hdb.le
    · -- the slot has passed every other block that has an entry
      have htouched := (h.getRef g b g (slotIndex b)).touched d hd
      change _ → d ≤ ((a.getRef g b).slot g b).blockId at htouched
      rw [OrderAssigner.slot_getRef hc] at htouched
      refine htouched ?_
      rw [← hdone g d fun he => hdb he.2]
      exact ht.imp_right fun ⟨u, hu⟩ => ⟨u, (hvoted g d (fun he => hdb he.2) u).mp hu⟩

/-! ## What the slot of a current block says -/

theorem Recorded.finished_getRef (h : Recorded r a) (hc : a.Current g b) :
    ((a.getRef g b).slot g b).finished = true ↔ r.done g b := by
  have hfin := (h.getRef g b g (slotIndex b)).finished
  change slotIndex ((a.getRef g b).slot g b).blockId = _ →
    (((a.getRef g b).slot g b).finished = true ↔ r.done g ((a.getRef g b).slot g b).blockId) at hfin
  rw [OrderAssigner.slot_getRef hc] at hfin
  exact hfin rfl

theorem Recorded.votes_getRef (h : Recorded r a) (hc : a.Current g b) (hopen : ¬ r.done g b)
    (u : Fin G) : u ∈ ((a.getRef g b).slot g b).votes ↔ r.voted g b u := by
  have hvotes := (h.getRef g b g (slotIndex b)).votes
  change slotIndex ((a.getRef g b).slot g b).blockId = _ →
    ((a.getRef g b).slot g b).finished = false → ∀ u, u ∈ ((a.getRef g b).slot g b).votes ↔
      r.voted g ((a.getRef g b).slot g b).blockId u at hvotes
  rw [OrderAssigner.slot_getRef hc] at hvotes
  refine hvotes rfl ?_ u
  rwa [← h.finished_getRef hc, Bool.not_eq_true] at hopen

/-! ## The calls -/

/-- A block that has been voted on is recognised, and another one gets the clock, or its own
number on the local chain. -/
theorem Recorded.getBlockOrder (h : Recorded r a) (hc : a.Current g b) :
    Recorded (r.finish g b) (a.getBlockOrder g b).1 ∧
      (r.done g b → (a.getBlockOrder g b).2 = none) ∧
      (¬ r.done g b → (a.getBlockOrder g b).2 =
        some (a.chainId, if a.chainId = g then (b : Int) else a.myClock)) := by
  have hfin := h.finished_getRef hc
  unfold OrderAssigner.getBlockOrder
  dsimp only
  by_cases hdone : r.done g b
  · rw [if_pos (hfin.mpr hdone)]
    refine ⟨(h.getRef g b).congr (fun c d => ?_) (fun _ _ _ => Iff.rfl), fun _ => rfl,
      fun hopen => absurd hdone hopen⟩
    constructor
    · rintro (⟨rfl, rfl⟩ | hcd)
      · exact hdone
      · exact hcd
    · exact Or.inr
  · rw [if_neg fun hf => hdone (hfin.mp hf)]
    refine ⟨h.access hc (OrderAssigner.slot_getRef hc) (fun c d hcd => ?_) (fun _ _ _ _ => Iff.rfl)
      ?_ (fun hf => by cases hf), fun hd => absurd hd hdone, fun _ => ?_⟩
    · simp [Record.finish, hcd]
    · simp [Record.finish]
    · dsimp only
      split <;> rfl

/-- A vote is counted, unless the block has been voted on. -/
theorem Recorded.addVoteForBlock (h : Recorded r a) (hc : a.Current g b) (hg : a.chainId ≠ g)
    (u : Fin G) :
    Recorded (r.vote g b u) (a.addVoteForBlock g b u).1 ∧
      (r.done g b → (a.addVoteForBlock g b u).2 = -1) ∧
      (¬ r.done g b → ∃ votes : Finset (Fin G), (a.addVoteForBlock g b u).2 = votes.card ∧
        ∀ v, v ∈ votes ↔ (r.vote g b u).voted g b v) := by
  have hfin := h.finished_getRef hc
  have hsame : ∀ c d, ¬(c = g ∧ d = b) → ∀ v, (r.vote g b u).voted c d v ↔ r.voted c d v := by
    intro c d hcd v
    have hne : ¬(c = g ∧ d = b ∧ v = u) := fun he => hcd ⟨he.1, he.2.1⟩
    simp [Record.vote, hne]
  unfold OrderAssigner.addVoteForBlock
  dsimp only
  rw [if_neg hg]
  by_cases hdone : r.done g b
  · rw [if_pos (hfin.mpr hdone)]
    have hkept : Recorded (r.vote g b u)
        ((a.getRef g b).setSlot g b ((a.getRef g b).slot g b)) :=
      h.access hc (OrderAssigner.slot_getRef hc) (fun _ _ _ => Iff.rfl) hsame hfin
        fun hf => by rw [hfin.mpr hdone] at hf; cases hf
    rw [OrderAssigner.setSlot_slot] at hkept
    exact ⟨hkept, fun _ => rfl, fun hopen => absurd hdone hopen⟩
  · rw [if_neg fun hf => hdone (hfin.mp hf)]
    have hvotes : ∀ v, v ∈ insert u ((a.getRef g b).slot g b).votes ↔
        (r.vote g b u).voted g b v := by
      intro v
      rw [Finset.mem_insert, h.votes_getRef hc hdone]
      simp [Record.vote]
    exact ⟨h.access hc (OrderAssigner.slot_getRef hc) (fun _ _ _ => Iff.rfl) hsame hfin
      fun _ => hvotes, fun hd => absurd hd hdone, fun _ => ⟨_, rfl, hvotes⟩⟩

theorem Recorded.getVoteForBlock_fst (h : Recorded r a) (g : Fin G) (b : Nat) :
    Recorded r (a.getVoteForBlock g b).1 := by
  unfold OrderAssigner.getVoteForBlock
  split
  · exact h
  · dsimp only
    split <;> exact h.getRef g b

/-- The votes that have been counted, unless the block has been voted on. -/
theorem Recorded.getVoteForBlock (h : Recorded r a) (hc : a.Current g b) (hg : a.chainId ≠ g)
    (hopen : ¬ r.done g b) : ∃ votes : Finset (Fin G),
      (a.getVoteForBlock g b).2 = votes.card ∧ ∀ u, u ∈ votes ↔ r.voted g b u := by
  unfold OrderAssigner.getVoteForBlock
  dsimp only
  rw [if_neg hg, if_neg fun hf => hopen ((h.finished_getRef hc).mp hf)]
  exact ⟨_, rfl, h.votes_getRef hc hopen⟩

end

end MassBFT.Order
