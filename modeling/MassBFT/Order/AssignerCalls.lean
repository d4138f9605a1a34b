import MassBFT.Order.Slots

/-!
# Any sequence of calls on `OrderAssigner`

What the assigner is for is said by the calls alone: the first `getBlockOrder` for a block
assigns an order and every later one does not, and a block that has no order yet has as many
votes as there are voters in the calls of `addVoteForBlock` for it. `Right` states this of a
call, its answer and the calls before it.

The slots are recycled, and `getRef` tells apart only later blocks from earlier ones. **Calls for
a block whose slot has been handed on to a later block read and write the record of that later
block**: in a release build, where the check "Stale get" is not compiled in, they are answered
from it. As long as no call comes for an earlier block of a slot (`NeverStale`), all answers are
right (`calls_right`).
-/

set_option autoImplicit false

namespace MassBFT.Order.OrderAssigner

open List

variable {G : Nat}

/-- A call on the assigner. -/
inductive Call (G : Nat) where
  | getBlockOrder (chainId : Fin G) (blockId : Nat)
  | addVoteForBlock (chainId : Fin G) (blockId : Nat) (voteChainId : Fin G)
  | getVoteForBlock (chainId : Fin G) (blockId : Nat)
  | increaseLocalClock (chainId : Fin G) (blockId : Nat)
  deriving DecidableEq

/-- What a call returns. -/
inductive Answer (G : Nat) where
  | order (assigned : Option (Fin G × Int))
  | votes (count : Int)
  | clock (increased : Bool)
  deriving DecidableEq

namespace Call

/-- The block whose slot the call asks for; votes on the local chain are skipped. -/
def block (own : Fin G) : Call G → Option (Fin G × Nat)
  | .getBlockOrder g b => some (g, b)
  | .addVoteForBlock g b _ => if own = g then none else some (g, b)
  | .getVoteForBlock g b => if own = g then none else some (g, b)
  | .increaseLocalClock _ _ => none

/-- The later call is not for an earlier block of the same slot. -/
def NotBehind (own : Fin G) (earlier later : Call G) : Prop :=
  ∀ x ∈ earlier.block own, ∀ y ∈ later.block own,
    x.1 = y.1 → slotIndex x.2 = slotIndex y.2 → x.2 ≤ y.2

instance (own : Fin G) (earlier later : Call G) : Decidable (earlier.NotBehind own later) :=
  inferInstanceAs (Decidable (∀ x ∈ earlier.block own, ∀ y ∈ later.block own,
    x.1 = y.1 → slotIndex x.2 = slotIndex y.2 → x.2 ≤ y.2))

end Call

/-- No call is for a block whose slot an earlier call has handed on to a later block. -/
def NeverStale (own : Fin G) (calls : List (Call G)) : Prop := calls.Pairwise (Call.NotBehind own)

instance (own : Fin G) (calls : List (Call G)) : Decidable (NeverStale own calls) :=
  inferInstanceAs (Decidable (calls.Pairwise (Call.NotBehind own)))

/-- The voters that the calls have added for a block. -/
def voters (calls : List (Call G)) (g : Fin G) (b : Nat) : Finset (Fin G) :=
  Finset.univ.filter fun u => .addVoteForBlock g b u ∈ calls

/-- What a call has to answer after the calls `before`. -/
def Right (own : Fin G) (before : List (Call G)) : Call G → Answer G → Prop
  | .getBlockOrder g b, answer =>
    if .getBlockOrder g b ∈ before then answer = .order none
    else ∃ clock, answer = .order (some (own, clock))
  | .addVoteForBlock g b u, answer =>
    g ≠ own → .getBlockOrder g b ∉ before → answer = .votes (insert u (voters before g b)).card
  | .getVoteForBlock g b, answer =>
    g ≠ own → .getBlockOrder g b ∉ before → answer = .votes (voters before g b).card
  | .increaseLocalClock _ _, _ => True

/-- One call; `none` is a failed check. -/
def call (a : OrderAssigner G) : Call G → Option (OrderAssigner G × Answer G)
  | .getBlockOrder g b => some ((a.getBlockOrder g b).1, .order (a.getBlockOrder g b).2)
  | .addVoteForBlock g b u =>
    some ((a.addVoteForBlock g b u).1, .votes (a.addVoteForBlock g b u).2)
  | .getVoteForBlock g b => some ((a.getVoteForBlock g b).1, .votes (a.getVoteForBlock g b).2)
  | .increaseLocalClock g b => (a.increaseLocalClock g b).map fun x => (x.1, .clock x.2)

/-- The state after some calls; a failed check ends the process. -/
def run (a : OrderAssigner G) : List (Call G) → Option (OrderAssigner G)
  | [] => some a
  | c :: calls => (a.call c).bind fun x => x.1.run calls

/-! ## The record of a history -/

/-- What the calls so far say of the blocks. -/
def recordOf (own : Fin G) (calls : List (Call G)) : Record G where
  done g b := .getBlockOrder g b ∈ calls
  voted g b u := g ≠ own ∧ .addVoteForBlock g b u ∈ calls

/-- The assigner after the calls `before`: the slots agree with the calls, and a slot that was
handed on was handed to a block that some call asked for. -/
structure After (own : Fin G) (before : List (Call G)) (a : OrderAssigner G) : Prop where
  chainId : a.chainId = own
  recorded : Recorded (recordOf own before) a
  handed : ∀ g i, (a.blockVotes g i).blockId = 0 ∨
    ∃ c ∈ before, c.block own = some (g, (a.blockVotes g i).blockId) ∧
      slotIndex (a.blockVotes g i).blockId = i

section

variable {own : Fin G} {before : List (Call G)} {a a' : OrderAssigner G} {g : Fin G} {b : Nat}
  {c : Call G} {answer : Answer G}

theorem after_init (own : Fin G) : After own [] (init own) := by
  refine ⟨rfl, fun g i => ⟨?_, ?_, ?_⟩, fun g i => Or.inl rfl⟩
  · simp [recordOf]
  · simp [recordOf, init]
  · simp [recordOf, init]

theorem block_addVoteForBlock (hg : own ≠ g) (b : Nat) (u : Fin G) :
    (Call.addVoteForBlock g b u).block own = some (g, b) := if_neg hg

theorem block_getVoteForBlock (hg : own ≠ g) (b : Nat) :
    (Call.getVoteForBlock g b).block own = some (g, b) := if_neg hg

/-- A block that no call has left behind still has its slot. -/
theorem After.current (h : After own before a) (hc : c.block own = some (g, b))
    (hlast : ∀ d ∈ before, d.NotBehind own c) : a.Current g b := by
  rcases h.handed g (slotIndex b) with hzero | ⟨d, hd, hblock, hindex⟩
  · exact hzero.le.trans (Nat.zero_le b)
  · exact hlast d hd (g, (a.blockVotes g (slotIndex b)).blockId) hblock (g, b) hc rfl hindex

/-- Only handing it on changes the block of a slot. -/
theorem blockId_setSlot {x : Slot G} (hx : x.blockId = (a.slot g b).blockId) (h : Fin G) (i : Nat) :
    ((a.setSlot g b x).blockVotes h i).blockId = (a.blockVotes h i).blockId := by
  rw [blockVotes_setSlot]
  split
  · rename_i hi
    rw [hx, hi.1, hi.2]
    rfl
  · rfl

theorem blockId_getRef (h : Fin G) (i : Nat) :
    ((a.getRef g b).blockVotes h i).blockId = (a.blockVotes h i).blockId ∨
      (h = g ∧ i = slotIndex b ∧ ((a.getRef g b).blockVotes h i).blockId = b) := by
  unfold getRef
  split
  · rw [blockVotes_setSlot]
    by_cases hi : h = g ∧ i = slotIndex b
    · rw [if_pos hi]
      exact Or.inr ⟨hi.1, hi.2, rfl⟩
    · rw [if_neg hi]
      exact Or.inl rfl
  · exact Or.inl rfl

theorem blockId_getBlockOrder (h : Fin G) (i : Nat) :
    ((a.getBlockOrder g b).1.blockVotes h i).blockId = ((a.getRef g b).blockVotes h i).blockId := by
  unfold getBlockOrder
  dsimp only
  split
  · rfl
  · exact blockId_setSlot (by rfl) h i

theorem blockId_addVoteForBlock (hg : a.chainId ≠ g) (u h : Fin G) (i : Nat) :
    ((a.addVoteForBlock g b u).1.blockVotes h i).blockId =
      ((a.getRef g b).blockVotes h i).blockId := by
  rw [addVoteForBlock, if_neg hg]
  dsimp only
  split
  · rfl
  · exact blockId_setSlot (by rfl) h i

theorem blockId_getVoteForBlock (hg : a.chainId ≠ g) (h : Fin G) (i : Nat) :
    ((a.getVoteForBlock g b).1.blockVotes h i).blockId =
      ((a.getRef g b).blockVotes h i).blockId := by
  rw [getVoteForBlock, if_neg hg]
  dsimp only
  split <;> rfl

/-- A call that goes through `getRef` hands at most the slot of its block on. -/
theorem handed_getRef (hblock : c.block a.chainId = some (g, b)) {h : Fin G} {i : Nat}
    (heq : (a'.blockVotes h i).blockId = ((a.getRef g b).blockVotes h i).blockId) :
    (a'.blockVotes h i).blockId = (a.blockVotes h i).blockId ∨
      (c.block a.chainId = some (h, (a'.blockVotes h i).blockId) ∧
        slotIndex (a'.blockVotes h i).blockId = i) := by
  rw [heq]
  rcases @blockId_getRef _ a g b h i with hsame | ⟨rfl, rfl, hb⟩
  · exact Or.inl hsame
  · rw [hb]
    exact Or.inr ⟨hblock, rfl⟩

theorem blockId_call (hcall : a.call c = some (a', answer)) (h : Fin G) (i : Nat) :
    (a'.blockVotes h i).blockId = (a.blockVotes h i).blockId ∨
      (c.block a.chainId = some (h, (a'.blockVotes h i).blockId) ∧
        slotIndex (a'.blockVotes h i).blockId = i) := by
  cases c with
  | getBlockOrder g b =>
    cases hcall
    exact handed_getRef rfl (blockId_getBlockOrder h i)
  | addVoteForBlock g b u =>
    cases hcall
    by_cases hg : a.chainId = g
    · rw [addVoteForBlock, if_pos hg]
      exact Or.inl rfl
    · exact handed_getRef (block_addVoteForBlock hg b u) (blockId_addVoteForBlock hg u h i)
  | getVoteForBlock g b =>
    cases hcall
    by_cases hg : a.chainId = g
    · rw [getVoteForBlock, if_pos hg]
      exact Or.inl rfl
    · exact handed_getRef (block_getVoteForBlock hg b) (blockId_getVoteForBlock hg h i)
  | increaseLocalClock g b =>
    obtain ⟨x, hx, hpair⟩ := Option.map_eq_some_iff.mp hcall
    cases hpair
    rw [(increaseLocalClock_eq_some hx).1]
    exact Or.inl rfl

theorem After.handed_call (h : After own before a)
    (hcall : a.call c = some (a', answer)) (g : Fin G) (i : Nat) :
    (a'.blockVotes g i).blockId = 0 ∨
      ∃ d ∈ before ++ [c], d.block own = some (g, (a'.blockVotes g i).blockId) ∧
        slotIndex (a'.blockVotes g i).blockId = i := by
  rcases blockId_call hcall g i with hsame | ⟨hblock, hindex⟩
  · rw [hsame]
    refine (h.handed g i).imp_right ?_
    rintro ⟨d, hd, hblock⟩
    exact ⟨d, mem_append_left _ hd, hblock⟩
  · rw [h.chainId] at hblock
    exact Or.inr ⟨c, mem_append_right _ (mem_singleton_self c), hblock, hindex⟩

/-! ### What one call adds to the record -/

theorem recordOf_getBlockOrder (own : Fin G) (before : List (Call G)) (g : Fin G) (b : Nat) :
    recordOf own (before ++ [.getBlockOrder g b]) = (recordOf own before).finish g b := by
  ext e d <;> simp [recordOf, Record.finish, or_comm]

theorem recordOf_addVoteForBlock (hg : own ≠ g) (before : List (Call G)) (b : Nat) (u : Fin G) :
    recordOf own (before ++ [.addVoteForBlock g b u]) = (recordOf own before).vote g b u := by
  ext e d v
  · simp [recordOf, Record.vote]
  · by_cases he : e = g
    · subst he
      simp [recordOf, Record.vote, hg.symm, or_comm]
    · simp [recordOf, Record.vote, he]

/-- A vote on the local chain is skipped. -/
theorem recordOf_local (own : Fin G) (before : List (Call G)) (b : Nat) (u : Fin G) :
    recordOf own (before ++ [.addVoteForBlock own b u]) = recordOf own before := by
  ext e d v
  · simp [recordOf]
  · by_cases he : e = own
    · simp [recordOf, he]
    · simp [recordOf, he]

theorem recordOf_getVoteForBlock (own : Fin G) (before : List (Call G)) (g : Fin G) (b : Nat) :
    recordOf own (before ++ [.getVoteForBlock g b]) = recordOf own before := by
  ext e d <;> simp [recordOf]

theorem recordOf_increaseLocalClock (own : Fin G) (before : List (Call G)) (g : Fin G) (b : Nat) :
    recordOf own (before ++ [.increaseLocalClock g b]) = recordOf own before := by
  ext e d <;> simp [recordOf]

/-- The slots agree with the record after the call. -/
theorem After.recorded_call (h : After own before a)
    (hlast : ∀ d ∈ before, d.NotBehind own c) (hcall : a.call c = some (a', answer)) :
    Recorded (recordOf own (before ++ [c])) a' := by
  cases c with
  | getBlockOrder g b =>
    cases hcall
    rw [recordOf_getBlockOrder]
    exact (h.recorded.getBlockOrder (h.current rfl hlast)).1
  | addVoteForBlock g b u =>
    cases hcall
    by_cases hg : own = g
    · subst hg
      rw [recordOf_local, OrderAssigner.addVoteForBlock, if_pos h.chainId]
      exact h.recorded
    · rw [recordOf_addVoteForBlock hg]
      have hcurrent := h.current (block_addVoteForBlock hg b u) hlast
      exact (h.recorded.addVoteForBlock hcurrent (h.chainId ▸ hg) u).1
  | getVoteForBlock g b =>
    cases hcall
    rw [recordOf_getVoteForBlock]
    exact h.recorded.getVoteForBlock_fst g b
  | increaseLocalClock g b =>
    obtain ⟨x, hx, hpair⟩ := Option.map_eq_some_iff.mp hcall
    cases hpair
    rw [recordOf_increaseLocalClock]
    intro e i
    rw [(increaseLocalClock_eq_some hx).1]
    exact h.recorded e i

theorem chainId_call (hcall : a.call c = some (a', answer)) : a'.chainId = a.chainId := by
  cases c with
  | getBlockOrder g b =>
    cases hcall
    exact chainId_getBlockOrder
  | addVoteForBlock g b u =>
    cases hcall
    exact chainId_addVoteForBlock
  | getVoteForBlock g b =>
    cases hcall
    exact chainId_getVoteForBlock
  | increaseLocalClock g b =>
    obtain ⟨x, hx, hpair⟩ := Option.map_eq_some_iff.mp hcall
    cases hpair
    exact (increaseLocalClock_eq_some hx).2.1

/-- The voters in the record of a block of another group. -/
theorem eq_voters (hg : g ≠ own) {votes : Finset (Fin G)}
    (hvotes : ∀ u, u ∈ votes ↔ (recordOf own before).voted g b u) : votes = voters before g b := by
  ext u
  rw [hvotes]
  simp [recordOf, voters, hg]

/-- **One call that is not behind the calls before it is answered right.** -/
theorem After.right (h : After own before a)
    (hlast : ∀ d ∈ before, d.NotBehind own c) (hcall : a.call c = some (a', answer)) :
    Right own before c answer := by
  cases c with
  | getBlockOrder g b =>
    cases hcall
    obtain ⟨-, hdone, hopen⟩ := h.recorded.getBlockOrder (h.current rfl hlast)
    rw [Right]
    split
    · rename_i hmem
      rw [hdone hmem]
    · rename_i hmem
      rw [hopen hmem, h.chainId]
      exact ⟨_, rfl⟩
  | addVoteForBlock g b u =>
    cases hcall
    intro hne hmem
    have hcurrent := h.current (block_addVoteForBlock hne.symm b u) hlast
    obtain ⟨-, -, hopen⟩ := h.recorded.addVoteForBlock hcurrent (h.chainId ▸ hne.symm) u
    obtain ⟨votes, hcount, hvotes⟩ := hopen hmem
    rw [← recordOf_addVoteForBlock hne.symm] at hvotes
    rw [hcount, eq_voters hne hvotes]
    congr 3
    ext v
    simp [voters, or_comm]
  | getVoteForBlock g b =>
    cases hcall
    intro hne hmem
    have hcurrent := h.current (block_getVoteForBlock hne.symm b) hlast
    obtain ⟨votes, hcount, hvotes⟩ := h.recorded.getVoteForBlock hcurrent (h.chainId ▸ hne.symm)
      hmem
    rw [hcount, eq_voters hne hvotes]
  | increaseLocalClock g b => trivial

theorem After.call (h : After own before a)
    (hlast : ∀ d ∈ before, d.NotBehind own c) (hcall : a.call c = some (a', answer)) :
    After own (before ++ [c]) a' :=
  ⟨(chainId_call hcall).trans h.chainId, h.recorded_call hlast hcall, h.handed_call hcall⟩

/-- A run of calls, from any state that the calls before it have led to. -/
theorem After.run {calls : List (Call G)} (h : After own before a)
    (hstale : NeverStale own (before ++ calls)) (hrun : a.run calls = some a') :
    After own (before ++ calls) a' := by
  induction calls generalizing before a with
  | nil =>
    cases hrun
    rwa [append_nil]
  | cons d calls ih =>
    obtain ⟨⟨a₁, answer⟩, hcall, hrest⟩ := Option.bind_eq_some_iff.mp hrun
    have hlast : ∀ e ∈ before, e.NotBehind own d := fun e he =>
      (pairwise_append.mp hstale).2.2 e he d mem_cons_self
    have hafter := ih (h.call hlast hcall) (by simpa using hstale) hrest
    simpa using hafter

/-- Only the clock has a check. -/
theorem call_eq_none (h : a.call c = none) : ∃ b, c = .increaseLocalClock a.chainId b := by
  cases c with
  | getBlockOrder g b => cases h
  | addVoteForBlock g b u => cases h
  | getVoteForBlock g b => cases h
  | increaseLocalClock g b =>
    rw [OrderAssigner.call, Option.map_eq_none_iff, increaseLocalClock] at h
    split at h
    · rename_i hg
      exact ⟨b, by rw [hg]⟩
    · cases h

end

/-- **Every call is answered right as long as no call comes for a block whose slot has been handed
on**: the first `getBlockOrder` for a block assigns an order and every later one does not, and the
votes on a block of another group that has no order yet are counted. Only `increaseLocalClock`
may end the process, if the blocks of the local chain are out of order. -/
theorem calls_right (own : Fin G) (calls : List (Call G)) (hstale : NeverStale own calls)
    (before after : List (Call G)) (c : Call G) (hsplit : calls = before ++ c :: after)
    (a : OrderAssigner G) (hrun : (init own).run before = some a) :
    (∃ b, c = .increaseLocalClock own b) ∨
      ∃ a' answer, a.call c = some (a', answer) ∧ Right own before c answer := by
  subst hsplit
  obtain ⟨hbefore, -, hlast⟩ := pairwise_append.mp hstale
  have hafter : After own before a := (after_init own).run hbefore hrun
  cases hcall : a.call c with
  | none =>
    obtain ⟨b, hc⟩ := call_eq_none hcall
    rw [hafter.chainId] at hc
    exact Or.inl ⟨b, hc⟩
  | some x =>
    have hright := hafter.right (fun d hd => hlast d hd c mem_cons_self) hcall
    exact Or.inr ⟨x.1, x.2, rfl, hright⟩

/-- Two votes are counted, the block is voted on once, and its slot is handed on. -/
theorem calls_right_handed_on :
    let before : List (Call 3) := [.addVoteForBlock 1 0 1, .addVoteForBlock 1 0 2,
      .getBlockOrder 1 0, .addVoteForBlock 1 256 2]
    ∃ a a' answer, (init 0).run before = some a ∧
      a.call (.getVoteForBlock 1 256) = some (a', answer) ∧
      Right 0 before (.getVoteForBlock 1 256) answer := by
  intro before
  obtain ⟨a, ha⟩ : ∃ a, (init 0).run before = some a := ⟨_, rfl⟩
  rcases calls_right 0 (before ++ [.getVoteForBlock 1 256]) (by decide) before [] _ rfl a ha with
    ⟨b, hb⟩ | ⟨a', answer, hcall, hright⟩
  · cases hb
  · exact ⟨a, a', answer, ha, hcall, hright⟩

/-- The slot of block 0 has been handed on to block 256. Block 0 is then voted on for the first
time and gets no order; and the first vote on block 0 is counted as the second on block 256. -/
theorem not_every_call_right :
    (∃ a a' : OrderAssigner 3, (init 0).run [.getBlockOrder 1 256] = some a ∧
      a.call (.getBlockOrder 1 0) = some (a', .order none) ∧
      ¬ Right (0 : Fin 3) [.getBlockOrder 1 256] (.getBlockOrder 1 0) (.order none)) ∧
    ∃ a a' : OrderAssigner 3, (init 0).run [.addVoteForBlock 1 256 1] = some a ∧
      a.call (.addVoteForBlock 1 0 2) = some (a', .votes 2) ∧
      ¬ Right (0 : Fin 3) [.addVoteForBlock 1 256 1] (.addVoteForBlock 1 0 2) (.votes 2) := by
  refine ⟨⟨_, _, rfl, rfl, ?_⟩, ⟨_, _, rfl, rfl, ?_⟩⟩
  · rintro ⟨clock, h⟩
    cases h
  · intro h
    exact absurd (h (by decide) (by decide)) (by decide)

end MassBFT.Order.OrderAssigner
