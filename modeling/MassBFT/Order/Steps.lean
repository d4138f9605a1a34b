import MassBFT.Order.Manager

/-!
# What one step of the order manager can do

Every invariant of the manager is an argument about three steps: a head is exchanged for
its successor (`Popped`), a vote is recorded (`Voted`), a group is frozen (`Frozen`).
This file says once what each of them does to the cells, so that no later proof unfolds
the manager again.

Cells are read through `cellAt`, which answers a fresh cell beyond the end of a chain. The
reading pays off at `createBlockIfNotExist`: as long as no block id is skipped, creating
blocks changes the length of a chain and nothing that `cellAt` can see
(`cellAt_create_of_le`).
-/

set_option autoImplicit false

namespace MassBFT.Order.Manager

open Function List

variable {G : Nat} {s s' : Manager G} {g h : Fin G} {b m n : Nat} {c : Cell G} {v : Fin G} {w : Int}
  {cs : List (Call G)} {f : Cell G → Cell G}

/-! ## Reading cells -/

theorem cellAt_of_size_le (hn : s.size g ≤ n) : s.cellAt g n = Cell.new g n :=
  getD_eq_default _ _ hn

theorem cellAt_of_buffer (hn : s.buffer g = n) : s.cellAt g n = s.head g := by
  rw [head, hn]

theorem cellAt_setCell_self (hn : n < s.size g) : (s.setCell g n c).cellAt g n = c := by
  have hlen : n < (s.chains g).chain.length := hn
  simp [cellAt, setCell, getD_eq_getElem?_getD, hlen]

theorem cellAt_setCell_of_ne (hne : ¬(h = g ∧ m = n)) :
    (s.setCell g n c).cellAt h m = s.cellAt h m := by
  by_cases hg : h = g
  · subst hg
    have hm : n ≠ m := fun he => hne ⟨rfl, he.symm⟩
    simp [cellAt, setCell, getD_eq_getElem?_getD, hm]
  · simp [cellAt, setCell, update_of_ne hg]

@[simp] theorem size_setCell : (s.setCell g n c).size h = s.size h := by
  by_cases hg : h = g
  · subst hg; simp [size, setCell]
  · simp [size, setCell, update_of_ne hg]

theorem size_create_self : (s.createBlockIfNotExist g b).size g = max (s.size g) (b + 1) := by
  simp only [size, createBlockIfNotExist, update_self, length_append, length_replicate]
  omega

theorem size_create_of_ne (hg : h ≠ g) : (s.createBlockIfNotExist g b).size h = s.size h := by
  simp [size, createBlockIfNotExist, update_of_ne hg]

theorem le_size_create : s.size h ≤ (s.createBlockIfNotExist g b).size h := by
  by_cases hg : h = g
  · subst hg; rw [size_create_self]; omega
  · rw [size_create_of_ne hg]

theorem cellAt_create_of_ne (hg : h ≠ g) :
    (s.createBlockIfNotExist g b).cellAt h m = s.cellAt h m := by
  simp [cellAt, createBlockIfNotExist, update_of_ne hg]

/-- A cell that exists is not touched by the creation of others. -/
theorem cellAt_create_of_lt (hm : m < s.size h) :
    (s.createBlockIfNotExist g b).cellAt h m = s.cellAt h m := by
  by_cases hg : h = g
  · subst hg
    simp only [cellAt, createBlockIfNotExist, update_self]
    exact getD_append _ _ _ _ hm
  · exact cellAt_create_of_ne hg

/-- A cell that did not exist is a constructed one, with the requested id in the range of the
request and as if it did not exist behind it. -/
theorem cellAt_create_of_le_size (hm : s.size g ≤ m) :
    (s.createBlockIfNotExist g b).cellAt g m = Cell.new g (if m ≤ b then b else m) := by
  have hlen : (s.chains g).chain.length ≤ m := hm
  simp only [cellAt, createBlockIfNotExist, update_self]
  rw [getD_append_right _ _ _ _ hlen]
  by_cases hmb : m ≤ b
  · rw [if_pos hmb]
    exact getD_replicate _ (by omega)
  · rw [if_neg hmb]
    exact getD_eq_default _ _ (by rw [length_replicate]; omega)

/-- **Creating blocks without skipping an id changes no cell.** -/
theorem cellAt_create_of_le (hb : b ≤ s.size g) :
    (s.createBlockIfNotExist g b).cellAt h m = s.cellAt h m := by
  by_cases hm : m < s.size h
  · exact cellAt_create_of_lt hm
  · by_cases hg : h = g
    · subst hg
      rw [cellAt_create_of_le_size (by omega), cellAt_of_size_le (by omega)]
      by_cases hmb : m ≤ b
      · rw [if_pos hmb, show b = m by omega]
      · rw [if_neg hmb]
    · exact cellAt_create_of_ne hg

@[simp] theorem cellAt_raiseHeight {x : Int} : (s.raiseHeight g x).cellAt h m = s.cellAt h m := by
  by_cases hg : h = g
  · subst hg; simp [cellAt, raiseHeight]
  · simp [cellAt, raiseHeight, update_of_ne hg]

@[simp] theorem size_raiseHeight {x : Int} : (s.raiseHeight g x).size h = s.size h := by
  by_cases hg : h = g
  · subst hg; simp [size, raiseHeight]
  · simp [size, raiseHeight, update_of_ne hg]

theorem cellAt_modifyHeads (hs : s.buffer h < s.size h) :
    (s.modifyHeads f).cellAt h m = if m = s.buffer h then f (s.cellAt h m) else s.cellAt h m := by
  have hlen : s.buffer h < (s.chains h).chain.length := hs
  by_cases hm : m = s.buffer h
  · subst hm
    simp [cellAt, modifyHeads, getD_eq_getElem?_getD, hlen]
  · simp [cellAt, modifyHeads, getD_eq_getElem?_getD, hm, Ne.symm hm]

theorem head_modifyHeads (hs : s.buffer h < s.size h) :
    (s.modifyHeads f).head h = f (s.head h) :=
  (cellAt_modifyHeads hs).trans (if_pos rfl)

@[simp] theorem size_modifyHeads : (s.modifyHeads f).size h = s.size h := by
  simp [size, modifyHeads]

/-! ## Finding the minimum -/

theorem canPop_eq_true {left : Fin G} : ∀ {l : List (Fin G)}, s.canPop left l = .ok true →
    ∀ right ∈ l, Cell.mustLessThan (left = right) (s.head left) (s.head right) = .ok true
  | [], _, right, hr => absurd hr (by simp)
  | x :: rest, hp, right, hr => by
    unfold canPop at hp
    split at hp
    · cases hp
    · cases hp
    · rename_i hx
      rcases mem_cons.mp hr with rfl | hm
      · exact hx
      · exact canPop_eq_true hp right hm

theorem firstMinimum_eq_some {x : Fin G} : ∀ {l : List (Fin G)},
    s.firstMinimum l = .ok (some x) → s.canPop x (List.finRange G) = .ok true
  | [], hf => by cases hf
  | left :: rest, hf => by
    unfold firstMinimum at hf
    split at hf
    · cases hf
    · rename_i hc
      cases hf
      exact hc
    · exact firstMinimum_eq_some hf

/-- The answer of `globalMinimum` is below every head. -/
theorem globalMinimum_eq_some (hmin : s.globalMinimum = .ok (some g)) (h : Fin G) :
    Cell.mustLessThan (g = h) (s.head g) (s.head h) = .ok true := by
  unfold globalMinimum at hmin
  split at hmin
  · cases hmin
  · exact canPop_eq_true (firstMinimum_eq_some hmin) h (mem_finRange h)

/-- Two heads of different groups are compared coordinate by coordinate, so no check is in
the way. -/
theorem canPop_ok (hown : ∀ h, (s.head h).groupId = h) (left : Fin G) :
    ∀ l : List (Fin G), ∃ r, s.canPop left l = .ok r
  | [] => ⟨true, rfl⟩
  | right :: rest => by
    unfold canPop
    cases hc : Cell.mustLessThan (left = right) (s.head left) (s.head right) with
    | error e =>
      exfalso
      unfold Cell.mustLessThan at hc
      split at hc
      · rename_i heq
        rw [hown, hown] at heq
        simp [heq.1] at hc
      · cases hc
    | ok r =>
      cases r with
      | false => exact ⟨false, rfl⟩
      | true => exact canPop_ok hown left rest

theorem firstMinimum_ok (hown : ∀ h, (s.head h).groupId = h) :
    ∀ l : List (Fin G), ∃ r, s.firstMinimum l = .ok r
  | [] => ⟨none, rfl⟩
  | left :: rest => by
    obtain ⟨r, hr⟩ := canPop_ok hown left (List.finRange G)
    unfold firstMinimum
    rw [hr]
    cases r with
    | true => exact ⟨some left, rfl⟩
    | false => exact firstMinimum_ok hown rest

theorem globalMinimum_ok (hG : G ≠ 0) (hown : ∀ h, (s.head h).groupId = h) :
    ∃ r, s.globalMinimum = .ok r := by
  unfold globalMinimum
  rw [if_neg hG]
  exact firstMinimum_ok hown _

/-! ## Delivering a head -/

/-- The head of `g` was the minimum, was delivered, and made room for its successor. -/
structure Popped (s s' : Manager G) (g : Fin G) : Prop where
  least : ∀ h, Cell.mustLessThan (g = h) (s.head g) (s.head h) = .ok true
  own : (s.head g).groupId = g
  delivered : s'.delivered = s.delivered ++ [s.head g]
  buffer : s'.buffer = update s.buffer g ((s.head g).blockId + 1)
  invalid : s'.invalidateMap = s.invalidateMap
  size : ∀ h, s'.size h = (s.createBlockIfNotExist g ((s.head g).blockId + 1)).size h
  successor : ∃ next, next = (s.createBlockIfNotExist g ((s.head g).blockId + 1)).cellAt g
      ((s.head g).blockId + 1) ∧ next.blockId = (s.head g).blockId + 1 ∧ next.groupId = g ∧
    (∀ i, next.real i = true → (s.head g).watermarks i ≤ next.watermarks i) ∧
    s'.head g = s.succeed (s.head g) next
  others : ∀ h m, ¬(h = g ∧ m = (s.head g).blockId + 1) →
    s'.cellAt h m = (s.createBlockIfNotExist g ((s.head g).blockId + 1)).cellAt h m

/-- The checks of `exchange`, and the state it leaves when they pass. -/
theorem exchange_eq_ok (hex : s.exchange g n = .ok s') :
    (s.head g).groupId = g ∧ (s.cellAt g n).blockId = (s.head g).blockId + 1 ∧
      (s.cellAt g n).groupId = g ∧
      (∀ i, (s.cellAt g n).real i = true → (s.head g).watermarks i ≤ (s.cellAt g n).watermarks i) ∧
      s' = { s.setCell g n (s.succeed (s.head g) (s.cellAt g n)) with
        buffer := update s.buffer g n } := by
  unfold exchange at hex
  dsimp only at hex
  split at hex
  · cases hex
  rename_i hown
  rw [not_not] at hown
  rw [hown] at hex
  split at hex
  · cases hex
  rename_i hsucc
  split at hex
  · cases hex
  rename_i hgrp
  split at hex
  · cases hex
  rename_i hwm
  cases hex
  refine ⟨hown, ?_, ?_, fun i hi => ?_, rfl⟩
  · rw [not_not] at hsucc
    exact hsucc.symm
  · rw [not_not] at hgrp
    exact hgrp.symm
  · by_contra hlt
    exact hwm ⟨i, hi, not_le.mp hlt⟩

/-- … and they pass when the successor is one, and not below the head. -/
theorem exchange_ok (hown : (s.head g).groupId = g)
    (hsucc : (s.cellAt g n).blockId = (s.head g).blockId + 1) (hgrp : (s.cellAt g n).groupId = g)
    (hwm : ∀ i, (s.cellAt g n).real i = true →
      (s.head g).watermarks i ≤ (s.cellAt g n).watermarks i) : ∃ s', s.exchange g n = .ok s' := by
  unfold exchange
  dsimp only
  rw [hown, hsucc, hgrp, if_neg (not_not.mpr rfl), if_neg (not_not.mpr rfl),
    if_neg (not_not.mpr rfl), if_neg]
  · exact ⟨_, rfl⟩
  · rintro ⟨i, hi, hlt⟩
    exact absurd (hwm i hi) (not_le.mpr hlt)

/-- The pointers in the buffer point into the chains. -/
def HeadsExist (s : Manager G) : Prop := ∀ g, s.buffer g < s.size g

theorem popRound_eq_some (hs : s.HeadsExist) (hp : s.popRound = .ok (some s')) :
    ∃ g, Popped s s' g := by
  unfold popRound at hp
  split at hp
  · cases hp
  · cases hp
  rename_i g hmin
  dsimp only at hp
  split at hp
  · cases hp
  rename_i s₃ hex
  cases hp
  have hhead : ∀ d k x, (({ s with delivered := d } : Manager G).createBlockIfNotExist k x).head g =
      s.head g := fun d k x => cellAt_create_of_lt (hs g)
  obtain ⟨hown, hsucc, hgrp, hwm, rfl⟩ := exchange_eq_ok hex
  rw [hhead] at hown hsucc
  simp only [hhead] at hwm ⊢
  rw [hown] at hsucc hgrp hwm ⊢
  have hlt : (s.head g).blockId + 1 <
      (s.createBlockIfNotExist g ((s.head g).blockId + 1)).size g := by
    rw [size_create_self]
    omega
  refine ⟨g, globalMinimum_eq_some hmin, hown, rfl, rfl, rfl, fun h => size_setCell, ?_, ?_⟩
  · refine ⟨_, rfl, hsucc, hgrp, hwm, ?_⟩
    show (setCell (createBlockIfNotExist _ g _) g _ _).cellAt g
      (update s.buffer g ((s.head g).blockId + 1) g) = _
    rw [update_self]
    exact cellAt_setCell_self hlt
  · intro h m hne
    exact cellAt_setCell_of_ne hne

theorem Popped.headsExist (hp : Popped s s' g) (hs : s.HeadsExist) : s'.HeadsExist := by
  intro h
  rw [hp.size, hp.buffer]
  by_cases hg : h = g
  · subst hg
    rw [update_self, size_create_self]
    omega
  · rw [update_of_ne hg, size_create_of_ne hg]
    exact hs h

theorem Popped.head_of_ne (hp : Popped s s' g) (hs : s.HeadsExist) (hg : h ≠ g) :
    s'.head h = s.head h := by
  show s'.cellAt h (s'.buffer h) = s.cellAt h (s.buffer h)
  rw [hp.buffer, update_of_ne hg, hp.others h _ (fun he => hg he.1)]
  exact cellAt_create_of_lt (hs h)

/-- Of the cells, a delivery changes the successor. -/
theorem Popped.cellAt_eq (hp : Popped s s' g) (h : Fin G) (m : Nat) : s'.cellAt h m =
    if h = g ∧ m = (s.head g).blockId + 1 then
      s.succeed (s.head g) ((s.createBlockIfNotExist g ((s.head g).blockId + 1)).cellAt h m)
    else (s.createBlockIfNotExist g ((s.head g).blockId + 1)).cellAt h m := by
  split
  · rename_i heq
    obtain ⟨rfl, rfl⟩ := heq
    obtain ⟨next, hnext, _, _, _, hhead⟩ := hp.successor
    rw [← hnext, ← hhead]
    exact cellAt_of_buffer (by rw [hp.buffer, update_self])
  · rename_i hne
    exact hp.others h m hne

/-- A round of `popBlocks` passes its checks when the heads are where they belong and the
successor's real coordinates are not below the head's. -/
theorem popRound_ok (hG : G ≠ 0) (hs : s.HeadsExist) (hown : ∀ h, (s.head h).groupId = h)
    (hnext : ∀ g, (∀ h, Cell.mustLessThan (g = h) (s.head g) (s.head h) = .ok true) →
      ∀ next, next = (s.createBlockIfNotExist g ((s.head g).blockId + 1)).cellAt g
        ((s.head g).blockId + 1) → next.blockId = (s.head g).blockId + 1 ∧ next.groupId = g ∧
        ∀ i, next.real i = true → (s.head g).watermarks i ≤ next.watermarks i) :
    ∃ r, s.popRound = .ok r := by
  obtain ⟨r, hr⟩ := globalMinimum_ok hG hown
  unfold popRound
  rw [hr]
  cases r with
  | none => exact ⟨none, rfl⟩
  | some g =>
    have hleast := globalMinimum_eq_some hr
    obtain ⟨hid, hgrp, hwm⟩ := hnext g hleast _ rfl
    have hhead : ∀ d k x,
        (({ s with delivered := d } : Manager G).createBlockIfNotExist k x).head g = s.head g :=
      fun d k x => cellAt_create_of_lt (hs g)
    obtain ⟨s', hex⟩ := exchange_ok (n := (s.head g).blockId + 1)
      (s := ({ s with delivered := s.delivered ++ [s.head g] } :
        Manager G).createBlockIfNotExist g ((s.head g).blockId + 1))
      (by rw [hhead]; exact hown g) (by rw [hhead]; exact hid) hgrp
      (fun i hi => by rw [hhead]; exact hwm i hi)
    refine ⟨some s', ?_⟩
    dsimp only
    rw [hown g, hex]

/-! ## Recording a vote -/

/-- What `setIthWaterMark` does to a cell when it accepts. -/
def accept (v : Fin G) (w : Int) (c : Cell G) : Cell G :=
  { c with
    watermarks := update c.watermarks v w
    real := update c.real v true }

/-- The checks between the arrival of a vote and the loop of `popBlocks`: the vote is not below
the cell's own estimate, and not below the estimate of any other head that it raises. -/
structure VoteFair (s : Manager G) (g : Fin G) (b : Nat) (v : Fin G) (w : Int) : Prop where
  cell : ((s.createBlockIfNotExist g b).cellAt g b).watermarks v ≤ w
  heads : ∀ h, ¬(h = g ∧ s.buffer h = b) → (s.head h).real v = false →
    (s.head h).groupId ≠ v ∧ (s.head h).watermarks v ≤ w

/-- A new vote has been recorded, the state is about to enter `popBlocks`. -/
structure Voted (s s' : Manager G) (g : Fin G) (b : Nat) (v : Fin G) (w : Int) : Prop where
  fresh : ((s.createBlockIfNotExist g b).cellAt g b).real v = false
  fair : VoteFair s g b v w
  buffer : s'.buffer = s.buffer
  invalid : s'.invalidateMap = s.invalidateMap
  delivered : s'.delivered = s.delivered
  size : ∀ h, s'.size h = (s.createBlockIfNotExist g b).size h
  voted : s'.cellAt g b = accept v w ((s.createBlockIfNotExist g b).cellAt g b)
  heads : ∀ h, ¬(h = g ∧ s.buffer h = b) → s'.head h = raise v w (s.head h)
  others : ∀ h m, ¬(h = g ∧ m = b) → m ≠ s.buffer h →
    s'.cellAt h m = (s.createBlockIfNotExist g b).cellAt h m

theorem raise_of_real (hr : c.real v = true) : raise v w c = c := by
  simp [raise, hr]

@[simp] theorem raise_groupId : (raise v w c).groupId = c.groupId := by
  unfold raise; split <;> rfl

@[simp] theorem raise_blockId : (raise v w c).blockId = c.blockId := by
  unfold raise; split <;> rfl

@[simp] theorem raise_real : (raise v w c).real = c.real := by
  unfold raise; split <;> rfl

theorem raise_watermarks {v i : Fin G} : (raise v w c).watermarks i =
    if i = v ∧ c.real v = false then w else c.watermarks i := by
  unfold raise
  split
  · rename_i hr; simp [hr]
  · rename_i hr
    by_cases hi : i = v
    · subst hi; simp [hr]
    · simp [hi]

theorem setIthWaterMark_of_real (hr : c.real v = true) : c.setIthWaterMark v w = .ok none := by
  simp [Cell.setIthWaterMark, hr]

theorem setIthWaterMark_of_le (hr : c.real v = false)
    (hle : c.watermarks v ≤ w) : c.setIthWaterMark v w = .ok (some (accept v w c)) := by
  simp [Cell.setIthWaterMark, hr, hle, accept]

theorem setIthWaterMark_of_lt (hr : c.real v = false)
    (hlt : ¬c.watermarks v ≤ w) : c.setIthWaterMark v w = .error .compareFairness := by
  simp [Cell.setIthWaterMark, hr, hlt]

/-- The state in which `pushDecision` calls `updateEstimate`. -/
def recordVote (s : Manager G) (g : Fin G) (b : Nat) (v : Fin G) (w : Int) : Manager G :=
  (((s.createBlockIfNotExist g b).setCell g b
    (accept v w ((s.createBlockIfNotExist g b).cellAt g b))).raiseHeight v w).raiseHeight g b

theorem cellAt_recordVote_self : (s.recordVote g b v w).cellAt g b =
    accept v w ((s.createBlockIfNotExist g b).cellAt g b) := by
  unfold recordVote
  rw [cellAt_raiseHeight, cellAt_raiseHeight, cellAt_setCell_self]
  rw [size_create_self]
  omega

theorem cellAt_recordVote_of_ne (hne : ¬(h = g ∧ m = b)) :
    (s.recordVote g b v w).cellAt h m = (s.createBlockIfNotExist g b).cellAt h m := by
  unfold recordVote
  rw [cellAt_raiseHeight, cellAt_raiseHeight, cellAt_setCell_of_ne hne]

theorem size_recordVote : (s.recordVote g b v w).size h = (s.createBlockIfNotExist g b).size h := by
  unfold recordVote
  rw [size_raiseHeight, size_raiseHeight, size_setCell]

theorem head_recordVote_of_ne (hs : s.HeadsExist)
    (hne : ¬(h = g ∧ s.buffer h = b)) : (s.recordVote g b v w).head h = s.head h :=
  (cellAt_recordVote_of_ne hne).trans (cellAt_create_of_lt (hs h))

theorem head_recordVote_self (hb : s.buffer g = b) :
    (s.recordVote g b v w).head g = accept v w ((s.createBlockIfNotExist g b).cellAt g b) := by
  show (s.recordVote g b v w).cellAt g (s.buffer g) = _
  rw [hb]
  exact cellAt_recordVote_self

/-- `updateEstimate` passes its checks on a recorded vote exactly if the vote is fair. -/
theorem updateEstimate_recordVote (hs : s.HeadsExist)
    (hfair : VoteFair s g b v w) : (s.recordVote g b v w).updateEstimate v w =
      .ok ((s.recordVote g b v w).modifyHeads (raise v w)) := by
  have hreal : (accept v w ((s.createBlockIfNotExist g b).cellAt g b)).real v = true := by
    simp [accept]
  have hchk : ∀ k, ((s.recordVote g b v w).head k).real v = false →
      ((s.recordVote g b v w).head k).groupId ≠ v ∧
        ((s.recordVote g b v w).head k).watermarks v ≤ w := by
    intro k hr
    by_cases hk : k = g ∧ s.buffer k = b
    · obtain ⟨rfl, hb⟩ := hk
      rw [head_recordVote_self hb, hreal] at hr
      cases hr
    · rw [head_recordVote_of_ne hs hk] at hr ⊢
      exact hfair.heads k hk hr
  unfold updateEstimate
  rw [if_neg, if_neg]
  · rintro ⟨k, hr, hlt⟩
    exact absurd (hchk k hr).2 (not_le.mpr hlt)
  · rintro ⟨k, hr, heq⟩
    exact (hchk k hr).1 heq

theorem updateEstimate_recordVote_error (hs : s.HeadsExist)
    (hcell : ((s.createBlockIfNotExist g b).cellAt g b).watermarks v ≤ w)
    (hfair : ¬VoteFair s g b v w) : ∃ e, (s.recordVote g b v w).updateEstimate v w = .error e := by
  unfold updateEstimate
  split
  · exact ⟨_, rfl⟩
  rename_i hown
  split
  · exact ⟨_, rfl⟩
  rename_i hest
  refine absurd ⟨hcell, fun k hk hr => ?_⟩ hfair
  have hhead : (s.recordVote g b v w).head k = s.head k := head_recordVote_of_ne hs hk
  constructor
  · intro heq
    exact hown ⟨k, by rw [hhead]; exact hr, by rw [hhead]; exact heq⟩
  · by_contra hlt
    exact hest ⟨k, by rw [hhead]; exact hr, by rw [hhead]; exact not_le.mp hlt⟩

/-- The state behind a vote that passes its checks. -/
theorem voted_recordVote (hs : s.HeadsExist)
    (hr : ((s.createBlockIfNotExist g b).cellAt g b).real v = false) (hfair : VoteFair s g b v w) :
    Voted s ((s.recordVote g b v w).modifyHeads (raise v w)) g b v w := by
  have hsz : (s.recordVote g b v w).HeadsExist := by
    intro k
    rw [size_recordVote]
    exact Nat.lt_of_lt_of_le (hs k) le_size_create
  refine ⟨hr, hfair, rfl, rfl, rfl, ?_, ?_, ?_, ?_⟩
  · intro k
    rw [size_modifyHeads, size_recordVote]
  · -- The voted cell is real at `v` now, so `updateEstimate` passes over it.
    rw [cellAt_modifyHeads (hsz g), cellAt_recordVote_self, raise_of_real (by simp [accept]),
      ite_self]
  · intro k hk
    rw [head_modifyHeads (hsz k), head_recordVote_of_ne hs hk]
  · intro k n hne hn
    rw [cellAt_modifyHeads (hsz k), cellAt_recordVote_of_ne hne]
    exact if_neg hn

/-- **Every possible course of `pushDecision`** between two different groups: a repeated vote is
dropped, an unfair one fails a check, and any other is recorded before `popBlocks` runs. -/
theorem pushDecision_cases (hG : G ≠ 1) (hs : s.HeadsExist) (hv : v ≠ g) (w : Int) :
    (((s.createBlockIfNotExist g b).cellAt g b).real v = true ∧
      ∀ fuel, s.pushDecision fuel g b v w = .done (s.createBlockIfNotExist g b)) ∨
    (((s.createBlockIfNotExist g b).cellAt g b).real v = false ∧ ¬VoteFair s g b v w ∧
      ∃ e, ∀ fuel, s.pushDecision fuel g b v w = .failed e) ∨
    ∃ s', Voted s s' g b v w ∧ ∀ fuel, s.pushDecision fuel g b v w = s'.popBlocks fuel := by
  cases hr : ((s.createBlockIfNotExist g b).cellAt g b).real v with
  | true =>
    refine Or.inl ⟨rfl, fun fuel => ?_⟩
    simp only [pushDecision, if_neg hG, if_neg hv, setIthWaterMark_of_real hr]
  | false =>
    right
    by_cases hcell : ((s.createBlockIfNotExist g b).cellAt g b).watermarks v ≤ w
    · have hpush : ∀ fuel, s.pushDecision fuel g b v w =
          (Outcome.ofExcept ((s.recordVote g b v w).updateEstimate v w)).bind (popBlocks fuel) := by
        intro fuel
        simp only [pushDecision, if_neg hG, if_neg hv, setIthWaterMark_of_le hr hcell]
        rfl
      by_cases hfair : VoteFair s g b v w
      · right
        rw [updateEstimate_recordVote hs hfair] at hpush
        exact ⟨_, voted_recordVote hs hr hfair, hpush⟩
      · obtain ⟨e, he⟩ := updateEstimate_recordVote_error hs hcell hfair
        rw [he] at hpush
        exact Or.inl ⟨rfl, hfair, e, hpush⟩
    · refine Or.inl ⟨rfl, fun hfair => hcell hfair.cell, .compareFairness, fun fuel => ?_⟩
      simp only [pushDecision, if_neg hG, if_neg hv, setIthWaterMark_of_lt hr hcell]

theorem Voted.headsExist (hv : Voted s s' g b v w) (hs : s.HeadsExist) : s'.HeadsExist := by
  intro h
  rw [hv.size, hv.buffer]
  exact Nat.lt_of_lt_of_le (hs h) le_size_create

/-- Of the cells, a vote changes the one that it names, and the estimates on the heads. -/
theorem Voted.cellAt_eq (hv : Voted s s' g b v w) (h : Fin G) (m : Nat) :
    s'.cellAt h m =
      if h = g ∧ m = b then accept v w ((s.createBlockIfNotExist g b).cellAt h m)
      else if m = s.buffer h then raise v w (s.cellAt h m)
      else (s.createBlockIfNotExist g b).cellAt h m := by
  split
  · rename_i heq
    obtain ⟨rfl, rfl⟩ := heq
    exact hv.voted
  · rename_i hne
    split
    · rename_i hb
      subst hb
      have hhead : s'.cellAt h (s.buffer h) = s'.head h := cellAt_of_buffer (by rw [hv.buffer])
      rw [hhead]
      exact hv.heads h hne
    · rename_i hb
      exact hv.others h m hne hb

/-! ## Freezing a group -/

/-- Group `f` has just been invalidated, the state is about to enter `popBlocks`. -/
structure Frozen (s s' : Manager G) (f : Fin G) : Prop where
  fresh : s.invalidateMap f = false
  buffer : s'.buffer = s.buffer
  invalid : s'.invalidateMap = update s.invalidateMap f true
  delivered : s'.delivered = s.delivered
  size : ∀ h, s'.size h = s.size h
  heads : ∀ h, s'.head h = freeze f (s.head h)
  others : ∀ h m, m ≠ s.buffer h → s'.cellAt h m = s.cellAt h m

/-- The state in which the heads have been marked. -/
theorem frozen_modifyHeads (hs : s.HeadsExist) {f : Fin G} (hi : s.invalidateMap f = false) :
    Frozen s { s.modifyHeads (freeze f) with
      invalidateMap := update s.invalidateMap f true } f := by
  refine ⟨hi, rfl, rfl, rfl, ?_, ?_, ?_⟩
  · exact fun h => size_modifyHeads
  · exact fun h => head_modifyHeads (hs h)
  · exact fun h m hm => (cellAt_modifyHeads (hs h)).trans (if_neg hm)

/-- **Every possible course of `invalidateChain`**: the group is frozen already, some head is
above the recorded height, or the group is frozen now. -/
theorem invalidateChain_cases (hs : s.HeadsExist) (f : Fin G) :
    (s.invalidateMap f = true ∧ ∀ fuel, s.invalidateChain fuel f = s.popBlocks fuel) ∨
    (s.invalidateMap f = false ∧ (∃ h, (s.chains f).height < (s.head h).watermarks f) ∧
      ∃ e, ∀ fuel, s.invalidateChain fuel f = .failed e) ∨
    ∃ s', Frozen s s' f ∧ ∀ fuel, s.invalidateChain fuel f = s'.popBlocks fuel := by
  cases hi : s.invalidateMap f with
  | true =>
    refine Or.inl ⟨rfl, fun fuel => ?_⟩
    simp [invalidateChain, invalidateHeads, hi]
  | false =>
    right
    by_cases hh : ∃ h, (s.chains f).height < (s.head h).watermarks f
    · refine Or.inl ⟨rfl, hh, .aboveHeight, fun fuel => ?_⟩
      simp [invalidateChain, invalidateHeads, hi, hh]
    · refine Or.inr ⟨_, frozen_modifyHeads hs hi, fun fuel => ?_⟩
      simp only [invalidateChain, invalidateHeads, hi, if_neg hh]
      rfl

theorem Frozen.headsExist {f : Fin G} (hf : Frozen s s' f) (hs : s.HeadsExist) : s'.HeadsExist := by
  intro h
  rw [hf.size, hf.buffer]
  exact hs h

/-- Of the cells, a report changes the heads. -/
theorem Frozen.cellAt_eq {f : Fin G} (hf : Frozen s s' f) (h : Fin G) (m : Nat) :
    s'.cellAt h m = if m = s.buffer h then freeze f (s.cellAt h m) else s.cellAt h m := by
  split
  · rename_i hb
    subst hb
    have hhead : s'.cellAt h (s.buffer h) = s'.head h := cellAt_of_buffer (by rw [hf.buffer])
    rw [hhead]
    exact hf.heads h
  · rename_i hb
    exact hf.others h m hb

/-! ## Calls -/

theorem pushDecision_self (hG : G ≠ 1) (fuel : Nat) (w : Int) :
    s.pushDecision fuel g b g w = .done s := by
  simp [pushDecision, hG]

/-- What a call has done to the state when it returns without popping or enters `popBlocks`. -/
inductive Prepared (s : Manager G) : Call G → Manager G → Prop
  | own (g : Fin G) (b : Nat) (w : Int) : Prepared s (.pushDecision g b g w) s
  | repeated {g v : Fin G} {b : Nat} (w : Int) (hv : v ≠ g)
      (hr : ((s.createBlockIfNotExist g b).cellAt g b).real v = true) :
      Prepared s (.pushDecision g b v w) (s.createBlockIfNotExist g b)
  | voted {s' : Manager G} {g v : Fin G} {b : Nat} {w : Int} (hv : v ≠ g)
      (hs : Voted s s' g b v w) : Prepared s (.pushDecision g b v w) s'
  | again {f : Fin G} (hf : s.invalidateMap f = true) : Prepared s (.invalidateChain f) s
  | frozen {s' : Manager G} {f : Fin G} (hs : Frozen s s' f) : Prepared s (.invalidateChain f) s'

/-- **Every possible course of a call.** -/
theorem call_cases (hG : G ≠ 1) (hs : s.HeadsExist) (k : Call G) :
    (∃ s', Prepared s k s' ∧ ∀ fuel, s.call fuel k = .done s') ∨
    (∃ s', Prepared s k s' ∧ ∀ fuel, s.call fuel k = s'.popBlocks fuel) ∨
    ∃ e, ∀ fuel, s.call fuel k = .failed e := by
  cases k with
  | pushDecision g b v w =>
    by_cases hv : v = g
    · subst hv
      exact Or.inl ⟨s, .own v b w, fun fuel => pushDecision_self hG fuel w⟩
    · rcases pushDecision_cases hG hs hv w with ⟨hr, hc⟩ | ⟨_, _, he⟩ | ⟨s', hs', hc⟩
      · exact Or.inl ⟨_, .repeated w hv hr, hc⟩
      · exact Or.inr (Or.inr he)
      · exact Or.inr (Or.inl ⟨s', .voted hv hs', hc⟩)
  | invalidateChain f =>
    rcases invalidateChain_cases hs f with ⟨hf, hc⟩ | ⟨_, _, he⟩ | ⟨s', hs', hc⟩
    · exact Or.inr (Or.inl ⟨s, .again hf, hc⟩)
    · exact Or.inr (Or.inr he)
    · exact Or.inr (Or.inl ⟨s', .frozen hs', hc⟩)

/-- The invariant rule for `popBlocks`: it is enough to look at one delivery. -/
theorem popBlocks_invariant {I : Manager G → Prop} (hex : ∀ a, I a → a.HeadsExist)
    (hpop : ∀ a a' g, I a → Popped a a' g → I a') {fuel : Nat} {t : Manager G} (hs : I s)
    (hrun : s.popBlocks fuel = .done t) : I t ∧ t.popRound = .ok none := by
  refine loop_invariant (fun a a' ha hround => ?_) hs hrun
  obtain ⟨g, hg⟩ := popRound_eq_some (hex a ha) hround
  exact hpop a a' g ha hg

/-- The invariant rule for a call that returns: look at what it prepares, and at one delivery. -/
theorem call_invariant (hG : G ≠ 1) {I : Manager G → Prop} {k : Call G} (hs : s.HeadsExist)
    (hprep : ∀ a, Prepared s k a → I a) (hex : ∀ a, I a → a.HeadsExist)
    (hpop : ∀ a a' g, I a → Popped a a' g → I a') {fuel : Nat} {t : Manager G}
    (hc : s.call fuel k = .done t) : I t := by
  rcases call_cases hG hs k with ⟨s', hp, he⟩ | ⟨s', hp, he⟩ | ⟨e, he⟩
  · rw [he] at hc
    cases hc
    exact hprep _ hp
  · rw [he] at hc
    exact (popBlocks_invariant hex hpop (hprep _ hp) hc).1
  · rw [he] at hc
    cases hc

/-! ## Runs -/

theorem popBlocks_mono (hle : n ≤ m) (hn : s.popBlocks n ≠ .timeout) :
    s.popBlocks m = s.popBlocks n :=
  loop_mono hle hn

theorem call_mono (hle : n ≤ m) (k : Call G) (hn : s.call n k ≠ .timeout) :
    s.call m k = s.call n k := by
  cases k with
  | pushDecision g b v w =>
    simp only [call, pushDecision] at hn ⊢
    split
    · rfl
    split
    · rfl
    rename_i h1 h2
    rw [if_neg h1, if_neg h2] at hn
    split at hn
    · rfl
    · rfl
    · cases hu : updateEstimate _ v w with
      | error e => rfl
      | ok t =>
        rw [hu] at hn
        exact popBlocks_mono hle hn
  | invalidateChain f =>
    simp only [call, invalidateChain] at hn ⊢
    cases hu : s.invalidateHeads f (s.chains f).height with
    | error e => rfl
    | ok t =>
      rw [hu] at hn
      exact popBlocks_mono hle hn

/-- A bound on the rounds that is enough for a sequence of calls stays enough. -/
theorem run_mono (hle : n ≤ m) : ∀ {cs : List (Call G)} {s : Manager G},
    run n cs s ≠ .timeout → run m cs s = run n cs s
  | [], _, _ => rfl
  | k :: cs, s, hn => by
    simp only [run] at hn ⊢
    have hk : s.call n k ≠ .timeout := fun ht => hn (by rw [ht]; rfl)
    rw [call_mono hle k hk]
    cases hc : s.call n k with
    | done t =>
      rw [hc] at hn
      exact run_mono hle hn
    | failed e => rfl
    | timeout => rfl

theorem run_append {n : Nat} : ∀ {cs ds : List (Call G)} {s : Manager G},
    run n (cs ++ ds) s = (run n cs s).bind (run n ds)
  | [], _, _ => rfl
  | k :: cs, ds, s => by
    simp only [cons_append, run]
    cases s.call n k with
    | done t => exact run_append
    | failed e => rfl
    | timeout => rfl

/-- A sequence that returns had all but its last call return, and then that. -/
theorem run_concat_eq_done {n : Nat} {k : Call G} {s u : Manager G}
    (hr : run n (cs ++ [k]) s = .done u) : ∃ t, run n cs s = .done t ∧ t.call n k = .done u := by
  rw [run_append] at hr
  obtain ⟨t, hpre, hlast⟩ := Outcome.bind_eq_done hr
  obtain ⟨u', hcall, hend⟩ := Outcome.bind_eq_done hlast
  cases hend
  exact ⟨t, hpre, hcall⟩

/-- Runs extend: a sequence that returns and a call that returns after it are a longer
sequence that returns. -/
theorem run_concat_done {k : Call G} {s t u : Manager G}
    (hr : run n cs s = .done t) (hc : t.call m k = .done u) :
    run (max n m) (cs ++ [k]) s = .done u := by
  rw [run_append, run_mono (Nat.le_max_left n m) (by rw [hr]; simp), hr, Outcome.bind_done, run,
    call_mono (Nat.le_max_right n m) k (by rw [hc]; simp), hc]
  rfl

theorem run_concat_failed {k : Call G} {s t : Manager G}
    {e : CheckFailed} (hr : run n cs s = .done t) (hc : t.call m k = .failed e) :
    run (max n m) (cs ++ [k]) s = .failed e := by
  rw [run_append, run_mono (Nat.le_max_left n m) (by rw [hr]; simp), hr, Outcome.bind_done, run,
    call_mono (Nat.le_max_right n m) k (by rw [hc]; simp), hc]
  rfl

/-- Two bounds that are enough give the same result. -/
theorem run_done_unique {s t u : Manager G}
    (hn : run n cs s = .done t) (hm : run m cs s = .done u) : t = u := by
  have h1 : run (max n m) cs s = .done t := by
    rw [run_mono (Nat.le_max_left n m) (by rw [hn]; simp), hn]
  have h2 : run (max n m) cs s = .done u := by
    rw [run_mono (Nat.le_max_right n m) (by rw [hm]; simp), hm]
  rw [h1] at h2
  cases h2
  rfl

end MassBFT.Order.Manager
