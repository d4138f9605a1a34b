import MassBFT.Order.EpochManager
import Mathlib.Logic.Relation
import Mathlib.Order.Bounds.Defs

/-!
# Epochs of several leaders

Every group has a leader with an `EpochManager` of its own. `voteNewBlock` appends the leader's
blocks to the log of its group, one after another, and waits in front of each until the manager
lets it through; the logs of all groups come to all leaders, each in its order, at any time.

No leader knows how far the others are. But **whoever is in epoch `e` has received all blocks of
the epochs in front of it, from every group**, so every leader has proposed in epoch `e - 1` at
least, and could not have done so before it was there: two leaders are never more than one epoch
apart (`Consistent.lt_of_proposed`). That is what `EpochManager` needs of the blocks it receives.
-/

set_option autoImplicit false

namespace MassBFT.Order.Iss

open Function List

/-! ## The system -/

/-- The part of `BlockOrder` that proposes, at the leader of a group. `nextBlockId` is
`lastBlockId + 1`; `voting` is the counter and the bound of the loop of a running
`voteNewBlock`. -/
structure Leader where
  manager : EpochManager
  nextBlockId : Nat
  voting : Option (Nat × Nat)

/-- The leaders of `G` groups, the logs of the groups, and how many blocks of each log (second
index) have come to each leader (first index). -/
structure System (G : Nat) where
  leader : Fin G → Leader
  log : Fin G → List Nat
  received : Fin G → Fin G → Nat

/-- `voteNewBlock` up to its loop, at the leader of `localGroupId`; blocks of other groups are
skipped. -/
def Leader.voteNewBlock (l : Leader) (localGroupId chainId blockId : Nat) : Leader :=
  if localGroupId ≠ chainId then l else { l with voting := some (l.nextBlockId, blockId) }

/-- The end of `voteNewBlock`. -/
def Leader.voted (l : Leader) (blockId : Nat) : Leader :=
  { l with nextBlockId := max l.nextBlockId (blockId + 1), voting := none }

namespace System

variable {G : Nat}

/-- No block has been proposed. -/
def start (L : Nat) : System G where
  leader _ := { manager := .new L G, nextBlockId := 0, voting := none }
  log _ := []
  received _ _ := 0

def setLeader (s : System G) (p : Fin G) (l : Leader) : System G :=
  { s with leader := update s.leader p l }

/-- `onReplicatingNewBlock`: block `i` is in the log of the group, and the loop goes on. -/
def propose (s : System G) (p : Fin G) (i blockId : Nat) : System G where
  leader := update s.leader p { s.leader p with voting := some (i + 1, blockId) }
  log := update s.log p (s.log p ++ [i])
  received := s.received

/-- The next block of group `g` has come to leader `p`, whose manager is now `m`. -/
def receive (s : System G) (p g : Fin G) (m : EpochManager) : System G where
  leader := update s.leader p { s.leader p with manager := m }
  log := s.log
  received := update s.received p (update (s.received p) g (s.received p g + 1))

/-- What leader `p` has received of the log of group `g`. -/
def receivedBlocks (s : System G) (p g : Fin G) : List Nat := (s.log g).take (s.received p g)

end System

/-- The steps of the leaders, in any order. -/
inductive Step {G : Nat} (s : System G) : System G → Prop
  | vote (p : Fin G) (chainId blockId : Nat) (hidle : (s.leader p).voting = none) :
      Step s (s.setLeader p ((s.leader p).voteNewBlock p chainId blockId))
  | propose (p : Fin G) {i blockId : Nat} (hvoting : (s.leader p).voting = some (i, blockId))
      (hmore : i ≤ blockId) (hcan : (s.leader p).manager.canPropose i = true) :
      Step s (s.propose p i blockId)
  | voted (p : Fin G) {i blockId : Nat} (hvoting : (s.leader p).voting = some (i, blockId))
      (hdone : blockId < i) : Step s (s.setLeader p ((s.leader p).voted blockId))
  | receive (p g : Fin G) {blockId n : Nat} {m : EpochManager}
      (hlog : (s.log g)[s.received p g]? = some blockId)
      (hcall : (s.leader p).manager.receivedBlock n g blockId = .done m) :
      Step s (s.receive p g m)

/-- The states of any run. -/
def Reachable {G : Nat} (L : Nat) (s : System G) : Prop :=
  Relation.ReflTransGen Step (System.start L) s

/-- Block `n` belongs to epoch `e`. -/
def InEpoch (L e n : Nat) : Prop := L * e ≤ n ∧ n < L * (e + 1)

/-- All blocks of all groups of epoch `e` have come to leader `p`. -/
def System.Complete {G : Nat} (s : System G) (L : Nat) (p : Fin G) (e : Nat) : Prop :=
  ∀ g n, InEpoch L e n → n ∈ s.receivedBlocks p g

/-! ## The invariant -/

/-- Between two proposals `nextBlockId` or the counter of the loop is the length of the log. -/
def Leader.Proposed (l : Leader) (length : Nat) : Prop :=
  match l.voting with
  | none => l.nextBlockId = length
  | some (i, blockId) => i = length ∧ l.nextBlockId ≤ i ∧ i ≤ max l.nextBlockId (blockId + 1)

/-- What holds in every state of a run, for a leader, the log of its group, the blocks it has
received and the lengths of all logs. -/
structure Consistent {G : Nat} (L : Nat) (l : Leader) (log : List Nat) (received : Fin G → Nat)
    (length : Fin G → Nat) : Prop where
  inOrder : log = List.range log.length
  proposed : l.Proposed log.length
  gate : log.length ≤ L * (l.manager.currentEpoch + 1)
  received_le : ∀ g, received g ≤ length g
  view : View L received l.manager
  waiting : Waiting L received l.manager

/-- The invariant of the system. -/
def System.Ok {G : Nat} (s : System G) (L : Nat) : Prop :=
  ∀ p, Consistent L (s.leader p) (s.log p) (s.received p) fun g => (s.log g).length

section

variable {G L : Nat} {s : System G}

theorem ok_start (L : Nat) : (System.start L : System G).Ok L := fun p =>
  { inOrder := rfl
    proposed := rfl
    gate := Nat.zero_le _
    received_le := fun _ => Nat.zero_le _
    view := view_new L G
    waiting := waiting_new p }

theorem lt_of_canPropose {m : EpochManager} {i : Nat} (h : m.canPropose i = true) :
    i < m.epochLength * (m.currentEpoch + 1) := by
  rw [EpochManager.canPropose] at h
  split_ifs at h with hle
  exact Nat.lt_of_not_le hle

/-- **Two leaders are at most one epoch apart**, so no block comes from further ahead. -/
theorem System.Ok.lt_of_proposed (hs : s.Ok L) (p : Fin G) {g : Fin G} {n : Nat}
    (hn : n < (s.log g).length) : n < L * ((s.leader p).manager.currentEpoch + 2) := by
  have hgate := hn.trans_le (hs g).gate
  have hpos : 0 < L := Nat.pos_of_ne_zero fun hzero => by simp [hzero] at hgate
  -- leader `g` has received the epochs in front of its own, also from group `p`
  have hothers : L * (s.leader g).manager.currentEpoch ≤
      L * ((s.leader p).manager.currentEpoch + 1) :=
    ((hs g).view.complete p).trans (((hs g).received_le p).trans (hs p).gate)
  have hepoch := Nat.le_of_mul_le_mul_left hothers hpos
  exact hgate.trans_le (Nat.mul_le_mul_left L (Nat.succ_le_succ hepoch))

/-- The next block of a log has the number of the blocks in front of it. -/
theorem System.Ok.getElem?_log (hs : s.Ok L) {g : Fin G} {k blockId : Nat}
    (hlog : (s.log g)[k]? = some blockId) : blockId = k ∧ k < (s.log g).length := by
  have hlt := (List.getElem?_eq_some_iff.mp hlog).1
  rw [(hs g).inOrder, getElem?_range hlt] at hlog
  exact ⟨(Option.some.inj hlog).symm, hlt⟩

/-! ### One step -/

/-- A step of `voteNewBlock` that does not propose. -/
theorem System.Ok.setLeader (hs : s.Ok L) {p : Fin G} {l : Leader}
    (hmanager : l.manager = (s.leader p).manager) (hproposed : l.Proposed (s.log p).length) :
    (s.setLeader p l).Ok L := by
  obtain ⟨hlog, -, hgate, hreceived, hview, hwaiting⟩ := hs p
  rw [← hmanager] at hgate hview hwaiting
  refine (forall_update_iff s.leader fun q l =>
    Consistent L l (s.log q) (s.received q) fun g => (s.log g).length).mpr ⟨?_, fun q _ => hs q⟩
  exact ⟨hlog, hproposed, hgate, hreceived, hview, hwaiting⟩

theorem Leader.Proposed.voteNewBlock {l : Leader} {length : Nat} (h : l.Proposed length)
    (hidle : l.voting = none) (localGroupId chainId blockId : Nat) :
    (l.voteNewBlock localGroupId chainId blockId).Proposed length := by
  rw [Leader.voteNewBlock]
  split_ifs
  · exact h
  · simp only [Leader.Proposed, hidle] at h ⊢
    exact ⟨h, le_rfl, Nat.le_max_left _ _⟩

theorem Leader.Proposed.voted {l : Leader} {length i blockId : Nat} (h : l.Proposed length)
    (hvoting : l.voting = some (i, blockId)) (hdone : blockId < i) :
    (l.voted blockId).Proposed length := by
  simp only [Leader.Proposed, hvoting] at h
  simp only [Leader.Proposed, Leader.voted]
  omega

/-- **A proposal passes the gate**, and the log stays without gaps. -/
theorem System.Ok.propose (hs : s.Ok L) {p : Fin G} {i blockId : Nat}
    (hvoting : (s.leader p).voting = some (i, blockId)) (hmore : i ≤ blockId)
    (hcan : (s.leader p).manager.canPropose i = true) : (s.propose p i blockId).Ok L := by
  intro q
  have hgrow : ∀ g, (s.log g).length ≤ (update s.log p (s.log p ++ [i]) g).length :=
    (forall_update_iff s.log fun g l => (s.log g).length ≤ l.length).mpr
      ⟨by rw [length_append]; exact Nat.le_add_right _ _, fun _ _ => le_rfl⟩
  dsimp only [System.propose]
  by_cases heq : q = p
  · subst heq
    obtain ⟨hlog, hproposed, -, hreceived, hview, hwaiting⟩ := hs q
    have hlt := lt_of_canPropose hcan
    rw [hview.epochLength] at hlt
    simp only [Leader.Proposed, hvoting] at hproposed
    obtain ⟨hi, hle, -⟩ := hproposed
    have hlength : (s.log q ++ [i]).length = i + 1 := by simp [hi]
    rw [update_self, update_self]
    refine ⟨?_, ?_, ?_, fun g => (hreceived g).trans (hgrow g), hview, hwaiting⟩
    · rw [hlength, range_succ, hi, ← hlog]
    · simp only [Leader.Proposed, hlength]
      exact ⟨trivial, hle.trans (Nat.le_succ i), le_max_of_le_right (Nat.succ_le_succ hmore)⟩
    · rw [hlength]
      exact hlt
  · obtain ⟨hlog, hproposed, hgate, hreceived, hview, hwaiting⟩ := hs q
    rw [update_of_ne heq, update_of_ne heq]
    exact ⟨hlog, hproposed, hgate, fun g => (hreceived g).trans (hgrow g), hview, hwaiting⟩

/-- The current epoch does not go back. -/
theorem View.currentEpoch_le {received received' : Fin G → Nat} {m m' : EpochManager}
    (h : View L received m) (hwaiting : Waiting L received' m')
    (hle : ∀ g, received g ≤ received' g) (hpos : 0 < L) : m.currentEpoch ≤ m'.currentEpoch := by
  obtain ⟨g, hg⟩ := hwaiting hpos
  have hlt : L * m.currentEpoch < L * (m'.currentEpoch + 1) :=
    ((h.complete g).trans (hle g)).trans_lt hg
  exact Nat.lt_succ_iff.mp (Nat.lt_of_mul_lt_mul_left hlt)

/-- **A block that comes is the next of its group, and not from further ahead than the next
epoch.** -/
theorem System.Ok.receive (hL : 3 * L < 64) (hs : s.Ok L) {p g : Fin G} {blockId n : Nat}
    {m : EpochManager} (hlog : (s.log g)[s.received p g]? = some blockId)
    (hcall : (s.leader p).manager.receivedBlock n g blockId = .done m) :
    (s.receive p g m).Ok L := by
  obtain ⟨rfl, hlt⟩ := hs.getElem?_log hlog
  have hnext := hs.lt_of_proposed p hlt
  have hpos : 0 < L := Nat.pos_of_ne_zero fun hzero => by simp [hzero] at hnext
  intro q
  dsimp only [System.receive]
  by_cases heq : q = p
  · subst heq
    obtain ⟨hqlog, hproposed, hgate, hreceived, hview, -⟩ := hs q
    obtain ⟨hview', hwaiting'⟩ := hview.receivedBlock hL hnext hcall
    have hgrow : ∀ g', s.received q g' ≤
        update (s.received q) g (s.received q g + 1) g' :=
      (forall_update_iff (s.received q) fun g' r => s.received q g' ≤ r).mpr
        ⟨Nat.le_succ _, fun _ _ => le_rfl⟩
    have hepoch := hview.currentEpoch_le hwaiting' hgrow hpos
    rw [update_self, update_self]
    refine ⟨hqlog, hproposed, ?_, ?_, hview', hwaiting'⟩
    · exact hgate.trans (Nat.mul_le_mul_left L (Nat.succ_le_succ hepoch))
    · exact (forall_update_iff (s.received q) fun g' r => r ≤ (s.log g').length).mpr
        ⟨hlt, fun g' _ => hreceived g'⟩
  · rw [update_of_ne heq, update_of_ne heq]
    exact hs q

theorem System.Ok.step (hL : 3 * L < 64) (hs : s.Ok L) {s' : System G} (hstep : Step s s') :
    s'.Ok L := by
  cases hstep with
  | vote p chainId blockId hidle =>
    refine hs.setLeader ?_ ((hs p).proposed.voteNewBlock hidle p chainId blockId)
    rw [Leader.voteNewBlock]
    split_ifs
    · rfl
    · rfl
  | propose p hvoting hmore hcan => exact hs.propose hvoting hmore hcan
  | voted p hvoting hdone => exact hs.setLeader rfl ((hs p).proposed.voted hvoting hdone)
  | receive p g hlog hcall => exact hs.receive hL hlog hcall

/-- **Every run.** -/
theorem Reachable.ok (hL : 3 * L < 64) (hs : Reachable L s) : s.Ok L := by
  induction hs with
  | refl => exact ok_start L
  | tail _ hstep ih => exact ih.step hL hstep

/-- No leader is stuck in `receivedBlock`, and none throws. -/
theorem Reachable.exists_receive (hL : 3 * L < 64) (hs : Reachable L s) {p g : Fin G}
    (hmore : s.received p g < (s.log g).length) : ∃ m, Step s (s.receive p g m) := by
  have hok := hs.ok hL
  obtain ⟨n, m, hcall⟩ := (hok p).view.receivedBlock_returns hL (hok.lt_of_proposed p hmore)
  have hlog : (s.log g)[s.received p g]? = some (s.received p g) := by
    rw [(hok g).inOrder, getElem?_range hmore]
  exact ⟨m, .receive p g hlog hcall⟩

/-! ## What has been received -/

theorem System.Ok.mem_receivedBlocks (hs : s.Ok L) {p g : Fin G} {n : Nat} :
    n ∈ s.receivedBlocks p g ↔ n < s.received p g := by
  have hle := (hs p).received_le g
  rw [System.receivedBlocks, (hs g).inOrder, take_range, mem_range, Nat.min_eq_left hle]

theorem System.Ok.complete_of_le (hs : s.Ok L) {p : Fin G} {e : Nat}
    (h : ∀ g, L * (e + 1) ≤ s.received p g) : s.Complete L p e := fun g _ hn =>
  hs.mem_receivedBlocks.mpr (hn.2.trans_le (h g))

/-- The epochs in front of the current one are complete. -/
theorem System.Ok.complete_of_lt (hs : s.Ok L) {p : Fin G} {e : Nat}
    (he : e < (s.leader p).manager.currentEpoch) : s.Complete L p e :=
  hs.complete_of_le fun g => (Nat.mul_le_mul_left L he).trans ((hs p).view.complete g)

theorem System.Ok.not_complete (hs : s.Ok L) (hpos : 0 < L) (p : Fin G) :
    ¬ s.Complete L p (s.leader p).manager.currentEpoch := by
  intro hcomplete
  obtain ⟨g, hg⟩ := (hs p).waiting hpos
  have hend : L * ((s.leader p).manager.currentEpoch + 1) =
      L * (s.leader p).manager.currentEpoch + L := by ring
  -- the last block of the epoch
  have hlast := hcomplete g (L * (s.leader p).manager.currentEpoch + L - 1) ⟨by omega, by omega⟩
  rw [hs.mem_receivedBlocks] at hlast
  omega

end

/-- **Epochs are separated.** In every state of a run, a leader that has proposed in epoch `e + 1`
has received all blocks of the epochs up to `e`; its current epoch is the first whose blocks it
has not all received; and of the epochs that are not complete it still has the bucket of every
block that has come, with the groups it has come from. -/
theorem epochs_separated {G L : Nat} (hL : 3 * L < 64) {s : System G} (hs : Reachable L s)
    (p : Fin G) :
    (∀ e, (∃ n ∈ s.log p, InEpoch L (e + 1) n) → ∀ e' ≤ e, s.Complete L p e') ∧
      (0 < L → IsLeast {e | ¬ s.Complete L p e} (s.leader p).manager.currentEpoch) ∧
      ∀ e n, ¬ s.Complete L p e → InEpoch L e n → (∃ g, n ∈ s.receivedBlocks p g) →
        ∃ value, (s.leader p).manager.bucket.lookup n = some value ∧
          ∀ g : Fin G, (g : Nat) ∈ value ↔ n ∈ s.receivedBlocks p g := by
  have hok := hs.ok hL
  refine ⟨?_, fun hpos => ⟨hok.not_complete hpos p, fun e he => ?_⟩, ?_⟩
  · rintro e ⟨n, hn, hlow, -⟩ e' he'
    rw [(hok p).inOrder, mem_range] at hn
    have hlt : L * (e + 1) < L * ((s.leader p).manager.currentEpoch + 1) :=
      hlow.trans_lt (hn.trans_le (hok p).gate)
    have hepoch := Nat.lt_of_mul_lt_mul_left hlt
    exact hok.complete_of_lt (by omega)
  · by_contra hlt
    exact he (hok.complete_of_lt (Nat.lt_of_not_le hlt))
  · rintro e n he hn ⟨g, hg⟩
    have hle : (s.leader p).manager.currentEpoch ≤ e := by
      by_contra hlt
      exact he (hok.complete_of_lt (Nat.lt_of_not_le hlt))
    have hcontent := (hok p).view.holds.content n ((Nat.mul_le_mul_left L hle).trans hn.1)
    have hsome : chainsWith (s.received p) n ≠ ∅ := by
      intro hempty
      exact absurd (hok.mem_receivedBlocks.mp hg) (not_lt.mpr (chainsWith_eq_empty.mp hempty g))
    rw [bucketOf, if_neg hsome] at hcontent
    refine ⟨_, hcontent, fun g' => ?_⟩
    rw [mem_chainsWith, hok.mem_receivedBlocks]

/-- The leader of group 1 has the first block of group 0, and its bucket. -/
theorem epochs_separated_first_block : ∃ s : System 2, Reachable 5 s ∧
    s.receivedBlocks 1 0 = [0] ∧ ¬ s.Complete 5 1 0 ∧
    ∃ value, (s.leader 1).manager.bucket.lookup 0 = some value ∧ 0 ∈ value ∧ 1 ∉ value := by
  let voting : System 2 := (System.start 5).setLeader 0
    (((System.start 5 : System 2).leader 0).voteNewBlock 0 0 0)
  have hvoting : Reachable 5 voting := Relation.ReflTransGen.refl.tail (.vote 0 0 0 rfl)
  have hproposed : Reachable 5 (voting.propose 0 0 0) := hvoting.tail (.propose 0 rfl le_rfl rfl)
  obtain ⟨m, hreceive⟩ := hproposed.exists_receive (by decide) (p := 1) (g := 0) (by decide)
  have hreached := hproposed.tail hreceive
  have hfrom0 : ((voting.propose 0 0 0).receive 1 0 m).receivedBlocks 1 0 = [0] := rfl
  have hfrom1 : ((voting.propose 0 0 0).receive 1 0 m).receivedBlocks 1 1 = [] := rfl
  have hincomplete : ¬ ((voting.propose 0 0 0).receive 1 0 m).Complete 5 1 0 := by
    intro hcomplete
    have hmem := hcomplete 1 0 ⟨by decide, by decide⟩
    rw [hfrom1] at hmem
    exact not_mem_nil hmem
  obtain ⟨value, hlookup, hvalue⟩ := (epochs_separated (by decide) hreached 1).2.2 0 0
    hincomplete ⟨by decide, by decide⟩ ⟨0, by rw [hfrom0]; exact mem_singleton.mpr rfl⟩
  refine ⟨_, hreached, hfrom0, hincomplete, value, hlookup, ?_, ?_⟩
  · exact (hvalue 0).mpr (by rw [hfrom0]; exact mem_singleton.mpr rfl)
  · intro hmem
    have h1 := (hvalue 1).mp hmem
    rw [hfrom1] at h1
    exact not_mem_nil h1

end MassBFT.Order.Iss
