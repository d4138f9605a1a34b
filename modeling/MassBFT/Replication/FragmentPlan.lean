import MassBFT.Replication.FragmentUtil

/-!
# The fragment plan of two regions

The ranges of all senders together, for region sizes whose product an `int` holds; every number
that is computed on the way is at most that product (`lcm_le_mul`).

The loop of `getSenderConfig` closes its ranges from left to right (`Ascending`), and the windows of
the senders follow one another, so **the ranges of all senders are one ascending list**
(`ascending_allRanges`): they are disjoint, and they share out the slots. `IsPlan` collects what the
sending and the receiving side rely on.
-/

set_option autoImplicit false

namespace MassBFT.Replication

open List

instance (c : FragmentConfig) (i : Nat) : Decidable (c.Holds i) :=
  inferInstanceAs (Decidable (c.startFragmentId ≤ i ∧ i < c.endFragmentId))

namespace FragmentUtil

/-- One range ends before the other starts. -/
def Before (c c' : FragmentConfig) : Prop := c.endFragmentId ≤ c'.startFragmentId

/-- The ranges so far are in order, and end before the next one. -/
structure Ascending (s : List FragmentConfig × Nat) : Prop where
  pairwise : s.1.Pairwise Before
  ends : ∀ c ∈ s.1, c.endFragmentId ≤ s.2

theorem Ascending.close {l : List FragmentConfig} {next e localId r : Nat}
    (h : Ascending (l, next)) (hle : next ≤ e) :
    Ascending (l ++ [⟨next, e, localId, r⟩], e) := by
  refine ⟨pairwise_append.mpr ⟨h.pairwise, pairwise_singleton _ _, ?_⟩, ?_⟩
  · intro c hc c' hc'
    rw [mem_singleton.mp hc']
    exact h.ends c hc
  · intro c hc
    rcases mem_append.mp hc with hc | hc
    · exact (h.ends c hc).trans hle
    · rw [mem_singleton.mp hc]

theorem ascending_foldl {u : FragmentUtil} (hR : 0 < u._remoteFPS) (localId lo k : Nat) :
    Ascending ((List.range' lo k).foldl (u.senderRound localId) ([], lo)) := by
  induction k with
  | zero => exact ⟨Pairwise.nil, by simp⟩
  | succ k ih =>
    have hnext := (sharesOut_foldl hR localId lo k).2.1
    rw [List.range'_1_concat, foldl_append, foldl_cons, foldl_nil]
    generalize (List.range' lo k).foldl (u.senderRound localId) ([], lo) = s at ih hnext
    unfold senderRound
    split_ifs
    · exact ih.close (by omega)
    · exact ih

theorem ascending_getSenderConfig {u : FragmentUtil} (hR : 0 < u._remoteFPS) (localId : Nat) :
    (u.getSenderConfig localId).Pairwise Before := by
  have hs := ascending_foldl hR localId (u._localFPS * localId)
    (u._localFPS * (localId + 1) - u._localFPS * localId)
  have hle := (sharesOut_foldl hR localId (u._localFPS * localId)
    (u._localFPS * (localId + 1) - u._localFPS * localId)).2.1
  have hstop : u._localFPS * localId ≤ u._localFPS * (localId + 1) :=
    Nat.mul_le_mul_left _ (Nat.le_succ localId)
  rw [Nat.add_sub_cancel' hstop] at hle
  unfold getSenderConfig
  dsimp only
  generalize (List.range' _ _).foldl (u.senderRound localId) _ = s at hs hle
  split_ifs
  · exact (hs.close hle).pairwise
  · exact hs.pairwise

/-- The ranges of all senders. -/
def allRanges (u : FragmentUtil) : List FragmentConfig :=
  (List.range u._localServerCount).flatMap u.getSenderConfig

/-- What the plan for regions of `n` and `m` servers is relied on for. -/
structure IsPlan (n m : Nat) (u : FragmentUtil) : Prop where
  total : u._totalFragments = Nat.lcm n m
  nonempty : ∀ c ∈ u.allRanges, c.startFragmentId < c.endFragmentId
  disjoint : u.allRanges.Pairwise fun c c' => ∀ i, ¬ (c.Holds i ∧ c'.Holds i)
  cover : ∀ i, i < Nat.lcm n m ↔ ∃ c ∈ u.allRanges, c.Holds i
  owner : ∀ c ∈ u.allRanges, c.localId < n ∧ c ∈ u.getSenderConfig c.localId
  window : ∀ c ∈ u.allRanges, c.remoteId < m ∧
    Nat.lcm n m / m * c.remoteId ≤ c.startFragmentId ∧
    c.endFragmentId ≤ Nat.lcm n m / m * (c.remoteId + 1)
  data : 1 ≤ u.getBFGConfig.dataShardCnt
  fragments : u.getBFGConfig.fragmentCnt = Nat.lcm n m
  survives : ∀ silentSenders silentReceivers : Finset Nat,
    silentSenders.card ≤ (n - 1) / 3 → silentReceivers.card ≤ (m - 1) / 3 →
    u.getBFGConfig.dataShardCnt ≤ {i ∈ Finset.range (Nat.lcm n m) | ∃ c ∈ u.allRanges,
      c.Holds i ∧ c.localId ∉ silentSenders ∧ c.remoteId ∉ silentReceivers}.card

section

variable {n m : Nat}

/-- Every number in the plan fits where the product does. -/
theorem lcm_le_mul (hn : 0 < n) (hm : 0 < m) : Nat.lcm n m ≤ n * m :=
  Nat.le_of_dvd (Nat.mul_pos hn hm) (Nat.lcm_dvd_mul n m)

theorem mem_allRanges {c : FragmentConfig} :
    c ∈ (plan n m).allRanges ↔ ∃ s < n, c ∈ (plan n m).getSenderConfig s := by
  simp [allRanges, plan]

theorem ascending_allRanges (hn : 0 < n) (hm : 0 < m) : (plan n m).allRanges.Pairwise Before := by
  obtain ⟨-, hR⟩ := fps_pos hn hm
  refine pairwise_flatMap.mpr ⟨fun s _ => ascending_getSenderConfig hR s, ?_⟩
  refine Pairwise.imp ?_ pairwise_lt_range
  intro s s' hlt c hc c' hc'
  obtain ⟨-, -, -, hend, -⟩ := (sharesOut_getSenderConfig hR s).ranges c hc
  obtain ⟨-, hstart, -⟩ := (sharesOut_getSenderConfig hR s').ranges c' hc'
  exact hend.trans ((Nat.mul_le_mul_left _ hlt).trans hstart)

/-- The slots that exist are in the window of a sender that exists. -/
theorem slot_lt_iff (hn : 0 < n) (hm : 0 < m) {i : Nat} :
    i < Nat.lcm n m ↔ i / (plan n m)._localFPS < n := by
  rw [Nat.div_lt_iff_lt_mul (fps_pos hn hm).1, Nat.mul_comm, localFPS_mul]

theorem cover_allRanges (hn : 0 < n) (hm : 0 < m) (i : Nat) :
    i < Nat.lcm n m ↔ ∃ c ∈ (plan n m).allRanges, c.Holds i := by
  rw [slot_lt_iff hn hm]
  constructor
  · intro hlt
    obtain ⟨c, hc, hi⟩ := exists_getSenderConfig hn hm i
    exact ⟨c, mem_allRanges.mpr ⟨_, hlt, hc⟩, hi⟩
  · rintro ⟨c, hc, hi⟩
    obtain ⟨s, hs, hc⟩ := mem_allRanges.mp hc
    rwa [(mem_getSenderConfig hn hm hc hi).1]

/-- A range lies inside the window of its receiver. -/
theorem window_allRanges (hn : 0 < n) (hm : 0 < m) {c : FragmentConfig}
    (hc : c ∈ (plan n m).allRanges) : c.remoteId < m ∧
      (plan n m)._remoteFPS * c.remoteId ≤ c.startFragmentId ∧
      c.endFragmentId ≤ (plan n m)._remoteFPS * (c.remoteId + 1) := by
  obtain ⟨s, hs, hc⟩ := mem_allRanges.mp hc
  obtain ⟨hlt, hle⟩ := getSenderConfig_bounds hn hm hs hc
  obtain ⟨-, hR⟩ := fps_pos hn hm
  -- the first and the last slot of the range decide
  have hfirst := (mem_getSenderConfig hn hm hc ⟨le_refl _, hlt⟩).2
  have hlast := (mem_getSenderConfig hn hm hc (i := c.endFragmentId - 1) ⟨by omega, by omega⟩).2
  have hmul := remoteFPS_mul n m
  have hbelow : c.startFragmentId / (plan n m)._remoteFPS < m := by
    rw [Nat.div_lt_iff_lt_mul hR, Nat.mul_comm, hmul]
    omega
  refine ⟨hfirst ▸ hbelow, ?_, ?_⟩
  · rw [← hfirst]
    exact Nat.mul_div_le _ _
  · have hnext := Nat.lt_mul_div_succ (c.endFragmentId - 1) hR
    rw [hlast] at hnext
    omega

/-- The slots of the nodes that are left are the slots of the ranges that are left. -/
theorem surviving_iff (hn : 0 < n) (hm : 0 < m) (silentSenders silentReceivers : Finset Nat)
    {i : Nat} (hi : i < Nat.lcm n m) :
    (∃ c ∈ (plan n m).allRanges, c.Holds i ∧ c.localId ∉ silentSenders ∧
        c.remoteId ∉ silentReceivers) ↔
      i / (plan n m)._localFPS ∉ silentSenders ∧ i / (plan n m)._remoteFPS ∉ silentReceivers := by
  have hid : ∀ {s : Nat} {c : FragmentConfig}, c ∈ (plan n m).getSenderConfig s →
      c.localId = s := fun hc =>
    ((sharesOut_getSenderConfig (fps_pos hn hm).2 _).ranges _ hc).1
  constructor
  · rintro ⟨c, hc, hholds, hsender, hreceiver⟩
    obtain ⟨s, -, hc⟩ := mem_allRanges.mp hc
    obtain ⟨hlocal, hremote⟩ := mem_getSenderConfig hn hm hc hholds
    rw [hlocal, hremote, ← hid hc]
    exact ⟨hsender, hreceiver⟩
  · rintro ⟨hsender, hreceiver⟩
    obtain ⟨c, hc, hholds⟩ := exists_getSenderConfig hn hm i
    refine ⟨c, mem_allRanges.mpr ⟨_, (slot_lt_iff hn hm).mp hi, hc⟩, hholds, ?_, ?_⟩
    · rwa [hid hc]
    · rwa [← (mem_getSenderConfig hn hm hc hholds).2]

theorem isPlan_plan (hn : 0 < n) (hm : 0 < m) : IsPlan n m (plan n m) where
  total := rfl
  nonempty c hc := by
    obtain ⟨s, hs, hc⟩ := mem_allRanges.mp hc
    exact (getSenderConfig_bounds hn hm hs hc).1
  disjoint := by
    refine (ascending_allRanges hn hm).imp ?_
    rintro c c' hbefore i ⟨hi, hi'⟩
    exact absurd hi.2 (not_lt.mpr (le_trans hbefore hi'.1))
  cover := cover_allRanges hn hm
  owner c hc := by
    obtain ⟨s, hs, hc⟩ := mem_allRanges.mp hc
    have hid := ((sharesOut_getSenderConfig (fps_pos hn hm).2 s).ranges c hc).1
    rw [hid]
    exact ⟨hs, hc⟩
  window c hc := window_allRanges hn hm hc
  data := by
    have hvalid := valid_getBFGConfig hn hm
    simp only [Config.valid, Bool.and_eq_true, decide_eq_true_eq] at hvalid
    exact hvalid.1.1
  fragments := fragmentCnt_getBFGConfig hn hm
  survives silentSenders silentReceivers hs hr := by
    refine (card_surviving hn hm hs hr).trans (Finset.card_le_card ?_)
    intro i hi
    rw [Finset.mem_filter, Finset.mem_range] at hi ⊢
    exact ⟨hi.1, (surviving_iff hn hm _ _ hi.1).mpr hi.2⟩

end

/-- **The plan is an exact partition that tolerates faults**, and both regions compute the same
configuration. -/
theorem fragment_plan {n m : Nat} (hn : 0 < n) (hm : 0 < m) :
    (∃ rounds, LCM rounds n m = .done (Nat.lcm n m)) ∧ Nat.lcm n m ≤ n * m ∧
      ∃ u u', (∃ rounds, reset rounds n m = .done u) ∧ (∃ rounds, reset rounds m n = .done u') ∧
        IsPlan n m u ∧ u.getBFGConfig = u'.getBFGConfig :=
  ⟨LCM_done hn hm, lcm_le_mul hn hm, plan n m, plan m n, reset_done hn hm, reset_done hm hn,
    isPlan_plan hn hm, getBFGConfig_comm n m⟩

/-- Four servers send to seven. -/
theorem fragment_plan_four_seven :
    ∃ u, (∃ rounds, reset rounds 4 7 = .done u) ∧ u._totalFragments = 28 ∧ IsPlan 4 7 u := by
  obtain ⟨-, -, u, -, hreset, -, hplan, -⟩ := @fragment_plan 4 7 (by decide) (by decide)
  exact ⟨u, hreset, hplan.total, hplan⟩

end FragmentUtil
end MassBFT.Replication
