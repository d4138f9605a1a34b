import Mathlib.Algebra.Order.BigOperators.Group.Finset
import Mathlib.Data.Nat.GCD.Basic
import Mathlib.Order.Interval.Finset.Nat
import Mathlib.Tactic.Linarith
import MassBFT.Lib.Loop

/-!
# How the fragments of a block are shared out

A block for a remote region is cut into as many fragments as the least common multiple
of the two region sizes, so that every sender owns a window of `_localFPS` fragments and
every receiver a window of `_remoteFPS`. A sender walks through its window and closes a
range wherever a receiver's window ends.

**The ranges are the meets of the windows**: slot `i` is in exactly one range, that range
belongs to sender `i / _localFPS`, and it goes to receiver `i / _remoteFPS`
(`mem_getSenderConfig`, `exists_getSenderConfig`, `getSenderConfig_unique`). The numbers are
natural ones: they are those of the source as long as the product of the sizes is an `int`.
-/

set_option autoImplicit false

namespace MassBFT.Replication

open List

/-- `BlockFragmentGenerator::Config` -/
structure Config where
  dataShardCnt : Nat
  parityShardCnt : Nat
  instanceCount : Nat
  concurrency : Nat
  deriving DecidableEq, Repr

namespace Config

/-- `Config::valid` -/
def valid (cfg : Config) : Bool :=
  0 < cfg.dataShardCnt && 0 < cfg.instanceCount && 0 < cfg.concurrency

/-- `Context::fragmentCnt` -/
def fragmentCnt (cfg : Config) : Nat := cfg.dataShardCnt + cfg.parityShardCnt

end Config

/-- `FragmentUtil` -/
structure FragmentUtil where
  _localServerCount : Nat
  _remoteServerCount : Nat
  _totalFragments : Nat
  _localFPS : Nat
  _remoteFPS : Nat
  deriving DecidableEq, Repr

/-- `FragmentUtil::FragmentConfig` -/
structure FragmentConfig where
  startFragmentId : Nat
  endFragmentId : Nat
  localId : Nat
  remoteId : Nat
  deriving DecidableEq, Repr

/-- Slot `i` is in the range. -/
def FragmentConfig.Holds (c : FragmentConfig) (i : Nat) : Prop :=
  c.startFragmentId ≤ i ∧ i < c.endFragmentId

namespace FragmentUtil

/-- One round of the loop in `LCM`. -/
def lcmRound : Nat × Nat → Except Empty (Option (Nat × Nat))
  | (hcf, temp) =>
    if hcf ≠ temp then
      if hcf > temp then .ok (some (hcf - temp, temp)) else .ok (some (hcf, temp - hcf))
    else
      .ok none

/-- `FragmentUtil::LCM`, for at most `rounds` rounds of its loop. -/
def LCM (rounds n1 n2 : Nat) : Outcome Empty Nat :=
  (loop lcmRound rounds (n1, n2)).bind fun s => .done (n1 * n2 / s.1)

/-- `FragmentUtil::reset` -/
def reset (rounds localServerCount remoteServerCount : Nat) : Outcome Empty FragmentUtil :=
  (LCM rounds localServerCount remoteServerCount).bind fun totalFragments => .done
    { _localServerCount := localServerCount
      _remoteServerCount := remoteServerCount
      _totalFragments := totalFragments
      _localFPS := totalFragments / localServerCount
      _remoteFPS := totalFragments / remoteServerCount }

/-- The body of the loop in `getSenderConfig`: the list so far and `nextStart`. -/
def senderRound (u : FragmentUtil) (localId : Nat) (s : List FragmentConfig × Nat) (i : Nat) :
    List FragmentConfig × Nat :=
  if i % u._remoteFPS = u._remoteFPS - 1 then
    (s.1 ++ [{ startFragmentId := s.2
               endFragmentId := i + 1
               localId := localId
               remoteId := (i + 1 - 1) / u._remoteFPS }], i + 1)
  else
    s

/-- `FragmentUtil::getSenderConfig` -/
def getSenderConfig (u : FragmentUtil) (localId : Nat) : List FragmentConfig :=
  let start := u._localFPS * localId
  let stop := u._localFPS * (localId + 1)
  let s := (List.range' start (stop - start)).foldl (u.senderRound localId) ([], start)
  if s.2 ≠ stop then
    s.1 ++ [{ startFragmentId := s.2
              endFragmentId := stop
              localId := localId
              remoteId := (stop - 1) / u._remoteFPS }]
  else
    s.1

/-- `FragmentUtil::getBFGConfig` -/
def getBFGConfig (u : FragmentUtil) : Config :=
  let localByzantine := (u._localServerCount - 1) / 3
  let remoteByzantine := (u._remoteServerCount - 1) / 3
  let parityShardCnt := remoteByzantine * u._remoteFPS + localByzantine * u._localFPS
  { dataShardCnt := u._totalFragments - parityShardCnt
    parityShardCnt := parityShardCnt
    instanceCount := 1
    concurrency := 1 }

/-! ## The least common multiple -/

theorem gcd_lcmRound {s s' : Nat × Nat} (h : lcmRound s = .ok (some s')) (h1 : 0 < s.1)
    (h2 : 0 < s.2) :
    Nat.gcd s'.1 s'.2 = Nat.gcd s.1 s.2 ∧ 0 < s'.1 ∧ 0 < s'.2 ∧ s'.1 + s'.2 < s.1 + s.2 := by
  obtain ⟨hcf, temp⟩ := s
  unfold lcmRound at h
  dsimp only at h h1 h2 ⊢
  split_ifs at h with hne hgt
  · cases h
    refine ⟨?_, by omega, h2, by omega⟩
    rw [Nat.gcd_sub_self_left (by omega)]
  · cases h
    refine ⟨?_, h1, by omega, by omega⟩
    rw [Nat.gcd_sub_self_right (by omega)]
  · cases h

/-- What the loop of `LCM` keeps. -/
def LcmInv (n1 n2 : Nat) (s : Nat × Nat) : Prop :=
  Nat.gcd s.1 s.2 = Nat.gcd n1 n2 ∧ 0 < s.1 ∧ 0 < s.2

/-- The loop ends, with the greatest common divisor in `hcf`. -/
theorem LCM_done {n1 n2 : Nat} (h1 : 0 < n1) (h2 : 0 < n2) :
    ∃ rounds, LCM rounds n1 n2 = .done (Nat.lcm n1 n2) := by
  have hsafe : ∀ s, LcmInv n1 n2 s → ∃ next, lcmRound s = .ok next := by
    rintro ⟨hcf, temp⟩ _
    unfold lcmRound
    dsimp only
    split_ifs <;> exact ⟨_, rfl⟩
  have hstep : ∀ s s', LcmInv n1 n2 s → lcmRound s = .ok (some s') →
      LcmInv n1 n2 s' ∧ s'.1 + s'.2 < s.1 + s.2 := by
    intro s s' hinv h
    obtain ⟨hg, h1', h2', hlt⟩ := gcd_lcmRound h hinv.2.1 hinv.2.2
    exact ⟨⟨hg.trans hinv.1, h1', h2'⟩, hlt⟩
  have hstart : LcmInv n1 n2 (n1, n2) := ⟨rfl, h1, h2⟩
  obtain ⟨rounds, s, hs, ⟨hgcd, _, _⟩, hend⟩ :=
    loop_done_of_variant (fun s => s.1 + s.2) hsafe hstep hstart
  refine ⟨rounds, ?_⟩
  have heq : s.1 = s.2 := by
    unfold lcmRound at hend
    dsimp only at hend
    split_ifs at hend with hne
    · cases hend
    · cases hend
    · exact of_not_not hne
  rw [LCM, hs, Outcome.bind_done, ← Nat.gcd_self s.1]
  nth_rewrite 2 [heq]
  rw [hgcd]
  rfl

/-- The plan for two regions. -/
def plan (n m : Nat) : FragmentUtil where
  _localServerCount := n
  _remoteServerCount := m
  _totalFragments := Nat.lcm n m
  _localFPS := Nat.lcm n m / n
  _remoteFPS := Nat.lcm n m / m

theorem reset_done {n m : Nat} (hn : 0 < n) (hm : 0 < m) :
    ∃ rounds, reset rounds n m = .done (plan n m) := by
  obtain ⟨rounds, h⟩ := LCM_done hn hm
  exact ⟨rounds, by rw [reset, h, Outcome.bind_done]; rfl⟩

theorem reset_unique {n m rounds : Nat} (hn : 0 < n) (hm : 0 < m) {u : FragmentUtil}
    (h : reset rounds n m = .done u) : u = plan n m := by
  obtain ⟨rounds', h'⟩ := reset_done hn hm
  obtain ⟨x, hx, hu⟩ := Outcome.bind_eq_done h
  obtain ⟨x', hx', hu'⟩ := Outcome.bind_eq_done h'
  obtain ⟨s, hs, hsx⟩ := Outcome.bind_eq_done hx
  obtain ⟨s', hs', hsx'⟩ := Outcome.bind_eq_done hx'
  obtain rfl := loop_unique hs hs'
  obtain rfl := Outcome.done.inj (hsx.symm.trans hsx')
  exact Outcome.done.inj (hu.symm.trans hu')

/-! ## The ranges of one sender -/

/-- No window of length `R` ends in front of `b`, so `a` and `b` are in one window. -/
theorem div_eq_of_no_boundary {R a b : Nat} (hR : 0 < R) (hab : a ≤ b)
    (h : ∀ i, a ≤ i → i < b → i % R ≠ R - 1) : a / R = b / R := by
  induction b, hab using Nat.le_induction with
  | base => rfl
  | succ b hab ih =>
    rw [ih fun i hi hib => h i hi (by omega), Nat.succ_div]
    have hb := h b hab (by omega)
    have hnd : ¬ R ∣ b + 1 := by
      intro hd
      have hmod := Nat.mod_lt b hR
      have hz := Nat.mod_eq_zero_of_dvd hd
      rw [Nat.add_mod] at hz
      rcases Nat.lt_or_ge 1 R with h1 | h1
      · rw [Nat.mod_eq_of_lt h1] at hz
        have := Nat.div_add_mod (b % R + 1) R
        rw [hz] at this
        have hq : (b % R + 1) / R = 0 := Nat.div_eq_of_lt (by omega)
        rw [hq] at this
        omega
      · omega
    rw [if_neg hnd]
    rfl

/-- The ranges in `s.1` share out the slots from `lo` to `s.2`, each inside one window of
the receivers. -/
structure SharesOut (R localId lo : Nat) (s : List FragmentConfig × Nat) : Prop where
  lo_le : lo ≤ s.2
  ranges : ∀ c ∈ s.1, c.localId = localId ∧ lo ≤ c.startFragmentId ∧
    c.startFragmentId < c.endFragmentId ∧ c.endFragmentId ≤ s.2 ∧
    ∀ i, c.Holds i → i / R = c.remoteId
  cover : ∀ i, lo ≤ i → i < s.2 → ∃ c ∈ s.1, c.Holds i
  unique : ∀ c ∈ s.1, ∀ c' ∈ s.1, ∀ i, c.Holds i → c'.Holds i → c = c'

/-- One more range, up to `e`. -/
theorem SharesOut.close {R localId lo : Nat} {l : List FragmentConfig} {next e r : Nat}
    (h : SharesOut R localId lo (l, next)) (hlt : next < e)
    (hwin : ∀ i, next ≤ i → i < e → i / R = r) :
    SharesOut R localId lo (l ++ [⟨next, e, localId, r⟩], e) := by
  have hlo : lo ≤ next := h.lo_le
  refine ⟨by dsimp only; omega, ?_, ?_, ?_⟩
  · intro c hc
    rcases mem_append.mp hc with hc | hc
    · obtain ⟨hid, hs, hse, hle, hdiv⟩ := h.ranges c hc
      dsimp only at hle ⊢
      exact ⟨hid, hs, hse, by omega, hdiv⟩
    · obtain rfl := mem_singleton.mp hc
      exact ⟨rfl, hlo, hlt, le_refl e, fun i hi => hwin i hi.1 hi.2⟩
  · intro i hi hie
    by_cases hin : i < next
    · obtain ⟨c, hc, hci⟩ := h.cover i hi hin
      exact ⟨c, mem_append_left _ hc, hci⟩
    · exact ⟨_, mem_append_right _ (mem_singleton_self _), by dsimp only; omega, hie⟩
  · -- an old range ends where the new one starts
    intro c hc c' hc' i hi hi'
    rcases mem_append.mp hc with hc | hc <;> rcases mem_append.mp hc' with hc' | hc'
    · exact h.unique c hc c' hc' i hi hi'
    · obtain rfl := mem_singleton.mp hc'
      have hle := (h.ranges c hc).2.2.2.1
      have h1 := hi.2
      have h2 := hi'.1
      dsimp only at hle h2
      omega
    · obtain rfl := mem_singleton.mp hc
      have hle := (h.ranges c' hc').2.2.2.1
      have h1 := hi'.2
      have h2 := hi.1
      dsimp only at hle h2
      omega
    · rw [mem_singleton.mp hc, mem_singleton.mp hc']

/-- The loop of `getSenderConfig`, up to slot `lo + k`. -/
theorem sharesOut_foldl {u : FragmentUtil} (hR : 0 < u._remoteFPS) (localId lo k : Nat) :
    let s := (List.range' lo k).foldl (u.senderRound localId) ([], lo)
    SharesOut u._remoteFPS localId lo s ∧ s.2 ≤ lo + k ∧
      ∀ i, s.2 ≤ i → i < lo + k → i % u._remoteFPS ≠ u._remoteFPS - 1 := by
  induction k with
  | zero =>
    refine ⟨⟨le_refl _, by simp, fun i h1 h2 => ?_, by simp⟩, le_refl _, fun i h1 h2 => ?_⟩
    · exact absurd h2 (by simpa using h1)
    · exact absurd h2 (by simpa using h1)
  | succ k ih =>
    dsimp only at ih ⊢
    rw [List.range'_1_concat, foldl_append, foldl_cons, foldl_nil]
    generalize (List.range' lo k).foldl (u.senderRound localId) ([], lo) = s at ih
    obtain ⟨hs, hle, hopen⟩ := ih
    unfold senderRound
    split_ifs with hend
    · -- a window ends here: everything since `nextStart` is in it
      refine ⟨hs.close (by omega) fun i h1 h2 => ?_, le_refl _, fun i h1 h2 => ?_⟩
      · rw [Nat.add_sub_cancel]
        exact div_eq_of_no_boundary hR (by omega) fun j hj hjk => hopen j (by omega) hjk
      · dsimp only at h1
        omega
    · refine ⟨hs, by omega, fun i h1 h2 => ?_⟩
      by_cases hi : i < lo + k
      · exact hopen i h1 hi
      · obtain rfl : i = lo + k := by omega
        exact hend

theorem sharesOut_getSenderConfig {u : FragmentUtil} (hR : 0 < u._remoteFPS) (localId : Nat) :
    SharesOut u._remoteFPS localId (u._localFPS * localId)
      (u.getSenderConfig localId, u._localFPS * (localId + 1)) := by
  have hstop : u._localFPS * localId ≤ u._localFPS * (localId + 1) :=
    Nat.mul_le_mul_left _ (Nat.le_succ localId)
  obtain ⟨hs, hle, hopen⟩ := sharesOut_foldl hR localId (u._localFPS * localId)
    (u._localFPS * (localId + 1) - u._localFPS * localId)
  rw [Nat.add_sub_cancel' hstop] at hle hopen
  unfold getSenderConfig
  dsimp only
  generalize (List.range' _ _).foldl (u.senderRound localId) _ = s at *
  split_ifs with hne
  · refine hs.close (by omega) fun i h1 h2 => ?_
    exact div_eq_of_no_boundary hR (by omega) fun j hj hjk => hopen j (by omega) (by omega)
  · rw [← of_not_not hne]
    exact hs

/-! ## The plan for two regions -/

section

variable {n m : Nat}

theorem localFPS_mul (n m : Nat) : (plan n m)._localFPS * n = Nat.lcm n m :=
  Nat.div_mul_cancel (Nat.dvd_lcm_left n m)

theorem remoteFPS_mul (n m : Nat) : (plan n m)._remoteFPS * m = Nat.lcm n m :=
  Nat.div_mul_cancel (Nat.dvd_lcm_right n m)

theorem fps_pos (hn : 0 < n) (hm : 0 < m) :
    0 < (plan n m)._localFPS ∧ 0 < (plan n m)._remoteFPS := by
  have hT : 0 < Nat.lcm n m := Nat.lcm_pos hn hm
  constructor
  · exact Nat.div_pos (Nat.le_of_dvd hT (Nat.dvd_lcm_left n m)) hn
  · exact Nat.div_pos (Nat.le_of_dvd hT (Nat.dvd_lcm_right n m)) hm

/-- A range belongs to the sender and goes to the receiver whose windows its slots are in. -/
theorem mem_getSenderConfig (hn : 0 < n) (hm : 0 < m) {s i : Nat} {c : FragmentConfig}
    (hc : c ∈ (plan n m).getSenderConfig s) (hi : c.Holds i) :
    i / (plan n m)._localFPS = s ∧ i / (plan n m)._remoteFPS = c.remoteId := by
  obtain ⟨hL, hR⟩ := fps_pos hn hm
  obtain ⟨_, hlo, _, hhi, hdiv⟩ := (sharesOut_getSenderConfig hR s).ranges c hc
  refine ⟨?_, hdiv i hi⟩
  have h1 := hi.1
  have h2 := hi.2
  rw [Nat.div_eq_iff hL]
  rw [Nat.mul_add, Nat.mul_one] at hhi
  rw [Nat.mul_comm] at hlo hhi
  omega

/-- Every slot is in some range of its sender. -/
theorem exists_getSenderConfig (hn : 0 < n) (hm : 0 < m) (i : Nat) :
    ∃ c ∈ (plan n m).getSenderConfig (i / (plan n m)._localFPS), c.Holds i := by
  obtain ⟨hL, hR⟩ := fps_pos hn hm
  refine (sharesOut_getSenderConfig hR _).cover i ?_ ?_
  · exact Nat.mul_div_le i _
  · exact Nat.lt_mul_div_succ i hL

/-- Two ranges of the plan are equal or disjoint. -/
theorem getSenderConfig_unique (hn : 0 < n) (hm : 0 < m) {s s' i : Nat} {c c' : FragmentConfig}
    (hc : c ∈ (plan n m).getSenderConfig s) (hc' : c' ∈ (plan n m).getSenderConfig s')
    (hi : c.Holds i) (hi' : c'.Holds i) : c = c' := by
  obtain rfl := (mem_getSenderConfig hn hm hc hi).1
  obtain h := (mem_getSenderConfig hn hm hc' hi').1
  rw [← h] at hc'
  exact (sharesOut_getSenderConfig (fps_pos hn hm).2 _).unique c hc c' hc' i hi hi'

/-- A range of a sender that exists is a non-empty range of slots that exist. -/
theorem getSenderConfig_bounds (hn : 0 < n) (hm : 0 < m) {s : Nat} (hs : s < n)
    {c : FragmentConfig} (hc : c ∈ (plan n m).getSenderConfig s) :
    c.startFragmentId < c.endFragmentId ∧ c.endFragmentId ≤ Nat.lcm n m := by
  obtain ⟨_, _, hlt, hle, _⟩ := (sharesOut_getSenderConfig (fps_pos hn hm).2 s).ranges c hc
  refine ⟨hlt, hle.trans ?_⟩
  rw [← localFPS_mul n m]
  exact Nat.mul_le_mul_left _ hs

/-! ## Enough fragments survive -/

/-- The slots in the windows of some owners. -/
theorem card_windows_le (S : Finset Nat) {w : Nat} (hw : 0 < w) (T : Nat) :
    ((Finset.range T).filter (fun i => i / w ∈ S)).card ≤ S.card * w := by
  have hsub : (Finset.range T).filter (fun i => i / w ∈ S) ⊆
      S.biUnion fun s => Finset.Ico (w * s) (w * (s + 1)) := by
    intro i hi
    rw [Finset.mem_filter] at hi
    rw [Finset.mem_biUnion]
    exact ⟨i / w, hi.2, Finset.mem_Ico.mpr ⟨Nat.mul_div_le i w, Nat.lt_mul_div_succ i hw⟩⟩
  refine (Finset.card_le_card hsub).trans (Finset.card_biUnion_le_card_mul _ _ _ ?_)
  intro s _
  rw [Nat.card_Ico, Nat.mul_add, Nat.mul_one, Nat.add_sub_cancel_left]

/-- The parity covers what silent nodes take away, and leaves something. -/
theorem three_mul_parity (hn : 0 < n) (hm : 0 < m) :
    3 * (plan n m).getBFGConfig.parityShardCnt < 2 * Nat.lcm n m := by
  obtain ⟨hL, hR⟩ := fps_pos hn hm
  have hthird : ∀ k w : Nat, 0 < k → 3 * ((k - 1) / 3 * w) + w ≤ w * k := by
    intro k w hk
    obtain ⟨k, rfl⟩ : ∃ j, k = j + 1 := ⟨k - 1, by omega⟩
    have := Nat.mul_le_mul_right w (Nat.mul_div_le k 3)
    rw [Nat.add_sub_cancel]
    linarith
  have hl := hthird n (plan n m)._localFPS hn
  have hr := hthird m (plan n m)._remoteFPS hm
  rw [localFPS_mul n m] at hl
  rw [remoteFPS_mul n m] at hr
  have hpar : (plan n m).getBFGConfig.parityShardCnt =
    (m - 1) / 3 * (plan n m)._remoteFPS + (n - 1) / 3 * (plan n m)._localFPS := rfl
  omega

theorem fragmentCnt_getBFGConfig (hn : 0 < n) (hm : 0 < m) :
    (plan n m).getBFGConfig.fragmentCnt = Nat.lcm n m := by
  have h := three_mul_parity hn hm
  have hdata : (plan n m).getBFGConfig.dataShardCnt =
    Nat.lcm n m - (plan n m).getBFGConfig.parityShardCnt := rfl
  rw [Config.fragmentCnt, hdata]
  omega

theorem valid_getBFGConfig (hn : 0 < n) (hm : 0 < m) : (plan n m).getBFGConfig.valid = true := by
  have h := three_mul_parity hn hm
  have hdata : (plan n m).getBFGConfig.dataShardCnt =
    Nat.lcm n m - (plan n m).getBFGConfig.parityShardCnt := rfl
  have hpos : 0 < (plan n m).getBFGConfig.dataShardCnt := by rw [hdata]; omega
  simp [Config.valid, hpos]
  exact ⟨Nat.one_pos, Nat.one_pos⟩

/-- Both regions compute the same configuration. -/
theorem getBFGConfig_comm (n m : Nat) : (plan n m).getBFGConfig = (plan m n).getBFGConfig := by
  simp only [getBFGConfig, plan, Nat.lcm_comm n m]
  congr 1
  · omega
  · omega

/-- **Enough fragments survive**: with at most a third of either region silent, the slots
of the others reach the number of data shards. -/
theorem card_surviving (hn : 0 < n) (hm : 0 < m) {silentSenders silentReceivers : Finset Nat}
    (hs : silentSenders.card ≤ (n - 1) / 3) (hr : silentReceivers.card ≤ (m - 1) / 3) :
    (plan n m).getBFGConfig.dataShardCnt ≤ ((Finset.range (Nat.lcm n m)).filter fun i =>
      i / (plan n m)._localFPS ∉ silentSenders ∧
        i / (plan n m)._remoteFPS ∉ silentReceivers).card := by
  obtain ⟨hL, hR⟩ := fps_pos hn hm
  have hlost : ((Finset.range (Nat.lcm n m)).filter fun i =>
      ¬ (i / (plan n m)._localFPS ∉ silentSenders ∧
        i / (plan n m)._remoteFPS ∉ silentReceivers)).card ≤
      (plan n m).getBFGConfig.parityShardCnt := by
    have hsub : ((Finset.range (Nat.lcm n m)).filter fun i =>
        ¬ (i / (plan n m)._localFPS ∉ silentSenders ∧
          i / (plan n m)._remoteFPS ∉ silentReceivers)) ⊆
        (Finset.range (Nat.lcm n m)).filter (fun i => i / (plan n m)._remoteFPS ∈ silentReceivers) ∪
          (Finset.range (Nat.lcm n m)).filter
            (fun i => i / (plan n m)._localFPS ∈ silentSenders) := by
      intro i hi
      simp only [Finset.mem_filter, Finset.mem_union] at hi ⊢
      tauto
    refine (Finset.card_le_card hsub).trans ((Finset.card_union_le _ _).trans ?_)
    exact Nat.add_le_add
      ((card_windows_le _ hR _).trans (Nat.mul_le_mul_right _ hr))
      ((card_windows_le _ hL _).trans (Nat.mul_le_mul_right _ hs))
  have hsplit := Finset.card_filter_add_card_filter_not (s := Finset.range (Nat.lcm n m))
    (fun i => i / (plan n m)._localFPS ∉ silentSenders ∧
      i / (plan n m)._remoteFPS ∉ silentReceivers)
  rw [Finset.card_range] at hsplit
  have hdata : (plan n m).getBFGConfig.dataShardCnt =
    Nat.lcm n m - (plan n m).getBFGConfig.parityShardCnt := rfl
  rw [hdata]
  omega

end

end FragmentUtil

end MassBFT.Replication
