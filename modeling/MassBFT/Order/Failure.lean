import MassBFT.Order.TotalOrder

/-!
# Agreement when a group is reported to have failed

`invalidateChain f` freezes coordinate `f` at whatever each head happens to hold, and from then
on the value is copied along the chain. So after the report the vectors that a node orders by
are no longer the final ones of the logs: on coordinate `f` they are the votes up to the heads
of that moment, cut off at the frozen values, and the frozen values behind them (`frozenClock`).

Two nodes agree if they order by one clock. They do when they freeze **the same values**: the
clock that is cut off where the slower of the two was then fits both of them, because what the
faster one had delivered in between already carried the frozen value. Without that, they need
not agree.
-/

set_option autoImplicit false

namespace MassBFT.Order.Manager

open Function

variable {G : Nat} {L : VoteLogs G} {cnt : Fin G → Nat} {f : Fin G} {s s' s₀ : Manager G}
  {H : List (Call G)}

/-! ## A node after the report -/

/-- The state of a node that reported group `f` in state `s₀`. -/
structure Reported (L : VoteLogs G) (f : Fin G) (s₀ : Manager G) (cnt : Fin G → Nat)
    (s : Manager G) : Prop where
  reads : Reads L cnt s
  invalid : ∀ v, s.invalidateMap v = true ↔ v = f
  ahead : ∀ g, s₀.buffer g ≤ s.buffer g
  heads : ∀ g, (s.head g).real f = true ∧ (s.head g).watermarks f = (s₀.head g).watermarks f
  delivered : ∀ c ∈ s.delivered, c ∈ s₀.delivered ∨ s₀.buffer c.groupId ≤ c.blockId ∧
    c.real f = true ∧ c.watermarks f = (s₀.head c.groupId).watermarks f

theorem Reported.popped (hs : Reported L f s₀ cnt s) {g : Fin G} (hp : Popped s s' g) :
    Reported L f s₀ cnt s' where
  reads := hs.reads.popped hp
  invalid v := by
    rw [hp.invalid]
    exact hs.invalid v
  ahead h := by
    refine le_trans (hs.ahead h) ?_
    by_cases hne : h = g
    · subst hne
      rw [hp.buffer_self hs.reads.merged]
      exact Nat.le_succ _
    · rw [hp.buffer_of_ne hne]
  heads h := by
    obtain ⟨hreal, hvalue⟩ := hs.heads h
    obtain ⟨hsame, hkeep⟩ := hp.head_frozen hs.reads.merged.exist h f ((hs.invalid f).mpr rfl)
    exact ⟨hkeep hreal, hsame.trans hvalue⟩
  delivered c hc := by
    rw [hp.delivered] at hc
    rcases List.mem_append.mp hc with hc | hc
    · exact hs.delivered c hc
    · rw [List.mem_singleton] at hc
      subst hc
      right
      rw [hs.reads.merged.own, hs.reads.merged.ids]
      exact ⟨hs.ahead g, hs.heads g⟩

theorem Reported.learns {cnt' : Fin G → Nat} (hs : Reported L f s₀ cnt s) (hl : Learns s s')
    (hinv : s'.invalidateMap = s.invalidateMap) (hr : Reads L cnt' s') :
    Reported L f s₀ cnt' s' where
  reads := hr
  invalid v := by
    rw [hinv]
    exact hs.invalid v
  ahead g := by
    rw [hl.buffer]
    exact hs.ahead g
  heads g := by
    obtain ⟨hreal, hvalue⟩ := hs.heads g
    obtain ⟨hreal', hsame⟩ := hl.keeps g f hreal
    exact ⟨hreal', hsame.trans hvalue⟩
  delivered c hc := hs.delivered c (by rwa [hl.delivered] at hc)

/-- A vote that is read after the report. -/
theorem Reported.prepared (hs : Reported L f s₀ cnt s) {v : Fin G} {n : Nat} (hn : n ≤ cnt v)
    (hp : Prepared s (L.call v n) s') :
    Reported L f s₀ (update cnt v (max (cnt v) (n + 1))) s' := by
  have hr := hs.reads.prepared hn hp
  have hex := hs.reads.merged.exist
  generalize hk : L.call v n = k at hp
  cases hp with
  | own g b w =>
    injection hk with hg _ hv _
    exact absurd (hg.trans hv.symm) ((L v).other n)
  | repeated w hv _ => exact hs.learns (learns_create hex _ _) rfl hr
  | voted hne hv => exact hs.learns (hv.learns hex) hv.invalid hr
  | again hf => cases hk
  | frozen hf => cases hk

theorem Frozen.reported (hs : Reading L cnt H s₀) (hf : Frozen s₀ s f) :
    Reported L f s₀ cnt s where
  reads := hs.reads.frozen hf
  invalid v := by
    rw [hf.invalid, update_apply]
    split
    · rename_i hv
      simp [hv]
    · rename_i hv
      simp [hv, hs.valid v]
  ahead g := by rw [hf.buffer]
  heads g := by
    rw [hf.heads]
    exact ⟨update_self _ _ _, rfl⟩
  delivered c hc := Or.inl (by rwa [hf.delivered] at hc)

/-- **A node that reads the logs and reports `f` once.** -/
theorem reported_of_run (hG : 2 ≤ G) {pre post : List (Call G)} {n m : Nat} {t : Manager G}
    (hi : Interleaving L (pre ++ post) cnt) (hpre : run n pre (setGroupCount G) = .done s₀)
    (hrun : run m (pre ++ .invalidateChain f :: post) (setGroupCount G) = .done t) :
    (∃ cnt₀, Reading L cnt₀ pre s₀) ∧ Reported L f s₀ cnt t := by
  induction post using List.reverseRecOn generalizing cnt t with
  | nil =>
    rw [List.append_nil] at hi
    obtain ⟨_, s, hs, hreading⟩ := reading_of_interleaving hG hi
    cases run_done_unique hpre hs
    refine ⟨⟨cnt, hreading⟩, ?_⟩
    obtain ⟨s, hs', hcall⟩ := run_concat_eq_done hrun
    cases run_done_unique hpre hs'
    refine call_invariant (by omega) hreading.reads.merged.exist (fun a ha => ?_)
      (fun a ha => ha.reads.merged.exist) (fun a a' g ha hg => ha.popped hg) hcall
    cases ha with
    | again hf =>
      rw [hreading.valid f] at hf
      cases hf
    | frozen hf => exact hf.reported hreading
  | append_singleton post k ih =>
    rw [← List.append_assoc] at hi
    generalize hcs : pre ++ post ++ [k] = cs at hi
    cases hi with
    | nil => exact absurd hcs (by simp)
    | vote v i hn hi =>
      obtain ⟨rfl, hk⟩ := List.append_inj' hcs rfl
      cases hk
      rw [← List.cons_append, ← List.append_assoc] at hrun
      obtain ⟨t', hrun', hcall⟩ := run_concat_eq_done hrun
      obtain ⟨hreading, hrep⟩ := ih hi hrun'
      refine ⟨hreading, ?_⟩
      exact call_invariant (by omega) hrep.reads.merged.exist (fun a ha => hrep.prepared hn ha)
        (fun a ha => ha.reads.merged.exist) (fun a a' g ha hg => ha.popped hg) hcall

/-! ## The clock of the nodes that freeze the same values -/

/-- The final vectors, with coordinate `f` cut off at `c`: up to block `m g` of group `g` it is
at most `c g`, and from there on it is `c g`. -/
def frozenClock (L : VoteLogs G) (f : Fin G) (m : Fin G → Nat) (c : Fin G → Int) : Clock G :=
  fun g b v =>
    if v = f then if b < m g then min (L.final g b f) (c g) else c g else L.final g b v

theorem frozenClock_grows (m : Fin G → Nat) (c : Fin G → Int) : (frozenClock L f m c).Grows := by
  intro g b v
  have hgrow := L.final_grows g b
  unfold frozenClock
  split
  · split
    · split
      · exact min_le_min (hgrow f) (le_refl _)
      · exact min_le_right _ _
    · rename_i hb
      rw [if_neg (by omega)]
  · exact hgrow v

/-- The clock fits a node if it is cut off where the node had arrived, or earlier by blocks that
have the frozen value anyway. -/
theorem Reported.fits {cnt₀ : Fin G → Nat} (h₀ : Reading L cnt₀ H s₀)
    (hs : Reported L f s₀ cnt s) {m : Fin G → Nat} {c : Fin G → Int}
    (hc : ∀ g, (s₀.head g).watermarks f = c g) (hm : ∀ g, m g ≤ s₀.buffer g)
    (hbetween : ∀ g b, m g ≤ b → c g ≤ L.final g b f) : s.Fits (frozenClock L f m c) := by
  have hvalid : ∀ v, v ≠ f → s.invalidateMap v = false := by
    intro v hv
    by_contra htrue
    exact hv ((hs.invalid v).mp (by simpa using htrue))
  constructor
  · intro x hx v
    unfold frozenClock
    by_cases hv : v = f
    · subst hv
      rw [if_pos rfl]
      rcases hs.delivered x hx with hold | ⟨hge, hreal, hvalue⟩
      · -- Delivered before the report: a vote or an estimate, and not above the frozen value.
        obtain ⟨hle, heq⟩ := h₀.reads.delivered x hold v (h₀.valid v)
        have hrise := h₀.reads.merged.rising x hold v
        rw [hc] at hrise
        split
        · refine ⟨le_min hle hrise, fun hr => ?_⟩
          rw [min_eq_left (by rw [← heq hr]; exact hrise)]
          exact heq hr
        · rename_i hb
          refine ⟨hrise, fun hr => le_antisymm hrise ?_⟩
          rw [heq hr]
          exact hbetween _ _ (not_lt.mp hb)
      · rw [if_neg (not_lt.mpr (le_trans (hm _) hge)), hvalue, hc]
        exact ⟨le_refl _, fun _ => rfl⟩
    · rw [if_neg hv]
      exact hs.reads.delivered x hx v (hvalid v hv)
  · intro g v
    unfold frozenClock
    by_cases hv : v = f
    · subst hv
      obtain ⟨_, hvalue⟩ := hs.heads g
      rw [if_pos rfl, if_neg (not_lt.mpr (le_trans (hm g) (hs.ahead g))), hvalue, hc]
      exact ⟨le_refl _, fun _ => rfl⟩
    · rw [if_neg hv]
      have hcell := hs.reads.cells g (s.buffer g) v (hvalid v hv)
      exact ⟨hcell.le, hcell.eq⟩

/-- What a head holds for a group is not above that group's vote on it or on any later block. -/
theorem Reading.head_le_final (hs : Reading L cnt H s) (g v : Fin G) {b : Nat}
    (hb : s.buffer g ≤ b) : (s.head g).watermarks v ≤ L.final g b v :=
  le_trans (hs.reads.cells g (s.buffer g) v (hs.valid v)).le (L.final_grows.le g v hb)

/-- **Nodes that freeze the same values agree**, wherever in their interleavings they were told
that group `f` has failed. -/
theorem agreement_of_same_frozen_values (hG : 2 ≤ G) (L : VoteLogs G) (f : Fin G)
    (cnt : Fin G → Nat) (preA postA preB postB : List (Call G)) (nA mA nB mB : Nat)
    (sA tA sB tB : Manager G)
    (hiA : Interleaving L (preA ++ postA) cnt) (hiB : Interleaving L (preB ++ postB) cnt)
    (hsA : run nA preA (setGroupCount G) = .done sA)
    (hsB : run nB preB (setGroupCount G) = .done sB)
    (htA : run mA (preA ++ .invalidateChain f :: postA) (setGroupCount G) = .done tA)
    (htB : run mB (preB ++ .invalidateChain f :: postB) (setGroupCount G) = .done tB)
    (hsame : ∀ g, (sA.head g).watermarks f = (sB.head g).watermarks f) :
    tA.blocks <+: tB.blocks ∨ tB.blocks <+: tA.blocks := by
  obtain ⟨⟨_, hA₀⟩, hA⟩ := reported_of_run hG hiA hsA htA
  obtain ⟨⟨_, hB₀⟩, hB⟩ := reported_of_run hG hiB hsB htB
  -- The slower node bounds the frozen value by every vote from where it was.
  have hbetween : ∀ g b, min (sA.buffer g) (sB.buffer g) ≤ b →
      (sB.head g).watermarks f ≤ L.final g b f := by
    intro g b hb
    rcases min_le_iff.mp hb with hb | hb
    · rw [← hsame]
      exact hA₀.head_le_final g f hb
    · exact hB₀.head_le_final g f hb
  have hfitA := hA.fits hA₀ hsame (fun g => min_le_left _ _) hbetween
  have hfitB := hB.fits hB₀ (fun _ => rfl) (fun g => min_le_right _ _) hbetween
  have hgrows := frozenClock_grows (L := L) (f := f) (fun g => min (sA.buffer g) (sB.buffer g))
    fun g => (sB.head g).watermarks f
  exact (hA.reads.merged.initialSegment hgrows hfitA).comparable (rank_injective _)
    (hB.reads.merged.initialSegment hgrows hfitB)

/-- Group 0 votes for block `n` of group 1 at clock `n`, group 1 for block `n` of group 0 at
clock `n + 1`. -/
def skewedLogs : VoteLogs 2 := lockstepLogs fun v => v + 1

/-- The first vote of each, in either order. -/
theorem interleaving_skewedLogs : ∃ cnt,
    Interleaving skewedLogs [skewedLogs.call 1 0, skewedLogs.call 0 0] cnt ∧
      Interleaving skewedLogs [skewedLogs.call 0 0, skewedLogs.call 1 0] cnt := by
  refine ⟨_, .vote 0 0 (by decide) (.vote 1 0 (le_refl _) .nil), ?_⟩
  rw [update_comm (by decide)]
  exact .vote 1 0 (by decide) (.vote 0 0 (le_refl _) .nil)

/-- Both orders of the first two votes, with group 1 reported after them. -/
theorem agreement_of_same_frozen_values_two_votes :
    ∃ tA tB : Manager 2,
      run 5 [skewedLogs.call 1 0, skewedLogs.call 0 0, .invalidateChain 1] (setGroupCount 2) =
        .done tA ∧
      run 5 [skewedLogs.call 0 0, skewedLogs.call 1 0, .invalidateChain 1] (setGroupCount 2) =
        .done tB ∧
      (tA.blocks <+: tB.blocks ∨ tB.blocks <+: tA.blocks) := by
  obtain ⟨cnt, hA, hB⟩ := interleaving_skewedLogs
  refine ⟨_, _, rfl, rfl, ?_⟩
  exact agreement_of_same_frozen_values (le_refl 2) skewedLogs 1 cnt
    [skewedLogs.call 1 0, skewedLogs.call 0 0] [] [skewedLogs.call 0 0, skewedLogs.call 1 0] []
    5 5 5 5 _ _ _ _ hA hB rfl rfl rfl rfl (by decide)

/-- Group 1 votes for block 0 of group 0 at clock 1, group 0 votes for block 0 of group 1 at
clock 0. A node that is told of the failure of group 1 after both votes delivers block 0 of
group 1 and stops; a node that is told between them delivers block 0 of group 0 first. -/
theorem invalidateChain_between_votes_disagrees :
    ∃ (L : VoteLogs 2) (cnt : Fin 2 → Nat) (s t : Manager 2),
      Interleaving L [L.call 1 0, L.call 0 0] cnt ∧ Interleaving L [L.call 0 0, L.call 1 0] cnt ∧
      run 5 [L.call 1 0, L.call 0 0, .invalidateChain 1] (setGroupCount 2) = .done s ∧
      run 5 [L.call 0 0, .invalidateChain 1, L.call 1 0] (setGroupCount 2) = .done t ∧
      ¬s.blocks <+: t.blocks ∧ ¬t.blocks <+: s.blocks := by
  obtain ⟨cnt, hA, hB⟩ := interleaving_skewedLogs
  exact ⟨skewedLogs, cnt, _, _, hA, hB, rfl, rfl, by decide, by decide⟩

end MassBFT.Order.Manager
