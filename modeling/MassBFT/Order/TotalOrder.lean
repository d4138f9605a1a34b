import MassBFT.Order.Reader

/-!
# One total order for all readers of the logs

As long as no group is invalidated, a reader of the vote logs never fails a check, every call
returns, and what has been delivered is an initial segment of the order in which the *final*
vectors stand. Two readers can then only differ in how far they have come.

The three parts come from three places: the checks pass because of `Reads`, the loop stops
because of `Backed`, and the order is right because of `Merged` — the final vectors fit every
state of a reader (`Reads.fits`).
-/

set_option autoImplicit false

namespace MassBFT.Order.Manager

variable {G : Nat} {L : VoteLogs G} {cnt : Fin G → Nat} {s s' : Manager G} {H : List (Call G)}

theorem Reads.fits (hs : Reads L cnt s) (hvalid : ∀ v, s.invalidateMap v = false) :
    s.Fits L.final where
  delivered c hc v := hs.delivered c hc v (hvalid v)
  heads g v := by
    have hc := hs.cells g (s.buffer g) v (hvalid v)
    exact ⟨hc.le, hc.eq⟩

/-- A vote that is not real yet is the next one of its log, and passes the fairness checks. -/
theorem Reads.voteFair (hs : Reads L cnt s) {v : Fin G} {n : Nat} (hn : n ≤ cnt v)
    (hvalid : s.invalidateMap v = false)
    (hfresh : (s.cellAt ((L v).entry n).groupId ((L v).entry n).blockId).real v = false) :
    VoteFair s ((L v).entry n).groupId ((L v).entry n).blockId v ((L v).entry n).watermark := by
  have hcell := hs.cells ((L v).entry n).groupId ((L v).entry n).blockId v hvalid
  have hnext : cnt v ≤ n := by
    by_contra hlt
    have hknown : L.Known cnt ((L v).entry n).groupId ((L v).entry n).blockId v := by
      right
      rw [(L v).position_entry]
      exact not_le.mp hlt
    rw [hcell.known.mpr hknown] at hfresh
    cases hfresh
  constructor
  · rw [hs.create_entry hn, ← L.final_entry v n]
    exact hcell.le
  · intro h _ hr
    refine ⟨fun heq => ?_, hs.heads h v hvalid hr n hnext⟩
    -- The own coordinate of a head is real from the beginning.
    rw [hs.merged.own] at heq
    have hown := (hs.cells h (s.buffer h) v hvalid).known.mpr (Or.inl heq.symm)
    have hr' : (s.cellAt h (s.buffer h)).real v = false := hr
    rw [hown] at hr'
    cases hr'

/-- What a reader keeps while it pops. -/
structure Reading (L : VoteLogs G) (cnt : Fin G → Nat) (H : List (Call G)) (s : Manager G) :
    Prop where
  reads : Reads L cnt s
  backed : Backed H s
  valid : ∀ v, s.invalidateMap v = false

theorem Reading.popped (hs : Reading L cnt H s) {g : Fin G} (hp : Popped s s' g) :
    Reading L cnt H s' where
  reads := hs.reads.popped hp
  backed := hp.backed hs.backed
  valid v := by
    rw [hp.invalid]
    exact hs.valid v

theorem Reading.popBlocks_returns (hG : G ≠ 0) (hs : Reading L cnt H s) :
    ∃ fuel t, s.popBlocks fuel = .done t ∧ Reading L cnt H t := by
  obtain ⟨N, hN⟩ := Evidence.bounded H
  have hloop := loop_done_of_variant (room N)
    (fun a (ha : Reading L cnt H a) => ha.reads.popRound_ok hG ha.valid)
    (fun a a' ha hround => by
      obtain ⟨g, hg⟩ := popRound_eq_some ha.reads.merged.exist hround
      refine ⟨ha.popped hg, hg.room_lt ha.reads.merged (hN g _ ?_)⟩
      exact ha.backed.evidence_of_least hg.least) hs
  obtain ⟨fuel, t, hrun, ht, _⟩ := hloop
  exact ⟨fuel, t, hrun, ht⟩

/-- **Reading one more vote**: no check fails, and the call returns. -/
theorem Reading.vote (hG : 2 ≤ G) (hs : Reading L cnt H s) {v : Fin G} {n : Nat}
    (hn : n ≤ cnt v) : ∃ fuel t, s.call fuel (L.call v n) = .done t ∧
      Reading L (Function.update cnt v (max (cnt v) (n + 1))) (H ++ [L.call v n]) t := by
  have hprep : ∀ a, Prepared s (L.call v n) a → (∀ u, a.invalidateMap u = false) →
      Reading L (Function.update cnt v (max (cnt v) (n + 1))) (H ++ [L.call v n]) a :=
    fun a ha hvalid => ⟨hs.reads.prepared hn ha, ha.backed trivial hs.backed, hvalid⟩
  have hne : v ≠ ((L v).entry n).groupId := Ne.symm ((L v).other n)
  rcases pushDecision_cases (by omega) hs.reads.merged.exist hne ((L v).entry n).watermark with
    ⟨hr, hc⟩ | ⟨hr, hunfair, _⟩ | ⟨a, ha, hc⟩
  · exact ⟨0, _, hc 0, hprep _ (.repeated _ hne hr) hs.valid⟩
  · rw [hs.reads.create_entry hn] at hr
    exact absurd (hs.reads.voteFair hn (hs.valid v) hr) hunfair
  · have hvalid : ∀ u, a.invalidateMap u = false := by
      intro u
      rw [ha.invalid]
      exact hs.valid u
    obtain ⟨fuel, t, hrun, ht⟩ := (hprep a (.voted hne ha) hvalid).popBlocks_returns (by omega)
    exact ⟨fuel, t, (hc fuel).trans hrun, ht⟩

theorem reading_of_interleaving (hG : 2 ≤ G) {cs : List (Call G)} (h : Interleaving L cs cnt) :
    ∃ fuel s, run fuel cs (setGroupCount G) = .done s ∧ Reading L cnt cs s := by
  induction h with
  | nil => exact ⟨0, _, rfl, reads_setGroupCount, backed_setGroupCount hG, fun _ => rfl⟩
  | vote v n hn _ ih =>
    obtain ⟨m, s, hrun, hs⟩ := ih
    obtain ⟨k, t, hcall, ht⟩ := hs.vote hG hn
    exact ⟨max m k, t, run_concat_done hrun hcall, ht⟩

/-- **The order manager implements one total order.** Whatever interleaving of the logs a node
reads, every call returns and the blocks it has delivered are, in order and without gaps, the
first ones in the order of the final vectors; so of two nodes one has delivered a prefix of
what the other has. -/
theorem delivers_one_total_order (hG : 2 ≤ G) (L : VoteLogs G) :
    (∀ cs cnt, Interleaving L cs cnt → ∃ fuel s, run fuel cs (setGroupCount G) = .done s ∧
      InitialSegment (rank L.final) s.blocks ∧ s.blocks.Nodup) ∧
    ∀ cs cnt ds cnt' fuel fuel' s t, Interleaving L cs cnt → Interleaving L ds cnt' →
      run fuel cs (setGroupCount G) = .done s → run fuel' ds (setGroupCount G) = .done t →
      s.blocks <+: t.blocks ∨ t.blocks <+: s.blocks := by
  have hsegment : ∀ cs cnt, Interleaving L cs cnt → ∃ fuel s,
      run fuel cs (setGroupCount G) = .done s ∧ InitialSegment (rank L.final) s.blocks := by
    intro cs cnt hcs
    obtain ⟨fuel, s, hrun, hs⟩ := reading_of_interleaving hG hcs
    have hfits := hs.reads.fits hs.valid
    exact ⟨fuel, s, hrun, hs.reads.merged.initialSegment L.final_grows hfits⟩
  constructor
  · intro cs cnt hcs
    obtain ⟨fuel, s, hrun, hseg⟩ := hsegment cs cnt hcs
    exact ⟨fuel, s, hrun, hseg, hseg.nodup⟩
  · intro cs cnt ds cnt' fuel fuel' s t hcs hds hs ht
    obtain ⟨_, s', hs', hseg⟩ := hsegment cs cnt hcs
    obtain ⟨_, t', ht', hseg'⟩ := hsegment ds cnt' hds
    cases run_done_unique hs hs'
    cases run_done_unique ht ht'
    exact hseg.comparable (rank_injective _) hseg'

/-- Two groups that vote for each other's blocks in turn, with clocks that are `lead` ahead of
the smallest possible ones. -/
def lockstepLogs (lead : Fin 2 → Nat) : VoteLogs 2 := fun v =>
  { entry := fun n => { groupId := 1 - v, blockId := n, watermark := (n : Int) + lead v - 1 }
    other := fun _ => (by decide : ∀ v : Fin 2, 1 - v ≠ v) v
    complete := fun g hg b => ⟨b, (by decide : ∀ v g : Fin 2, g ≠ v → 1 - v = g) v g hg, rfl⟩
    increasing := fun _ _ hlt _ => hlt
    clock_ge := fun n => by dsimp only; omega
    clock_mono := fun m n hle => by dsimp only; omega }

/-- One node has read two votes of each log, another one vote of each, the last of them twice. -/
theorem delivers_one_total_order_lockstep :
    ∃ (L : VoteLogs 2) (fuel fuel' : Nat) (s t : Manager 2),
      run fuel [L.call 0 0, L.call 0 1, L.call 1 0, L.call 1 1] (setGroupCount 2) = .done s ∧
      run fuel' [L.call 1 0, L.call 0 0, L.call 0 0] (setGroupCount 2) = .done t ∧
      InitialSegment (rank L.final) s.blocks ∧
      (s.blocks <+: t.blocks ∨ t.blocks <+: s.blocks) := by
  have h₁ := Interleaving.vote 1 1 (le_refl _) (.vote 1 0 (by decide) (.vote 0 1 (le_refl _)
    (.vote 0 0 (le_refl _) (Interleaving.nil (L := lockstepLogs fun _ => 0)))))
  have h₂ := Interleaving.vote 0 0 (by decide) (.vote 0 0 (by decide) (.vote 1 0 (le_refl _)
    (Interleaving.nil (L := lockstepLogs fun _ => 0))))
  obtain ⟨hall, hprefix⟩ := delivers_one_total_order (le_refl 2) (lockstepLogs fun _ => 0)
  obtain ⟨fuel, s, hs, hseg, _⟩ := hall _ _ h₁
  obtain ⟨fuel', t, ht, _⟩ := hall _ _ h₂
  exact ⟨_, fuel, fuel', s, t, hs, ht, hseg, hprefix _ _ _ _ _ _ _ _ h₁ h₂ hs ht⟩

end MassBFT.Order.Manager
