import MassBFT.Order.Rank

/-!
# The merge is sound for every clock the state has not ruled out

`Merged` is what every run keeps, whatever the votes are and whichever groups have been
invalidated. Its heart is the clause `ordered`: the manager does not know the final vectors, so
the clause speaks about **all** clocks that fit what it has seen — the cells as they were when
they were delivered, and the heads as they are now. Under each of them, what was delivered is
in order and below everything that was not.

Fitting is the only thing that has to be shown about the votes, and it is shown once, at the
end of a run: a later state is harder to fit than an earlier one.
-/

set_option autoImplicit false

namespace MassBFT.Order.Manager

open Function List

variable {G : Nat} {s s' : Manager G} {W : Clock G} {g : Fin G}

/-- The clock is compatible with what the manager has acted upon, and with its heads. -/
structure Fits (s : Manager G) (W : Clock G) : Prop where
  delivered : ∀ c ∈ s.delivered, c.Fits (W c.groupId c.blockId)
  heads : ∀ g, (s.head g).Fits (W g (s.buffer g))

/-- The invariant of the merge. -/
structure Merged (s : Manager G) : Prop where
  exist : s.HeadsExist
  own : ∀ g, (s.head g).groupId = g
  ids : ∀ g, (s.head g).blockId = s.buffer g
  mem : ∀ x, x ∈ s.blocks ↔ x.2 < s.buffer x.1
  rising : ∀ c ∈ s.delivered, ∀ v, c.watermarks v ≤ (s.head c.groupId).watermarks v
  ordered : ∀ W : Clock G, W.Grows → s.Fits W →
    (s.blocks.Pairwise fun x y => rank W x < rank W y) ∧
      ∀ x ∈ s.blocks, ∀ g, rank W x < rank W (g, s.buffer g)

theorem merged_setGroupCount : (setGroupCount G).Merged where
  exist _ := Nat.one_pos
  own _ := rfl
  ids _ := rfl
  mem x := ⟨fun hx => absurd hx (by simp [blocks, setGroupCount]),
    fun hx => absurd hx (Nat.not_lt_zero _)⟩
  rising c hc := absurd hc (by simp [setGroupCount])
  ordered W _ _ := ⟨by simp [blocks, setGroupCount], by simp [blocks, setGroupCount]⟩

/-! ## One delivery -/

section

variable (hp : Popped s s' g)
include hp

theorem Popped.buffer_self (hs : s.Merged) : s'.buffer g = s.buffer g + 1 := by
  rw [hp.buffer, update_self, hs.ids]

theorem Popped.buffer_of_ne {h : Fin G} (hne : h ≠ g) : s'.buffer h = s.buffer h := by
  rw [hp.buffer, update_of_ne hne]

theorem Popped.blocks (hs : s.Merged) : s'.blocks = s.blocks ++ [(g, s.buffer g)] := by
  unfold Manager.blocks
  rw [hp.delivered, map_append, map_singleton, hs.own, hs.ids]

/-- The new head is not below the one it replaces. -/
theorem Popped.head_rises (v : Fin G) : (s.head g).watermarks v ≤ (s'.head g).watermarks v := by
  obtain ⟨next, _, _, _, hge, hhead⟩ := hp.successor
  rw [hhead]
  show _ ≤ if s.invalidateMap v then _ else _
  split
  · exact le_refl _
  · split
    · rename_i hr
      exact hge v hr
    · exact le_refl _

theorem Popped.fits (hs : s.Merged) (hf : s'.Fits W) : s.Fits W where
  delivered c hc := hf.delivered c (by rw [hp.delivered]; exact mem_append_left _ hc)
  heads h := by
    by_cases hne : h = g
    · -- The head that left is in the list of what was delivered now.
      subst hne
      have hmem : s.head h ∈ s'.delivered := by
        rw [hp.delivered]
        exact mem_append_right _ mem_cons_self
      have hfit := hf.delivered _ hmem
      rwa [hs.own, hs.ids] at hfit
    · have hfit := hf.heads h
      rwa [hp.head_of_ne hs.exist hne, hp.buffer_of_ne hne] at hfit

/-- The delivered head is below every other head, and below its own successor. -/
theorem Popped.rank_lt (hs : s.Merged) (hW : W.Grows)
    (hf : s.Fits W) (h : Fin G) : rank W (g, s.buffer g) < rank W (h, s'.buffer h) := by
  by_cases hne : h = g
  · subst hne
    rw [hp.buffer_self hs]
    exact hW.rank_lt_succ h _
  · rw [hp.buffer_of_ne hne]
    have hids : (s.head g).groupId ≠ (s.head h).groupId := by
      rw [hs.own, hs.own]
      exact Ne.symm hne
    have hkey := mustLessThan_key hids (hp.least h) (hf.heads g) (fun v => (hf.heads h v).1)
    rwa [hs.own, hs.own, hs.ids, hs.ids] at hkey

theorem Popped.rising (hs : s.Merged) {c : Cell G}
    (hc : c ∈ s'.delivered) (v : Fin G) : c.watermarks v ≤ (s'.head c.groupId).watermarks v := by
  rw [hp.delivered] at hc
  rcases mem_append.mp hc with hc | hc
  · have hle := hs.rising c hc v
    by_cases hne : c.groupId = g
    · rw [hne] at hle ⊢
      exact le_trans hle (hp.head_rises v)
    · rwa [hp.head_of_ne hs.exist hne]
  · rw [mem_singleton] at hc
    subst hc
    rw [hs.own]
    exact hp.head_rises v

/-- The block that leaves is above all that left before, and below all heads. -/
theorem Popped.ordered (hs : s.Merged) (hW : W.Grows)
    (hf : s'.Fits W) : (s'.blocks.Pairwise fun x y => rank W x < rank W y) ∧
      ∀ x ∈ s'.blocks, ∀ h, rank W x < rank W (h, s'.buffer h) := by
  have hfs := hp.fits hs hf
  obtain ⟨hsorted, hlt⟩ := hs.ordered W hW hfs
  have hnew := hp.rank_lt hs hW hfs
  rw [hp.blocks hs]
  constructor
  · rw [pairwise_append]
    refine ⟨hsorted, pairwise_singleton _ _, fun x hx y hy => ?_⟩
    rw [mem_singleton] at hy
    subst hy
    exact hlt x hx g
  · intro x hx h
    rcases mem_append.mp hx with hx | hx
    · exact lt_trans (hlt x hx g) (hnew h)
    · rw [mem_singleton] at hx
      subst hx
      exact hnew h

theorem Popped.merged (hs : s.Merged) : s'.Merged where
  exist := hp.headsExist hs.exist
  own h := by
    by_cases hne : h = g
    · subst hne
      obtain ⟨next, _, _, hgrp, _, hhead⟩ := hp.successor
      rw [hhead]
      exact hgrp
    · rw [hp.head_of_ne hs.exist hne]
      exact hs.own h
  ids h := by
    by_cases hne : h = g
    · subst hne
      obtain ⟨next, _, hid, _, _, hhead⟩ := hp.successor
      rw [hhead, hp.buffer_self hs, ← hs.ids]
      exact hid
    · rw [hp.head_of_ne hs.exist hne, hp.buffer_of_ne hne]
      exact hs.ids h
  mem := by
    rintro ⟨h, b⟩
    rw [hp.blocks hs, mem_append, hs.mem, mem_singleton, Prod.mk.injEq]
    by_cases hne : h = g
    · subst hne
      show b < s.buffer h ∨ h = h ∧ b = s.buffer h ↔ b < s'.buffer h
      rw [hp.buffer_self hs]
      omega
    · show b < s.buffer h ∨ h = g ∧ b = s.buffer g ↔ b < s'.buffer h
      rw [hp.buffer_of_ne hne]
      simp [hne]
  rising _ hc v := hp.rising hs hc v
  ordered _ hW hf := hp.ordered hs hW hf

end

/-! ## The other steps only make the state harder to fit -/

/-- A step that delivers nothing and after which every head knows at least as much. -/
structure Learns (s s' : Manager G) : Prop where
  buffer : s'.buffer = s.buffer
  delivered : s'.delivered = s.delivered
  own : ∀ g, (s'.head g).groupId = (s.head g).groupId
  ids : ∀ g, (s'.head g).blockId = (s.head g).blockId
  rises : ∀ g v, (s.head g).watermarks v ≤ (s'.head g).watermarks v
  keeps : ∀ g v, (s.head g).real v = true →
    (s'.head g).real v = true ∧ (s'.head g).watermarks v = (s.head g).watermarks v

theorem Learns.fits (hl : Learns s s') (hf : s'.Fits W) : s.Fits W where
  delivered c hc := hf.delivered c (by rw [hl.delivered]; exact hc)
  heads g v := by
    obtain ⟨hle, hreal⟩ := hf.heads g v
    rw [hl.buffer] at hle hreal
    refine ⟨le_trans (hl.rises g v) hle, fun hr => ?_⟩
    obtain ⟨hr', heq⟩ := hl.keeps g v hr
    rw [← heq]
    exact hreal hr'

theorem Learns.blocks (hl : Learns s s') : s'.blocks = s.blocks := by
  unfold Manager.blocks
  rw [hl.delivered]

theorem Learns.merged (hl : Learns s s') (hex : s'.HeadsExist) (hs : s.Merged) : s'.Merged where
  exist := hex
  own g := (hl.own g).trans (hs.own g)
  ids g := by rw [hl.ids, hl.buffer, hs.ids]
  mem x := by rw [hl.blocks, hl.buffer, hs.mem]
  rising c hc v := by
    rw [hl.delivered] at hc
    exact le_trans (hs.rising c hc v) (hl.rises _ v)
  ordered W hW hf := by
    rw [hl.blocks, hl.buffer]
    exact hs.ordered W hW (hl.fits hf)

theorem learns_create (hs : s.HeadsExist) (g : Fin G) (b : Nat) :
    Learns s (s.createBlockIfNotExist g b) := by
  have hhead : ∀ h, (s.createBlockIfNotExist g b).head h = s.head h :=
    fun h => cellAt_create_of_lt (hs h)
  refine ⟨rfl, rfl, ?_, ?_, ?_, ?_⟩ <;> intro h <;> rw [hhead]
  · exact fun v => le_refl _
  · exact fun v hr => ⟨hr, rfl⟩

theorem accept_watermarks {v i : Fin G} {w : Int} {c : Cell G} :
    (accept v w c).watermarks i = if i = v then w else c.watermarks i := by
  simp [accept, update_apply]

theorem accept_real {v i : Fin G} {w : Int} {c : Cell G} :
    (accept v w c).real i = if i = v then true else c.real i := by
  simp [accept, update_apply]

/-- A vote for a head is accepted there, so it was missing and not too low. -/
theorem Voted.head_self {g v : Fin G} {b : Nat} {w : Int} (hv : Voted s s' g b v w)
    (hs : s.HeadsExist) (hb : s.buffer g = b) :
    s'.head g = accept v w (s.head g) ∧ (s.head g).real v = false ∧
      (s.head g).watermarks v ≤ w := by
  have hcell : (s.createBlockIfNotExist g b).cellAt g b = s.head g := by
    rw [← hb]
    exact cellAt_create_of_lt (hs g)
  have hvoted := hv.voted
  have hfresh := hv.fresh
  have hfair := hv.fair.cell
  rw [hcell] at hvoted hfresh hfair
  refine ⟨?_, hfresh, hfair⟩
  rw [← hvoted]
  show s'.cellAt g (s'.buffer g) = s'.cellAt g b
  rw [hv.buffer, hb]

theorem Voted.learns {g v : Fin G} {b : Nat} {w : Int} (hv : Voted s s' g b v w)
    (hs : s.HeadsExist) : Learns s s' := by
  have hcases : ∀ h, (s.head h).real v = false ∧ (s.head h).watermarks v ≤ w ∧
        s'.head h = accept v w (s.head h) ∨ s'.head h = raise v w (s.head h) ∧
        ((s.head h).real v = false → (s.head h).watermarks v ≤ w) := by
    intro h
    by_cases hne : h = g ∧ s.buffer h = b
    · obtain ⟨rfl, hb⟩ := hne
      obtain ⟨hhead, hfresh, hfair⟩ := hv.head_self hs hb
      exact Or.inl ⟨hfresh, hfair, hhead⟩
    · exact Or.inr ⟨hv.heads h hne, fun hr => (hv.fair.heads h hne hr).2⟩
  refine ⟨hv.buffer, hv.delivered, fun h => ?_, fun h => ?_, fun h i => ?_, fun h i hr => ?_⟩
  · rcases hcases h with ⟨_, _, hh⟩ | ⟨hh, _⟩ <;> rw [hh]
    · rfl
    · exact raise_groupId
  · rcases hcases h with ⟨_, _, hh⟩ | ⟨hh, _⟩ <;> rw [hh]
    · rfl
    · exact raise_blockId
  · rcases hcases h with ⟨_, hle, hh⟩ | ⟨hh, hle⟩ <;> rw [hh]
    · rw [accept_watermarks]
      split
      · rename_i hi
        exact hi ▸ hle
      · exact le_refl _
    · rw [raise_watermarks]
      split
      · rename_i hi
        exact hi.1 ▸ hle hi.2
      · exact le_refl _
  · rcases hcases h with ⟨hfr, _, hh⟩ | ⟨hh, _⟩ <;> rw [hh]
    · have hi : i ≠ v := by
        rintro rfl
        exact absurd hr (by simp [hfr])
      rw [accept_real, accept_watermarks, if_neg hi, if_neg hi]
      exact ⟨hr, rfl⟩
    · rw [raise_real, raise_watermarks, if_neg]
      · exact ⟨hr, rfl⟩
      · rintro ⟨rfl, hfalse⟩
        exact absurd hr (by simp [hfalse])

theorem Frozen.learns {f : Fin G} (hf : Frozen s s' f) : Learns s s' := by
  refine ⟨hf.buffer, hf.delivered, fun h => ?_, fun h => ?_, fun h i => ?_, fun h i hr => ?_⟩ <;>
    rw [hf.heads]
  · rfl
  · rfl
  · exact le_refl _
  · refine ⟨?_, rfl⟩
    show update (s.head h).real f true i = true
    rw [update_apply, hr, ite_self]

/-! ## Runs -/

theorem Prepared.merged {k : Call G} (hp : Prepared s k s') (hs : s.Merged) : s'.Merged := by
  cases hp with
  | own g b w => exact hs
  | repeated w hv hr =>
    refine (learns_create hs.exist _ _).merged (fun h => ?_) hs
    exact Nat.lt_of_lt_of_le (hs.exist h) le_size_create
  | voted hne hv => exact (hv.learns hs.exist).merged (hv.headsExist hs.exist) hs
  | again hf => exact hs
  | frozen hf => exact hf.learns.merged (hf.headsExist hs.exist) hs

theorem Merged.call (hG : G ≠ 1) (hs : s.Merged) {fuel : Nat} {k : Call G}
    (hc : s.call fuel k = .done s') : s'.Merged :=
  call_invariant hG hs.exist (fun _ hp => hp.merged hs) (fun _ ha => ha.exist)
    (fun _ _ _ ha hp => hp.merged ha) hc

theorem Merged.run (hG : G ≠ 1) {fuel : Nat} : ∀ {cs : List (Call G)} {s : Manager G}, s.Merged →
    Manager.run fuel cs s = .done s' → s'.Merged
  | [], s, hs, hr => by
    cases hr
    exact hs
  | k :: cs, s, hs, hr => by
    obtain ⟨t, hc, hr⟩ := Outcome.bind_eq_done hr
    exact Merged.run hG (hs.call hG hc) hr

/-- **The result of the merge**: under every clock that fits the state, what was delivered is an
initial segment of the total order. -/
theorem Merged.initialSegment (hs : s.Merged) (hW : W.Grows) (hf : s.Fits W) :
    InitialSegment (rank W) s.blocks := by
  obtain ⟨hsorted, hlt⟩ := hs.ordered W hW hf
  refine ⟨hsorted, fun x hx y hyx => ?_⟩
  rw [hs.mem]
  by_contra hy
  -- A block that was not delivered is not below the head of its group.
  have hle : rank W (y.1, s.buffer y.1) ≤ rank W y := hW.rank_le y.1 (not_lt.mp hy)
  exact absurd (lt_of_lt_of_le (hlt x hx y.1) hle) (not_lt.mpr hyx.le)

end MassBFT.Order.Manager
