import MassBFT.Order.VoteLog

/-!
# The order manager as a reader of vote logs

`Reads L cnt s` relates a state to the first `cnt v` votes of every log. It speaks only about
the coordinates of groups that have not been invalidated, and it is kept by every step, also
by the invalidation of a group: this is the part of the state that all readers of the same
logs agree on, wherever they are. An estimate on a head is not above any vote still to be read:
there the order of the logs enters, and it is why the fairness checks of `setIthWaterMark` and
`updateEstimate` pass.
-/

set_option autoImplicit false

namespace MassBFT.Order.Manager

open Function

variable {G : Nat} {L : VoteLogs G} {cnt : Fin G → Nat} {s s' : Manager G} {v : Fin G} {n : Nat}

/-- The state of a reader of the logs. -/
structure Reads (L : VoteLogs G) (cnt : Fin G → Nat) (s : Manager G) : Prop where
  merged : s.Merged
  ids : ∀ g n, (s.cellAt g n).groupId = g ∧ (s.cellAt g n).blockId = n
  cells : ∀ g n v, s.invalidateMap v = false → Cell.Reads L cnt g n v (s.cellAt g n)
  heads : ∀ g v, s.invalidateMap v = false → (s.head g).real v = false →
    ∀ n, cnt v ≤ n → (s.head g).watermarks v ≤ ((L v).entry n).watermark
  size : ∀ g n v, v ≠ g → L.Known cnt g n v → n < s.size g
  delivered : ∀ c ∈ s.delivered, ∀ v, s.invalidateMap v = false →
    c.watermarks v ≤ L.final c.groupId c.blockId v ∧
      (c.real v = true → c.watermarks v = L.final c.groupId c.blockId v)

theorem reads_setGroupCount : Reads L (fun _ => 0) (setGroupCount G) := by
  have hcell : ∀ g n, (setGroupCount G).cellAt g n = Cell.new g n := by
    intro g n
    cases n with
    | zero => rfl
    | succ n => exact cellAt_of_size_le (Nat.le_add_left 1 n)
  refine ⟨merged_setGroupCount, fun g n => ?_, fun g n v _ => ?_, fun g v _ hr n _ => ?_,
    fun g n v hv hk => ?_, fun c hc => absurd hc (by simp [setGroupCount])⟩
  · rw [hcell]
    exact ⟨rfl, rfl⟩
  · rw [hcell]
    exact Cell.Reads.fresh L g n v
  · have hne : v ≠ g := by
      rintro rfl
      have hr' : ((setGroupCount G).cellAt v 0).real v = false := hr
      rw [hcell, (Cell.new_real_iff v v 0).mpr rfl] at hr'
      cases hr'
    show ((setGroupCount G).cellAt g 0).watermarks v ≤ _
    rw [hcell, Cell.new_watermarks_of_ne hne]
    exact (L v).clock_ge n
  · rcases hk with heq | hlt
    · exact absurd heq hv
    · exact absurd hlt (Nat.not_lt_zero _)

/-! ## One delivery -/

/-- The successor of a delivered head exists or is created as the next block. -/
theorem Reads.create_next (hs : Reads L cnt s) (g h : Fin G) (m : Nat) :
    (s.createBlockIfNotExist g ((s.head g).blockId + 1)).cellAt h m = s.cellAt h m := by
  refine cellAt_create_of_le ?_
  rw [hs.merged.ids]
  exact hs.merged.exist g

theorem Reads.popped_cell (hs : Reads L cnt s) {g : Fin G} (hp : Popped s s' g) (h : Fin G)
    (m : Nat) : s'.cellAt h m = if h = g ∧ m = s.buffer g + 1 then
      s.succeed (s.head g) (s.cellAt g (s.buffer g + 1)) else s.cellAt h m := by
  rw [hp.cellAt_eq, hs.create_next, hs.merged.ids]
  split
  · rename_i heq
    obtain ⟨rfl, rfl⟩ := heq
    rfl
  · rfl

/-- The cell that becomes head knows what it knew, and estimates the rest by its predecessor. -/
theorem reads_succeed {g v : Fin G} {prev next : Cell G}
    (hv : s.invalidateMap v = false) (hp : Cell.Reads L cnt g n v prev)
    (hn : Cell.Reads L cnt g (n + 1) v next) :
    Cell.Reads L cnt g (n + 1) v (s.succeed prev next) := by
  have hreal : (s.succeed prev next).real v = next.real v := by
    simp [Manager.succeed, hv]
  have hvalue : (s.succeed prev next).watermarks v =
      if next.real v then next.watermarks v else prev.watermarks v := by
    simp [Manager.succeed, hv]
  refine ⟨?_, fun hr => ?_, ?_⟩
  · rw [hvalue]
    split
    · exact hn.le
    · exact le_trans hp.le (L.final_grows g n v)
  · rw [hreal] at hr
    rw [hvalue, if_pos hr]
    exact hn.eq hr
  · rw [hreal]
    exact hn.known

/-- A new head that has no vote of `v` yet: its estimate is what the old head had for `v`. -/
theorem Reads.succeed_le (hs : Reads L cnt s) (h : Fin G) (hv : s.invalidateMap v = false)
    (hr : (s.succeed (s.head h) (s.cellAt h (s.buffer h + 1))).real v = false) (hn : cnt v ≤ n) :
    (s.succeed (s.head h) (s.cellAt h (s.buffer h + 1))).watermarks v ≤
      ((L v).entry n).watermark := by
  have hr' : (s.cellAt h (s.buffer h + 1)).real v = false := by
    simpa [succeed, hv] using hr
  have hvalue : (s.succeed (s.head h) (s.cellAt h (s.buffer h + 1))).watermarks v =
      (s.head h).watermarks v := by
    simp [succeed, hv, hr']
  rw [hvalue]
  have hold := hs.cells h (s.buffer h) v hv
  cases hrp : (s.head h).real v with
  | false => exact hs.heads h v hv hrp n hn
  | true =>
    have hvg : v ≠ h := by
      rintro rfl
      have hknown := (hs.cells v (s.buffer v + 1) v hv).known.mpr (Or.inl rfl)
      rw [hr'] at hknown
      cases hknown
    have heq : (s.head h).watermarks v = L.final h (s.buffer h) v := hold.eq hrp
    rw [heq]
    exact L.final_le_entry hvg (hold.known.mp hrp) hn

theorem Reads.popped (hs : Reads L cnt s) {g : Fin G} (hp : Popped s s' g) : Reads L cnt s' := by
  have hcell := hs.popped_cell hp
  have hhead : s'.head g = s.succeed (s.head g) (s.cellAt g (s.buffer g + 1)) := by
    show s'.cellAt g (s'.buffer g) = _
    rw [hp.buffer_self hs.merged, hcell, if_pos ⟨rfl, rfl⟩]
  refine ⟨hp.merged hs.merged, fun h m => ?_, fun h m v hv => ?_, fun h v hv hr n hn => ?_,
    fun h m v hv hk => ?_, fun c hc v hv => ?_⟩
  · rw [hcell]
    split
    · rename_i hm
      obtain ⟨rfl, rfl⟩ := hm
      exact hs.ids h _
    · exact hs.ids h m
  · rw [hp.invalid] at hv
    rw [hcell]
    split
    · rename_i hm
      obtain ⟨rfl, rfl⟩ := hm
      exact reads_succeed hv (hs.cells h _ v hv) (hs.cells h _ v hv)
    · exact hs.cells h m v hv
  · rw [hp.invalid] at hv
    by_cases hne : h = g
    · subst hne
      rw [hhead] at hr ⊢
      exact hs.succeed_le h hv hr hn
    · rw [hp.head_of_ne hs.merged.exist hne] at hr ⊢
      exact hs.heads h v hv hr n hn
  · rw [hp.size]
    exact Nat.lt_of_lt_of_le (hs.size h m v hv hk) le_size_create
  · rw [hp.invalid] at hv
    rw [hp.delivered] at hc
    rcases List.mem_append.mp hc with hc | hc
    · exact hs.delivered c hc v hv
    · rw [List.mem_singleton] at hc
      subst hc
      rw [hs.merged.own, hs.merged.ids]
      have hfit := hs.cells g (s.buffer g) v hv
      exact ⟨hfit.le, hfit.eq⟩

/-- The checks of `exchange` pass when the next block's coordinates are not below this one's. -/
theorem Reads.popRound_ok_of_le (hG : G ≠ 0) (hs : Reads L cnt s)
    (hle : ∀ g i, (s.cellAt g (s.buffer g + 1)).real i = true →
      (s.head g).watermarks i ≤ (s.cellAt g (s.buffer g + 1)).watermarks i) :
    ∃ r, s.popRound = .ok r := by
  refine Manager.popRound_ok hG hs.merged.exist hs.merged.own fun g _ next hnext => ?_
  rw [hs.create_next, hs.merged.ids] at hnext
  subst hnext
  obtain ⟨hgrp, hid⟩ := hs.ids g (s.buffer g + 1)
  exact ⟨by rw [hs.merged.ids]; exact hid, hgrp, hle g⟩

/-- The votes on the next block are not below those on this one. -/
theorem Reads.le_successor (hs : Reads L cnt s) {g i : Fin G} (hi : s.invalidateMap i = false)
    (hr : (s.cellAt g (s.buffer g + 1)).real i = true) :
    (s.head g).watermarks i ≤ (s.cellAt g (s.buffer g + 1)).watermarks i := by
  have hle : (s.head g).watermarks i ≤ L.final g (s.buffer g) i := (hs.cells g (s.buffer g) i hi).le
  rw [(hs.cells g (s.buffer g + 1) i hi).eq hr]
  exact le_trans hle (L.final_grows g _ i)

theorem Reads.popRound_ok (hG : G ≠ 0) (hvalid : ∀ v, s.invalidateMap v = false)
    (hs : Reads L cnt s) : ∃ r, s.popRound = .ok r :=
  hs.popRound_ok_of_le hG fun _ i => hs.le_successor (hvalid i)

/-! ## Reading a vote -/

/-- No block id is skipped: when a vote is read, the block in front of it exists. -/
theorem Reads.entry_le_size (hs : Reads L cnt s) (hn : n ≤ cnt v) :
    ((L v).entry n).blockId ≤ s.size ((L v).entry n).groupId := by
  cases hb : ((L v).entry n).blockId with
  | zero => exact Nat.zero_le _
  | succ b =>
    refine hs.size _ b v (Ne.symm ((L v).other n)) (Or.inr ?_)
    have hpos := (L v).position_entry n
    have hlt := (L v).position_lt_succ ((L v).other n) b
    rw [← hb, hpos] at hlt
    omega

theorem Reads.create_entry (hs : Reads L cnt s) (hn : n ≤ cnt v) (h : Fin G) (m : Nat) :
    (s.createBlockIfNotExist ((L v).entry n).groupId ((L v).entry n).blockId).cellAt h m =
      s.cellAt h m :=
  cellAt_create_of_le (hs.entry_le_size hn)

/-- After the creation that comes with a vote, the block of the vote exists as well. -/
theorem Reads.size_entry (hs : Reads L cnt s) (hn : n ≤ cnt v) {g u : Fin G} {m : Nat} (hu : u ≠ g)
    (hk : L.Known (update cnt v (max (cnt v) (n + 1))) g m u) :
    m < (s.createBlockIfNotExist ((L v).entry n).groupId ((L v).entry n).blockId).size g := by
  rcases (L.known_update_iff hn g m u).mp hk with hk | ⟨_, rfl, rfl⟩
  · exact Nat.lt_of_lt_of_le (hs.size g m u hu hk) le_size_create
  · rw [size_create_self]
    omega

/-- A vote of `v` leaves the other coordinates alone. -/
theorem reads_of_ne {g u v : Fin G} {m n : Nat} {c c' : Cell G} (hn : n ≤ cnt v) (hu : u ≠ v)
    (hreal : c'.real u = c.real u) (hvalue : c'.watermarks u = c.watermarks u)
    (hc : Cell.Reads L cnt g m u c) :
    Cell.Reads L (update cnt v (max (cnt v) (n + 1))) g m u c' := by
  refine ⟨by rw [hvalue]; exact hc.le, fun hr => ?_, ?_⟩
  · rw [hvalue]
    exact hc.eq (by rwa [hreal] at hr)
  · rw [hreal, hc.known, L.known_update_iff hn]
    simp [hu]

/-- A cell that the vote is not for keeps its coordinate, or has its estimate raised to it. -/
theorem reads_of_other {g v : Fin G} {m n : Nat} {c c' : Cell G} (hn : n ≤ cnt v)
    (hne : ¬(((L v).entry n).groupId = g ∧ ((L v).entry n).blockId = m))
    (hreal : c'.real v = c.real v) (hvalue : c'.watermarks v = c.watermarks v ∨
      c.real v = false ∧ c'.watermarks v = ((L v).entry n).watermark)
    (hc : Cell.Reads L cnt g m v c) :
    Cell.Reads L (update cnt v (max (cnt v) (n + 1))) g m v c' := by
  have hknown : c'.real v = true ↔ L.Known (update cnt v (max (cnt v) (n + 1))) g m v := by
    rw [hreal, hc.known, L.known_update_iff hn]
    simp [hne]
  rcases hvalue with heq | ⟨hr, heq⟩
  · refine ⟨by rw [heq]; exact hc.le, fun hr => ?_, hknown⟩
    rw [heq]
    exact hc.eq (by rwa [hreal] at hr)
  · refine ⟨?_, fun hr' => ?_, hknown⟩
    · rw [heq]
      refine L.entry_le_final (fun hk => ?_) hn
      rw [hc.known.mpr hk] at hr
      cases hr
    · rw [hreal, hr] at hr'
      cases hr'

/-- The cell that the vote is for. -/
theorem reads_accept {c : Cell G} (hn : n ≤ cnt v) :
    Cell.Reads L (update cnt v (max (cnt v) (n + 1))) ((L v).entry n).groupId
      ((L v).entry n).blockId v (accept v ((L v).entry n).watermark c) := by
  have hvalue : (accept v ((L v).entry n).watermark c).watermarks v =
      ((L v).entry n).watermark := by
    rw [accept_watermarks, if_pos rfl]
  refine ⟨?_, fun _ => ?_, ?_⟩
  · rw [hvalue, L.final_entry]
  · rw [hvalue, L.final_entry]
  · rw [accept_real, if_pos rfl, L.known_update_iff hn]
    simp

section

variable (hs : Reads L cnt s) (hn : n ≤ cnt v)
  (hv : Voted s s' ((L v).entry n).groupId ((L v).entry n).blockId v ((L v).entry n).watermark)
include hs hn hv

/-- After a vote every cell is the voted one, a head whose estimate is raised, or as it was. -/
theorem Reads.cellAt_voted (h : Fin G) (m : Nat) :
    s'.cellAt h m =
      if h = ((L v).entry n).groupId ∧ m = ((L v).entry n).blockId then
        accept v ((L v).entry n).watermark (s.cellAt h m)
      else if m = s.buffer h then raise v ((L v).entry n).watermark (s.cellAt h m)
      else s.cellAt h m := by
  rw [hv.cellAt_eq, hs.create_entry hn]

/-- A vote of another group leaves a coordinate as it was. -/
theorem Reads.coordinate_voted {u : Fin G} (huv : u ≠ v) (h : Fin G) (m : Nat) :
    (s'.cellAt h m).real u = (s.cellAt h m).real u ∧
      (s'.cellAt h m).watermarks u = (s.cellAt h m).watermarks u := by
  rw [hs.cellAt_voted hn hv]
  split
  · rw [accept_real, accept_watermarks, if_neg huv, if_neg huv]
    exact ⟨rfl, rfl⟩
  · split
    · rw [raise_real, raise_watermarks, if_neg (fun he => huv he.1)]
      exact ⟨rfl, rfl⟩
    · exact ⟨rfl, rfl⟩

theorem Reads.cells_voted (h : Fin G) (m : Nat) {u : Fin G} (hu : s.invalidateMap u = false) :
    Cell.Reads L (update cnt v (max (cnt v) (n + 1))) h m u (s'.cellAt h m) := by
  by_cases huv : u = v
  · subst huv
    rw [hs.cellAt_voted hn hv]
    split
    · rename_i hm
      obtain ⟨rfl, rfl⟩ := hm
      exact reads_accept hn
    · rename_i hm
      refine reads_of_other hn (fun he => hm ⟨he.1.symm, he.2.symm⟩) ?_ ?_ (hs.cells h m u hu)
      · split
        · rw [raise_real]
        · rfl
      · split
        · rw [raise_watermarks]
          split
          · rename_i hr
            exact Or.inr ⟨hr.2, rfl⟩
          · exact Or.inl rfl
        · exact Or.inl rfl
  · obtain ⟨hreal, hvalue⟩ := hs.coordinate_voted hn hv huv h m
    exact reads_of_ne hn huv hreal hvalue (hs.cells h m u hu)

/-- The estimates on the heads stay below the votes to come. -/
theorem Reads.heads_voted {h u : Fin G} (hu : s.invalidateMap u = false)
    (hr : (s'.head h).real u = false) {k : Nat} (hk : update cnt v (max (cnt v) (n + 1)) u ≤ k) :
    (s'.head h).watermarks u ≤ ((L u).entry k).watermark := by
  have hold : (s.head h).real u = false := by
    by_contra hr'
    rw [((hv.learns hs.merged.exist).keeps h u (by simpa using hr')).1] at hr
    cases hr
  by_cases huv : u = v
  · -- The estimate was raised to the vote, and the votes behind it are not smaller.
    subst huv
    rw [update_self] at hk
    have hne : ¬(h = ((L u).entry n).groupId ∧ s.buffer h = ((L u).entry n).blockId) := by
      rintro ⟨rfl, hb⟩
      obtain ⟨hhead, _⟩ := hv.head_self hs.merged.exist hb
      rw [hhead, accept_real, if_pos rfl] at hr
      cases hr
    rw [hv.heads h hne, raise_watermarks, if_pos ⟨rfl, hold⟩]
    exact (L u).clock_mono _ _ (by omega)
  · rw [update_of_ne huv] at hk
    have hsame : (s'.head h).watermarks u = (s.head h).watermarks u := by
      show (s'.cellAt h (s'.buffer h)).watermarks u = (s.cellAt h (s.buffer h)).watermarks u
      rw [hv.buffer]
      exact (hs.coordinate_voted hn hv huv h (s.buffer h)).2
    rw [hsame]
    exact hs.heads h u hu hold k hk

theorem Reads.voted :
    Reads L (update cnt v (max (cnt v) (n + 1))) s' := by
  have hl := hv.learns hs.merged.exist
  refine ⟨hl.merged (hv.headsExist hs.merged.exist) hs.merged, fun h m => ?_, fun h m u hu => ?_,
    fun h u hu hr k hk => ?_, fun h m u hu hk => ?_, fun c hc u hu => ?_⟩
  · rw [hs.cellAt_voted hn hv]
    split
    · exact hs.ids h m
    · split
      · rw [raise_groupId, raise_blockId]
        exact hs.ids h m
      · exact hs.ids h m
  · rw [hv.invalid] at hu
    exact hs.cells_voted hn hv h m hu
  · rw [hv.invalid] at hu
    exact hs.heads_voted hn hv hu hr hk
  · rw [hv.size]
    exact hs.size_entry hn hu hk
  · rw [hv.invalid] at hu
    rw [hv.delivered] at hc
    exact hs.delivered c hc u hu

end

/-- A vote that is real already says nothing new. -/
theorem Reads.repeated (hs : Reads L cnt s) (hn : n ≤ cnt v)
    (hr : (s.cellAt ((L v).entry n).groupId ((L v).entry n).blockId).real v = true) :
    Reads L (update cnt v (max (cnt v) (n + 1)))
      (s.createBlockIfNotExist ((L v).entry n).groupId ((L v).entry n).blockId) := by
  have hcell := hs.create_entry hn
  have hhead : ∀ h, (s.createBlockIfNotExist ((L v).entry n).groupId
      ((L v).entry n).blockId).head h = s.head h := fun h => hcell h (s.buffer h)
  refine ⟨?_, fun h m => ?_, fun h m u hu => ?_, fun h u hu hr' k hk => ?_,
    fun h m u hu hk => hs.size_entry hn hu hk, hs.delivered⟩
  · refine (learns_create hs.merged.exist _ _).merged (fun h => ?_) hs.merged
    exact Nat.lt_of_lt_of_le (hs.merged.exist h) le_size_create
  · rw [hcell]
    exact hs.ids h m
  · rw [hcell]
    have hc := hs.cells h m u hu
    refine ⟨hc.le, hc.eq, hc.known.trans ?_⟩
    rw [L.known_update_iff hn]
    refine ⟨Or.inl, fun hk => ?_⟩
    rcases hk with hk | ⟨rfl, rfl, rfl⟩
    · exact hk
    · exact hc.known.mp hr
  · rw [hhead] at hr' ⊢
    refine hs.heads h u hu hr' k (le_trans ?_ hk)
    rw [update_apply]
    split
    · rename_i huv
      subst huv
      exact Nat.le_max_left _ _
    · exact le_refl _

/-- Only the reality of coordinate `f` changes, and only on heads. -/
theorem Frozen.cell {f : Fin G} (hf : Frozen s s' f) (h : Fin G) (m : Nat) :
    (s'.cellAt h m).groupId = (s.cellAt h m).groupId ∧
      (s'.cellAt h m).blockId = (s.cellAt h m).blockId ∧
      (s'.cellAt h m).watermarks = (s.cellAt h m).watermarks ∧
      ∀ u, u ≠ f → (s'.cellAt h m).real u = (s.cellAt h m).real u := by
  rw [hf.cellAt_eq]
  split
  · exact ⟨rfl, rfl, rfl, fun u hu => update_of_ne hu _ _⟩
  · exact ⟨rfl, rfl, rfl, fun _ _ => rfl⟩

theorem Reads.frozen (hs : Reads L cnt s) {f : Fin G} (hf : Frozen s s' f) : Reads L cnt s' := by
  have hopen : ∀ u, s'.invalidateMap u = false → u ≠ f ∧ s.invalidateMap u = false := by
    intro u hu
    rw [hf.invalid, update_apply] at hu
    split at hu
    · cases hu
    · rename_i huf
      exact ⟨huf, hu⟩
  refine ⟨hf.learns.merged (hf.headsExist hs.merged.exist) hs.merged, fun h m => ?_,
    fun h m u hu => ?_, fun h u hu hr k hk => ?_, fun h m u hu hk => ?_, fun c hc u hu => ?_⟩
  · obtain ⟨hgrp, hid, _⟩ := hf.cell h m
    rw [hgrp, hid]
    exact hs.ids h m
  · obtain ⟨huf, hu⟩ := hopen u hu
    obtain ⟨_, _, hvalue, hreal⟩ := hf.cell h m
    have hc := hs.cells h m u hu
    refine ⟨by rw [hvalue]; exact hc.le, fun hr => ?_, by rw [hreal u huf]; exact hc.known⟩
    rw [hvalue]
    exact hc.eq (by rwa [hreal u huf] at hr)
  · obtain ⟨huf, hu⟩ := hopen u hu
    rw [hf.heads] at hr ⊢
    refine hs.heads h u hu ?_ k hk
    have hr' : update (s.head h).real f true u = false := hr
    rwa [update_of_ne huf] at hr'
  · rw [hf.size]
    exact hs.size h m u hu hk
  · rw [hf.delivered] at hc
    exact hs.delivered c hc u (hopen u hu).2

/-- What a vote from a log prepares is a state that has read it. -/
theorem Reads.prepared (hs : Reads L cnt s) (hn : n ≤ cnt v) (hp : Prepared s (L.call v n) s') :
    Reads L (update cnt v (max (cnt v) (n + 1))) s' := by
  generalize hk : L.call v n = k at hp
  cases hp with
  | own g b w =>
    injection hk with hg _ hv _
    exact absurd (hg.trans hv.symm) ((L v).other n)
  | repeated w hv hr =>
    injection hk with hg hb hv' _
    subst hg hb hv'
    rw [hs.create_entry hn] at hr
    exact hs.repeated hn hr
  | voted hne hv =>
    injection hk with hg hb hv' hw
    subst hg hb hv' hw
    exact hs.voted hn hv
  | again hf => cases hk
  | frozen hf => cases hk

end MassBFT.Order.Manager
