import MassBFT.Order.Failure
import MassBFT.Order.Redelivery
import MassBFT.Order.Termination

/-!
# When the report of a failed group aborts the node

`invalidateChain f` compares coordinate `f` of every head with the height of chain `f`. The
height is the highest block or clock of the group that a vote has spoken of. On the heads of
the other groups the coordinate is such a clock, or still unset. On the head of `f` itself it is
the number of that block, and nobody need have voted on that: the check fails in the
initial state, and whenever group `f` is reported before a vote has reached its head.

**The report aborts the node exactly if no vote is evidence for the head of the group**
(`report_safe_iff`). If it does not, none of the votes that are still to come can fail a
check: behind the heads coordinate `f` has its votes, on the heads it is real, and what was
frozen is not above any later vote (`Harmless`).
-/

set_option autoImplicit false

namespace MassBFT.Order

open List

variable {G : Nat} {L : VoteLogs G} {cnt : Fin G → Nat} {f : Fin G}

namespace Manager

variable {s s' s₀ t : Manager G}

/-! ## The heights -/

section

/-- `chains[f].height`. -/
def height (s : Manager G) (f : Fin G) : Int := (s.chains f).height

@[simp] theorem height_create (g : Fin G) (b : Nat) :
    (s.createBlockIfNotExist g b).height f = s.height f := by
  by_cases hf : f = g
  · subst hf
    simp [height, createBlockIfNotExist]
  · simp [height, createBlockIfNotExist, hf]

@[simp] theorem height_setCell (g : Fin G) (n : Nat) (c : Cell G) :
    (s.setCell g n c).height f = s.height f := by
  by_cases hf : f = g
  · subst hf
    simp [height, setCell]
  · simp [height, setCell, hf]

@[simp] theorem height_modifyHeads (h : Cell G → Cell G) :
    (s.modifyHeads h).height f = s.height f := rfl

theorem height_raiseHeight (g : Fin G) (z : Int) :
    (s.raiseHeight g z).height f = if f = g then max (s.height f) z else s.height f := by
  by_cases hf : f = g
  · subst hf
    simp [height, raiseHeight]
  · simp [height, raiseHeight, hf]

theorem height_le_raiseHeight (g : Fin G) (z : Int) :
    s.height f ≤ (s.raiseHeight g z).height f := by
  rw [height_raiseHeight]
  split_ifs
  · exact le_max_left _ _
  · exact le_rfl

theorem le_height_raiseHeight (g : Fin G) (z : Int) : z ≤ (s.raiseHeight g z).height g := by
  rw [height_raiseHeight, if_pos rfl]
  exact le_max_right _ _

theorem popRound_height (h : s.popRound = .ok (some s')) : s'.height f = s.height f := by
  unfold popRound at h
  split at h
  · cases h
  · cases h
  dsimp only at h
  split at h
  · cases h
  rename_i hex
  cases h
  obtain ⟨_, _, _, _, rfl⟩ := exchange_eq_ok hex
  exact (height_setCell _ _ _).trans (height_create _ _)

theorem popBlocks_height {fuel : Nat} (h : s.popBlocks fuel = .done t) :
    t.height f = s.height f := by
  have hkeep : ∀ a a' : Manager G, a.height f = s.height f → a.popRound = .ok (some a') →
      a'.height f = s.height f := fun a a' ha hround => (popRound_height hround).trans ha
  exact (loop_invariant hkeep rfl h).1

theorem pushDecision_of_real (hG : G ≠ 1) {g v : Fin G} {b : Nat} (hv : v ≠ g)
    (hr : ((s.createBlockIfNotExist g b).cellAt g b).real v = true) (w : Int) (fuel : Nat) :
    s.pushDecision fuel g b v w = .done (s.createBlockIfNotExist g b) := by
  simp only [pushDecision, if_neg hG, if_neg hv, setIthWaterMark_of_real hr]

/-- A new vote raises the height of the voter and that of the block. -/
theorem pushDecision_height (hG : G ≠ 1) {g v : Fin G} {b : Nat} {w : Int} (hv : v ≠ g)
    (hr : ((s.createBlockIfNotExist g b).cellAt g b).real v = false) {fuel : Nat}
    (h : s.pushDecision fuel g b v w = .done t) :
    t.height f = ((s.raiseHeight v w).raiseHeight g b).height f := by
  simp only [pushDecision, if_neg hG, if_neg hv] at h
  by_cases hcell : ((s.createBlockIfNotExist g b).cellAt g b).watermarks v ≤ w
  · rw [setIthWaterMark_of_le hr hcell] at h
    obtain ⟨a, ha, hpop⟩ := Outcome.bind_eq_done h
    unfold updateEstimate at ha
    split at ha
    · cases ha
    split at ha
    · cases ha
    cases ha
    rw [popBlocks_height hpop, height_modifyHeads]
    simp only [height_raiseHeight, height_setCell, height_create]
  · rw [setIthWaterMark_of_lt hr hcell] at h
    cases h

/-- The number comes from a vote of `f` or on a block of `f`, or no vote has come. -/
def HeightBacked (H : List (Call G)) (f : Fin G) (z : Int) : Prop :=
  z = -1 ∨ (∃ b v w, Call.pushDecision f b v w ∈ H ∧ z = b) ∨ ∃ g b, Call.pushDecision g b f z ∈ H

variable {H : List (Call G)}

theorem HeightBacked.append {z : Int} (h : HeightBacked H f z) (k : Call G) :
    HeightBacked (H ++ [k]) f z := by
  rcases h with hlow | ⟨b, v, w, hm, heq⟩ | ⟨g, b, hm⟩
  · exact Or.inl hlow
  · exact Or.inr (Or.inl ⟨b, v, w, mem_append_left _ hm, heq⟩)
  · exact Or.inr (Or.inr ⟨g, b, mem_append_left _ hm⟩)

theorem HeightBacked.raiseHeight {g : Fin G} {z : Int}
    (h : HeightBacked H f (s.height f)) (hz : HeightBacked H g z) :
    HeightBacked H f ((s.raiseHeight g z).height f) := by
  rw [height_raiseHeight]
  split_ifs with hf
  · subst hf
    rcases max_choice (s.height f) z with hold | hnew
    · rwa [hold]
    · rwa [hnew]
  · exact h

/-- The heights after the votes in `H`. -/
structure Recorded (H : List (Call G)) (s : Manager G) : Prop where
  floor : ∀ f, -1 ≤ s.height f
  votes : ∀ g b v w, Call.pushDecision g b v w ∈ H → (b : Int) ≤ s.height g ∧ w ≤ s.height v
  backed : ∀ f, s.height f = -1 ∨ (∃ b v w, Call.pushDecision f b v w ∈ H ∧ s.height f = b) ∨
    ∃ g b, Call.pushDecision g b f (s.height f) ∈ H

theorem recorded_setGroupCount : Recorded [] (setGroupCount G) where
  floor _ := le_rfl
  votes _ _ _ _ hm := absurd hm (by simp)
  backed _ := Or.inl rfl

/-- **The height of a chain reaches a block if and only if a vote is evidence for it.** -/
theorem Recorded.le_height_iff (hs : Recorded H s) (f : Fin G) (b : Nat) :
    (b : Int) ≤ s.height f ↔ Evidence H f b := by
  constructor
  · intro hle
    rcases hs.backed f with hlow | ⟨b', v, w, hm, heq⟩ | ⟨g, b', hm⟩
    · omega
    · rw [heq] at hle
      exact Or.inl ⟨b', v, w, hm, Int.ofNat_le.mp hle⟩
    · exact Or.inr ⟨g, b', _, hm, hle⟩
  · rintro (⟨b', v, w, hm, hle⟩ | ⟨g, b', w, hm, hle⟩)
    · exact le_trans (Int.ofNat_le.mpr hle) (hs.votes f b' v w hm).1
    · exact le_trans hle (hs.votes g b' f w hm).2

theorem Recorded.repeated (hs : Recorded H s) {k : Call G} (hk : k ∈ H)
    (hsame : ∀ f, t.height f = s.height f) : Recorded (H ++ [k]) t := by
  have hsub : ∀ c ∈ H ++ [k], c ∈ H := by
    intro c hc
    rcases mem_append.mp hc with hc | hc
    · exact hc
    · rw [mem_singleton.mp hc]
      exact hk
  refine ⟨fun f => ?_, fun g b v w hm => ?_, fun f => ?_⟩
  · rw [hsame]
    exact hs.floor f
  · rw [hsame, hsame]
    exact hs.votes g b v w (hsub _ hm)
  · rw [hsame]
    exact HeightBacked.append (hs.backed f) k

theorem Recorded.raised (hs : Recorded H s) {g v : Fin G} {b : Nat} {w : Int}
    (hup : ∀ f, t.height f = ((s.raiseHeight v w).raiseHeight g b).height f) :
    Recorded (H ++ [.pushDecision g b v w]) t := by
  have hgrow : ∀ u, s.height u ≤ t.height u := by
    intro u
    rw [hup]
    exact (height_le_raiseHeight v w).trans (height_le_raiseHeight g b)
  have hlast : Call.pushDecision g b v w ∈ H ++ [.pushDecision g b v w] := by simp
  refine ⟨fun u => le_trans (hs.floor u) (hgrow u), fun g' b' v' w' hm => ?_, fun u => ?_⟩
  · rcases mem_append.mp hm with hm | hm
    · obtain ⟨hb, hw⟩ := hs.votes g' b' v' w' hm
      exact ⟨le_trans hb (hgrow g'), le_trans hw (hgrow v')⟩
    · cases mem_singleton.mp hm
      rw [hup, hup]
      exact ⟨le_height_raiseHeight g b,
        (le_height_raiseHeight v w).trans (height_le_raiseHeight g b)⟩
  · rw [hup]
    have hvoter := HeightBacked.raiseHeight (HeightBacked.append (hs.backed u) _)
      (Or.inr (Or.inr ⟨g, b, hlast⟩) : HeightBacked _ v w)
    exact hvoter.raiseHeight (Or.inr (Or.inl ⟨b, v, w, hlast, rfl⟩))

/-- One vote of a log. A vote that has been read is among the calls already. -/
theorem Reading.recorded_vote (hG : 2 ≤ G) (hs : Reading L cnt H s)
    (hr : Recorded H s) (hread : ∀ v n, n < cnt v → L.call v n ∈ H) {v : Fin G} {n : Nat}
    (hn : n ≤ cnt v) {fuel : Nat} (h : s.call fuel (L.call v n) = .done t) :
    Recorded (H ++ [L.call v n]) t := by
  have hv : v ≠ ((L v).entry n).groupId := Ne.symm ((L v).other n)
  have hknown := (hs.reads.cells ((L v).entry n).groupId ((L v).entry n).blockId v
    (hs.valid v)).known
  rw [VoteLogs.Known, (L v).position_entry, or_iff_right hv, ← hs.reads.create_entry hn] at hknown
  by_cases hlt : n < cnt v
  · have hdone := pushDecision_of_real (by omega) hv (hknown.mpr hlt)
      ((L v).entry n).watermark fuel
    cases hdone.symm.trans h
    exact hr.repeated (hread v n hlt) fun _ => height_create _ _
  · refine hr.raised fun _ => pushDecision_height (by omega) hv ?_ h
    rw [← Bool.not_eq_true, hknown]
    exact hlt

end

end Manager

theorem Interleaving.redelivered {cs : List (Call G)} (h : Interleaving L cs cnt) :
    Redelivered (fun v => (L v).entry) cs cnt := by
  induction h with
  | nil => exact .nil
  | vote v n hn _ ih => exact .vote v n hn ih

namespace Manager

variable {s s' s₀ t : Manager G} {H : List (Call G)} {cnt₀ : Fin G → Nat} {n : Nat}

/-- **The heights that an interleaving of the logs leaves.** -/
theorem recorded_of_interleaving (hG : 2 ≤ G) {cs : List (Call G)} (h : Interleaving L cs cnt)
    {fuel : Nat} (hrun : run fuel cs (setGroupCount G) = .done s) : Recorded cs s := by
  induction h generalizing s with
  | nil =>
    cases hrun
    exact recorded_setGroupCount
  | vote v n hn h ih =>
    obtain ⟨a, ha, hcall⟩ := run_concat_eq_done hrun
    obtain ⟨_, a', ha', hs⟩ := reading_of_interleaving hG h
    cases run_done_unique ha ha'
    exact hs.recorded_vote hG (ih ha) (fun _ _ => h.redelivered.mem) hn hcall

/-! ## The check of `invalidateChain` -/

theorem Reading.head_own (hs : Reading L cnt H s) (f : Fin G) :
    (s.head f).watermarks f = s.buffer f := by
  have hvalue := (hs.backed.cells f (s.buffer f)).own (hs.valid f)
  have hid : (s.cellAt f (s.buffer f)).blockId = s.buffer f := hs.reads.merged.ids f
  rwa [hid] at hvalue

/-- The coordinate of `f` is not above the height on any head if it is not on its own. -/
theorem Reading.heads_le_height (hs : Reading L cnt H s) (hr : Recorded H s)
    (hown : (s.buffer f : Int) ≤ s.height f) (g : Fin G) :
    (s.head g).watermarks f ≤ s.height f := by
  by_cases hg : f = g
  · subst hg
    rw [hs.head_own]
    exact hown
  · rcases (hs.backed.cells g (s.buffer g)).clock f hg with hunset | ⟨h, b, hm⟩
    · exact le_trans hunset.le (hr.floor f)
    · exact (hr.votes h b f _ hm).2

theorem invalidateChain_aborts (hf : s.invalidateMap f = false) {g : Fin G}
    (hg : s.height f < (s.head g).watermarks f) (fuel : Nat) :
    s.invalidateChain fuel f = .failed .aboveHeight := by
  have hhigh : ∃ g, (s.chains f).height < (s.head g).watermarks f := ⟨g, hg⟩
  simp [invalidateChain, invalidateHeads, hf, hhigh]

theorem invalidateChain_frozen (hs : s.HeadsExist) (hf : s.invalidateMap f = false)
    (hle : ∀ g, (s.head g).watermarks f ≤ s.height f) :
    ∃ s', Frozen s s' f ∧ ∀ fuel, s.invalidateChain fuel f = s'.popBlocks fuel := by
  rcases invalidateChain_cases hs f with ⟨hf', _⟩ | ⟨_, ⟨g, hg⟩, _⟩ | hfrozen
  · rw [hf] at hf'
    cases hf'
  · exact absurd (hle g) (not_le.mpr hg)
  · exact hfrozen

/-! ## After the report -/

/-- A node after the report of `f`: no vote of `f` that is still to come is below an estimate,
and behind the heads the votes of `f` are what they are in its log. -/
structure Harmless (L : VoteLogs G) (f : Fin G) (s₀ : Manager G) (cnt : Fin G → Nat)
    (s : Manager G) : Prop where
  reported : Reported L f s₀ cnt s
  estimates : ∀ g n, (s.cellAt g n).real f = false → (s.cellAt g n).watermarks f ≤ L.final g n f
  votes : ∀ g n, s.buffer g < n → (s.cellAt g n).real f = true →
    (s.cellAt g n).watermarks f = L.final g n f

theorem Frozen.harmless (h₀ : Reading L cnt H s₀) (hf : Frozen s₀ s f) : Harmless L f s₀ cnt s := by
  have hrep := hf.reported h₀
  refine ⟨hrep, fun g n hr => ?_, fun g n hn hr => ?_⟩
  · by_cases hb : n = s₀.buffer g
    · subst hb
      have hreal := (hrep.heads g).1
      rw [head, hf.buffer, hr] at hreal
      cases hreal
    · rw [hf.others g n hb]
      exact (h₀.reads.cells g n f (h₀.valid f)).le
  · rw [hf.buffer] at hn
    rw [hf.others g n hn.ne'] at hr ⊢
    exact (h₀.reads.cells g n f (h₀.valid f)).eq hr

section

variable (hs : Harmless L f s₀ cnt s)
include hs

theorem Harmless.popped {g : Fin G} (hp : Popped s s' g) :
    Harmless L f s₀ cnt s' := by
  have hcell := hs.reported.reads.popped_cell hp
  refine ⟨hs.reported.popped hp, fun h m hr => ?_, fun h m hm hr => ?_⟩
  · rw [hcell] at hr ⊢
    split at hr
    · -- The new head is real at `f`, because its predecessor was.
      have hreal : (s.succeed (s.head g) (s.cellAt g (s.buffer g + 1))).real f = true := by
        simp [succeed, (hs.reported.invalid f).mpr rfl]
      rw [hreal] at hr
      cases hr
    · rename_i hne
      rw [if_neg hne]
      exact hs.estimates h m hr
  · have hne : ¬(h = g ∧ m = s.buffer g + 1) := by
      rintro ⟨rfl, rfl⟩
      rw [hp.buffer_self hs.reported.reads.merged] at hm
      exact lt_irrefl _ hm
    have hbehind : s.buffer h < m := by
      by_cases hg : h = g
      · subst hg
        rw [hp.buffer_self hs.reported.reads.merged] at hm
        exact lt_trans (Nat.lt_succ_self _) hm
      · rwa [hp.buffer_of_ne hg] at hm
    rw [hcell, if_neg hne] at hr ⊢
    exact hs.votes h m hbehind hr

/-- No check fails while blocks are delivered: what was frozen is not above a later vote. -/
theorem Harmless.popRound_ok (hG : G ≠ 0) (h₀ : Reading L cnt₀ H s₀) : ∃ r, s.popRound = .ok r := by
  refine hs.reported.reads.popRound_ok_of_le hG fun g i hr => ?_
  by_cases hi : i = f
  · subst hi
    rw [(hs.reported.heads g).2, hs.votes g _ (Nat.lt_succ_self _) hr]
    exact h₀.head_le_final g i (le_trans (hs.reported.ahead g) (Nat.le_succ _))
  · refine hs.reported.reads.le_successor ?_ hr
    rw [← Bool.not_eq_true, hs.reported.invalid]
    exact hi

theorem Harmless.popBlocks_safe (hG : G ≠ 0) (h₀ : Reading L cnt₀ H s₀) (fuel : Nat) :
    (s.popBlocks fuel).Safe (Harmless L f s₀ cnt) := by
  refine loop_safe (fun a ha => ha.popRound_ok hG h₀) (fun a a' ha hround => ?_) hs fuel
  obtain ⟨g, hg⟩ := popRound_eq_some ha.reported.reads.merged.exist hround
  exact ha.popped hg

/-- After a vote coordinate `f` of a cell is as it was, or it is the vote of `f`. -/
theorem Harmless.coordinate_voted {v : Fin G}
    (hn : n ≤ cnt v) (hv : Voted s s' ((L v).entry n).groupId ((L v).entry n).blockId v
      ((L v).entry n).watermark) (h : Fin G) (m : Nat) :
    ((s'.cellAt h m).real f = (s.cellAt h m).real f ∧
        (s'.cellAt h m).watermarks f = (s.cellAt h m).watermarks f) ∨
      ((s'.cellAt h m).real f = true ∧ (s'.cellAt h m).watermarks f = L.final h m f) := by
  by_cases hvf : f = v
  · subst hvf
    rw [hs.reported.reads.cellAt_voted hn hv]
    split
    · rename_i hm
      obtain ⟨rfl, rfl⟩ := hm
      right
      rw [accept_real, accept_watermarks, if_pos rfl, if_pos rfl, L.final_entry]
      exact ⟨rfl, rfl⟩
    · left
      split
      · -- Estimates of `f` are not raised any more: its coordinate is real on every head.
        rename_i hb
        subst hb
        have hreal : (s.cellAt h (s.buffer h)).real f = true := (hs.reported.heads h).1
        rw [raise_of_real hreal]
        exact ⟨rfl, rfl⟩
      · exact ⟨rfl, rfl⟩
  · exact Or.inl (hs.reported.reads.coordinate_voted hn hv hvf h m)

theorem Harmless.prepared {v : Fin G} (hn : n ≤ cnt v) (hp : Prepared s (L.call v n) s') :
    Harmless L f s₀ (Function.update cnt v (max (cnt v) (n + 1))) s' := by
  have hrep := hs.reported.prepared hn hp
  generalize hk : L.call v n = k at hp
  cases hp with
  | own g b w =>
    injection hk with hg _ hv _
    exact absurd (hg.trans hv.symm) ((L v).other n)
  | repeated w hv hr =>
    injection hk with hg hb hv' _
    subst hg hb hv'
    have hcell := hs.reported.reads.create_entry hn
    refine ⟨hrep, fun h m hr' => ?_, fun h m hm hr' => ?_⟩
    · rw [hcell] at hr' ⊢
      exact hs.estimates h m hr'
    · rw [hcell] at hr' ⊢
      exact hs.votes h m hm hr'
  | voted hne hv =>
    injection hk with hg hb hv' hw
    subst hg hb hv' hw
    refine ⟨hrep, fun h m hr => ?_, fun h m hm hr => ?_⟩
    · rcases hs.coordinate_voted hn hv h m with ⟨hreal, hvalue⟩ | ⟨hreal, _⟩
      · rw [hreal] at hr
        rw [hvalue]
        exact hs.estimates h m hr
      · rw [hreal] at hr
        cases hr
    · rcases hs.coordinate_voted hn hv h m with ⟨hreal, hvalue⟩ | ⟨_, hvalue⟩
      · rw [hreal] at hr
        rw [hv.buffer] at hm
        rw [hvalue]
        exact hs.votes h m hm hr
      · exact hvalue
  | again hf => cases hk
  | frozen hf => cases hk

/-- A vote that has not been read passes the fairness checks, also if it is one of `f`. -/
theorem Harmless.voteFair {v : Fin G} (hn : n ≤ cnt v)
    (hfresh : (s.cellAt ((L v).entry n).groupId ((L v).entry n).blockId).real v = false) :
    VoteFair s ((L v).entry n).groupId ((L v).entry n).blockId v ((L v).entry n).watermark := by
  by_cases hvf : v = f
  · subst hvf
    refine ⟨?_, fun h _ hr => ?_⟩
    · rw [hs.reported.reads.create_entry hn, ← L.final_entry]
      exact hs.estimates _ _ hfresh
    · rw [(hs.reported.heads h).1] at hr
      cases hr
  · refine hs.reported.reads.voteFair hn ?_ hfresh
    rw [← Bool.not_eq_true, hs.reported.invalid]
    exact hvf

theorem Harmless.vote (hG : 2 ≤ G) (h₀ : Reading L cnt₀ H s₀) {v : Fin G}
    (hn : n ≤ cnt v) (fuel : Nat) : (s.call fuel (L.call v n)).Safe
      (Harmless L f s₀ (Function.update cnt v (max (cnt v) (n + 1)))) := by
  have hne : v ≠ ((L v).entry n).groupId := Ne.symm ((L v).other n)
  rcases pushDecision_cases (by omega) hs.reported.reads.merged.exist hne
    ((L v).entry n).watermark with ⟨hr, hc⟩ | ⟨hr, hunfair, _⟩ | ⟨a, ha, hc⟩
  · have hcall : s.call fuel (L.call v n) = .done _ := hc fuel
    rw [hcall]
    exact hs.prepared hn (.repeated _ hne hr)
  · rw [hs.reported.reads.create_entry hn] at hr
    exact absurd (hs.voteFair hn hr) hunfair
  · have hcall : s.call fuel (L.call v n) = a.popBlocks fuel := hc fuel
    rw [hcall]
    exact (hs.prepared hn (.voted hne ha)).popBlocks_safe (by omega) h₀ fuel

end

/-! ## Whole runs -/

theorem run_safe_of_done {cs : List (Call G)}
    (h : run n cs (setGroupCount G) = .done s) (fuel : Nat) :
    (run fuel cs (setGroupCount G)).Safe (· = s) := by
  cases hrun : run fuel cs (setGroupCount G) with
  | done t => exact run_done_unique hrun h
  | failed e => exact checksPass_of_done h fuel e hrun
  | timeout => trivial

/-- **Once the report has passed its own check, no later vote fails one.** -/
theorem run_report_safe (hG : 2 ≤ G) {pre post : List (Call G)}
    (hpre : run n pre (setGroupCount G) = .done s) (h₀ : Reading L cnt₀ pre s)
    (hle : ∀ g, (s.head g).watermarks f ≤ s.height f) (hi : Interleaving L (pre ++ post) cnt)
    (fuel : Nat) : (run fuel (pre ++ .invalidateChain f :: post) (setGroupCount G)).Safe
      (Harmless L f s cnt) := by
  induction post using List.reverseRecOn generalizing cnt with
  | nil =>
    rw [append_nil] at hi
    obtain ⟨_, s', hs', hread⟩ := reading_of_interleaving hG hi
    cases run_done_unique hpre hs'
    obtain ⟨a, ha, hcall⟩ := invalidateChain_frozen h₀.reads.merged.exist (h₀.valid f) hle
    rw [run_append]
    refine (run_safe_of_done hpre fuel).bind fun t ht => ?_
    subst ht
    have hfirst : t.call fuel (.invalidateChain f) = a.popBlocks fuel := hcall fuel
    rw [run, hfirst]
    exact ((ha.harmless hread).popBlocks_safe (by omega) h₀ fuel).bind fun _ hb => hb
  | append_singleton post k ih =>
    rw [← append_assoc] at hi
    generalize hcs : pre ++ post ++ [k] = cs at hi
    cases hi with
    | nil => exact absurd hcs (by simp)
    | vote v i hn hi =>
      obtain ⟨rfl, hk⟩ := append_inj' hcs rfl
      cases hk
      rw [← cons_append, ← append_assoc, run_append]
      refine (ih hi).bind fun t ht => ?_
      rw [run]
      exact (ht.vote hG h₀ hn fuel).bind fun _ hb => hb

/-- **A report does not abort the node, now or later, exactly if a vote is evidence for the head
of the group that is reported.** -/
theorem report_safe_iff (hG : 2 ≤ G) (L : VoteLogs G) (f : Fin G) {pre : List (Call G)}
    {cnt : Fin G → Nat} (hi : Interleaving L pre cnt) {n : Nat} {s : Manager G}
    (hrun : run n pre (setGroupCount G) = .done s) :
    (∀ post cnt', Interleaving L (pre ++ post) cnt' →
      ChecksPass (pre ++ .invalidateChain f :: post)) ↔ Evidence pre f (s.buffer f) := by
  obtain ⟨_, s', hs', h₀⟩ := reading_of_interleaving hG hi
  cases run_done_unique hrun hs'
  have hrec := recorded_of_interleaving hG hi hrun
  rw [← hrec.le_height_iff]
  constructor
  · intro hsafe
    by_contra hlow
    have habort : s.call 0 (.invalidateChain f) = .failed .aboveHeight := by
      refine invalidateChain_aborts (h₀.valid f) (g := f) ?_ 0
      rw [h₀.head_own]
      exact not_le.mp hlow
    have hnow := hsafe [] cnt (by rwa [append_nil])
    exact hnow _ _ (run_concat_failed hrun habort)
  · intro hown post cnt' hpost fuel e
    exact (run_report_safe hG hrun h₀ (h₀.heads_le_height hrec hown) hpost fuel).ne_failed e

/-- The first vote of a group, at a clock that shows its block 0. -/
def firstVote (v : Fin 2) : Call 2 := (lockstepLogs fun _ => 1).call v 0

/-- Group 1 is reported after its first vote; the report returns, and the next vote has blocks
delivered. -/
theorem report_safe_after_vote :
    ∃ s t : Manager 2, run 9 [firstVote 1] (setGroupCount 2) = .done s ∧
      Evidence [firstVote 1] 1 (s.buffer 1) ∧
      (∀ post cnt', Interleaving (lockstepLogs fun _ => 1) ([firstVote 1] ++ post) cnt' →
        ChecksPass ([firstVote 1] ++ .invalidateChain 1 :: post)) ∧
      run 9 [firstVote 1, .invalidateChain 1, firstVote 0] (setGroupCount 2) = .done t ∧
      t.blocks = [(0, 0), (1, 0)] := by
  have hi : Interleaving (lockstepLogs fun _ => 1) ([] ++ [firstVote 1]) _ :=
    .vote 1 0 (Nat.zero_le _) .nil
  obtain ⟨s, hrun, hb⟩ : ∃ s : Manager 2, run 9 [firstVote 1] (setGroupCount 2) = .done s ∧
      s.buffer 1 = 0 := ⟨_, rfl, by decide⟩
  have hevidence : Evidence [firstVote 1] 1 (s.buffer 1) := by
    rw [hb]
    exact Or.inr ⟨0, 0, 0, mem_singleton.mpr rfl, le_rfl⟩
  exact ⟨s, _, hrun, hevidence, (report_safe_iff le_rfl _ 1 hi hrun).mpr hevidence, rfl, by decide⟩

/-- In the initial state the report of a group aborts the node: the head of the group is its
block 0, and the height of its chain is -1. -/
theorem report_aborts_initially :
    run 1 [.invalidateChain 0] (setGroupCount 2) = .failed .aboveHeight ∧
      ∀ L : VoteLogs 2, Interleaving L [] fun _ => 0 :=
  ⟨rfl, fun _ => .nil⟩

end Manager

end MassBFT.Order
