import MassBFT.Order.Evidence
import Mathlib.Data.Fintype.Lattice

/-!
# When every call of the order manager returns

`Backed` gives one direction: while the heads stay tied on the frozen coordinates, every call
returns and delivers blocks only with evidence. The other direction is that the tie is what the
loop of `popBlocks` itself needs. It is left when no head is the minimum, and among heads that
are not tied the least one always is (`tied_of_popRound_none`). So the condition is **exact**:
a run in which no check fails returns from all its calls if and only if every
`invalidateChain` in it keeps the tie.
-/

set_option autoImplicit false

namespace MassBFT.Order.Manager

open List

variable {G : Nat} {s s' : Manager G} {H : List (Call G)} {cs : List (Call G)}

/-! ## The loop is only left when heads are tied -/

theorem canPop_of_forall {left : Fin G} : ∀ {l : List (Fin G)},
    (∀ h ∈ l, Cell.mustLessThan (left = h) (s.head left) (s.head h) = .ok true) →
    s.canPop left l = .ok true
  | [], _ => rfl
  | h :: l, hall => by
    unfold canPop
    rw [hall h mem_cons_self]
    exact canPop_of_forall fun k hk => hall k (mem_cons_of_mem _ hk)

theorem firstMinimum_eq_none : ∀ {l : List (Fin G)}, s.firstMinimum l = .ok none →
    ∀ g ∈ l, s.canPop g (List.finRange G) ≠ .ok true
  | [], _, g, hg => absurd hg (by simp)
  | left :: l, hnone, g, hg => by
    unfold firstMinimum at hnone
    split at hnone
    · cases hnone
    · cases hnone
    · rename_i hfalse
      rcases mem_cons.mp hg with rfl | hg
      · rw [hfalse]
        simp
      · exact firstMinimum_eq_none hnone g hg

theorem globalMinimum_eq_none (hnone : s.globalMinimum = .ok none) (g : Fin G) :
    ∃ h, Cell.mustLessThan (g = h) (s.head g) (s.head h) ≠ .ok true := by
  unfold globalMinimum at hnone
  split at hnone
  · cases hnone
  by_contra hall
  push Not at hall
  exact firstMinimum_eq_none hnone g (mem_finRange g) (canPop_of_forall fun h _ => hall h)

theorem globalMinimum_of_popRound (hnone : s.popRound = .ok none) : s.globalMinimum = .ok none := by
  unfold popRound at hnone
  split at hnone
  · cases hnone
  · assumption
  · dsimp only at hnone
    split at hnone <;> cases hnone

/-- The coordinates of the invalidated groups in front of the first open one; the others are
blanked out. -/
def frozenPart (s : Manager G) (g j : Fin G) : Int :=
  if ∀ k ≤ j, s.invalidateMap k = true then (s.head g).watermarks j else 0

/-- Heads that differ in their frozen parts have been decided between. -/
theorem mustLessThan_of_frozenPart (hs : s.Merged)
    (hfrozen : ∀ g i, s.invalidateMap i = true → (s.head g).real i = true) {g h : Fin G}
    (hne : g ≠ h) (hlt : toLex (s.frozenPart g) < toLex (s.frozenPart h)) :
    Cell.mustLessThan (g = h) (s.head g) (s.head h) = .ok true := by
  obtain ⟨j, hbefore, hj⟩ := hlt
  have hj' : s.frozenPart g j < s.frozenPart h j := hj
  have hinv : ∀ k ≤ j, s.invalidateMap k = true := by
    by_contra hopen
    unfold frozenPart at hj'
    rw [if_neg hopen, if_neg hopen] at hj'
    exact absurd hj' (lt_irrefl _)
  have hids : (s.head g).groupId ≠ (s.head h).groupId := by
    rw [hs.own, hs.own]
    exact hne
  refine (Cell.mustLessThan_iff hids).mpr (Or.inl ⟨j, fun k hk => ?_, ?_, ?_⟩)
  · have heq : s.frozenPart g k = s.frozenPart h k := hbefore k hk
    have hk' : ∀ m ≤ k, s.invalidateMap m = true := fun m hm => hinv m (le_trans hm hk.le)
    unfold frozenPart at heq
    rw [if_pos hk', if_pos hk'] at heq
    exact ⟨hfrozen g k (hinv k hk.le), hfrozen h k (hinv k hk.le), heq⟩
  · exact hfrozen g j (hinv j (le_refl j))
  · unfold frozenPart at hj'
    rwa [if_pos hinv, if_pos hinv] at hj'

theorem frozenPart_of_frozen {g j : Fin G} (hj : ∀ m ≤ j, s.invalidateMap m = true) :
    s.frozenPart g j = (s.head g).watermarks j :=
  if_pos hj

/-- Two heads with the same, least frozen part are tied in front of the first open coordinate. -/
theorem tied_of_least {g h : Fin G} (hne : g ≠ h) (hopen : ∃ i, s.invalidateMap i = false)
    (hpart : ∀ k, ¬toLex (s.frozenPart k) < toLex (s.frozenPart g))
    (hsame : s.frozenPart g = s.frozenPart h) : s.Tied s.invalidateMap := by
  obtain ⟨i, hi, hfirst⟩ := WellFounded.has_min (wellFounded_lt (α := Fin G))
    {i | s.invalidateMap i = false} hopen
  have hbelow : ∀ j < i, s.invalidateMap j = true := by
    intro j hj
    by_contra hf
    exact hfirst j (by simpa using hf) hj
  have hvalue : ∀ k, ∀ j < i, s.frozenPart k j = (s.head k).watermarks j :=
    fun k j hj => frozenPart_of_frozen fun m hm => hbelow m (lt_of_le_of_lt hm hj)
  refine ⟨i, ⟨hi, hbelow⟩, g, h, hne, fun j hj => ?_, fun k j hj hbefore => ?_⟩
  · rw [← hvalue g j hj, ← hvalue h j hj]
    exact congrFun hsame j
  · by_contra hgt
    refine hpart k ⟨j, fun m hm => ?_, ?_⟩
    · show s.frozenPart k m = s.frozenPart g m
      rw [hvalue k m (lt_trans hm hj), hvalue g m (lt_trans hm hj)]
      exact (hbefore m hm).symm
    · show s.frozenPart k j < s.frozenPart g j
      rw [hvalue k j hj, hvalue g j hj]
      exact not_le.mp hgt

/-- When every coordinate is frozen, the heads are settled and the tie break decides. -/
theorem mustLessThan_of_all_frozen (hs : s.Merged)
    (hfrozen : ∀ g i, s.invalidateMap i = true → (s.head g).real i = true)
    (hinv : ∀ j, s.invalidateMap j = true) {g h : Fin G} (hne : g ≠ h)
    (hmin : keyOf (s.frozenPart g) (g, s.buffer g) ≤ keyOf (s.frozenPart h) (h, s.buffer h))
    (hsame : s.frozenPart g = s.frozenPart h) :
    Cell.mustLessThan (g = h) (s.head g) (s.head h) = .ok true := by
  have hids : (s.head g).groupId ≠ (s.head h).groupId := by
    rw [hs.own, hs.own]
    exact hne
  refine (Cell.mustLessThan_iff hids).mpr (Or.inr ⟨fun j => ?_, ?_⟩)
  · refine ⟨hfrozen g j (hinv j), hfrozen h j (hinv j), ?_⟩
    rw [← frozenPart_of_frozen fun m _ => hinv m, ← frozenPart_of_frozen fun m _ => hinv m]
    exact congrFun hsame j
  · unfold Cell.Before
    rw [hs.own, hs.own, hs.ids, hs.ids]
    rcases Prod.Lex.toLex_le_toLex.mp hmin with hlt | ⟨_, hle⟩
    · exact absurd (congrArg toLex hsame) hlt.ne
    · rcases Prod.Lex.toLex_le_toLex.mp hle with hlt | ⟨heq, hle⟩
      · exact Or.inl hlt
      · exact Or.inr ⟨heq, lt_of_le_of_ne hle hne⟩

/-- **Where the loop of `popBlocks` is left, two heads are tied.** -/
theorem tied_of_popRound_none (hG : G ≠ 0) (hs : s.Merged)
    (hfrozen : ∀ g i, s.invalidateMap i = true → (s.head g).real i = true)
    (hnone : s.popRound = .ok none) : s.Tied s.invalidateMap := by
  -- Take the head with the least frozen part, and by the tie break among those.
  have : Nonempty (Fin G) := ⟨⟨0, Nat.pos_of_ne_zero hG⟩⟩
  obtain ⟨g, hmin⟩ := Finite.exists_min fun g => keyOf (s.frozenPart g) (g, s.buffer g)
  obtain ⟨h, hnot⟩ := globalMinimum_eq_none (globalMinimum_of_popRound hnone) g
  have hne : g ≠ h := by
    rintro rfl
    exact hnot (by simp [Cell.mustLessThan])
  have hpart : ∀ k, toLex (s.frozenPart g) ≤ toLex (s.frozenPart k) := by
    intro k
    rcases Prod.Lex.toLex_le_toLex.mp (hmin k) with hlt | ⟨heq, _⟩
    · exact hlt.le
    · exact heq.le
  have hsame : s.frozenPart g = s.frozenPart h := by
    rcases lt_or_eq_of_le (hpart h) with hlt | heq
    · exact absurd (mustLessThan_of_frozenPart hs hfrozen hne hlt) hnot
    · exact toLex_inj.mp heq
  by_cases hopen : ∃ i, s.invalidateMap i = false
  · exact tied_of_least hne hopen (fun k => not_lt.mpr (hpart k)) hsame
  · have hinv : ∀ j, s.invalidateMap j = true := fun j => by
      by_contra hf
      exact hopen ⟨j, by simpa using hf⟩
    exact absurd (mustLessThan_of_all_frozen hs hfrozen hinv hne (hmin h) hsame) hnot

/-- What `popBlocks` does not touch: which coordinates are frozen, and at which values. -/
structure SameFrozen (s s' : Manager G) : Prop where
  merged : s'.Merged
  invalid : s'.invalidateMap = s.invalidateMap
  real : ∀ g i, s.invalidateMap i = true → (s'.head g).real i = true
  value : ∀ g i, s.invalidateMap i = true → (s'.head g).watermarks i = (s.head g).watermarks i

theorem SameFrozen.popped {a a' : Manager G} {g : Fin G} (hs : SameFrozen s a)
    (hp : Popped a a' g) : SameFrozen s a' where
  merged := hp.merged hs.merged
  invalid := hp.invalid.trans hs.invalid
  real h i hi := by
    refine (hp.head_frozen hs.merged.exist h i ?_).2 (hs.real h i hi)
    rw [hs.invalid]
    exact hi
  value h i hi := by
    refine (hp.head_frozen hs.merged.exist h i ?_).1.trans (hs.value h i hi)
    rw [hs.invalid]
    exact hi

/-- A call that returns has kept the tie. -/
theorem Backed.keepsTie (hG : 2 ≤ G) (hs : Backed H s) {k : Call G} {fuel : Nat} {t : Manager G}
    (hc : s.call fuel k = .done t) : s.KeepsTie k := by
  cases k with
  | pushDecision g b v w => trivial
  | invalidateChain f =>
    show s.Tied (Function.update s.invalidateMap f true)
    rcases invalidateChain_cases hs.merged.exist f with ⟨hf, _⟩ | ⟨_, _, e, he⟩ | ⟨s', hf, he⟩
    · rw [← hf, Function.update_eq_self]
      exact hs.tied
    · have hfail : s.call fuel (.invalidateChain f) = .failed e := he fuel
      rw [hc] at hfail
      cases hfail
    · have hpop : s'.popBlocks fuel = .done t := (he fuel).symm.trans hc
      have hstart : SameFrozen s' s' := by
        exact ⟨hf.learns.merged (hf.headsExist hs.merged.exist) hs.merged, rfl,
          hf.real hs.frozen, fun _ _ _ => rfl⟩
      obtain ⟨hend, hnone⟩ := popBlocks_invariant (fun a ha => ha.merged.exist)
        (fun a a' g ha hg => ha.popped hg) hstart hpop
      have ht : t.Tied t.invalidateMap := by
        refine tied_of_popRound_none (by omega) hend.merged (fun g i hi => ?_) hnone
        exact hend.real g i (by rwa [hend.invalid] at hi)
      rw [hend.invalid, hf.invalid] at ht
      refine ht.of_frozen fun h j hj => ?_
      rw [hend.value h j (by rw [hf.invalid]; exact hj), hf.heads]
      rfl

/-! ## Whole runs -/

/-- No bound on the rounds makes a failed check visible. -/
def ChecksPass (cs : List (Call G)) : Prop := ∀ fuel e, run fuel cs (setGroupCount G) ≠ .failed e

/-- Every call of the sequence is as `P` asks, of the calls before it and of the state that they
have left. -/
def EachCall (P : List (Call G) → Manager G → Call G → Prop) (cs : List (Call G)) : Prop :=
  ∀ pre k post, cs = pre ++ k :: post → ∀ fuel s, run fuel pre (setGroupCount G) = .done s →
    P pre s k

section

variable {P : List (Call G) → Manager G → Call G → Prop} {cs ds : List (Call G)}

theorem eachCall_nil : EachCall P [] := by
  intro pre k post hcs
  exact absurd hcs.symm (by simp)

theorem EachCall.of_append (h : EachCall P (cs ++ ds)) : EachCall P cs := by
  intro pre k post hcs
  refine h pre k (post ++ ds) ?_
  rw [hcs, append_assoc, cons_append]

theorem EachCall.last {k : Call G} (h : EachCall P (cs ++ [k])) {fuel : Nat}
    (hr : run fuel cs (setGroupCount G) = .done s) : P cs s k :=
  h cs k [] rfl fuel s hr

theorem EachCall.concat {k : Call G} (h : EachCall P cs)
    (hk : ∀ fuel s, run fuel cs (setGroupCount G) = .done s → P cs s k) :
    EachCall P (cs ++ [k]) := by
  intro pre k' post hcs
  -- The split is at the last call, or inside what came before it.
  rcases eq_nil_or_concat post with rfl | ⟨post', last, rfl⟩
  · obtain ⟨rfl, hlast⟩ := append_inj' hcs rfl
    cases hlast
    exact hk
  · have hcs' : cs ++ [k] = (pre ++ k' :: post') ++ [last] := by
      rw [hcs, append_assoc, cons_append, concat_eq_append]
    obtain ⟨rfl, _⟩ := append_inj' hcs' rfl
    exact h pre k' post' rfl

end

/-- Every call of the sequence keeps the tie in the state it is made in. -/
def TiesKept (cs : List (Call G)) : Prop := EachCall (fun _ s k => s.KeepsTie k) cs

theorem ChecksPass.of_append {cs ds : List (Call G)} (h : ChecksPass (cs ++ ds)) :
    ChecksPass cs := by
  intro fuel e he
  refine h fuel e ?_
  rw [run_append, he]
  rfl

theorem TiesKept.of_append {cs ds : List (Call G)} (h : TiesKept (cs ++ ds)) : TiesKept cs :=
  EachCall.of_append h

theorem run_backed (hG : 2 ≤ G) (hchk : ChecksPass cs) (ht : TiesKept cs) :
    ∃ fuel s, run fuel cs (setGroupCount G) = .done s ∧ Backed cs s := by
  induction cs using List.reverseRecOn with
  | nil => exact ⟨0, _, rfl, backed_setGroupCount hG⟩
  | append_singleton cs k ih =>
    obtain ⟨n, s, hrun, hs⟩ := ih hchk.of_append ht.of_append
    have hk : s.KeepsTie k := EachCall.last ht hrun
    rcases hs.call (by omega) hk with ⟨m, t, hc, hb⟩ | ⟨m, e, he⟩
    · exact ⟨max n m, t, run_concat_done hrun hc, hb⟩
    · exact absurd (run_concat_failed hrun he) (hchk _ e)

theorem tiesKept_of_returns (hG : 2 ≤ G) (hchk : ChecksPass cs)
    (hret : ∃ fuel s, run fuel cs (setGroupCount G) = .done s) : TiesKept cs := by
  induction cs using List.reverseRecOn with
  | nil => exact eachCall_nil
  | append_singleton cs k ih =>
    obtain ⟨n, t, hrun⟩ := hret
    obtain ⟨s, hpre, hcall⟩ := run_concat_eq_done hrun
    have htc : TiesKept cs := ih hchk.of_append ⟨n, s, hpre⟩
    obtain ⟨m, s', hrun', hs⟩ := run_backed hG hchk.of_append htc
    cases run_done_unique hpre hrun'
    refine EachCall.concat htc fun fuel u hu => ?_
    cases run_done_unique hpre hu
    exact hs.keepsTie hG hcall

/-- **Every call returns, and delivers only blocks that some vote gives evidence of, exactly if
every `invalidateChain` keeps the heads tied.** -/
theorem returns_with_evidence_iff_tiesKept (hG : 2 ≤ G) (cs : List (Call G))
    (hchk : ChecksPass cs) :
    (∀ pre, pre <+: cs → ∃ fuel s, run fuel pre (setGroupCount G) = .done s ∧
      ∀ x ∈ s.blocks, Evidence pre x.1 x.2) ↔ TiesKept cs := by
  constructor
  · intro h
    obtain ⟨fuel, s, hrun, _⟩ := h cs prefix_rfl
    exact tiesKept_of_returns hG hchk ⟨fuel, s, hrun⟩
  · rintro ht pre ⟨post, rfl⟩
    obtain ⟨fuel, s, hrun, hs⟩ := run_backed hG hchk.of_append ht.of_append
    exact ⟨fuel, s, hrun, hs.evidence⟩

theorem checksPass_of_done {n : Nat}
    (h : run n cs (setGroupCount G) = .done s) : ChecksPass cs := by
  intro fuel e he
  have h₁ : run (max n fuel) cs (setGroupCount G) = .done s := by
    rw [run_mono (Nat.le_max_left n fuel) (by rw [h]; simp), h]
  rw [run_mono (Nat.le_max_right n fuel) (by rw [he]; simp), he] at h₁
  cases h₁

/-- Group `h` votes for block 0 of group `g` and is then reported, and group `g` votes for a block
of group `h`. -/
def votedAndReported (g h : Fin 2) : List (Call 2) :=
  [.pushDecision g 0 h 0, .invalidateChain h, .pushDecision h 0 g 0]

/-- No coordinate in front of group 0's is frozen: all calls return, and two blocks are
delivered. -/
theorem returns_with_evidence_last_group :
    ChecksPass (votedAndReported 0 1) ∧
      (∀ pre, pre <+: votedAndReported 0 1 → ∃ fuel s, run fuel pre (setGroupCount 2) = .done s ∧
        ∀ x ∈ s.blocks, Evidence pre x.1 x.2) ∧
      ∃ s, run 5 (votedAndReported 0 1) (setGroupCount 2) = .done s ∧
        s.blocks = [(0, 0), (1, 0)] := by
  obtain ⟨s, hrun, hblocks⟩ : ∃ s, run 5 (votedAndReported 0 1) (setGroupCount 2) = .done s ∧
      s.blocks = [(0, 0), (1, 0)] := ⟨_, rfl, by decide⟩
  have hchk := checksPass_of_done hrun
  exact ⟨hchk, (returns_with_evidence_iff_tiesKept (le_refl 2) _ hchk).mpr
    (tiesKept_of_returns (le_refl 2) hchk ⟨5, s, hrun⟩), s, hrun, hblocks⟩

/-! ## Without the tie -/

/-- Heads that are not tied, and no votes waiting behind them. -/
structure Runaway (s : Manager G) : Prop where
  merged : s.Merged
  frozen : ∀ g i, s.invalidateMap i = true → (s.head g).real i = true
  untied : ¬s.Tied s.invalidateMap
  bare : ∀ g, s.size g = s.buffer g + 1
  own : ∀ g, (s.head g).watermarks g ≤ s.buffer g

theorem Runaway.next (hs : s.Runaway) (g : Fin G) :
    (s.createBlockIfNotExist g ((s.head g).blockId + 1)).cellAt g ((s.head g).blockId + 1) =
      Cell.new g (s.buffer g + 1) := by
  rw [cellAt_create_of_le_size (by rw [hs.bare, hs.merged.ids]), if_pos (le_refl _), hs.merged.ids]

theorem Runaway.popRound_ok (hG : G ≠ 0) (hs : s.Runaway) : ∃ r, s.popRound = .ok r := by
  refine Manager.popRound_ok hG hs.merged.exist hs.merged.own fun g _ next hnext => ?_
  rw [hs.next] at hnext
  subst hnext
  refine ⟨by rw [hs.merged.ids]; rfl, rfl, fun i hi => ?_⟩
  rw [Cell.new_real_iff] at hi
  subst hi
  rw [Cell.new_watermarks_self]
  have := hs.own i
  push_cast
  omega

/-- The next block of the group is new, so its own coordinate does not pass its number. -/
theorem Runaway.popped_own (hs : s.Runaway) {g : Fin G} (hp : Popped s s' g) (h : Fin G) :
    (s'.head h).watermarks h ≤ s'.buffer h := by
  by_cases hne : h = g
  · subst hne
    obtain ⟨next, hnext, _, _, _, hhead⟩ := hp.successor
    rw [hs.next] at hnext
    have hold := hs.own h
    rw [hhead, hnext, hp.buffer_self hs.merged]
    simp only [succeed, Cell.new_watermarks_self]
    split
    · push_cast
      omega
    · split
      · exact le_refl _
      · push_cast
        omega
  · rw [hp.head_of_ne hs.merged.exist hne, hp.buffer_of_ne hne]
    exact hs.own h

/-- Popping a block leaves the queue as it needs it. -/
theorem Runaway.popped (hs : s.Runaway) {g : Fin G} (hp : Popped s s' g) : s'.Runaway := by
  refine ⟨hp.merged hs.merged, fun h i hi => ?_, fun ht => hs.untied ?_, fun h => ?_,
    hs.popped_own hp⟩
  · rw [hp.invalid] at hi
    exact (hp.head_frozen hs.merged.exist h i hi).2 (hs.frozen h i hi)
  · rw [hp.invalid] at ht
    exact ht.of_frozen fun h j hj => (hp.head_frozen hs.merged.exist h j hj).1.symm
  · rw [hp.size]
    by_cases hne : h = g
    · subst hne
      rw [hp.buffer_self hs.merged, size_create_self, hs.bare, hs.merged.ids]
      omega
    · rw [hp.buffer_of_ne hne, size_create_of_ne hne]
      exact hs.bare h

theorem Runaway.round (hG : G ≠ 0) (hs : s.Runaway) :
    ∃ s', s.popRound = .ok (some s') ∧ s'.Runaway := by
  obtain ⟨r, hr⟩ := hs.popRound_ok hG
  cases r with
  | none => exact absurd (tied_of_popRound_none hG hs.merged hs.frozen hr) hs.untied
  | some s' =>
    obtain ⟨g, hp⟩ := popRound_eq_some hs.merged.exist hr
    exact ⟨s', hr, hs.popped hp⟩

theorem Runaway.popBlocks_timeout (hG : G ≠ 0) (hs : s.Runaway) (fuel : Nat) :
    s.popBlocks fuel = .timeout :=
  loop_timeout_of_recurrent (fun _ ha => ha.round hG) hs fuel

/-- Group 1 votes for block 0 of group 0 before it has learnt any clock, and group 0 is then
reported. On the head of group 1 the estimate of the frozen coordinate is still `-1`, so the
blocks of group 1 are delivered one after the other. -/
theorem run_first_group_timeout (fuel : Nat) :
    run fuel [Call.pushDecision 0 0 1 (-1), .invalidateChain (0 : Fin 2)]
      (setGroupCount 2) = .timeout := by
  cases fuel with
  | zero => rfl
  | succ n =>
    -- After the vote both heads are still block 0, and nothing has been created behind them.
    have hvote : ∃ s, (setGroupCount 2).call (n + 1) (.pushDecision 0 0 1 (-1)) = .done s ∧
        s.invalidateMap = (fun _ => false) ∧ s.buffer = (fun _ => 0) ∧ (∀ g, s.size g = 1) ∧
        (s.chains 0).height = 0 ∧ (∀ g, (s.head g).watermarks 0 ≤ 0) ∧
        (∀ g, (s.head g).watermarks g = 0) ∧
        ∀ g h, (s.head g).watermarks 0 = (s.head h).watermarks 0 → g = h :=
      ⟨_, rfl, rfl, rfl, by decide, by decide, by decide, by decide, by decide⟩
    obtain ⟨s, hcall, hinv, hbuf, hsize, hheight, hle, hown, hdiff⟩ := hvote
    have hs : s.Merged := merged_setGroupCount.call (by decide) hcall
    rw [run, hcall, Outcome.bind_done, run]
    rcases invalidateChain_cases hs.exist 0 with ⟨hf, _⟩ | ⟨_, ⟨h, hh⟩, _⟩ | ⟨s', hf, hc⟩
    · rw [hinv] at hf
      cases hf
    · rw [hheight] at hh
      exact absurd hh (not_lt.mpr (hle h))
    · have hhead : ∀ g, (s'.head g).watermarks = (s.head g).watermarks := by
        intro g
        rw [hf.heads]
        rfl
      have hrun : s'.Runaway := by
        refine ⟨hf.learns.merged (hf.headsExist hs.exist) hs,
          hf.real (fun g i hi => absurd hi (by simp [hinv])), ?_, fun g => ?_, fun g => ?_⟩
        · rintro ⟨i, hi, g, h, hne, hagree, _⟩
          rw [hf.invalid, hinv] at hi
          have hpos : 0 < i := by
            by_contra h0
            have hi0 : i = 0 := by omega
            subst hi0
            exact absurd hi.1 (by simp)
          have heq := hagree 0 hpos
          rw [hhead, hhead] at heq
          exact hne (hdiff g h heq)
        · rw [hf.size, hsize, hf.buffer, hbuf]
        · rw [hhead, hf.buffer, hbuf, hown]
          exact le_refl _
      rw [show s.call (n + 1) (.invalidateChain 0) = s'.popBlocks (n + 1) from hc (n + 1),
        hrun.popBlocks_timeout (by decide)]
      rfl

/-- **No `CHECK` fails, and the second call does not return.** -/
theorem invalidateChain_first_group_diverges :
    ChecksPass [Call.pushDecision 0 0 1 (-1), .invalidateChain (0 : Fin 2)] ∧
      ∀ fuel, run fuel [Call.pushDecision 0 0 1 (-1), .invalidateChain (0 : Fin 2)]
        (setGroupCount 2) = .timeout := by
  refine ⟨fun fuel e he => ?_, run_first_group_timeout⟩
  rw [run_first_group_timeout] at he
  cases he

end MassBFT.Order.Manager
