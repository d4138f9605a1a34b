import MassBFT.Order.VoteLog

/-!
# Votes that are delivered again

Raft may hand a vote to the manager more than once. `pushDecision` recognises a repeated vote by
the coordinate, which is real by then ("Need to remove duplicates"), and whatever the calls are,
**every group's blocks are given to the callback in the order of its chain, once each**
(`traces_inChainOrder`): a head leaves the buffer when it is delivered, and its successor has
the next number.

With a single group there are no coordinates to look at. That path gives the block of every call
to the callback, repeated or not (`chain_order_iff`).

`runTrace` is what the callback has been given at any point of a sequence of calls, also inside a
call that never returns and up to the check at which one aborts.
-/

set_option autoImplicit false

namespace MassBFT.Order

open Function List Manager

variable {G : Nat}

/-! ## What the callback sees -/

/-- The block that a cell stands for. -/
def Cell.block (c : Cell G) : Fin G × Nat := (c.groupId, c.blockId)

namespace Manager

/-- What the callback has been given after at most that many rounds of `popBlocks`. In a round it
is called in front of the checks of `exchange`. -/
def popTrace : Nat → Manager G → List (Cell G)
  | 0, s => s.delivered
  | n + 1, s =>
    match s.globalMinimum with
    | .error _ => s.delivered
    | .ok none => s.delivered
    | .ok (some g) =>
      match s.popRound with
      | .ok (some s') => popTrace n s'
      | _ => s.delivered ++ [s.head g]

/-- What the callback has been given when a call is left, cut off or aborted. -/
def callTrace (fuel : Nat) (s : Manager G) : Call G → List (Cell G)
  | .pushDecision g b v w =>
    let s₁ := s.createBlockIfNotExist g b
    if G = 1 then s₁.delivered ++ [s₁.cellAt g b]
    else if v = g then s.delivered
    else
      match (s₁.cellAt g b).setIthWaterMark v w with
      | .error _ => s₁.delivered
      | .ok none => s₁.delivered
      | .ok (some cell) =>
        let s₂ := ((s₁.setCell g b cell).raiseHeight v w).raiseHeight g b
        match s₂.updateEstimate v w with
        | .error _ => s₂.delivered
        | .ok s₃ => popTrace fuel s₃
  | .invalidateChain f =>
    match s.invalidateHeads f (s.chains f).height with
    | .error _ => s.delivered
    | .ok s₁ => popTrace fuel s₁

/-- What the callback has been given by a sequence of calls. -/
def runTrace (fuel : Nat) : List (Call G) → Manager G → List (Cell G)
  | [], s => s.delivered
  | k :: cs, s =>
    match s.call fuel k with
    | .done s' => runTrace fuel cs s'
    | _ => s.callTrace fuel k

end Manager

/-- The block ids of one group. -/
def idsOf (g : Fin G) (l : List (Fin G × Nat)) : List Nat :=
  (l.filter fun x => decide (x.1 = g)).map Prod.snd

/-- Every group's blocks are 0, 1, 2, …, without gaps and once each. -/
def InChainOrder (l : List (Fin G × Nat)) : Prop := ∀ g, idsOf g l = List.range (idsOf g l).length

theorem idsOf_append_self (g : Fin G) (b : Nat) (l : List (Fin G × Nat)) :
    idsOf g (l ++ [(g, b)]) = idsOf g l ++ [b] := by
  simp [idsOf]

theorem idsOf_append_of_ne {g h : Fin G} (hne : h ≠ g) (b : Nat) (l : List (Fin G × Nat)) :
    idsOf g (l ++ [(h, b)]) = idsOf g l := by
  simp [idsOf, hne]

namespace Manager

/-! ## Several groups -/

section

variable {s s' : Manager G}

/-- As many blocks of a group have been delivered as its head says. -/
def Chained (s : Manager G) : Prop := ∀ g, idsOf g s.blocks = List.range (s.buffer g)

theorem Chained.inChainOrder (hs : s.Chained) : InChainOrder s.blocks := by
  intro g
  rw [hs g, length_range]

theorem chained_setGroupCount : (setGroupCount G).Chained := fun _ => rfl

theorem Chained.popped (hs : s.Chained) (hm : s.Merged) {g : Fin G} (hp : Popped s s' g) :
    s'.Chained := by
  intro h
  rw [hp.blocks hm]
  by_cases hne : g = h
  · subst hne
    rw [idsOf_append_self, hs g, hp.buffer_self hm, range_succ]
  · rw [idsOf_append_of_ne hne, hs h, hp.buffer_of_ne (Ne.symm hne)]

theorem Prepared.chained {k : Call G} (hp : Prepared s k s') (hs : s.Chained) : s'.Chained := by
  have hsame : s'.blocks = s.blocks ∧ s'.buffer = s.buffer := by
    cases hp with
    | own g b w => exact ⟨rfl, rfl⟩
    | repeated w hv hr => exact ⟨rfl, rfl⟩
    | voted hne hv =>
      refine ⟨?_, hv.buffer⟩
      rw [blocks, hv.delivered, blocks]
    | again hf => exact ⟨rfl, rfl⟩
    | frozen hf =>
      refine ⟨?_, hf.buffer⟩
      rw [blocks, hf.delivered, blocks]
  intro g
  rw [hsame.1, hsame.2]
  exact hs g

/-- The head that is handed over is the next block of its group. -/
theorem Chained.handOver (hs : s.Chained) (hm : s.Merged) (g : Fin G) :
    InChainOrder ((s.delivered ++ [s.head g]).map Cell.block) := by
  have hblocks : (s.delivered ++ [s.head g]).map Cell.block = s.blocks ++ [(g, s.buffer g)] := by
    rw [map_append, map_singleton, Cell.block, hm.own, hm.ids]
    rfl
  rw [hblocks]
  intro h
  by_cases hne : g = h
  · subst hne
    rw [idsOf_append_self, hs g, ← range_succ, length_range]
  · rw [idsOf_append_of_ne hne]
    exact hs.inChainOrder h

/-- What a call does before it pops, if it gets that far. -/
theorem callTrace_cases (hG : G ≠ 1) (hs : s.HeadsExist) (fuel : Nat) (k : Call G) :
    s.callTrace fuel k = s.delivered ∨
      ∃ s', Prepared s k s' ∧ s.callTrace fuel k = s'.popTrace fuel := by
  cases k with
  | pushDecision g b v w =>
    by_cases hv : v = g
    · left
      simp [callTrace, hG, hv]
    · cases hr : ((s.createBlockIfNotExist g b).cellAt g b).real v with
      | true =>
        left
        simp only [callTrace, if_neg hG, if_neg hv, setIthWaterMark_of_real hr]
        rfl
      | false =>
        by_cases hcell : ((s.createBlockIfNotExist g b).cellAt g b).watermarks v ≤ w
        · have htrace : s.callTrace fuel (.pushDecision g b v w) =
              match (s.recordVote g b v w).updateEstimate v w with
              | .error _ => s.delivered
              | .ok s₃ => s₃.popTrace fuel := by
            simp only [callTrace, if_neg hG, if_neg hv, setIthWaterMark_of_le hr hcell]
            rfl
          by_cases hfair : VoteFair s g b v w
          · right
            rw [updateEstimate_recordVote hs hfair] at htrace
            exact ⟨_, .voted hv (voted_recordVote hs hr hfair), htrace⟩
          · left
            obtain ⟨e, he⟩ := updateEstimate_recordVote_error hs hcell hfair
            rw [htrace, he]
        · left
          simp only [callTrace, if_neg hG, if_neg hv, setIthWaterMark_of_lt hr hcell]
          rfl
  | invalidateChain f =>
    rw [callTrace, invalidateHeads]
    cases hi : s.invalidateMap f with
    | true => exact Or.inr ⟨s, .again hi, rfl⟩
    | false =>
      by_cases hh : ∃ h, (s.chains f).height < (s.head h).watermarks f
      · left
        simp only [if_pos hh, Bool.false_eq_true, if_false]
      · right
        refine ⟨_, .frozen (frozen_modifyHeads hs hi), ?_⟩
        simp only [if_neg hh, Bool.false_eq_true, if_false]

/-- An invariant of the calls, and what it says of the callback: it holds of what has been given to
it between two deliveries and in the middle of one. -/
structure Traces (I : Manager G → Prop) (Q : List (Cell G) → Prop) : Prop where
  exist : ∀ {s}, I s → s.HeadsExist
  prepared : ∀ {s k s'}, I s → Prepared s k s' → I s'
  popped : ∀ {s s' g}, I s → Popped s s' g → I s'
  delivered : ∀ {s}, I s → Q s.delivered
  handOver : ∀ {s} (g : Fin G), I s → Q (s.delivered ++ [s.head g])

variable {I : Manager G → Prop} {Q : List (Cell G) → Prop}

theorem Traces.popTrace (h : Traces I Q) (hs : I s) (n : Nat) : Q (s.popTrace n) := by
  induction n generalizing s with
  | zero => exact h.delivered hs
  | succ n ih =>
    rw [popTrace]
    cases s.globalMinimum with
    | error e => exact h.delivered hs
    | ok least =>
      cases least with
      | none => exact h.delivered hs
      | some g =>
        cases hround : s.popRound with
        | error e => exact h.handOver g hs
        | ok next =>
          cases next with
          | none => exact h.handOver g hs
          | some s' =>
            obtain ⟨_, hp⟩ := popRound_eq_some (h.exist hs) hround
            exact ih (h.popped hs hp)

/-- The invariant may begin to hold with the next call. -/
theorem Traces.runTrace_cons (h : Traces I Q) (hG : G ≠ 1) (hs : s.HeadsExist) {k : Call G}
    (hprep : ∀ a, Prepared s k a → I a) (hgiven : Q s.delivered) {fuel : Nat} {cs : List (Call G)}
    (hrest : ∀ {t}, I t → Q (t.runTrace fuel cs)) : Q (s.runTrace fuel (k :: cs)) := by
  rw [runTrace]
  have hcut : Q (s.callTrace fuel k) := by
    rcases callTrace_cases hG hs fuel k with hsame | ⟨s', hp, htrace⟩
    · rw [hsame]
      exact hgiven
    · rw [htrace]
      exact h.popTrace (hprep _ hp) fuel
  cases hcall : s.call fuel k with
  | failed e => exact hcut
  | timeout => exact hcut
  | done t =>
    exact hrest (call_invariant hG hs hprep (fun _ => h.exist) (fun _ _ _ => h.popped) hcall)

theorem Traces.runTrace (h : Traces I Q) (hG : G ≠ 1) {fuel : Nat} {cs : List (Call G)}
    (hs : I s) : Q (s.runTrace fuel cs) := by
  induction cs generalizing s with
  | nil => exact h.delivered hs
  | cons k cs ih =>
    exact h.runTrace_cons hG (h.exist hs) (fun _ => h.prepared hs) (h.delivered hs) ih

/-- **Whatever is called, blocks come in the order of their chains**, once each. -/
theorem traces_inChainOrder :
    @Traces G (fun s => s.Merged ∧ s.Chained) fun cells => InChainOrder (cells.map Cell.block) where
  exist hs := hs.1.exist
  prepared hs hp := ⟨hp.merged hs.1, hp.chained hs.2⟩
  popped hs hp := ⟨hp.merged hs.1, hs.2.popped hs.1 hp⟩
  delivered hs := hs.2.inChainOrder
  handOver g hs := hs.2.handOver hs.1 g

end

/-- Calls that have returned have given the callback what is in the state. -/
theorem runTrace_append {fuel : Nat} {cs' : List (Call G)} : ∀ {cs : List (Call G)}
    {s t : Manager G}, run fuel cs s = .done t → s.runTrace fuel (cs ++ cs') = t.runTrace fuel cs'
  | [], s, t, h => by
    cases h
    rfl
  | k :: cs, s, t, h => by
    rw [run] at h
    rw [cons_append, runTrace]
    cases hcall : s.call fuel k with
    | failed e => rw [hcall] at h; cases h
    | timeout => rw [hcall] at h; cases h
    | done s' =>
      rw [hcall] at h
      exact runTrace_append h

theorem runTrace_of_done {fuel : Nat} {cs : List (Call G)} {s t : Manager G}
    (h : run fuel cs s = .done t) : s.runTrace fuel cs = t.delivered := by
  have htrace := @runTrace_append G fuel [] cs s t h
  rwa [append_nil] at htrace

end Manager

/-! ## Logs that are delivered again -/

section

/-- A voter's log: the clocks do not decrease, and the votes on the blocks of one group come in
the order of its chain. -/
structure InLogOrder (log : Nat → Vote G) : Prop where
  clock_mono : ∀ m n, m ≤ n → (log m).watermark ≤ (log n).watermark
  blocks : ∀ n, (log n).blockId =
    ((List.range n).filter fun m => decide ((log m).groupId = (log n).groupId)).length

/-- The call that feeds the `n`-th vote of `v` to the manager. -/
def voteCall (logs : Fin G → Nat → Vote G) (v : Fin G) (n : Nat) : Call G :=
  .pushDecision (logs v n).groupId (logs v n).blockId v (logs v n).watermark

/-- The first `cnt v` votes of every voter `v` are delivered, each voter's in the order of its log,
and any of them again at any later time. -/
inductive Redelivered (logs : Fin G → Nat → Vote G) : List (Call G) → (Fin G → Nat) → Prop
  | nil : Redelivered logs [] fun _ => 0
  | vote {cs : List (Call G)} {cnt : Fin G → Nat} (v : Fin G) (n : Nat) (hn : n ≤ cnt v)
      (h : Redelivered logs cs cnt) :
      Redelivered logs (cs ++ [voteCall logs v n]) (update cnt v (max (cnt v) (n + 1)))

variable {logs : Fin G → Nat → Vote G} {cs : List (Call G)} {cnt : Fin G → Nat}

theorem Redelivered.mem (h : Redelivered logs cs cnt) {v : Fin G} {n : Nat} (hn : n < cnt v) :
    voteCall logs v n ∈ cs := by
  induction h with
  | nil => exact absurd hn (Nat.not_lt_zero n)
  | @vote cs cnt u m hm _ ih =>
    rw [mem_append, mem_singleton]
    by_cases hv : v = u
    · subst hv
      rw [update_self, lt_max_iff, Nat.lt_succ_iff] at hn
      rcases hn with hlt | hle
      · exact Or.inl (ih hlt)
      · rcases Nat.lt_or_eq_of_le hle with hlt | rfl
        · exact Or.inl (ih (Nat.lt_of_lt_of_le hlt hm))
        · exact Or.inr rfl
    · rw [update_of_ne hv] at hn
      exact Or.inl (ih hn)

end

/-! ## A single group -/

section

/-- The block that a call is about. -/
def Call.blockId : Call G → Nat
  | .pushDecision _ b _ _ => b
  | .invalidateChain _ => 0

variable {logs : Fin 1 → Nat → Vote 1} {cs : List (Call 1)} {cnt : Fin 1 → Nat}

/-- With one group, the votes are on its blocks one after another. -/
theorem InLogOrder.blockId_single {log : Nat → Vote 1} (h : InLogOrder log) (n : Nat) :
    (log n).blockId = n := by
  have hall : ((List.range n).filter fun m => decide ((log m).groupId = (log n).groupId)) =
      List.range n :=
    filter_eq_self.mpr fun m _ => decide_eq_true (Subsingleton.elim _ _)
  rw [h.blocks, hall, length_range]

/-- The manager of a single group: every cell is at its place. -/
structure Manager.Single (cs : List (Call 1)) (n : Nat) (s : Manager 1) : Prop where
  ids : ∀ g m, (s.cellAt g m).blockId = m
  size : ∀ g, n ≤ s.size g
  blocks : s.blocks.map Prod.snd = cs.map Call.blockId

/-- **The path for a single group passes every vote on.** -/
theorem Redelivered.single (hlogs : ∀ v, InLogOrder (logs v)) (h : Redelivered logs cs cnt)
    (fuel : Nat) : ∃ s, run fuel cs (setGroupCount 1) = .done s ∧ s.Single cs (cnt 0) := by
  induction h with
  | nil =>
    refine ⟨_, rfl, fun g m => ?_, fun g => Nat.zero_le _, rfl⟩
    cases m with
    | zero => rfl
    | succ m => rw [cellAt_of_size_le (Nat.le_add_left 1 m)]; rfl
  | @vote cs cnt v n hn _ ih =>
    obtain ⟨s, hrun, hs⟩ := ih
    obtain rfl : v = 0 := Subsingleton.elim v 0
    have hb : (logs 0 n).blockId = n := (hlogs 0).blockId_single n
    have hcell : ∀ g m, (s.createBlockIfNotExist (logs 0 n).groupId n).cellAt g m = s.cellAt g m :=
      fun g m => cellAt_create_of_le (le_trans hn (hs.size _))
    refine ⟨{ s.createBlockIfNotExist (logs 0 n).groupId n with
        delivered := s.delivered ++ [s.cellAt (logs 0 n).groupId n] }, ?_, ?_, ?_, ?_⟩
    · rw [run_append, hrun, Outcome.bind, run, voteCall, call,
        pushDecision, if_pos rfl, hb]
      dsimp only
      rw [hcell]
      rfl
    · intro g m
      exact (congrArg Cell.blockId (hcell g m)).trans (hs.ids g m)
    · intro g
      have hgrow : (s.createBlockIfNotExist (logs 0 n).groupId n).size g =
          max (s.size g) (n + 1) := by
        rw [Subsingleton.elim g (logs 0 n).groupId]
        exact size_create_self
      change _ ≤ (s.createBlockIfNotExist (logs 0 n).groupId n).size g
      rw [hgrow, update_self]
      have hsize := hs.size g
      omega
    · rw [blocks, map_append, map_append, map_append, map_singleton,
        map_singleton, map_singleton, hs.ids, ← hs.blocks, voteCall, Call.blockId, hb]
      rfl

/-- Without repetitions the blocks are those of the log. -/
theorem Redelivered.blockIds (hlogs : ∀ v, InLogOrder (logs v)) (h : Redelivered logs cs cnt)
    (hnodup : cs.Nodup) : cs.map Call.blockId = List.range (cnt 0) := by
  induction h with
  | nil => rfl
  | @vote cs cnt v n hn h ih =>
    obtain rfl : v = 0 := Subsingleton.elim v 0
    rw [nodup_append] at hnodup
    obtain ⟨hcs, _, hdisj⟩ := hnodup
    have hnext : n = cnt 0 := by
      apply le_antisymm hn
      rw [← not_lt]
      intro hlt
      exact hdisj _ (h.mem hlt) _ (mem_singleton_self _) rfl
    subst hnext
    rw [map_append, ih hcs, map_singleton, voteCall, Call.blockId,
      (hlogs 0).blockId_single, update_self, max_eq_right (Nat.le_succ _),
      range_succ]

theorem idsOf_single (l : List (Fin 1 × Nat)) (g : Fin 1) : idsOf g l = l.map Prod.snd := by
  rw [idsOf, filter_eq_self.mpr fun x _ => decide_eq_true (Subsingleton.elim _ _)]

theorem Redelivered.single_inChainOrder_iff (hlogs : ∀ v, InLogOrder (logs v))
    (h : Redelivered logs cs cnt) (fuel : Nat) :
    InChainOrder (((setGroupCount 1).runTrace fuel cs).map Cell.block) ↔ cs.Nodup := by
  obtain ⟨s, hrun, hs⟩ := h.single hlogs fuel
  have hids : ∀ g, idsOf g (s.delivered.map Cell.block) = cs.map Call.blockId := by
    intro g
    rw [idsOf_single]
    exact hs.blocks
  rw [runTrace_of_done hrun]
  constructor
  · intro hin
    have hrange := hin 0
    rw [hids] at hrange
    apply Nodup.of_map Call.blockId
    rw [hrange]
    exact nodup_range
  · intro hnodup g
    rw [hids, h.blockIds hlogs hnodup, length_range]

end

/-- **Blocks are executed at most once and in the order of their chains, unless a single group's
vote is delivered again.** -/
theorem chain_order_iff {logs : Fin G → Nat → Vote G} (hlogs : ∀ v, InLogOrder (logs v))
    {calls : List (Call G)} {cnt : Fin G → Nat} (h : Redelivered logs calls cnt) :
    (∀ fuel, InChainOrder (((setGroupCount G).runTrace fuel calls).map Cell.block)) ↔
      (G = 1 → calls.Nodup) := by
  by_cases hG : G = 1
  · subst hG
    constructor
    · intro hall _
      exact (h.single_inChainOrder_iff hlogs 0).mp (hall 0)
    · intro hnodup fuel
      exact (h.single_inChainOrder_iff hlogs fuel).mpr (hnodup rfl)
  · constructor
    · intro _ hone
      exact absurd hone hG
    · intro _ fuel
      exact traces_inChainOrder.runTrace hG ⟨merged_setGroupCount, chained_setGroupCount⟩

/-- The log of a group that votes on the blocks of one group only. -/
def votesOn (g : Fin G) (n : Nat) : Vote G := ⟨g, n, n⟩

theorem votesOn_inLogOrder (g : Fin G) : InLogOrder (votesOn g) := by
  refine ⟨fun m n hle => ?_, fun n => ?_⟩
  · exact Int.ofNat_le.mpr hle
  · simp [votesOn]

/-- The first votes of two groups, each delivered twice. -/
def repeatedVotes (g h : Fin 2) : List (Call 2) :=
  [.pushDecision g 0 h 0, .pushDecision g 0 h 0, .pushDecision h 0 g 0, .pushDecision h 0 g 0]

/-- Both blocks are executed, once each. -/
theorem chain_order_two_groups :
    ∃ cnt, Redelivered (fun v : Fin 2 => votesOn (1 - v)) (repeatedVotes 0 1) cnt ∧
      (∀ fuel,
        InChainOrder (((setGroupCount 2).runTrace fuel (repeatedVotes 0 1)).map Cell.block)) ∧
      ((setGroupCount 2).runTrace 9 (repeatedVotes 0 1)).map Cell.block = [(0, 0), (1, 0)] := by
  have hvotes := Redelivered.vote 0 0 (Nat.zero_le _) (.vote 0 0 (Nat.zero_le _)
    (.vote 1 0 (Nat.zero_le _) (.vote 1 0 (Nat.zero_le _)
      (@Redelivered.nil 2 fun v => votesOn (1 - v)))))
  obtain ⟨cnt, hcalls⟩ : ∃ cnt, Redelivered (fun v : Fin 2 => votesOn (1 - v))
      (repeatedVotes 0 1) cnt := ⟨_, hvotes⟩
  refine ⟨cnt, hcalls, (chain_order_iff (fun v => votesOn_inLogOrder _) hcalls).mpr fun hone => ?_,
    by decide⟩
  exact absurd hone (by decide)

/-- One group, its first vote delivered again: block 0 is executed twice. -/
theorem single_group_executes_twice :
    InLogOrder (votesOn (0 : Fin 1)) ∧
    Redelivered (fun _ : Fin 1 => votesOn 0)
      [.pushDecision 0 0 0 0, .pushDecision 0 0 0 0] (update (fun _ => 0) 0 1) ∧
    ((setGroupCount 1).runTrace 0 [.pushDecision 0 0 0 0, .pushDecision 0 0 0 0]).map Cell.block =
      [(0, 0), (0, 0)] := by
  refine ⟨votesOn_inLogOrder 0, ?_, by decide⟩
  have htwice := Redelivered.vote 0 0 (Nat.zero_le _)
    (Redelivered.vote 0 0 le_rfl (@Redelivered.nil 1 fun _ => votesOn 0))
  rwa [update_idem, update_self] at htwice

end MassBFT.Order
