import MassBFT.Order.Slots

/-!
# When a leader's log is well formed

`getBlockOrder` reads the clock and the append comes later, so what a thread appends may be older
than what another one has appended in between. If the calls of `voteNewBlock` do not overlap —
counted from the moment a vote count reaches the threshold — the log is well formed.

The clocks are the easy half: the clock only grows, and it is read in the order of the appends.
For the block numbers one has to know that the votes on a group's blocks are given to `0, 1, 2, …`
without a gap, although two callers give them. The subscriber sees the blocks in order. A forced
vote cannot overtake an earlier block of the same group: whoever voted for a block has voted for
the one before it, so the earlier block reached the threshold first (`Tracked.few`).
-/

set_option autoImplicit false

namespace MassBFT.Order

open Function List

variable {G : Nat}

/-! ## Orderly steps -/

/-- The thread is inside `voteNewBlock`, or about to call it. -/
def Thread.Busy : Thread G → Prop
  | .voting _ _ => True
  | .appending _ => True
  | _ => False

instance (x : Thread G) : Decidable x.Busy :=
  match x with
  | .idle => .isFalse id
  | .voting _ _ => .isTrue trivial
  | .appending _ => .isTrue trivial
  | .waiting _ _ => .isFalse id

namespace Leader

variable {own : Fin G} {s s' : Leader G} {seen : Seen G} {k : Fin G → Nat}
  {h : List (BlockOrder G)} {a : Action G} {t : ThreadId G} {b : Nat} {g : Fin G}

/-- No call of `voteNewBlock` is under way. -/
def Quiet (s : Leader G) : Prop := ∀ t, ¬(s.threads t).Busy

/-- The condition on a step. Calls of `voteNewBlock` begin only when no other one is under way;
every voter's votes on a group are counted in the order of the blocks; and no slot of the ring is
used for a block after it was handed on to a later one. -/
def Orderly (s : Leader G) (seen : Seen G) : Action G → Prop
  | .subscribe g => s.Quiet ∧ s.assigner.Current g (s.nextBlock g)
  | .validate _ g b u => g ≠ s.assigner.chainId → b = seen g u ∧ s.assigner.Current g b ∧
      ((s.assigner.addVoteForBlock g b u).2 = minThreshHold G → s.Quiet)
  | .force r => ∀ g b, s.threads (some r) = .voting g b → s.assigner.Current g b
  | _ => True

/-- The votes that have been counted after a step. -/
def count (own : Fin G) (seen : Seen G) : Action G → Seen G
  | .validate _ g b u =>
    if g = own then seen else update seen g (update (seen g) u (b + 1))
  | _ => seen

/-- The states of the leader of group `own` that steps with property `P` lead to, with the votes
that have been counted. -/
inductive Run (P : Leader G → Seen G → Action G → Prop) (own : Fin G) : Leader G → Seen G → Prop
  | init : Run P own (Leader.init own) fun _ _ => 0
  | step {s s' : Leader G} {seen : Seen G} {a : Action G} (hrun : Run P own s seen)
      (hP : P s seen a) (hs : s.step a = some s') : Run P own s' (count own seen a)

/-! ## What orderly steps keep -/

/-- At most one thread is busy; `h` is the vote it holds. -/
def Held (own : Fin G) (s : Leader G) (k : Fin G → Nat) (h : List (BlockOrder G)) : Prop :=
  (s.Quiet ∧ h = []) ∨ ∃ t, (∀ t', t' ≠ t → ¬(s.threads t').Busy) ∧
    ((∃ g, g ≠ own ∧ s.threads t = .voting g (k g) ∧ h = []) ∨
      ∃ bo, s.threads t = .appending bo ∧ h = [bo])

/-- Of every group `g` the blocks below `k g` have been voted on, in order. -/
structure Tracked (own : Fin G) (s : Leader G) (seen : Seen G) (k : Fin G → Nat)
    (h : List (BlockOrder G)) : Prop where
  chain : s.assigner.chainId = own
  slots : SlotsOk s.assigner k seen
  ids : ∀ g, votesOn g (s.log ++ h) = List.range (k g)
  next : ∀ g, s.nextBlock g ≤ k g
  few : ∀ g b, g ≠ own → k g ≤ b → (∀ t, s.threads t ≠ .voting g b) →
    (Finset.univ.filter fun u => b < seen g u).card < minThreshHold G
  held : Held own s k h

theorem tracked_init (own : Fin G) :
    Tracked own (Leader.init own) (fun _ _ => 0) (fun _ => 0) [] where
  chain := rfl
  slots g i := by
    refine ⟨fun b _ hb => ?_, fun _ => ?_, fun _ _ => ?_⟩
    · rcases hb with hb | ⟨_, hb⟩ <;> exact absurd hb (Nat.not_lt_zero _)
    · simp [Leader.init, OrderAssigner.init]
    · simp [Leader.init, OrderAssigner.init]
  ids _ := rfl
  next _ := le_refl _
  few g b _ _ _ := by simp [minThreshHold]
  held := Or.inl ⟨fun _ => id, rfl⟩

variable (ht : Tracked own s seen k h)

include ht in
theorem Tracked.held_nil (hq : s.Quiet) : h = [] := by
  rcases ht.held with ⟨_, hh⟩ | ⟨t, _, ⟨g, _, hv, _⟩ | ⟨bo, hv, _⟩⟩
  · exact hh
  · exact absurd (by rw [hv]; trivial) (hq t)
  · exact absurd (by rw [hv]; trivial) (hq t)

include ht in
/-- Of a busy thread everything is known. -/
theorem Tracked.held_of_busy (hb : (s.threads t).Busy) :
    (∀ t', t' ≠ t → ¬(s.threads t').Busy) ∧
      ((∃ g, g ≠ own ∧ s.threads t = .voting g (k g) ∧ h = []) ∨
        ∃ bo, s.threads t = .appending bo ∧ h = [bo]) := by
  rcases ht.held with ⟨hq, _⟩ | ⟨t₀, hothers, hcase⟩
  · exact absurd hb (hq t)
  · have htt : t = t₀ := by
      by_contra hne
      exact hothers t hne hb
    subst htt
    exact ⟨hothers, hcase⟩

theorem votesOn_append (g : Fin G) (l l' : List (BlockOrder G)) :
    votesOn g (l ++ l') = votesOn g l ++ votesOn g l' := by
  simp [votesOn]

/-- The vote on the next block of `g`. -/
def nextOrder (s : Leader G) (g : Fin G) (b : Nat) : BlockOrder G :=
  ⟨g, b, s.assigner.chainId, if s.assigner.chainId = g then (b : Int) else s.assigner.myClock⟩

include ht in
theorem Tracked.nextOrder_of_ne (hg : g ≠ own)
    : (s.nextOrder g b).voteBlockId = s.assigner.myClock := by
  refine if_neg ?_
  rw [ht.chain]
  exact Ne.symm hg

/-- The vote on the next block of a group comes behind those on its other blocks. -/
theorem votesOn_nextOrder (s : Leader G) (k : Fin G → Nat) (g c : Fin G) :
    List.range (k c) ++ votesOn c [s.nextOrder g (k g)] = List.range (update k g (k g + 1) c) := by
  by_cases hcg : c = g
  · subst hcg
    rw [update_self, range_succ]
    simp [votesOn, nextOrder]
  · rw [update_of_ne hcg]
    simp [votesOn, nextOrder, Ne.symm hcg]

/-- **`getBlockOrder` on the next block of a group**, by the only thread that is busy. -/
theorem Tracked.read (ht : Tracked own s seen k []) (hothers : ∀ t', t' ≠ t → ¬(s.threads t').Busy)
    (hvoting : ∀ c b, s.threads t = .voting c b → c = g ∧ b = k g)
    (hc : s.assigner.Current g (k g)) (done : Thread G) :
    Tracked own (s.readOrder t g (k g) done) seen (update k g (k g + 1))
        [s.nextOrder g (k g)] ∧
      (s.readOrder t g (k g) done).log = s.log := by
  obtain ⟨a, hget, hchain, _, hslots⟩ := OrderAssigner.getBlockOrder_next ht.slots hc
  have hread : s.readOrder t g (k g) done =
      { s.setThread t (.appending (s.nextOrder g (k g))) with assigner := a } := by
    unfold readOrder
    rw [hget]
    rfl
  have hthread : ∀ t', t' ≠ t → (s.readOrder t g (k g) done).threads t' = s.threads t' := by
    intro t' hne
    rw [hread]
    exact update_of_ne hne _ _
  have hself : (s.readOrder t g (k g) done).threads t = .appending (s.nextOrder g (k g)) := by
    rw [hread]
    exact update_self _ _ _
  have hgrow : ∀ c, k c ≤ update k g (k g + 1) c := le_update_self_iff.mpr (Nat.le_succ _)
  refine ⟨⟨?_, ?_, fun c => ?_, fun c => ?_, fun c b hcown hb hv => ?_, Or.inr ⟨t, ?_, ?_⟩⟩, ?_⟩
  · rw [hread]
    exact hchain.trans ht.chain
  · rw [hread]
    exact hslots
  · have hids := ht.ids c
    rw [append_nil] at hids
    rw [hread]
    show votesOn c (s.log ++ [s.nextOrder g (k g)]) = _
    rw [votesOn_append, hids]
    exact votesOn_nextOrder s k g c
  · rw [hread]
    exact le_trans (ht.next c) (hgrow c)
  · have hkb : k c ≤ b := (hgrow c).trans hb
    refine ht.few c b hcown hkb fun t' hv' => ?_
    by_cases htt : t' = t
    · subst htt
      obtain ⟨rfl, rfl⟩ := hvoting c b hv'
      rw [update_self] at hb
      omega
    · exact hv t' ((hthread t' htt).trans hv')
  · intro t' hne
    rw [hthread t' hne]
    exact hothers t' hne
  · exact Or.inr ⟨_, hself, rfl⟩
  · rw [hread]
    rfl

/-- What a step adds to the votes that are in the log or on their way: nothing, or one vote that
was read in this step. -/
def Grew (own : Fin G) (s : Leader G) (a : Action G) (l l' : List (BlockOrder G)) : Prop :=
  l' = l ∨ ∃ bo, l' = l ++ [bo] ∧
    ((bo.chainId = own ∧ a = .subscribe own ∧ bo.voteBlockId = (s.nextBlock own : Int)) ∨
      (bo.chainId ≠ own ∧ bo.voteBlockId = s.assigner.myClock ∧
        ((∃ g, g ≠ own ∧ a = .subscribe g) ∨ ∃ r, a = .force r)))

include ht in
/-- A step that reads no vote, writes nothing to the log and makes no thread busy or idle. -/
theorem Tracked.frame {seen' : Seen G}
    (hchain : s'.assigner.chainId = own) (hslots : SlotsOk s'.assigner k seen')
    (hlog : s'.log = s.log) (hnext : ∀ g, s'.nextBlock g ≤ k g)
    (hthreads : ∀ t, s'.threads t = s.threads t ∨ ¬(s'.threads t).Busy ∧ ¬(s.threads t).Busy)
    (hfew : ∀ g b, g ≠ own → k g ≤ b → (∀ t, s.threads t ≠ .voting g b) →
      (Finset.univ.filter fun u => b < seen' g u).card < minThreshHold G) :
    Tracked own s' seen' k h := by
  have hbusy : ∀ t, (s'.threads t).Busy → (s.threads t).Busy := by
    intro t hb
    rcases hthreads t with heq | ⟨hnot, _⟩
    · rwa [heq] at hb
    · exact absurd hb hnot
  have hsame : ∀ t, (s.threads t).Busy → s'.threads t = s.threads t := by
    intro t hb
    rcases hthreads t with heq | ⟨_, hnot⟩
    · exact heq
    · exact absurd hb hnot
  refine ⟨hchain, hslots, by rw [hlog]; exact ht.ids, hnext, fun c b hc hb hv => ?_, ?_⟩
  · refine hfew c b hc hb fun t hvt => hv t ?_
    rw [hsame t (by rw [hvt]; trivial)]
    exact hvt
  · rcases ht.held with ⟨hq, hh⟩ | ⟨t, hothers, hcase⟩
    · exact Or.inl ⟨fun t hb => hq t (hbusy t hb), hh⟩
    · refine Or.inr ⟨t, fun t' hne hb => hothers t' hne (hbusy t' hb), ?_⟩
      rcases hcase with ⟨g, hg, hv, hh⟩ | ⟨bo, hv, hh⟩
      · exact Or.inl ⟨g, hg, by rw [hsame t (by rw [hv]; trivial)]; exact hv, hh⟩
      · exact Or.inr ⟨bo, by rw [hsame t (by rw [hv]; trivial)]; exact hv, hh⟩

/-- The block was voted on by force: the subscription leaves the log alone. -/
theorem Tracked.subscribe_of_lt (ht : Tracked own s seen k [])
    (hidle : s.threads none = .idle) (hc : s.assigner.Current g (s.nextBlock g))
    (hlt : s.nextBlock g < k g) :
    Tracked own { s.readOrder none g (s.nextBlock g) .idle with
      nextBlock := update s.nextBlock g (s.nextBlock g + 1) } seen k [] ∧
      (s.readOrder none g (s.nextBlock g) .idle).log = s.log := by
  have hread : s.readOrder none g (s.nextBlock g) .idle =
      { s.setThread none .idle with assigner := s.assigner.getRef g (s.nextBlock g) } := by
    unfold readOrder
    rw [OrderAssigner.getBlockOrder_of_lt ht.slots hc hlt]
  rw [hread]
  refine ⟨ht.frame ?_ (OrderAssigner.slotsOk_getRef ht.slots _ _) rfl (fun c => ?_)
    (fun t => Or.inl ?_) ht.few, rfl⟩
  · exact OrderAssigner.chainId_getRef.trans ht.chain
  · show update s.nextBlock g (s.nextBlock g + 1) c ≤ k c
    by_cases hcg : c = g
    · subst hcg
      rw [update_self]
      omega
    · rw [update_of_ne hcg]
      exact ht.next c
  · show update s.threads none .idle t = s.threads t
    rw [← hidle, update_eq_self]

/-- The next block for the group is the one that the order is read for. -/
theorem Tracked.subscribe_next (ht : Tracked own s seen k [])
    (hidle : s.threads none = .idle) (hquiet : ∀ t, ¬(s.threads t).Busy)
    (hc : s.assigner.Current g (k g)) :
    Tracked own { s.readOrder none g (k g) .idle with
      nextBlock := update s.nextBlock g (k g + 1) } seen
        (update k g (k g + 1)) [s.nextOrder g (k g)] ∧
      (s.readOrder none g (k g) .idle).log = s.log := by
  obtain ⟨hread, hlog⟩ := ht.read (t := none) (fun t' _ => hquiet t')
    (fun c b hv => by rw [hidle] at hv; cases hv) hc .idle
  refine ⟨⟨hread.chain, hread.slots, hread.ids, fun c => ?_, hread.few, hread.held⟩, hlog⟩
  show update s.nextBlock g (k g + 1) c ≤ update k g (k g + 1) c
  by_cases hcg : c = g
  · subst hcg
    rw [update_self, update_self]
  · rw [update_of_ne hcg, update_of_ne hcg]
    exact ht.next c

include ht in
theorem Tracked.subscribe
    (ho : Orderly s seen (.subscribe g)) (hs : s.step (.subscribe g) = some s') :
    ∃ k' h', Tracked own s' seen k' h' ∧ Grew own s (.subscribe g) (s.log ++ h) (s'.log ++ h') := by
  obtain ⟨hq, hc⟩ := ho
  obtain rfl := ht.held_nil hq
  rw [step] at hs
  split at hs
  swap
  · cases hs
  rename_i hidle
  cases hs
  rcases Nat.lt_or_eq_of_le (ht.next g) with hlt | heq
  · obtain ⟨ht', hlog⟩ := ht.subscribe_of_lt hidle hc hlt
    refine ⟨k, [], ht', Or.inl ?_⟩
    show (s.readOrder none g (s.nextBlock g) .idle).log ++ [] = _
    rw [hlog]
  · rw [heq] at hc ⊢
    obtain ⟨ht', hlog⟩ := ht.subscribe_next hidle hq hc
    refine ⟨_, _, ht', Or.inr ⟨s.nextOrder g (k g), ?_, ?_⟩⟩
    · show (s.readOrder none g (k g) .idle).log ++ _ = _
      rw [hlog, append_nil]
    · by_cases hgo : g = own
      · subst hgo
        refine Or.inl ⟨rfl, rfl, ?_⟩
        rw [heq]
        exact if_pos ht.chain
      · exact Or.inr ⟨hgo, ht.nextOrder_of_ne hgo, Or.inl ⟨g, hgo, rfl⟩⟩

include ht in
theorem Tracked.force {r : Fin G}
    (ho : Orderly s seen (.force r)) (hs : s.step (.force r) = some s') :
    ∃ k' h', Tracked own s' seen k' h' ∧ Grew own s (.force r) (s.log ++ h) (s'.log ++ h') := by
  rw [step] at hs
  split at hs
  swap
  · cases hs
  rename_i g b hvoting
  cases hs
  -- The thread that is about to vote is the busy one, and its block is the next of its group.
  have hbusy : (s.threads (some r)).Busy := by
    rw [hvoting]
    trivial
  obtain ⟨hothers, hcase⟩ := ht.held_of_busy hbusy
  rcases hcase with ⟨c, hc, hv, rfl⟩ | ⟨bo, hv, _⟩
  swap
  · rw [hvoting] at hv
    cases hv
  rw [hvoting] at hv
  cases hv
  obtain ⟨hread, hlog⟩ := ht.read hothers
    (fun c' b' hv' => by rw [hvoting] at hv'; cases hv'; exact ⟨rfl, rfl⟩)
    (ho g (k g) hvoting) (.waiting g (k g))
  refine ⟨_, _, hread, Or.inr ⟨s.nextOrder g (k g), ?_, Or.inr ⟨hc, ?_, Or.inr ⟨r, rfl⟩⟩⟩⟩
  · rw [hlog, append_nil]
  · exact ht.nextOrder_of_ne hc

/-- The busy thread has written its vote, and no thread is busy any more. -/
theorem Tracked.appended {bo : BlockOrder G} (ht : Tracked own s seen k [bo])
    (happ : s.threads t = .appending bo) (hothers : ∀ t', t' ≠ t → ¬(s.threads t').Busy)
    {x : Thread G} (hx : ¬x.Busy) :
    Tracked own { s.setThread t x with log := s.log ++ [bo] } seen k [] := by
  have hthread : ∀ t', ¬(update s.threads t x t').Busy := by
    intro t'
    rw [update_apply]
    split
    · exact hx
    · rename_i hne
      exact hothers t' hne
  refine ⟨ht.chain, ht.slots, fun c => ?_, ht.next, fun c b hc hb hv => ?_, Or.inl ⟨hthread, rfl⟩⟩
  · rw [append_nil]
    exact ht.ids c
  · refine ht.few c b hc hb fun t' hv' => ?_
    by_cases hne : t' = t
    · rw [hne, happ] at hv'
      cases hv'
    · exact hothers t' hne (by rw [hv']; trivial)

include ht in
theorem Tracked.append (hs : s.step (.append t) = some s') :
    ∃ k' h', Tracked own s' seen k' h' ∧ Grew own s (.append t) (s.log ++ h) (s'.log ++ h') := by
  rw [step] at hs
  split at hs
  swap
  · cases hs
  rename_i bo happ
  have hbusy : (s.threads t).Busy := by
    rw [happ]
    trivial
  obtain ⟨hothers, hcase⟩ := ht.held_of_busy hbusy
  rcases hcase with ⟨c, _, hv, _⟩ | ⟨bo', hv, rfl⟩
  · rw [happ] at hv
    cases hv
  rw [happ] at hv
  cases hv
  cases t with
  | none =>
    cases hs
    exact ⟨k, [], ht.appended happ hothers id, Or.inl (append_nil _)⟩
  | some r =>
    cases hs
    exact ⟨k, [], ht.appended happ hothers id, Or.inl (append_nil _)⟩

/-- The groups that have voted for a block, after one more vote of `u`. -/
theorem card_voted_le (f : Fin G → Nat) (u : Fin G) (b : Nat) :
    (Finset.univ.filter fun v => b < update f u (b + 1) v).card ≤
      (Finset.univ.filter fun v => b < f v).card + 1 := by
  rw [← insert_voted]
  exact Finset.card_insert_le u _

/-- Whoever has voted for a block has voted for the one before it. -/
theorem card_voted_pred_le {f : Fin G → Nat} {u : Fin G} (hb : b = f u) (hpos : 0 < b) :
    (Finset.univ.filter fun v => b < update f u (b + 1) v).card ≤
      (Finset.univ.filter fun v => b - 1 < f v).card := by
  refine Finset.card_le_card fun v hv => ?_
  rw [Finset.mem_filter] at hv ⊢
  refine ⟨hv.1, ?_⟩
  by_cases hvu : v = u
  · subst hvu
    omega
  · have hlt := hv.2
    rw [update_of_ne hvu] at hlt
    omega

/-- A thread that was idle and is not busy now leaves the busy ones alone. -/
theorem still_of_idle {t₀ : ThreadId G} (hidle : s.threads t₀ = .idle) {x : Thread G}
    (hx : ¬x.Busy) (t : ThreadId G) :
    update s.threads t₀ x t = s.threads t ∨
      ¬(update s.threads t₀ x t).Busy ∧ ¬(s.threads t).Busy := by
  rw [update_apply]
  split
  · rename_i ht
    refine Or.inr ⟨hx, ?_⟩
    rw [ht, hidle]
    exact id
  · exact Or.inl rfl

/-- Blocks of the group other than `b`, and other groups, have the votes they had. -/
theorem voted_update_of_ne {g u c : Fin G} {b d : Nat} (hb : b = seen g u)
    (hcd : ¬(c = g ∧ d = b)) :
    (Finset.univ.filter fun v => d <
        update seen g (update (seen g) u (b + 1)) c v) =
      Finset.univ.filter fun v => d < seen c v := by
  by_cases hc : c = g
  · subst hc
    rw [update_self]
    exact Finset.filter_congr fun v _ => lt_update_iff hb (fun hd => hcd ⟨rfl, hd⟩) v
  · rw [update_of_ne hc]

include ht in
/-- Votes on the local chain are not counted. -/
theorem Tracked.validate_own {r u : Fin G}
    (hidle : s.threads (some r) = .idle) (hs : s.step (.validate r own b u) = some s') :
    Tracked own s' seen k h ∧ s'.log = s.log := by
  have hadd : s.assigner.addVoteForBlock own b u = (s.assigner, -1) := by
    unfold OrderAssigner.addVoteForBlock
    rw [if_pos ht.chain]
  have hthr : ¬(-1 : Int) = minThreshHold G := by
    unfold minThreshHold
    omega
  rw [step, if_pos hidle, hadd] at hs
  dsimp only at hs
  rw [if_neg hthr] at hs
  cases hs
  exact ⟨ht.frame ht.chain ht.slots rfl ht.next (still_of_idle hidle id) ht.few, rfl⟩

include ht in
/-- A block that reaches the threshold while nobody is voting is the next one of its group: the
block before it would have reached the threshold first. -/
theorem Tracked.eq_next (hq : s.Quiet) {g u : Fin G}
    (hg : g ≠ own) (hb : b = seen g u) (hle : k g ≤ b)
    (hcard : (Finset.univ.filter fun v => b < update (seen g) u (b + 1) v).card =
      minThreshHold G) : b = k g := by
  by_contra hbk
  have hfew := ht.few g (b - 1) hg (by omega) (fun t hv => hq t (by rw [hv]; trivial))
  have hpred := card_voted_pred_le hb (by omega : 0 < b)
  omega

/-- The vote that reaches the threshold: its thread goes on to vote for the next block. -/
theorem Tracked.voting (ht : Tracked own s seen k []) (hq : s.Quiet) {r g u : Fin G}
    (hg : g ≠ own) (hb : k g = seen g u) {a : OrderAssigner G} (hchain : a.chainId = own)
    (hslots : SlotsOk a k (update seen g (update (seen g) u (k g + 1)))) :
    Tracked own { s.setThread (some r) (.voting g (k g)) with assigner := a }
      (update seen g (update (seen g) u (k g + 1))) k [] := by
  have hself : (s.setThread (some r) (.voting g (k g))).threads (some r) = .voting g (k g) :=
    update_self _ _ _
  refine ⟨hchain, hslots, ht.ids, ht.next, fun c d hc hd hv => ?_,
    Or.inr ⟨some r, fun t hne => ?_, Or.inl ⟨g, hg, hself, rfl⟩⟩⟩
  · have hcd : ¬(c = g ∧ d = k g) := by
      rintro ⟨rfl, rfl⟩
      exact hv (some r) hself
    rw [voted_update_of_ne hb hcd]
    exact ht.few c d hc hd fun t hvt => hq t (by rw [hvt]; trivial)
  · show ¬(update s.threads (some r) (.voting g (k g)) t).Busy
    rw [update_of_ne hne]
    exact hq t

include ht in
/-- A vote that does not reach the threshold: its thread waits for more. -/
theorem Tracked.waiting {r g u : Fin G}
    (hidle : s.threads (some r) = .idle) (hb : b = seen g u) {a : OrderAssigner G}
    (hchain : a.chainId = own) (hslots : SlotsOk a k (update seen g (update (seen g) u (b + 1))))
    (hopen : k g ≤ b → (Finset.univ.filter fun v =>
      b < update (seen g) u (b + 1) v).card ≠ minThreshHold G) :
    Tracked own { s.setThread (some r) (.waiting g b) with assigner := a }
      (update seen g (update (seen g) u (b + 1))) k h := by
  refine ht.frame hchain hslots rfl ht.next (still_of_idle hidle id) fun c d hc hd hv => ?_
  by_cases hcd : c = g ∧ d = b
  · obtain ⟨rfl, rfl⟩ := hcd
    have hfew := ht.few c d hc hd hv
    have hle := card_voted_le (seen c) u d
    rw [update_self]
    exact lt_of_le_of_ne (by omega) (hopen hd)
  · rw [voted_update_of_ne hb hcd]
    exact ht.few c d hc hd hv

include ht in
theorem Tracked.validate {r g u : Fin G}
    (ho : Orderly s seen (.validate r g b u)) (hs : s.step (.validate r g b u) = some s') :
    ∃ k' h', Tracked own s' (count own seen (.validate r g b u)) k' h' ∧
      Grew own s (.validate r g b u) (s.log ++ h) (s'.log ++ h') := by
  have hidle : s.threads (some r) = .idle := by
    by_contra hbusy
    rw [step, if_neg hbusy] at hs
    cases hs
  by_cases hg : g = own
  · subst hg
    obtain ⟨ht', hlog⟩ := ht.validate_own hidle hs
    have hcount : count g seen (.validate r g b u) = seen := if_pos rfl
    rw [hcount]
    exact ⟨k, h, ht', Or.inl (by rw [hlog])⟩
  · have hne : s.assigner.chainId ≠ g := by
      rw [ht.chain]
      exact Ne.symm hg
    obtain ⟨hb, hcur, hquiet⟩ := ho (Ne.symm hne)
    obtain ⟨a', n, hadd, hchain, _, hslots, hn⟩ :=
      OrderAssigner.addVoteForBlock_next ht.slots hne hb hcur
    have hcount : count own seen (.validate r g b u) =
        update seen g (update (seen g) u (b + 1)) := if_neg hg
    rw [hadd] at hquiet
    rw [step, if_pos hidle, hadd] at hs
    dsimp only at hs
    rw [hcount]
    by_cases hthr : n = minThreshHold G
    · obtain rfl := ht.held_nil (hquiet hthr)
      have hle : k g ≤ b := by
        by_contra hlt
        rw [if_pos (not_le.mp hlt), hthr] at hn
        unfold minThreshHold at hn
        omega
      rw [if_neg (not_lt.mpr hle), hthr] at hn
      obtain rfl := ht.eq_next (hquiet hthr) hg hb hle (by exact_mod_cast hn.symm)
      rw [if_pos hthr] at hs
      cases hs
      exact ⟨k, [], ht.voting (hquiet hthr) hg hb (hchain.trans ht.chain) hslots, Or.inl rfl⟩
    · rw [if_neg hthr] at hs
      cases hs
      refine ⟨k, h, ht.waiting hidle hb (hchain.trans ht.chain) hslots fun hle heq => ?_,
        Or.inl rfl⟩
      rw [if_neg (not_lt.mpr hle), heq] at hn
      exact hthr hn

include ht in
/-- **One orderly step.** -/
theorem Tracked.step (ho : Orderly s seen a)
    (hs : s.step a = some s') : ∃ k' h', Tracked own s' (count own seen a) k' h' ∧
      Grew own s a (s.log ++ h) (s'.log ++ h') := by
  cases a with
  | subscribe g => exact ht.subscribe ho hs
  | validate r g b u => exact ht.validate ho hs
  | force r => exact ht.force ho hs
  | append t => exact ht.append hs
  | poll r =>
    rw [Leader.step] at hs
    split at hs
    · rename_i g b _
      cases hs
      obtain ⟨hslots, hchain, _⟩ := OrderAssigner.getVoteForBlock_fst ht.slots g b
      exact ⟨k, h, ht.frame (hchain.trans ht.chain) hslots rfl ht.next (fun _ => Or.inl rfl)
        ht.few, Or.inl rfl⟩
    · cases hs
  | answer r =>
    rw [Leader.step] at hs
    split at hs
    · rename_i g b hwait
      cases hs
      refine ⟨k, h, ht.frame ht.chain ht.slots rfl ht.next (fun t => ?_) ht.few, Or.inl rfl⟩
      show update s.threads (some r) .idle t = _ ∨ ¬(update s.threads (some r) .idle t).Busy ∧ _
      rw [update_apply]
      split
      · rename_i htr
        rw [htr, hwait]
        exact Or.inr ⟨id, id⟩
      · exact Or.inl rfl
    · cases hs
  | apply g b =>
    rw [Leader.step] at hs
    split at hs
    · rename_i a' _ hinc
      cases hs
      obtain ⟨hvotes, hchain, _⟩ := OrderAssigner.increaseLocalClock_eq_some hinc
      have hslots : SlotsOk a' k seen := by
        intro c i
        rw [hvotes]
        exact ht.slots c i
      exact ⟨k, h, ht.frame (hchain.trans ht.chain) hslots rfl ht.next (fun _ => Or.inl rfl)
        ht.few, Or.inl rfl⟩
    · cases hs

/-! ## The clocks -/

theorem myClock_readOrder (t : ThreadId G) (g : Fin G) (b : Nat) (done : Thread G) :
    (s.readOrder t g b done).assigner.myClock = s.assigner.myClock := by
  show (s.assigner.getBlockOrder g b).1.myClock = _
  unfold OrderAssigner.getBlockOrder
  dsimp only
  split <;> simp

/-- No step turns the clock or the subscriber back. -/
theorem step_clock (hs : s.step a = some s') (own : Fin G) :
    s.assigner.myClock ≤ s'.assigner.myClock ∧ s.nextBlock own ≤ s'.nextBlock own ∧
      (a = .subscribe own → s'.nextBlock own = s.nextBlock own + 1) := by
  cases a with
  | subscribe g =>
    rw [step] at hs
    split at hs
    swap
    · cases hs
    cases hs
    refine ⟨(myClock_readOrder none g (s.nextBlock g) .idle).ge, ?_, ?_⟩
    · exact (le_update_self_iff.mpr (Nat.le_succ (s.nextBlock g)) :
        s.nextBlock ≤ update s.nextBlock g (s.nextBlock g + 1)) own
    · rintro heq
      cases heq
      exact update_self _ _ _
  | validate r g b u =>
    rw [step] at hs
    split at hs
    swap
    · cases hs
    cases hs
    exact ⟨OrderAssigner.myClock_addVoteForBlock.ge, le_refl _, fun heq => by cases heq⟩
  | force r =>
    rw [step] at hs
    split at hs
    · cases hs
      exact ⟨(myClock_readOrder _ _ _ _).ge, le_refl _, fun heq => by cases heq⟩
    · cases hs
  | append t =>
    rw [step] at hs
    split at hs
    · cases hs
      exact ⟨le_refl _, le_refl _, fun heq => by cases heq⟩
    · cases hs
  | poll r =>
    rw [step] at hs
    split at hs
    · rename_i g b _
      cases hs
      exact ⟨OrderAssigner.myClock_getVoteForBlock.ge, le_refl _, fun heq => by cases heq⟩
    · cases hs
  | answer r =>
    rw [step] at hs
    split at hs
    · cases hs
      exact ⟨le_refl _, le_refl _, fun heq => by cases heq⟩
    · cases hs
  | apply g b =>
    rw [step] at hs
    split at hs
    · rename_i a' _ hinc
      cases hs
      exact ⟨(OrderAssigner.increaseLocalClock_eq_some hinc).2.2, le_refl _,
        fun heq => by cases heq⟩
    · cases hs

/-- A vote that is not below any before it keeps the clocks in order. -/
theorem pairwise_concat {l : List (BlockOrder G)} {bo : BlockOrder G}
    (hl : l.Pairwise fun x y => x.voteBlockId ≤ y.voteBlockId)
    (hbo : ∀ x ∈ l, x.voteBlockId ≤ bo.voteBlockId) :
    (l ++ [bo]).Pairwise fun x y => x.voteBlockId ≤ y.voteBlockId := by
  rw [pairwise_append]
  refine ⟨hl, pairwise_singleton _ _, fun x hx y hy => ?_⟩
  rw [mem_singleton] at hy
  exact hy ▸ hbo x hx

/-- The votes in `l` were read from a clock that has not gone back since. -/
structure Clocked (own : Fin G) (s : Leader G) (l : List (BlockOrder G)) : Prop where
  le : ∀ bo ∈ votes own l, bo.voteBlockId ≤ s.assigner.myClock
  sorted : (votes own l).Pairwise fun x y => x.voteBlockId ≤ y.voteBlockId

theorem Clocked.step {l l' : List (BlockOrder G)} (hc : Clocked own s l)
    (hs : s.step a = some s') (hg : Grew own s a l l') : Clocked own s' l' := by
  obtain ⟨hclock, _, _⟩ := step_clock hs own
  rcases hg with rfl | ⟨bo, rfl, ⟨hown, _, _⟩ | ⟨hown, hval, _⟩⟩
  · exact ⟨fun bo hbo => le_trans (hc.le bo hbo) hclock, hc.sorted⟩
  · have hsame : votes own (l ++ [bo]) = votes own l := by
      simp [votes, hown]
    constructor <;> rw [hsame]
    · exact fun x hx => le_trans (hc.le x hx) hclock
    · exact hc.sorted
  · have happ : votes own (l ++ [bo]) = votes own l ++ [bo] := by
      simp [votes, hown]
    constructor <;> rw [happ]
    · intro x hx
      rcases mem_append.mp hx with hx | hx
      · exact le_trans (hc.le x hx) hclock
      · rw [mem_singleton] at hx
        rw [hx, hval]
        exact hclock
    · exact pairwise_concat hc.sorted fun x hx => by rw [hval]; exact hc.le x hx

/-- The condition for the entries on own blocks to fit between the votes: the clock has counted
all own blocks that have been proposed when a vote is read, and none that has not. -/
def Aligned (own : Fin G) (s : Leader G) : Action G → Prop
  | .subscribe g =>
    if g = own then s.assigner.myClock ≤ s.nextBlock own
    else (s.nextBlock own : Int) ≤ s.assigner.myClock + 1
  | .force _ => (s.nextBlock own : Int) ≤ s.assigner.myClock + 1
  | _ => True

structure Level (own : Fin G) (s : Leader G) (l : List (BlockOrder G)) : Prop where
  le : ∀ bo ∈ l, bo.voteBlockId ≤ max s.assigner.myClock ((s.nextBlock own : Int) - 1)
  sorted : l.Pairwise fun x y => x.voteBlockId ≤ y.voteBlockId

theorem Level.step {l l' : List (BlockOrder G)} (hl : Level own s l) (ha : Aligned own s a)
    (hs : s.step a = some s') (hg : Grew own s a l l') : Level own s' l' := by
  obtain ⟨hclock, hnext, hsub⟩ := step_clock hs own
  have hold : ∀ bo ∈ l, bo.voteBlockId ≤
      max s'.assigner.myClock ((s'.nextBlock own : Int) - 1) := by
    intro bo hbo
    have hle := hl.le bo hbo
    omega
  rcases hg with rfl | ⟨bo, rfl, hbo⟩
  · exact ⟨hold, hl.sorted⟩
  · have hval : (∀ x ∈ l, x.voteBlockId ≤ bo.voteBlockId) ∧
        bo.voteBlockId ≤ max s'.assigner.myClock ((s'.nextBlock own : Int) - 1) := by
      rcases hbo with ⟨_, rfl, hval⟩ | ⟨_, hval, ⟨g, hg, rfl⟩ | ⟨r, rfl⟩⟩
      · have ha' : s.assigner.myClock ≤ s.nextBlock own := by simpa [Aligned] using ha
        have hsub' := hsub rfl
        refine ⟨fun x hx => ?_, by omega⟩
        have hle := hl.le x hx
        omega
      · have ha' : (s.nextBlock own : Int) ≤ s.assigner.myClock + 1 := by
          simpa [Aligned, hg] using ha
        refine ⟨fun x hx => ?_, by omega⟩
        have hle := hl.le x hx
        omega
      · have ha' : (s.nextBlock own : Int) ≤ s.assigner.myClock + 1 := ha
        refine ⟨fun x hx => ?_, by omega⟩
        have hle := hl.le x hx
        omega
    refine ⟨fun x hx => ?_, pairwise_concat hl.sorted hval.1⟩
    rcases mem_append.mp hx with hx | hx
    · exact hold x hx
    · rw [mem_singleton] at hx
      exact hx ▸ hval.2

/-! ## Runs -/

theorem Run.mono {P Q : Leader G → Seen G → Action G → Prop}
    (hPQ : ∀ s seen a, P s seen a → Q s seen a) (hrun : Run P own s seen) : Run Q own s seen := by
  induction hrun with
  | init => exact .init
  | step _ hP hs ih => exact ih.step (hPQ _ _ _ hP) hs

theorem Run.tracked (hrun : Run Orderly own s seen) :
    ∃ k h, Tracked own s seen k h ∧ Clocked own s (s.log ++ h) := by
  induction hrun with
  | init =>
    exact ⟨_, _, tracked_init own, ⟨by simp [votes, Leader.init], by simp [votes, Leader.init]⟩⟩
  | step _ ho hs ih =>
    obtain ⟨k, h, ht, hc⟩ := ih
    obtain ⟨k', h', ht', hg⟩ := ht.step ho hs
    exact ⟨k', h', ht', hc.step hs hg⟩

theorem Run.level (hrun : Run (fun s seen a => s.Orderly seen a ∧ Aligned own s a) own s seen) :
    ∃ k h, Tracked own s seen k h ∧ Level own s (s.log ++ h) := by
  induction hrun with
  | init => exact ⟨_, _, tracked_init own, ⟨by simp [Leader.init], by simp [Leader.init]⟩⟩
  | step _ ho hs ih =>
    obtain ⟨k, h, ht, hl⟩ := ih
    obtain ⟨k', h', ht', hg⟩ := ht.step ho.1 hs
    exact ⟨k', h', ht', hl.step ho.2 hs hg⟩

/-- **The log of a leader whose votes do not overlap is well formed** at every moment: the clocks
of its votes never decrease, and the votes on every other group are in block order. With the own
blocks in step, the clocks of all its entries never decrease. -/
theorem log_wellFormed_of_orderly (own : Fin G) :
    (∀ s seen, Run Orderly own s seen → WellFormed own s.log) ∧
    ∀ s seen, Run (fun s seen a => s.Orderly seen a ∧ Aligned own s a) own s seen →
      s.log.Pairwise fun x y => x.voteBlockId ≤ y.voteBlockId := by
  constructor
  · intro s seen hrun
    obtain ⟨k, h, ht, hc⟩ := hrun.tracked
    constructor
    · have hsorted := hc.sorted
      rw [votes, filter_append] at hsorted
      exact (pairwise_append.mp hsorted).1
    · intro g _
      have hids := ht.ids g
      rw [votesOn_append] at hids
      have hrange := pairwise_lt_range (n := k g)
      rw [← hids] at hrange
      exact (pairwise_append.mp hrange).1
  · intro s seen hrun
    obtain ⟨k, h, _, hl⟩ := hrun.level
    exact (pairwise_append.mp hl.sorted).1

/-- The leader of group 0 votes on block 0 of group 1, own block 0 is proposed and applied, and it
votes on block 1. -/
theorem log_wellFormed_of_orderly_two_votes :
    ∃ s : Leader 2, s.log = [⟨1, 0, 0, -1⟩, ⟨0, 0, 0, 0⟩, ⟨1, 1, 0, 0⟩] ∧ WellFormed 0 s.log ∧
      s.log.Pairwise fun x y => x.voteBlockId ≤ y.voteBlockId := by
  have hread : ∀ (s : Leader 2) (g : Fin 2), (∀ t, ¬(s.threads t).Busy) →
      (s.assigner.slot g (s.nextBlock g)).blockId ≤ s.nextBlock g →
      (if g = 0 then s.assigner.myClock ≤ s.nextBlock 0
        else (s.nextBlock 0 : Int) ≤ s.assigner.myClock + 1) →
      ∀ seen, s.Orderly seen (.subscribe g) ∧ Aligned 0 s (.subscribe g) :=
    fun _ _ hq hc ha _ => ⟨⟨hq, hc⟩, ha⟩
  have h₀ := @Run.init 2 (fun s seen a => s.Orderly seen a ∧ Aligned 0 s a) 0
  have h₁ := h₀.step (a := .subscribe 1) (hread _ _ (by decide) (by decide) (by decide) _) rfl
  have h₂ := h₁.step (a := .append none) ⟨trivial, trivial⟩ rfl
  have h₃ := h₂.step (a := .subscribe 0) (hread _ _ (by decide) (by decide) (by decide) _) rfl
  have h₄ := h₃.step (a := .append none) ⟨trivial, trivial⟩ rfl
  have h₅ := h₄.step (a := .apply 0 0) ⟨trivial, trivial⟩ rfl
  have h₆ := h₅.step (a := .subscribe 1) (hread _ _ (by decide) (by decide) (by decide) _) rfl
  have h₇ := h₆.step (a := .append none) ⟨trivial, trivial⟩ rfl
  exact ⟨_, by decide, (log_wellFormed_of_orderly 0).1 _ _ (h₇.mono fun _ _ _ h => h.1),
    (log_wellFormed_of_orderly 0).2 _ _ h₇⟩

/-- The subscriber has read clock `-1` for its vote on block 0 of group 1. Before it appends, own
block 0 is applied, and the votes of groups 1 and 2 force a vote on block 0 of group 2 at clock
0. The two votes stand in the log in the wrong order. -/
theorem overlapping_votes_not_wellFormed :
    ∃ s : Leader 3, runActions [.subscribe 1, .apply 0 0, .validate 1 2 0 1, .validate 2 2 0 2,
        .force 2, .append (some 2), .append none] (init 0) = some s ∧
      s.log = [⟨2, 0, 0, 0⟩, ⟨1, 0, 0, -1⟩] ∧ ¬WellFormed 0 s.log := by
  refine ⟨_, rfl, by decide, fun hwf => ?_⟩
  exact absurd hwf.clocks (by decide)

end Leader

end MassBFT.Order
