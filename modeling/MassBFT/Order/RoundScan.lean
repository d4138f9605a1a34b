import MassBFT.Order.RoundBased

/-!
# The scan of the round-based manager

`Tracks` says what the map of the manager has to do with the calls it has seen; from it one
round of the loop is read off, and from that the loop, a call and a run. **The manager commits
the rounds that pass its scan** (`run_commits`), with `Scanned` as the question.

That question and the one it stands for, `Ready`, have the same answer as long as the scan is
not misled, and a wrong answer is seen at once in what is delivered (`round_order_iff`).
-/

set_option autoImplicit false

namespace MassBFT.Order.RoundBasedOrderManager

open Function List

/-! ## What the manager knows -/

section

variable {G : Nat} {H : List Call} {m : RoundBasedOrderManager} {k : Nat}

/-- The flags of a round. -/
def row (G : Nat) (H : List Call) (r : Int) : List Bool :=
  (List.range G).map fun i => decide (Pushed H i r)

/-- What the manager has to do with the calls. Of the rounds that are committed it may have
anything in its map. -/
structure Tracks (G : Nat) (H : List Call) (m : RoundBasedOrderManager) : Prop where
  count : m.subChainCount = G
  last : -1 ≤ m.lastCommittedRound
  invalid : ∀ i < G, i ∈ m.invalidGroupList ↔ Invalidated H i
  flags : ∀ r, m.lastCommittedRound < r →
    m.receiveMap r = if true ∈ row G H r then some (row G H r) else none

theorem tracks_setSubChainCount (G : Nat) : Tracks G [] (setSubChainCount G) where
  count := rfl
  last := le_refl _
  invalid := by simp [setSubChainCount, Invalidated]
  flags := by simp [setSubChainCount, row, Pushed]

@[simp] theorem true_mem_row {r : Int} : true ∈ row G H r ↔ ∃ i < G, Pushed H i r := by
  simp [row]

theorem row_of_not_mem {r : Int} (h : true ∉ row G H r) : row G H r = List.replicate G false := by
  rw [true_mem_row] at h
  refine eq_replicate_iff.mpr ⟨by simp [row], ?_⟩
  intro b hb
  obtain ⟨i, hi, rfl⟩ := mem_map.mp hb
  rw [mem_range] at hi
  exact decide_eq_false fun hpush => h ⟨i, hi, hpush⟩

/-- A push sets one flag. -/
theorem row_push (i : Nat) (n r : Int) : row G (H ++ [.pushDecision i n]) r =
    if r = n then (row G H r).set i true else row G H r := by
  apply ext_getElem
  · split
    · simp [row]
    · simp [row]
  · intro j hj _
    by_cases heq : r = n
    · by_cases hij : i = j
      · simp [row, hij, heq]
      · have hji : ¬ j = i := fun h => hij h.symm
        simp [row, hij, hji, heq]
    · simp [row, heq]

theorem row_invalidate (i : Nat) (r : Int) : row G (H ++ [.invalidateChain i]) r = row G H r := by
  simp [row]

/-- **The scan asks for group 0.** -/
theorem Tracks.allReceived_iff (ht : Tracks G H m) {r : Int} (hsome : ∃ i < G, Pushed H i r) :
    m.allReceived (row G H r) = true ↔ Invalidated H 0 ∨ ∀ i < G, Pushed H i r := by
  obtain ⟨j, hj, -⟩ := hsome
  have hzero : 0 ∈ m.invalidGroupList ↔ Invalidated H 0 := ht.invalid 0 (Nat.zero_lt_of_lt hj)
  have hflag : ∀ i, (!(decide (Pushed H i r) == false &&
      !m.invalidGroupList.contains (decide (Pushed H i r)).toNat)) = true ↔
        Pushed H i r ∨ Invalidated H 0 := by
    intro i
    by_cases hpush : Pushed H i r
    · simp [hpush]
    · simp [hpush, hzero]
  rw [allReceived, row, all_map, all_eq_true]
  simp only [comp_apply, hflag, mem_range]
  constructor
  · intro h
    by_cases hfail : Invalidated H 0
    · exact Or.inl hfail
    · exact Or.inr fun i hi => (h i hi).resolve_right hfail
  · rintro (hfail | hall) i hi
    · exact Or.inr hfail
    · exact Or.inl (hall i hi)

/-- A round that passes the scan is committed and delivered. -/
theorem Tracks.commitRound_scanned (ht : Tracks G H m) (hk : m.lastCommittedRound + 1 = k)
    (hs : Scanned G H k) : ∃ m', m.commitRound = .ok (some m') ∧ Tracks G H m' ∧
      m'.lastCommittedRound = k ∧
      m'.delivered = m.delivered ++ (alive G H).map fun i => (i, (k : Int)) := by
  have hflags := ht.flags k (by omega)
  rw [if_pos (true_mem_row.mpr hs.1)] at hflags
  have hall := (ht.allReceived_iff hs.1).mpr hs.2
  have hone : ((k : Int) - m.lastCommittedRound).toNat = 1 := by omega
  have hgroups : (List.range m.subChainCount).filter
      (fun i => !m.invalidGroupList.contains i) = alive G H := by
    rw [ht.count, alive]
    refine filter_congr fun i hi => ?_
    simp [ht.invalid i (mem_range.mp hi)]
  refine ⟨{ m with
    lastCommittedRound := k
    receiveMap := update m.receiveMap k none
    delivered := m.delivered ++ (alive G H).map fun i => (i, (k : Int)) }, ?_, ?_, rfl, rfl⟩
  · rw [commitRound, hk, isRoundCommitted, if_neg (by omega), if_neg (by omega), hone,
      commitRounds, hk, hflags]
    simp only [hall, if_true, commitRounds, deliver, hgroups]
  · refine ⟨ht.count, by dsimp only; omega, ht.invalid, fun r hr => ?_⟩
    have hne : r ≠ k := ne_of_gt hr
    dsimp only at hr ⊢
    rw [update_of_ne hne]
    exact ht.flags r (by omega)

theorem Tracks.commitRound_not_scanned (ht : Tracks G H m) (hk : m.lastCommittedRound + 1 = k)
    (hs : ¬ Scanned G H k) : m.commitRound = .ok none := by
  have hflags := ht.flags k (by omega)
  have hone : ((k : Int) - m.lastCommittedRound).toNat = 1 := by omega
  rw [commitRound, hk, isRoundCommitted, if_neg (by omega), if_neg (by omega), hone,
    commitRounds, hk, hflags]
  by_cases hsome : ∃ i < G, Pushed H i k
  · rw [if_pos (true_mem_row.mpr hsome)]
    have hall : ¬ m.allReceived (row G H k) = true :=
      fun h => hs ⟨hsome, (ht.allReceived_iff hsome).mp h⟩
    simp only [hall, Bool.false_eq_true, if_false]
  · rw [if_neg fun h => hsome (true_mem_row.mp h)]

/-- What the loop has done since the manager was `m` and round `k` was next: the rounds in front
of `k'` have been committed. -/
structure Committing (G : Nat) (H : List Call) (m : RoundBasedOrderManager) (k : Nat)
    (m' : RoundBasedOrderManager) (k' : Nat) : Prop where
  tracks : Tracks G H m'
  next : m'.lastCommittedRound + 1 = k'
  le : k ≤ k'
  scanned : ∀ r, k ≤ r → r < k' → Scanned G H r
  delivered : m'.delivered = m.delivered ++ delivery G H k k'

theorem Tracks.committing (ht : Tracks G H m) (hk : m.lastCommittedRound + 1 = k) :
    Committing G H m k m k :=
  ⟨ht, hk, le_refl k, fun _ hge hlt => absurd hge (Nat.not_le.mpr hlt), by simp⟩

theorem Committing.round {m' : RoundBasedOrderManager} {k' : Nat}
    (h : Committing G H m k m' k') (hs : Scanned G H k') :
    ∃ m'', m'.commitRound = .ok (some m'') ∧ Committing G H m k m'' (k' + 1) := by
  obtain ⟨m'', hround, ht, hlast, hdel⟩ := h.tracks.commitRound_scanned h.next hs
  refine ⟨m'', hround, ht, by rw [hlast]; rfl, h.le.trans (Nat.le_succ k'), ?_, ?_⟩
  · intro r hge hlt
    rcases Nat.lt_succ_iff_lt_or_eq.mp hlt with hlt | rfl
    · exact h.scanned r hge hlt
    · exact hs
  · rw [hdel, h.delivered, delivery_succ h.le, append_assoc]

/-- **The loop commits the rounds that pass the scan**, and ends. -/
theorem Tracks.tryCommitBlock (ht : Tracks G H m) (hk : m.lastCommittedRound + 1 = k) :
    ∃ fuel m' k', m.tryCommitBlock fuel = .done m' ∧ Tracks G H m' ∧
      m'.lastCommittedRound + 1 = (k' : Nat) ∧ k ≤ k' ∧
      (∀ r, k ≤ r → r < k' → Scanned G H r) ∧ ¬ Scanned G H k' ∧
      m'.delivered = m.delivered ++ delivery G H k k' := by
  obtain ⟨N, hN⟩ := exists_bound H
  have hscan : ∀ r, Scanned G H r → r < N := by
    rintro r ⟨⟨i, -, hpush⟩, -⟩
    have hlt := hN i r hpush
    omega
  have hsafe : ∀ m', (∃ k', Committing G H m k m' k') → ∃ next, m'.commitRound = .ok next := by
    rintro m' ⟨k', h⟩
    by_cases hs : Scanned G H k'
    · obtain ⟨m'', hround, -⟩ := h.round hs
      exact ⟨_, hround⟩
    · exact ⟨_, h.tracks.commitRound_not_scanned h.next hs⟩
  have hstep : ∀ m' m'', (∃ k', Committing G H m k m' k') → m'.commitRound = .ok (some m'') →
      (∃ k', Committing G H m k m'' k') ∧
      N - (m''.lastCommittedRound + 1).toNat < N - (m'.lastCommittedRound + 1).toNat := by
    rintro m' m'' ⟨k', h⟩ hround
    by_cases hs : Scanned G H k'
    · obtain ⟨m₁, hround', h₁⟩ := h.round hs
      rw [hround'] at hround
      cases hround
      refine ⟨⟨k' + 1, h₁⟩, ?_⟩
      have hlt := hscan k' hs
      rw [h₁.next, h.next, Int.toNat_natCast, Int.toNat_natCast]
      omega
    · rw [h.tracks.commitRound_not_scanned h.next hs] at hround
      cases hround
  obtain ⟨fuel, m', hloop, ⟨k', h⟩, hend⟩ :=
    loop_done_of_variant (fun m' => N - (m'.lastCommittedRound + 1).toNat) hsafe hstep
      ⟨k, ht.committing hk⟩
  refine ⟨fuel, m', k', hloop, h.tracks, h.next, h.le, h.scanned, ?_, h.delivered⟩
  intro hs
  obtain ⟨m'', hround, -⟩ := h.round hs
  rw [hround] at hend
  cases hend

end

/-! ## Runs -/

section

variable {G : Nat} {H : List Call} {m : RoundBasedOrderManager} {k : Nat} {i : Nat}
  {m' : RoundBasedOrderManager}

/-- The manager has committed `k` rounds, with the scan as the question. -/
structure Simulates (G : Nat) (H : List Call) (k : Nat) (m : RoundBasedOrderManager) : Prop where
  tracks : Tracks G H m
  last : m.lastCommittedRound + 1 = k
  commits : Commits (Scanned G) G H k m.delivered

theorem simulates_setSubChainCount (G : Nat) : Simulates G [] 0 (setSubChainCount G) :=
  ⟨tracks_setSubChainCount G, rfl, .start⟩

/-- A call that is turned down, or is no news, does not change what the scan sees. -/
theorem Simulates.same (hs : Simulates G H k m) (c : Call) (ht : Tracks G (H ++ [c]) m)
    (hsame : Scanned G (H ++ [c]) k → Scanned G H k) : Simulates G (H ++ [c]) k m := by
  refine ⟨ht, hs.last, ?_⟩
  have hlast : ¬ Scanned G (H ++ [c]) k := fun h => hs.commits.not_ready gate_scanned (hsame h)
  have hnext := Commits.call c hs.commits (le_refl k) (fun r hge hlt => absurd hge (by omega)) hlast
  rwa [delivery_self, append_nil] at hnext

/-- A call that ends with the loop. -/
theorem Simulates.loop (hs : Simulates G H k m) (c : Call) {m₁ : RoundBasedOrderManager}
    (ht : Tracks G (H ++ [c]) m₁) (hlast : m₁.lastCommittedRound = m.lastCommittedRound)
    (hdel : m₁.delivered = m.delivered) :
    ∃ fuel m' k', m₁.tryCommitBlock fuel = .done m' ∧ Simulates G (H ++ [c]) k' m' := by
  obtain ⟨fuel, m', k', hloop, ht', hk', hle, hall, hnot, hdel'⟩ :=
    ht.tryCommitBlock (hlast ▸ hs.last)
  refine ⟨fuel, m', k', hloop, ht', hk', ?_⟩
  rw [hdel', hdel]
  exact .call c hs.commits hle hall hnot

theorem Tracks.push (ht : Tracks G H m) (hi : i < G) (n : Int) :
    Tracks G (H ++ [.pushDecision i n]) { m with
      receiveMap := update m.receiveMap n (some
        (((m.receiveMap n).getD (List.replicate m.subChainCount false)).set i true)) } := by
  refine ⟨ht.count, ht.last, fun j hj => ?_, fun r hr => ?_⟩
  · rw [invalidated_push]
    exact ht.invalid j hj
  · dsimp only at hr ⊢
    by_cases heq : r = n
    · subst heq
      have hnew : true ∈ row G (H ++ [.pushDecision i r]) r :=
        true_mem_row.mpr ⟨i, hi, pushed_push.mpr (Or.inr ⟨rfl, rfl⟩)⟩
      rw [update_self, if_pos hnew, row_push, if_pos rfl, ht.flags r hr, ht.count]
      split
      · rfl
      · rename_i hnone
        rw [row_of_not_mem hnone]
        rfl
    · rw [update_of_ne heq, ht.flags r hr, row_push, if_neg heq]

theorem Tracks.push_overflow (ht : Tracks G H m) (hi : G ≤ i) (n : Int) :
    Tracks G (H ++ [.pushDecision i n]) m := by
  refine ⟨ht.count, ht.last, fun j hj => ?_, fun r hr => ?_⟩
  · rw [invalidated_push]
    exact ht.invalid j hj
  · have hlen : (row G H r).length ≤ i := by simpa [row] using hi
    rw [row_push, set_eq_of_length_le hlen, ite_self]
    exact ht.flags r hr

theorem Tracks.invalidate (ht : Tracks G H m) (i : Nat) :
    Tracks G (H ++ [.invalidateChain i])
      { m with invalidGroupList := i :: m.invalidGroupList } := by
  refine ⟨ht.count, ht.last, fun j hj => ?_, fun r hr => ?_⟩
  · dsimp only
    rw [mem_cons, ht.invalid j hj, invalidated_invalidate, or_comm]
  · rw [row_invalidate]
    exact ht.flags r hr

/-- A report of a group that is not there, or that has been reported. -/
theorem Tracks.invalidate_known (ht : Tracks G H m) (hi : i < G → Invalidated H i) :
    Tracks G (H ++ [.invalidateChain i]) m := by
  refine ⟨ht.count, ht.last, fun j hj => ?_, fun r hr => ?_⟩
  · rw [ht.invalid j hj, invalidated_invalidate]
    constructor
    · exact Or.inl
    · rintro (hfail | rfl)
      · exact hfail
      · exact hi hj
  · rw [row_invalidate]
    exact ht.flags r hr

/-- Dropping the answer of a call. -/
theorem bind_answer (x : Outcome RoundCheck RoundBasedOrderManager) :
    (x.bind fun m' => .done (true, m')).bind (fun left => .done left.2) = x := by
  cases x with
  | done m' => rfl
  | failed e => rfl
  | timeout => rfl

theorem call_push (fuel : Nat) (hi : ¬ m.subChainCount ≤ i) (n : Int) :
    m.call fuel (.pushDecision i n) = tryCommitBlock fuel { m with
      receiveMap := update m.receiveMap n (some
        (((m.receiveMap n).getD (List.replicate m.subChainCount false)).set i true)) } := by
  rw [call, RoundBasedOrderManager.pushDecision, if_neg hi]
  exact bind_answer _

theorem call_push_overflow (fuel : Nat) (hi : m.subChainCount ≤ i) (n : Int) :
    m.call fuel (.pushDecision i n) = .done m := by
  rw [call, RoundBasedOrderManager.pushDecision, if_pos hi]
  rfl

theorem call_invalidate (fuel : Nat) (hi : ¬ m.subChainCount ≤ i)
    (hnew : i ∉ m.invalidGroupList) : m.call fuel (.invalidateChain i) =
      tryCommitBlock fuel { m with invalidGroupList := i :: m.invalidGroupList } := by
  rw [call, RoundBasedOrderManager.invalidateChain, if_neg hi,
    if_neg fun h => hnew (contains_iff_mem.mp h)]
  exact bind_answer _

theorem call_invalidate_known (fuel : Nat) (hi : m.subChainCount ≤ i ∨ i ∈ m.invalidGroupList) :
    m.call fuel (.invalidateChain i) = .done m := by
  rw [call, RoundBasedOrderManager.invalidateChain]
  by_cases hover : m.subChainCount ≤ i
  · rw [if_pos hover]
    rfl
  · rw [if_neg hover, if_pos (contains_iff_mem.mpr (hi.resolve_left hover))]
    rfl

/-- A call is a loop, or leaves the manager as it was. -/
theorem call_cases (m : RoundBasedOrderManager) (c : Call) :
    (∃ m₁, ∀ fuel, m.call fuel c = tryCommitBlock fuel m₁) ∨ ∀ fuel, m.call fuel c = .done m := by
  cases c with
  | pushDecision i n =>
    by_cases hi : m.subChainCount ≤ i
    · exact Or.inr fun fuel => call_push_overflow fuel hi n
    · exact Or.inl ⟨_, fun fuel => call_push fuel hi n⟩
  | invalidateChain i =>
    by_cases hi : m.subChainCount ≤ i ∨ i ∈ m.invalidGroupList
    · exact Or.inr fun fuel => call_invalidate_known fuel hi
    · rw [not_or] at hi
      exact Or.inl ⟨_, fun fuel => call_invalidate fuel hi.1 hi.2⟩

/-- A bound that is enough for a call stays enough. -/
theorem call_mono {fuel fuel' : Nat} (hle : fuel ≤ fuel') {c : Call}
    (h : m.call fuel c = .done m') : m.call fuel' c = .done m' := by
  rcases call_cases m c with ⟨m₁, hloop⟩ | hsame
  · rw [hloop] at h ⊢
    have hend : tryCommitBlock fuel m₁ ≠ .timeout := by
      rw [h]
      exact nofun
    exact (loop_mono hle hend).trans h
  · rw [hsame] at h ⊢
    exact h

theorem run_append (fuel : Nat) (cs cs' : List Call) (m : RoundBasedOrderManager) :
    run fuel (cs ++ cs') m = (run fuel cs m).bind (run fuel cs') := by
  induction cs generalizing m with
  | nil => rfl
  | cons c cs ih =>
    rw [cons_append, run, run]
    cases m.call fuel c with
    | done m' => exact ih m'
    | failed e => rfl
    | timeout => rfl

theorem run_mono {fuel fuel' : Nat} (hle : fuel ≤ fuel') {cs : List Call}
    (h : run fuel cs m = .done m') : run fuel' cs m = .done m' := by
  induction cs generalizing m with
  | nil => exact h
  | cons c cs ih =>
    obtain ⟨m₁, hcall, hrest⟩ := Outcome.bind_eq_done h
    rw [run, call_mono hle hcall]
    exact ih hrest

theorem Simulates.pushDecision (hs : Simulates G H k m) (i : Nat) (n : Int) :
    ∃ fuel m' k', m.call fuel (.pushDecision i n) = .done m' ∧
      Simulates G (H ++ [.pushDecision i n]) k' m' := by
  have hcount := hs.tracks.count
  by_cases hi : G ≤ i
  · refine ⟨0, m, k, call_push_overflow 0 (hcount ▸ hi) n,
      hs.same _ (hs.tracks.push_overflow hi n) ?_⟩
    have hpush : ∀ j < G, Pushed (H ++ [.pushDecision i n]) j k → Pushed H j k := by
      intro j hj h
      rcases pushed_push.mp h with h | ⟨rfl, -⟩
      · exact h
      · exact absurd hi (Nat.not_le_of_lt hj)
    rintro ⟨⟨j, hj, hpushed⟩, hall⟩
    refine ⟨⟨j, hj, hpush j hj hpushed⟩, hall.imp invalidated_push.mp ?_⟩
    intro h j' hj'
    exact hpush j' hj' (h j' hj')
  · have ht := hs.tracks.push (Nat.lt_of_not_le hi) n
    obtain ⟨fuel, m', k', hloop, hs'⟩ := hs.loop (.pushDecision i n) ht rfl rfl
    exact ⟨fuel, m', k', (call_push fuel (hcount ▸ hi) n).trans hloop, hs'⟩

theorem Simulates.invalidateChain (hs : Simulates G H k m) (i : Nat) :
    ∃ fuel m' k', m.call fuel (.invalidateChain i) = .done m' ∧
      Simulates G (H ++ [.invalidateChain i]) k' m' := by
  have hcount := hs.tracks.count
  by_cases hi : G ≤ i ∨ i ∈ m.invalidGroupList
  · have hknown : i < G → Invalidated H i := by
      intro hlt
      exact (hs.tracks.invalid i hlt).mp (hi.resolve_left (Nat.not_le_of_lt hlt))
    refine ⟨0, m, k, call_invalidate_known 0 (hcount ▸ hi),
      hs.same _ (hs.tracks.invalidate_known hknown) ?_⟩
    rintro ⟨⟨j, hj, hpushed⟩, hall⟩
    refine ⟨⟨j, hj, pushed_invalidate.mp hpushed⟩, hall.imp ?_ ?_⟩
    · intro h
      rcases invalidated_invalidate.mp h with h | rfl
      · exact h
      · exact hknown (Nat.zero_lt_of_lt hj)
    · intro h j' hj'
      exact pushed_invalidate.mp (h j' hj')
  · rw [not_or] at hi
    obtain ⟨fuel, m', k', hloop, hs'⟩ :=
      hs.loop (.invalidateChain i) (hs.tracks.invalidate i) rfl rfl
    exact ⟨fuel, m', k', (call_invalidate fuel (hcount ▸ hi.1) hi.2).trans hloop, hs'⟩

/-- **The manager commits the rounds that pass the scan**: every sequence of calls returns. -/
theorem run_commits (G : Nat) (H : List Call) : ∃ fuel m k,
    run fuel H (setSubChainCount G) = .done m ∧ Simulates G H k m := by
  induction H using List.reverseRecOn with
  | nil => exact ⟨0, _, 0, rfl, simulates_setSubChainCount G⟩
  | append_singleton H c ih =>
    obtain ⟨fuel, m, k, hrun, hs⟩ := ih
    obtain ⟨fuel', m', k', hcall, hs'⟩ : ∃ fuel' m' k', m.call fuel' c = .done m' ∧
        Simulates G (H ++ [c]) k' m' := by
      cases c with
      | pushDecision i n => exact hs.pushDecision i n
      | invalidateChain i => exact hs.invalidateChain i
    refine ⟨max fuel fuel', m', k', ?_, hs'⟩
    rw [run_append, run_mono (Nat.le_max_left fuel fuel') hrun, Outcome.bind_done, run,
      call_mono (Nat.le_max_right fuel fuel') hcall]
    rfl

/-- What a run delivers, whatever the bound. -/
theorem Simulates.of_run {fuel : Nat}
    (h : run fuel H (setSubChainCount G) = .done m') : ∃ k, Simulates G H k m' := by
  obtain ⟨fuel', m, k, hrun, hs⟩ := run_commits G H
  have hsame := (run_mono (Nat.le_max_left fuel fuel') h).symm.trans
    (run_mono (Nat.le_max_right fuel fuel') hrun)
  cases hsame
  exact ⟨k, hs⟩

end

/-! ## Where the scan is right -/

section

variable {G : Nat} {H : List Call} {k j : Nat} {out out' : List (Nat × Int)}

/-- All groups that have not failed have pushed their block of the round. -/
def Complete (G : Nat) (H : List Call) (r : Nat) : Prop := ∀ i ∈ alive G H, Pushed H i r

/-- The scan is not misled. When group 0 has failed, nobody is ahead of the others by a block of
the next round; when it has not, the groups that have failed pushed their blocks of all rounds
that are complete. -/
structure NotMisled (G : Nat) (H : List Call) : Prop where
  failed : Invalidated H 0 → ∀ r, (∀ r' < r, Complete G H r') → (∃ i < G, Pushed H i r) →
    Complete G H r
  running : ¬ Invalidated H 0 → ∀ r, (∀ r' ≤ r, Complete G H r') → ∀ i < G, Pushed H i r

theorem ready_iff_complete (halive : alive G H ≠ []) {r : Nat} : Ready G H r ↔ Complete G H r := by
  constructor
  · intro h i hi
    rw [mem_alive] at hi
    exact (h.1 i hi.1).resolve_left hi.2
  · intro h
    obtain ⟨i, hi⟩ := exists_mem_of_ne_nil _ halive
    refine ⟨fun n hn => ?_, i, (mem_alive.mp hi).1, (mem_alive.mp hi).2, h i hi⟩
    by_cases hfail : Invalidated H n
    · exact Or.inl hfail
    · exact Or.inr (h n (mem_alive.mpr ⟨hn, hfail⟩))

/-- While some group has not failed, the rounds that are committed are those in front of the
first one that is not ready. -/
theorem Commits.complete_iff (halive : alive G H ≠ []) (h : Commits (Ready G) G H k out) (r : Nat) :
    (∀ r' < r, Complete G H r') ↔ r ≤ k := by
  simp only [← ready_iff_complete halive]
  constructor
  · intro hall
    by_contra hlt
    exact h.not_ready gate_ready (hall k (Nat.lt_of_not_le hlt))
  · intro hle r' hr'
    exact h.ready_of_lt gate_ready halive (Nat.lt_of_lt_of_le hr' hle)

theorem NotMisled.rounds_eq (hok : NotMisled G H) (halive : alive G H ≠ [])
    (h : Commits (Ready G) G H k out) (h' : Commits (Scanned G) G H j out') : k = j := by
  obtain ⟨i, hi⟩ := exists_mem_of_ne_nil _ halive
  have hbefore := (h.complete_iff halive k).mpr (le_refl k)
  have hscanned : ∀ r < k, Scanned G H r := by
    intro r hr
    have hpush := hbefore r hr i hi
    refine ⟨⟨i, (mem_alive.mp hi).1, hpush⟩, ?_⟩
    by_cases hfail : Invalidated H 0
    · exact Or.inl hfail
    · exact Or.inr (hok.running hfail r fun r' hr' => hbefore r' (Nat.lt_of_le_of_lt hr' hr))
  have hnot : ¬ Scanned G H k := by
    rintro ⟨hsome, hall⟩
    apply h.not_ready gate_ready
    rw [ready_iff_complete halive]
    rcases hall with hfail | hall
    · exact hok.failed hfail k hbefore hsome
    · intro n hn
      exact hall n (mem_alive.mp hn).1
  rcases Nat.lt_trichotomy k j with hlt | heq | hgt
  · exact absurd (h'.ready_of_lt gate_scanned halive hlt) hnot
  · exact heq
  · exact absurd (hscanned j hgt) (h'.not_ready gate_scanned)

theorem notMisled_of_rounds (halive : alive G H ≠ []) (h : Commits (Ready G) G H k out)
    (h' : Commits (Scanned G) G H k out') : NotMisled G H where
  failed := by
    intro hfail r hbefore hsome
    rcases Nat.lt_or_eq_of_le ((h.complete_iff halive r).mp hbefore) with hlt | rfl
    · exact (h.complete_iff halive k).mpr (le_refl k) r hlt
    · exact absurd ⟨hsome, Or.inl hfail⟩ (h'.not_ready gate_scanned)
  running := by
    intro hrun r hbefore
    have hle := (h.complete_iff halive (r + 1)).mp fun r' hr' => hbefore r' (Nat.le_of_lt_succ hr')
    exact (h'.ready_of_lt gate_scanned halive hle).2.resolve_left hrun

theorem Commits.out_nil {ready : List Call → Nat → Prop} (h : Commits ready G [] k out) :
    out = [] := by
  generalize hcs : ([] : List Call) = cs at h
  cases h with
  | start => rfl
  | call => exact absurd hcs (by simp)

/-- The last call of a sequence. -/
theorem Commits.last_call {ready : List Call → Nat → Prop} {c : Call}
    (h : Commits ready G (H ++ [c]) k out) : ∃ k₀ out₀, Commits ready G H k₀ out₀ ∧
      out = out₀ ++ delivery G (H ++ [c]) k₀ k := by
  generalize hcs : H ++ [c] = cs at h
  cases h with
  | start => exact absurd hcs (by simp)
  | @call H' k₀ _ out₀ c' h₀ _ _ _ =>
    obtain ⟨rfl, heq⟩ := append_inj' hcs rfl
    cases heq
    exact ⟨k₀, out₀, h₀, rfl⟩

theorem delivered_eq (hok : ∀ H', H' <+: H → alive G H' ≠ [] → NotMisled G H')
    (h : Commits (Ready G) G H k out) (h' : Commits (Scanned G) G H j out') : out = out' := by
  induction H using List.reverseRecOn generalizing k j out out' with
  | nil => rw [h.out_nil, h'.out_nil]
  | append_singleton H c ih =>
    obtain ⟨k₀, out₀, h₀, rfl⟩ := h.last_call
    obtain ⟨j₀, out₀', h₀', rfl⟩ := h'.last_call
    have hbefore : ∀ H', H' <+: H → alive G H' ≠ [] → NotMisled G H' :=
      fun H' hH' => hok H' (hH'.trans (prefix_append H [c]))
    rw [ih hbefore h₀ h₀']
    -- after the last group has failed, the rounds are empty
    by_cases halive : alive G (H ++ [c]) = []
    · rw [delivery_of_alive_nil halive, delivery_of_alive_nil halive]
    · obtain ⟨i, hi⟩ := exists_mem_of_ne_nil _ halive
      have halive₀ : alive G H ≠ [] := ne_nil_of_mem (alive_of_append hi)
      rw [(hok _ (prefix_refl _) halive).rounds_eq halive h h',
        (hbefore H (prefix_refl H) halive₀).rounds_eq halive₀ h₀ h₀']

end

/-- **Ordering by rounds is exact as long as the scan is not misled**, after every call of a
sequence. -/
theorem round_order_iff (G : Nat) (calls : List Call) :
    (∀ H, H <+: calls → ∃ fuel m, run fuel H (setSubChainCount G) = .done m ∧
        RoundOrder G H m.delivered) ↔
      ∀ H, H <+: calls → alive G H ≠ [] → NotMisled G H := by
  constructor
  · intro h H hH halive
    obtain ⟨fuel, m, hrun, horder⟩ := h H hH
    obtain ⟨k, hk⟩ := horder.rounds
    obtain ⟨j, hs⟩ := Simulates.of_run hrun
    obtain ⟨i, hi⟩ := exists_mem_of_ne_nil _ halive
    -- a group that has not failed is in every round, so the rounds are counted by its blocks
    have hcount : ∀ r, r < k ↔ r < j :=
      fun r => (hk.mem_iff hi r).symm.trans (hs.commits.mem_iff hi r)
    have heq : k = j := by
      apply le_antisymm
      · exact Nat.le_of_not_lt fun hlt => absurd ((hcount j).mp hlt) (lt_irrefl j)
      · exact Nat.le_of_not_lt fun hlt => absurd ((hcount k).mpr hlt) (lt_irrefl k)
    exact notMisled_of_rounds halive hk (heq ▸ hs.commits)
  · intro hok H hH
    obtain ⟨fuel, m, k, hrun, hs⟩ := run_commits G H
    obtain ⟨j, out, hcommits⟩ := exists_commits G H
    have hsame := delivered_eq (fun H' hH' => hok H' (hH'.trans hH)) hcommits hs.commits
    subst hsame
    exact ⟨fuel, m, hrun, hcommits.roundOrder⟩

/-- Group 0 has failed, and group 1 is the first to push its block: the block of group 2 is
delivered with it, and nobody has pushed it. -/
theorem round_order_misled : ¬ ∀ H, H <+: [Call.invalidateChain 0, .pushDecision 1 0] →
    ∃ fuel m, run fuel H (setSubChainCount 3) = .done m ∧ RoundOrder 3 H m.delivered := by
  intro h
  obtain ⟨fuel, m, hrun, horder⟩ := h _ (prefix_refl _)
  obtain ⟨m', hrun', hmem⟩ : ∃ m', run 2 [.invalidateChain 0, .pushDecision 1 0]
      (setSubChainCount 3) = .done m' ∧ (2, 0) ∈ m'.delivered :=
    ⟨_, rfl, by decide⟩
  have hsame := (run_mono (Nat.le_max_left fuel 2) hrun).symm.trans
    (run_mono (Nat.le_max_right fuel 2) hrun')
  cases hsame
  exact absurd (horder.pushed (2, 0) hmem) (by decide)

end MassBFT.Order.RoundBasedOrderManager
