import MassBFT.Order.Merge
import Mathlib.Algebra.BigOperators.Fin
import Mathlib.Algebra.Order.BigOperators.Group.Finset

/-!
# Deliveries need evidence, as long as two heads are tied on the frozen coordinates

`popBlocks` makes the successor of every block it delivers and goes on with it, so nothing in
the loop itself bounds the deliveries. What bounds them is that a head can only be the minimum
if it is *compared*, on the first coordinate that is not frozen, with some other head: that
coordinate is then a vote of that group, or the group's own block number below such a vote.

A comparison that is decided on the frozen coordinates never gets that far. They are copied
from cell to cell, so a head that is strictly smaller than all others there is the minimum now
and for ever. `Tied` excludes exactly that, and it is decided at the moment a group is
invalidated: **frozen coordinates never change again** (`Tied.of_frozen`).
-/

set_option autoImplicit false

namespace MassBFT.Order

open Function Manager

variable {G : Nat}

/-- Some vote that was pushed shows that block `b` of group `g` exists: a vote for it or a later
one, or a vote cast by `g` itself at a clock that is not below it. -/
def Evidence (H : List (Call G)) (g : Fin G) (b : Nat) : Prop :=
  (∃ b' v w, Call.pushDecision g b' v w ∈ H ∧ b ≤ b') ∨
    ∃ h b' w, Call.pushDecision h b' g w ∈ H ∧ (b : Int) ≤ w

/-- Votes are finitely many, so evidence does not reach arbitrarily far. -/
theorem Evidence.bounded (H : List (Call G)) : ∃ N, ∀ g b, Evidence H g b → b ≤ N := by
  induction H with
  | nil =>
    refine ⟨0, fun g b he => ?_⟩
    rcases he with ⟨_, _, _, hm, _⟩ | ⟨_, _, _, hm, _⟩ <;> exact absurd hm (by simp)
  | cons k H ih =>
    obtain ⟨N, hN⟩ := ih
    -- Evidence from a longer list comes from its first call, or from the rest.
    cases k with
    | pushDecision h c u w =>
      refine ⟨max N (max c w.toNat), fun g b he => ?_⟩
      rcases he with ⟨b', v, w', hm, hle⟩ | ⟨h', b', w', hm, hle⟩
      · rcases List.mem_cons.mp hm with heq | hm
        · cases heq
          omega
        · have := hN g b (Or.inl ⟨b', v, w', hm, hle⟩)
          omega
      · rcases List.mem_cons.mp hm with heq | hm
        · cases heq
          omega
        · have := hN g b (Or.inr ⟨h', b', w', hm, hle⟩)
          omega
    | invalidateChain f =>
      refine ⟨N, fun g b he => hN g b ?_⟩
      rcases he with ⟨b', v, w', hm, hle⟩ | ⟨h', b', w', hm, hle⟩
      · exact Or.inl ⟨b', v, w', by simpa using hm, hle⟩
      · exact Or.inr ⟨h', b', w', by simpa using hm, hle⟩

theorem Evidence.mono {H H' : List (Call G)} (hsub : H ⊆ H') {g : Fin G} {b : Nat}
    (he : Evidence H g b) : Evidence H' g b := by
  rcases he with ⟨b', v, w, hm, hle⟩ | ⟨h, b', w, hm, hle⟩
  · exact Or.inl ⟨b', v, w, hsub hm, hle⟩
  · exact Or.inr ⟨h, b', w, hsub hm, hle⟩

/-! ## Ties on the frozen coordinates -/

/-- `i` is the first group that has not been invalidated. -/
def FirstOpen (invalid : Fin G → Bool) (i : Fin G) : Prop :=
  invalid i = false ∧ ∀ j < i, invalid j = true

/-- In front of coordinate `i`, the left vector is lexicographically at most the right one. -/
def Cell.NotAbove (i : Fin G) (c d : Cell G) : Prop :=
  ∀ j < i, (∀ k < j, c.watermarks k = d.watermarks k) → c.watermarks j ≤ d.watermarks j

/-- Two heads share the least vector in front of the first open coordinate. -/
def Manager.Tied (s : Manager G) (invalid : Fin G → Bool) : Prop :=
  ∃ i, FirstOpen invalid i ∧ ∃ g h, g ≠ h ∧
    (∀ j < i, (s.head g).watermarks j = (s.head h).watermarks j) ∧
    ∀ k, Cell.NotAbove i (s.head g) (s.head k)

namespace Manager

variable {s s' : Manager G} {H : List (Call G)}

theorem Tied.of_frozen {invalid : Fin G → Bool} (ht : s.Tied invalid)
    (hsame : ∀ h j, invalid j = true → (s'.head h).watermarks j = (s.head h).watermarks j) :
    s'.Tied invalid := by
  obtain ⟨i, hi, g, h, hne, hagree, hleast⟩ := ht
  refine ⟨i, hi, g, h, hne, fun j hj => ?_, fun k j hj hbefore => ?_⟩
  · rw [hsame g j (hi.2 j hj), hsame h j (hi.2 j hj)]
    exact hagree j hj
  · rw [hsame g j (hi.2 j hj), hsame k j (hi.2 j hj)]
    refine hleast k j hj fun m hm => ?_
    rw [← hsame g m (hi.2 m (lt_trans hm hj)), ← hsame k m (hi.2 m (lt_trans hm hj))]
    exact hbefore m hm

/-- Whoever is the minimum is compared with some other head on the first open coordinate. -/
theorem Tied.compared {invalid : Fin G → Bool} (ht : s.Tied invalid)
    (hown : ∀ g, (s.head g).groupId = g) {g : Fin G}
    (hleast : ∀ h, Cell.mustLessThan (g = h) (s.head g) (s.head h) = .ok true) :
    ∃ i h, FirstOpen invalid i ∧ h ≠ g ∧ (s.head g).real i = true ∧
      (s.head g).watermarks i ≤ (s.head h).watermarks i := by
  obtain ⟨i, hi, a, b, hab, hagree, hmin⟩ := ht
  -- Of the two tied heads take one that is not `g`; `g` is not strictly below it up to `i`.
  obtain ⟨h, hne, hnot⟩ : ∃ h, h ≠ g ∧ Cell.NotAbove i (s.head h) (s.head g) := by
    by_cases ha : a = g
    · subst ha
      exact ⟨b, Ne.symm hab, fun j hj _ => (hagree j hj).symm.le⟩
    · exact ⟨a, ha, hmin g⟩
  have hids : (s.head g).groupId ≠ (s.head h).groupId := by
    rw [hown, hown]
    exact Ne.symm hne
  refine ⟨i, h, hi, hne, ?_⟩
  rcases (Cell.mustLessThan_iff hids).mp (hleast h) with ⟨j, hbefore, hreal, hlt⟩ | ⟨hall, _⟩
  · rcases lt_trichotomy i j with hij | hij | hij
    · obtain ⟨hr, _, heq⟩ := hbefore i hij
      exact ⟨hr, heq.le⟩
    · subst hij
      exact ⟨hreal, hlt.le⟩
    · have hle := hnot j hij fun k hk => (hbefore k hk).2.2.symm
      exact absurd hlt (not_lt.mpr hle)
  · obtain ⟨hr, _, heq⟩ := hall i
    exact ⟨hr, heq.le⟩

end Manager

/-! ## Where the entries of a cell come from -/

/-- Every coordinate of the cell at position `n` of chain `g` can be traced to a vote. -/
structure Cell.Backed (H : List (Call G)) (invalid : Fin G → Bool) (g : Fin G) (n : Nat)
    (c : Cell G) : Prop where
  voted : ∀ v, v ≠ g → invalid v = false → c.real v = true → ∃ w, Call.pushDecision g n v w ∈ H
  clock : ∀ v, v ≠ g → c.watermarks v = -1 ∨ ∃ h b, Call.pushDecision h b v (c.watermarks v) ∈ H
  preset : c.real g = true
  own : invalid g = false → c.watermarks g = c.blockId

namespace Cell.Backed

variable {H : List (Call G)} {invalid : Fin G → Bool} {g : Fin G} {n : Nat} {c : Cell G}

theorem fresh (b : Nat) : Cell.Backed H invalid g n (Cell.new g b) where
  voted v hv _ hr := absurd ((Cell.new_real_iff g v b).mp hr) hv
  clock _ hv := Or.inl (Cell.new_watermarks_of_ne hv b)
  preset := (Cell.new_real_iff g g b).mpr rfl
  own _ := Cell.new_watermarks_self g b

section

variable (hc : Cell.Backed H invalid g n c)
include hc

theorem mono {H' : List (Call G)} (hsub : H ⊆ H') :
    Cell.Backed H' invalid g n c where
  voted v hv hi hr := by
    obtain ⟨w, hw⟩ := hc.voted v hv hi hr
    exact ⟨w, hsub hw⟩
  clock v hv := by
    rcases hc.clock v hv with heq | ⟨h, b, hm⟩
    · exact Or.inl heq
    · exact Or.inr ⟨h, b, hsub hm⟩
  preset := hc.preset
  own := hc.own

theorem accept {v : Fin G} {w : Int} (hv : v ≠ g) (hm : Call.pushDecision g n v w ∈ H) :
    Cell.Backed H invalid g n (accept v w c) where
  voted u hu hi hr := by
    rw [accept_real] at hr
    split at hr
    · rename_i huv
      exact ⟨w, huv ▸ hm⟩
    · exact hc.voted u hu hi hr
  clock u hu := by
    rw [accept_watermarks]
    split
    · rename_i huv
      exact Or.inr ⟨g, n, huv ▸ hm⟩
    · exact hc.clock u hu
  preset := by
    rw [accept_real, hc.preset, ite_self]
  own hi := by
    rw [accept_watermarks, if_neg (Ne.symm hv)]
    exact hc.own hi

theorem raise {v h : Fin G} {b : Nat} {w : Int} (hm : Call.pushDecision h b v w ∈ H) :
    Cell.Backed H invalid g n (raise v w c) where
  voted u hu hi hr := hc.voted u hu hi (by rwa [raise_real] at hr)
  clock u hu := by
    rw [raise_watermarks]
    split
    · rename_i huv
      exact Or.inr ⟨h, b, huv.1 ▸ hm⟩
    · exact hc.clock u hu
  preset := by
    rw [raise_real]
    exact hc.preset
  own hi := by
    -- The own coordinate is preset, so an estimate never reaches it.
    rw [raise_watermarks, if_neg, raise_blockId]
    · exact hc.own hi
    · rintro ⟨rfl, hr⟩
      exact absurd hc.preset (by simp [hr])

/-- A cell that is not a head stays as it is when a group is invalidated … -/
theorem restrict {f : Fin G} :
    Cell.Backed H (update invalid f true) g n c := by
  have hopen : ∀ u, update invalid f true u = false → invalid u = false := by
    intro u hu
    rw [update_apply] at hu
    split at hu
    · cases hu
    · exact hu
  exact ⟨fun u hu hi => hc.voted u hu (hopen u hi), hc.clock, hc.preset,
    fun hi => hc.own (hopen g hi)⟩

/-- … and a head becomes real there without a vote. -/
theorem freeze {f : Fin G} :
    Cell.Backed H (update invalid f true) g n (freeze f c) where
  voted u hu hi hr := by
    have hr' : update c.real f true u = true := hr
    have huf : u ≠ f := by
      rintro rfl
      simp at hi
    rw [update_of_ne huf] at hr'
    exact hc.restrict.voted u hu hi hr'
  clock := hc.clock
  preset := by
    show update c.real f true g = true
    rw [update_apply, hc.preset, ite_self]
  own := hc.restrict.own

end

theorem succeed {s : Manager G} {m : Nat} {prev : Cell G}
    (hp : Cell.Backed H s.invalidateMap g m prev) (hc : Cell.Backed H s.invalidateMap g n c) :
    Cell.Backed H s.invalidateMap g n (s.succeed prev c) where
  voted v hv hi hr := by
    have hr' : (c.real v || s.invalidateMap v) = true := hr
    rw [hi, Bool.or_false] at hr'
    exact hc.voted v hv hi hr'
  clock v hv := by
    show (if s.invalidateMap v then _ else _) = -1 ∨
      ∃ h b, Call.pushDecision h b v (if s.invalidateMap v then _ else _) ∈ H
    split
    · exact hp.clock v hv
    · split
      · exact hc.clock v hv
      · exact hp.clock v hv
  preset := by
    show (c.real g || s.invalidateMap g) = true
    rw [hc.preset, Bool.true_or]
  own hi := by
    show (if s.invalidateMap g then _ else if c.real g then _ else _) = _
    rw [hi, hc.preset]
    exact hc.own hi

end Cell.Backed

/-! ## The invariant -/

namespace Manager

variable {s s' : Manager G} {H : List (Call G)}

/-- The state after the calls in `H`. -/
structure Backed (H : List (Call G)) (s : Manager G) : Prop where
  merged : s.Merged
  cells : ∀ g n, Cell.Backed H s.invalidateMap g n (s.cellAt g n)
  frozen : ∀ g i, s.invalidateMap i = true → (s.head g).real i = true
  tied : s.Tied s.invalidateMap
  evidence : ∀ x ∈ s.blocks, Evidence H x.1 x.2

/-- **Evidence for the next delivery.** -/
theorem Backed.evidence_of_least (hs : Backed H s) {g : Fin G}
    (hleast : ∀ h, Cell.mustLessThan (g = h) (s.head g) (s.head h) = .ok true) :
    Evidence H g (s.buffer g) := by
  obtain ⟨i, h, hi, hne, hreal, hle⟩ := hs.tied.compared hs.merged.own hleast
  have hg := hs.cells g (s.buffer g)
  have hh := hs.cells h (s.buffer h)
  by_cases hgi : g = i
  · -- The open coordinate is the group's own: its block number is not above a vote of its own.
    subst hgi
    have hown : (s.head g).watermarks g = s.buffer g := by
      rw [← hs.merged.ids g]
      exact hg.own hi.1
    rw [hown] at hle
    rcases hh.clock g (Ne.symm hne) with heq | ⟨k, b, hm⟩
    · have hneg : (s.head h).watermarks g = -1 := heq
      omega
    · exact Or.inr ⟨k, b, _, hm, hle⟩
  · -- It is another group's, and real: that group voted for this very block.
    obtain ⟨w, hw⟩ := hg.voted i (Ne.symm hgi) hi.1 hreal
    exact Or.inl ⟨_, i, w, hw, le_refl _⟩

theorem Backed.cells_create (hs : ∀ g n, Cell.Backed H s.invalidateMap g n (s.cellAt g n))
    (g : Fin G) (b : Nat) (h : Fin G) (m : Nat) :
    Cell.Backed H s.invalidateMap h m ((s.createBlockIfNotExist g b).cellAt h m) := by
  by_cases hm : m < s.size h
  · rw [cellAt_create_of_lt hm]
    exact hs h m
  · by_cases hg : h = g
    · subst hg
      rw [cellAt_create_of_le_size (not_lt.mp hm)]
      exact Cell.Backed.fresh _
    · rw [cellAt_create_of_ne hg]
      exact hs h m

theorem Popped.head_frozen {g : Fin G} (hp : Popped s s' g) (hex : s.HeadsExist) (h j : Fin G)
    (hj : s.invalidateMap j = true) :
    (s'.head h).watermarks j = (s.head h).watermarks j ∧
      ((s.head h).real j = true → (s'.head h).real j = true) := by
  by_cases hne : h = g
  · subst hne
    obtain ⟨next, _, _, _, _, hhead⟩ := hp.successor
    rw [hhead]
    simp [succeed, hj]
  · rw [hp.head_of_ne hex hne]
    exact ⟨rfl, id⟩

theorem Popped.backed {g : Fin G} (hp : Popped s s' g) (hs : Backed H s) : Backed H s' where
  merged := hp.merged hs.merged
  cells h m := by
    rw [hp.invalid]
    have hcreate := Backed.cells_create hs.cells g ((s.head g).blockId + 1)
    rw [hp.cellAt_eq]
    split
    · rename_i heq
      obtain ⟨rfl, rfl⟩ := heq
      exact (hs.cells h (s.buffer h)).succeed (hcreate h _)
    · exact hcreate h m
  frozen h i hi := by
    rw [hp.invalid] at hi
    exact (hp.head_frozen hs.merged.exist h i hi).2 (hs.frozen h i hi)
  tied := by
    rw [hp.invalid]
    exact hs.tied.of_frozen fun h j hj => (hp.head_frozen hs.merged.exist h j hj).1
  evidence x hx := by
    rw [hp.blocks hs.merged] at hx
    rcases List.mem_append.mp hx with hx | hx
    · exact hs.evidence x hx
    · rw [List.mem_singleton] at hx
      subst hx
      exact hs.evidence_of_least hp.least

/-- What is left of the chains below the bound on the evidence. -/
def room (N : Nat) (s : Manager G) : Nat := ∑ g, (N + 1 - s.buffer g)

theorem Popped.room_lt {g : Fin G} (hp : Popped s s' g) (hs : s.Merged) {N : Nat}
    (hN : s.buffer g ≤ N) : room N s' < room N s := by
  refine Finset.sum_lt_sum (fun h _ => ?_) ⟨g, Finset.mem_univ g, ?_⟩
  · by_cases hne : h = g
    · subst hne
      rw [hp.buffer_self hs]
      omega
    · rw [hp.buffer_of_ne hne]
  · rw [hp.buffer_self hs]
    omega

/-- **The loop of `popBlocks` stops** in every state that votes and ties account for. -/
theorem Backed.popBlocks_stops (hs : Backed H s) : ∃ n, s.popBlocks n ≠ .timeout := by
  obtain ⟨N, hN⟩ := Evidence.bounded H
  refine loop_stops_of_variant (room N) (fun a a' (ha : Backed H a) hround => ?_) hs
  obtain ⟨g, hg⟩ := popRound_eq_some ha.merged.exist hround
  refine ⟨hg.backed ha, hg.room_lt ha.merged (hN g _ ?_)⟩
  exact ha.evidence_of_least hg.least

/-! ## Calls and runs -/

/-- The condition on a call: if it reports a group, the heads stay tied when that group's
coordinate is frozen as well. -/
def KeepsTie (s : Manager G) : Call G → Prop
  | .pushDecision _ _ _ _ => True
  | .invalidateChain f => s.Tied (update s.invalidateMap f true)

theorem backed_setGroupCount (hG : 2 ≤ G) : Backed [] (setGroupCount G) where
  merged := merged_setGroupCount
  cells g n := by
    by_cases hn : n < 1
    · rw [Nat.lt_one_iff] at hn
      subst hn
      exact Cell.Backed.fresh 0
    · rw [cellAt_of_size_le (not_lt.mp hn)]
      exact Cell.Backed.fresh n
  frozen _ _ hi := absurd hi (by simp [setGroupCount])
  tied := by
    -- No coordinate is frozen, so any two heads are tied.
    refine ⟨⟨0, by omega⟩, ⟨rfl, fun j hj => absurd hj (Nat.not_lt_zero _)⟩,
      ⟨0, by omega⟩, ⟨1, by omega⟩, by simp, fun j hj => absurd hj (Nat.not_lt_zero _), ?_⟩
    exact fun k j hj => absurd hj (Nat.not_lt_zero _)
  evidence x hx := absurd hx (by simp [blocks, setGroupCount])

theorem Backed.mono {H' : List (Call G)} (hsub : H ⊆ H') (hs : Backed H s) : Backed H' s where
  merged := hs.merged
  cells g n := (hs.cells g n).mono hsub
  frozen := hs.frozen
  tied := hs.tied
  evidence x hx := (hs.evidence x hx).mono hsub

theorem Backed.repeated (hs : Backed H s) (g : Fin G) (b : Nat) :
    Backed H (s.createBlockIfNotExist g b) := by
  have hhead : ∀ h, (s.createBlockIfNotExist g b).head h = s.head h :=
    fun h => cellAt_create_of_lt (hs.merged.exist h)
  refine ⟨?_, Backed.cells_create hs.cells g b, fun h i hi => ?_, ?_, hs.evidence⟩
  · refine (learns_create hs.merged.exist g b).merged (fun h => ?_) hs.merged
    exact Nat.lt_of_lt_of_le (hs.merged.exist h) le_size_create
  · rw [hhead]
    exact hs.frozen h i hi
  · refine hs.tied.of_frozen fun h j _ => ?_
    rw [hhead]

theorem Voted.backed {g v : Fin G} {b : Nat} {w : Int} (hv : Voted s s' g b v w) (hne : v ≠ g)
    (hm : Call.pushDecision g b v w ∈ H) (hs : Backed H s) : Backed H s' := by
  have hl := hv.learns hs.merged.exist
  refine ⟨hl.merged (hv.headsExist hs.merged.exist) hs.merged, fun h m => ?_, fun h i hi => ?_, ?_,
    fun x hx => hs.evidence x (by rwa [← hl.blocks])⟩
  · rw [hv.invalid]
    have hcreate := Backed.cells_create hs.cells g b
    rw [hv.cellAt_eq]
    split
    · rename_i heq
      obtain ⟨rfl, rfl⟩ := heq
      exact (hcreate h m).accept hne hm
    · split
      · exact (hs.cells h m).raise hm
      · exact hcreate h m
  · rw [hv.invalid] at hi
    exact (hl.keeps h i (hs.frozen h i hi)).1
  · rw [hv.invalid]
    exact hs.tied.of_frozen fun h j hj => (hl.keeps h j (hs.frozen h j hj)).2

theorem Frozen.real {f : Fin G} (hf : Frozen s s' f)
    (hreal : ∀ g i, s.invalidateMap i = true → (s.head g).real i = true) (g i : Fin G)
    (hi : s'.invalidateMap i = true) : (s'.head g).real i = true := by
  rw [hf.invalid, update_apply] at hi
  rw [hf.heads]
  show update (s.head g).real f true i = true
  rw [update_apply]
  split
  · rfl
  · rename_i hif
    rw [if_neg hif] at hi
    exact hreal g i hi

theorem Frozen.backed {f : Fin G} (hf : Frozen s s' f)
    (ht : s.Tied (update s.invalidateMap f true)) (hs : Backed H s) : Backed H s' := by
  refine ⟨hf.learns.merged (hf.headsExist hs.merged.exist) hs.merged, fun h m => ?_,
    hf.real hs.frozen, ?_, fun x hx => hs.evidence x (by rwa [← hf.learns.blocks])⟩
  · rw [hf.invalid]
    rw [hf.cellAt_eq]
    split
    · exact (hs.cells h m).freeze
    · exact (hs.cells h m).restrict
  · rw [hf.invalid]
    refine ht.of_frozen fun h j _ => ?_
    rw [hf.heads]
    rfl

theorem Prepared.backed {k : Call G} (hp : Prepared s k s') (hk : s.KeepsTie k)
    (hs : Backed H s) : Backed (H ++ [k]) s' := by
  have hs' : Backed (H ++ [k]) s := hs.mono (List.subset_append_left H [k])
  cases hp with
  | own g b w => exact hs'
  | repeated w hv hr => exact hs'.repeated _ _
  | voted hne hv => exact hv.backed hne (List.mem_append_right _ List.mem_cons_self) hs'
  | again hf => exact hs'
  | frozen hf => exact hf.backed hk hs'

/-- A call that keeps the tie returns, or fails a check. -/
theorem Backed.call (hG : G ≠ 1) {k : Call G} (hs : Backed H s) (hk : s.KeepsTie k) :
    (∃ fuel t, s.call fuel k = .done t ∧ Backed (H ++ [k]) t) ∨
      ∃ fuel e, s.call fuel k = .failed e := by
  rcases call_cases hG hs.merged.exist k with ⟨s', hp, hc⟩ | ⟨s', hp, hc⟩ | ⟨e, he⟩
  · exact Or.inl ⟨0, s', hc 0, hp.backed hk hs⟩
  · obtain ⟨n, hn⟩ := (hp.backed hk hs).popBlocks_stops
    cases hpop : s'.popBlocks n with
    | done t =>
      refine Or.inl ⟨n, t, (hc n).trans hpop, ?_⟩
      exact (popBlocks_invariant (fun a ha => ha.merged.exist) (fun a a' g ha hg => hg.backed ha)
        (hp.backed hk hs) hpop).1
    | failed e => exact Or.inr ⟨n, e, (hc n).trans hpop⟩
    | timeout => exact absurd hpop hn
  · exact Or.inr ⟨0, e, he 0⟩

end Manager

end MassBFT.Order
