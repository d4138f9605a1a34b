import MassBFT.Order.Redelivery
import MassBFT.Order.Termination

/-!
# Cells at their own index

Cells are made on demand, for a vote and for the successor of a delivered block. As far as sizes and
ids go, both do what `createBlockIfNotExist` does (`Creates`), and that gives every missing cell
the *requested* block id. If one cell is missing, the id is its index. If several are, **those in
front of the requested one have an id that is not theirs**, and no later step changes the ids of a
cell (`KeepsIds`).

So the cells are at their own index exactly if no vote skips a block (`cells_in_place_iff`). The
heads are not affected: `exchange` checks the id of the successor, so the chain stops in front of
the first cell with a wrong id (`skipped_block_stops_chain`), and the manager aborts when it gets
there.
-/

set_option autoImplicit false

namespace MassBFT.Order.Manager

open List

variable {G : Nat} {s s' : Manager G} {g h : Fin G} {b i m : Nat}

/-! ## Making cells -/

/-- Sizes and ids have become what `createBlockIfNotExist` makes of them. -/
structure Creates (s s' : Manager G) (g : Fin G) (b : Nat) : Prop where
  size : ∀ h, s'.size h = (s.createBlockIfNotExist g b).size h
  block : ∀ h m, (s'.cellAt h m).block = ((s.createBlockIfNotExist g b).cellAt h m).block

theorem block_raise {v : Fin G} {w : Int} {c : Cell G} : (raise v w c).block = c.block := by
  rw [Cell.block, raise_groupId, raise_blockId, Cell.block]

/-- A vote makes the cells up to the one that it names. -/
theorem Voted.creates {v : Fin G} {w : Int} (hv : Voted s s' g b v w) (hs : s.HeadsExist) :
    Creates s s' g b where
  size := hv.size
  block h m := by
    rw [hv.cellAt_eq]
    split
    · rfl
    · split
      · rename_i hhead
        subst hhead
        rw [block_raise, cellAt_create_of_lt (hs h)]
      · rfl

/-- A delivery makes the successor. -/
theorem Popped.creates (hp : Popped s s' g) : Creates s s' g ((s.head g).blockId + 1) where
  size := hp.size
  block h m := by
    rw [hp.cellAt_eq]
    split
    · rfl
    · rfl

/-- What a call of `pushDecision` does in front of `popBlocks`, if it is not a group's own vote. -/
theorem Prepared.creates {v : Fin G} {w : Int} (hp : Prepared s (.pushDecision g b v w) s')
    (hne : v ≠ g) (hs : s.HeadsExist) : Creates s s' g b := by
  cases hp with
  | own => exact absurd rfl hne
  | repeated _ _ hr => exact ⟨fun _ => rfl, fun _ _ => rfl⟩
  | voted _ hv => exact hv.creates hs

/-- **Without a gap, at most the requested cell is new** … -/
theorem Creates.lt_size_iff (hc : Creates s s' g b) (hb : b ≤ s.size g) :
    m < s'.size h ↔ m < s.size h ∨ h = g ∧ m = b := by
  rw [hc.size]
  by_cases hg : h = g
  · subst hg
    rw [size_create_self]
    simp only [true_and]
    omega
  · rw [size_create_of_ne hg]
    simp [hg]

/-- … and it has its own index. -/
theorem Creates.block_of_le (hc : Creates s s' g b) (hb : b ≤ s.size g)
    (hids : ∀ h m, (s.cellAt h m).block = (h, m)) (h : Fin G) (m : Nat) :
    (s'.cellAt h m).block = (h, m) := by
  rw [hc.block, cellAt_create_of_le hb]
  exact hids h m

/-- **Behind a gap, the first new cell has the id of the last.** -/
theorem Creates.block_of_lt (hc : Creates s s' g b) (hb : s.size g < b) :
    s.size g < s'.size g ∧ (s'.cellAt g (s.size g)).blockId = b := by
  constructor
  · rw [hc.size, size_create_self]
    omega
  · have hblock := hc.block g (s.size g)
    rw [cellAt_create_of_le_size (le_refl _), if_pos hb.le] at hblock
    exact congrArg Prod.snd hblock

/-! ## Ids stay -/

/-- The cells that exist stay, with their ids. -/
def KeepsIds (s s' : Manager G) : Prop :=
  ∀ h m, m < s.size h → m < s'.size h ∧ (s'.cellAt h m).block = (s.cellAt h m).block

theorem Creates.keepsIds (hc : Creates s s' g b) : s.KeepsIds s' := by
  intro h m hm
  constructor
  · rw [hc.size]
    exact Nat.lt_of_lt_of_le hm le_size_create
  · rw [hc.block, cellAt_create_of_lt hm]

theorem Frozen.keepsIds {f : Fin G} (hf : Frozen s s' f) : s.KeepsIds s' := by
  intro h m hm
  rw [hf.size, hf.cellAt_eq]
  refine ⟨hm, ?_⟩
  split
  · rfl
  · rfl

theorem Prepared.keepsIds {k : Call G} (hp : Prepared s k s') (hs : s.HeadsExist) :
    s.KeepsIds s' := by
  cases hp with
  | own => exact fun _ _ hm => ⟨hm, rfl⟩
  | repeated w hv hr => exact ((Prepared.repeated w hv hr).creates hv hs).keepsIds
  | voted _ hv => exact (hv.creates hs).keepsIds
  | again => exact fun _ _ hm => ⟨hm, rfl⟩
  | frozen hf => exact hf.keepsIds

/-- The cell at position `i` of chain `g` exists and has another block's id. -/
def Misplaced (s : Manager G) (g : Fin G) (i : Nat) : Prop :=
  i < s.size g ∧ (s.cellAt g i).blockId ≠ i

theorem Misplaced.keepsIds (hi : s.Misplaced g i) (hk : s.KeepsIds s') : s'.Misplaced g i := by
  obtain ⟨hsize, hblock⟩ := hk g i hi.1
  refine ⟨hsize, ?_⟩
  have hid : (s'.cellAt g i).blockId = (s.cellAt g i).blockId := congrArg Prod.snd hblock
  rw [hid]
  exact hi.2

/-! ## Chains stop in front of a misplaced cell -/

/-- The head has not got to the misplaced cell, and it never will. -/
structure StopsAt (s : Manager G) (g : Fin G) (i : Nat) : Prop where
  merged : s.Merged
  misplaced : s.Misplaced g i
  ahead : s.buffer g < i

theorem StopsAt.popped (hs : s.StopsAt g i) (hp : Popped s s' h) : s'.StopsAt g i := by
  have hmerged := hp.merged hs.merged
  have hmis := hs.misplaced.keepsIds hp.creates.keepsIds
  refine ⟨hmerged, hmis, ?_⟩
  -- The successor has passed the check of its id, so it is not the misplaced cell.
  have hne : s'.buffer g ≠ i := by
    intro heq
    apply hmis.2
    rw [cellAt_of_buffer heq, hmerged.ids, heq]
  have hahead := hs.ahead
  by_cases hg : g = h
  · subst hg
    rw [hp.buffer_self hs.merged] at hne ⊢
    omega
  · rwa [hp.buffer_of_ne hg]

theorem Prepared.buffer {k : Call G} (hp : Prepared s k s') : s'.buffer = s.buffer := by
  cases hp with
  | own => rfl
  | repeated => rfl
  | voted _ hv => exact hv.buffer
  | again => rfl
  | frozen hf => exact hf.buffer

theorem StopsAt.prepared (hs : s.StopsAt g i) {k : Call G} (hp : Prepared s k s') :
    s'.StopsAt g i := by
  refine ⟨hp.merged hs.merged, hs.misplaced.keepsIds (hp.keepsIds hs.merged.exist), ?_⟩
  rw [hp.buffer]
  exact hs.ahead

/-- What is delivered of the chain lies in front of the cell. -/
theorem traces_stopsAt : @Traces G (fun s => s.StopsAt g i)
    fun cells => ∀ n, (g, n) ∈ cells.map Cell.block → n < i where
  exist hs := hs.merged.exist
  prepared hs hp := hs.prepared hp
  popped hs hp := hs.popped hp
  delivered hs n hn := lt_trans ((hs.merged.mem _).mp hn) hs.ahead
  handOver h hs n hn := by
    rw [map_append, map_singleton, Cell.block, hs.merged.own, hs.merged.ids] at hn
    rcases mem_append.mp hn with hn | hn
    · exact lt_trans ((hs.merged.mem _).mp hn) hs.ahead
    · cases mem_singleton.mp hn
      exact hs.ahead

/-- A vote with a gap in front of it misplaces the first cell that it makes. -/
theorem stopsAt_of_gap (hs : s.Merged) {v : Fin G} {w : Int} (hv : v ≠ g) (hb : s.size g < b)
    (hp : Prepared s (.pushDecision g b v w) s') : s'.StopsAt g (s.size g) := by
  obtain ⟨hsize, hid⟩ := (hp.creates hv hs.exist).block_of_lt hb
  refine ⟨hp.merged hs, ⟨hsize, ?_⟩, ?_⟩
  · rw [hid]
    exact hb.ne'
  · rw [hp.buffer]
    exact hs.exist g

/-- **In every run, a vote that skips a block stops its chain for good**, whatever is called
afterwards. -/
theorem skipped_block_stops_chain (hG : G ≠ 1) {fuel : Nat} {before : List (Call G)}
    (hbefore : run fuel before (setGroupCount G) = .done s) {v : Fin G} {w : Int} (hv : v ≠ g)
    (hb : s.size g < b) (cs : List (Call G)) :
    ∀ n, (g, n) ∈ ((setGroupCount G).runTrace fuel
      (before ++ .pushDecision g b v w :: cs)).map Cell.block → n < s.size g := by
  have hs := merged_setGroupCount.run hG hbefore
  rw [runTrace_append hbefore]
  refine traces_stopsAt.runTrace_cons hG hs.exist (fun _ hp => stopsAt_of_gap hs hv hb hp) ?_
    (traces_stopsAt.runTrace hG)
  exact fun n hn => lt_trans ((hs.mem _).mp hn) (hs.exist g)

/-- The vote for block 2 comes when chain 0 has one cell: block 0 is delivered, and the manager
aborts in front of block 1. -/
theorem skipped_block_stops_chain_first :
    let calls := [Call.pushDecision (0 : Fin 2) 0 1 0, .pushDecision 0 2 1 5, .pushDecision 1 0 0 0]
    (∃ e, run 5 calls (setGroupCount 2) = .failed e) ∧
      ((setGroupCount 2).runTrace 5 calls).map Cell.block = [(0, 0)] ∧
      ∀ n, (0, n) ∈ ((setGroupCount 2).runTrace 5 calls).map Cell.block → n < 1 := by
  obtain ⟨s, hbefore, hsize⟩ : ∃ s, run 5 [Call.pushDecision (0 : Fin 2) 0 1 0] (setGroupCount 2) =
      .done s ∧ s.size 0 = 1 := ⟨_, rfl, rfl⟩
  refine ⟨⟨_, rfl⟩, by decide +kernel, fun n hn => hsize ▸ ?_⟩
  exact @skipped_block_stops_chain 2 s 0 2 (by decide) 5 _ hbefore 1 5 (by decide) (by omega) _ n hn

/-! ## Runs without gaps -/

section

variable {H : List (Call G)} {w : Int} {v : Fin G}

/-- A vote of another group has named the block. -/
def Named (H : List (Call G)) (g : Fin G) (b : Nat) : Prop :=
  ∃ v w, v ≠ g ∧ Call.pushDecision g b v w ∈ H

theorem named_concat : Named (H ++ [.pushDecision g b v w]) h m ↔
    Named H h m ∨ v ≠ g ∧ h = g ∧ m = b := by
  constructor
  · rintro ⟨u, x, hu, hmem⟩
    rcases mem_append.mp hmem with hmem | hmem
    · exact Or.inl ⟨u, x, hu, hmem⟩
    · cases mem_singleton.mp hmem
      exact Or.inr ⟨hu, rfl, rfl⟩
  · rintro (⟨u, x, hu, hmem⟩ | ⟨hv, rfl, rfl⟩)
    · exact ⟨u, x, hu, mem_append_left _ hmem⟩
    · exact ⟨v, w, hv, mem_append_right _ mem_cons_self⟩

/-- The call skips no block: every block in front of the one that it names is block 0, has been
named before, or comes right behind a delivered one. A group's own vote is not looked at. -/
def Follows (H : List (Call G)) (s : Manager G) : Call G → Prop
  | .pushDecision g b v _ => v ≠ g → ∀ i, i + 1 < b → Named H g (i + 1) ∨ (g, i) ∈ s.blocks
  | .invalidateChain _ => True

/-- No call of the sequence skips a block. -/
def NoGap (cs : List (Call G)) : Prop := EachCall (fun H s k => s.Follows H k) cs

/-- The state after the calls in `H`, none of which has skipped a block or reported a group. -/
structure Gapless (H : List (Call G)) (s : Manager G) : Prop where
  merged : s.Merged
  chained : s.Chained
  valid : ∀ g, s.invalidateMap g = false
  ids : ∀ g i, (s.cellAt g i).block = (g, i)
  size : ∀ g i, i + 1 < s.size g ↔ Named H g (i + 1) ∨ i < s.buffer g

theorem gapless_setGroupCount : Gapless [] (setGroupCount G) where
  merged := merged_setGroupCount
  chained := chained_setGroupCount
  valid _ := rfl
  ids g i := by
    cases i with
    | zero => rfl
    | succ i =>
      rw [cellAt_of_size_le (Nat.le_add_left 1 i)]
      rfl
  size g i := by
    simp [Manager.size, setGroupCount, Named]

/-- **Delivery keeps the cells in place**: the successor is one behind the head. -/
theorem Popped.gapless (hp : Popped s s' g) (hs : Gapless H s) : Gapless H s' := by
  have hb : (s.head g).blockId + 1 ≤ s.size g := by
    rw [hs.merged.ids]
    exact hs.merged.exist g
  refine ⟨hp.merged hs.merged, hs.chained.popped hs.merged hp, fun h => ?_,
    hp.creates.block_of_le hb hs.ids, fun h i => ?_⟩
  · rw [hp.invalid]
    exact hs.valid h
  · rw [hp.creates.lt_size_iff hb, hs.size, hs.merged.ids, or_assoc]
    apply or_congr_right
    by_cases hg : h = g
    · subst hg
      rw [hp.buffer_self hs.merged]
      omega
    · rw [hp.buffer_of_ne hg]
      simp [hg]

theorem Prepared.invalid (hp : Prepared s (.pushDecision g b v w) s') :
    s'.invalidateMap = s.invalidateMap := by
  cases hp with
  | own => rfl
  | repeated => rfl
  | voted _ hv => exact hv.invalid

theorem Prepared.own_eq (hp : Prepared s (.pushDecision g b g w) s') : s' = s := by
  cases hp with
  | own => rfl
  | repeated _ hne => exact absurd rfl hne
  | voted hne => exact absurd rfl hne

/-- **A vote keeps the cells in place** if its block is at most one behind the last cell. -/
theorem Prepared.gapless (hp : Prepared s (.pushDecision g b v w) s')
    (hs : Gapless H s) (hb : v ≠ g → b ≤ s.size g) :
    Gapless (H ++ [.pushDecision g b v w]) s' := by
  by_cases hv : v = g
  · -- A group's own vote names no block, and leaves the state as it is.
    subst hv
    obtain rfl := hp.own_eq
    refine ⟨hs.merged, hs.chained, hs.valid, hs.ids, fun h i => ?_⟩
    rw [hs.size, named_concat]
    simp
  · have hc := hp.creates hv hs.merged.exist
    refine ⟨hp.merged hs.merged, hp.chained hs.chained, fun h => ?_,
      hc.block_of_le (hb hv) hs.ids, fun h i => ?_⟩
    · rw [hp.invalid]
      exact hs.valid h
    · rw [hc.lt_size_iff (hb hv), hs.size, named_concat, hp.buffer, or_right_comm]
      simp [hv]

/-- To skip no block is to name one that is at most one behind the last cell. -/
theorem Gapless.follows_iff (hs : Gapless H s) :
    s.Follows H (.pushDecision g b v w) ↔ (v ≠ g → b ≤ s.size g) := by
  have hknown : ∀ i, (Named H g (i + 1) ∨ (g, i) ∈ s.blocks) ↔ i + 1 < s.size g := by
    intro i
    rw [hs.size, hs.merged.mem]
  simp only [Follows, hknown]
  refine imp_congr_right fun _ => ⟨fun hall => ?_, fun hb i hi => by omega⟩
  have hpos : 0 < s.size g := Nat.zero_lt_of_lt (hs.merged.exist g)
  by_contra hlt
  have hlast := hall (s.size g - 1) (by omega)
  omega

theorem Gapless.call (hG : G ≠ 1) (hs : Gapless H s)
    (hf : s.Follows H (.pushDecision g b v w)) {fuel : Nat}
    (hc : s.call fuel (.pushDecision g b v w) = .done s') :
    Gapless (H ++ [.pushDecision g b v w]) s' :=
  call_invariant hG hs.merged.exist (fun _ hp => hp.gapless hs (hs.follows_iff.mp hf))
    (fun _ ha => ha.merged.exist) (fun _ _ _ ha hp => hp.gapless ha) hc

/-- **Without gaps, every cell is in place after every run.** -/
theorem run_gapless (hG : G ≠ 1) {cs : List (Call G)} (hpush : ∀ f, .invalidateChain f ∉ cs)
    (hgap : NoGap cs) {fuel : Nat} {t : Manager G}
    (hr : run fuel cs (setGroupCount G) = .done t) : Gapless cs t := by
  induction cs using List.reverseRecOn generalizing t with
  | nil =>
    cases hr
    exact gapless_setGroupCount
  | append_singleton cs k ih =>
    obtain ⟨s, hpre, hc⟩ := run_concat_eq_done hr
    have hs := ih (fun f hf => hpush f (mem_append_left _ hf)) (EachCall.of_append hgap) hpre
    cases k with
    | pushDecision g b v w => exact hs.call hG (EachCall.last hgap hpre) hc
    | invalidateChain f => exact absurd (mem_append_right _ mem_cons_self) (hpush f)

end

/-! ## Cells and heads in place -/

/-- The block behind the last one of a group that was delivered. -/
def behindLast (g : Fin G) (l : List (Fin G × Nat)) : Nat := (idsOf g l).getLast?.elim 0 (· + 1)

/-- Every cell is at its own index, and every head is the cell behind the last delivered block. -/
structure InPlace (s : Manager G) : Prop where
  cells : ∀ (g : Fin G) (i : Nat) (c : Cell G), (s.chains g).chain[i]? = some c →
    c.groupId = g ∧ c.blockId = i ∧ c.watermarks g = i
  heads : ∀ g, ∃ c : Cell G, (s.chains g).chain[s.buffer g]? = some c ∧ c.groupId = g ∧
    c.blockId = behindLast g s.blocks

theorem getElem?_chain {c : Cell G} :
    (s.chains g).chain[i]? = some c ↔ i < s.size g ∧ s.cellAt g i = c := by
  rw [getElem?_eq_some_iff]
  constructor
  · rintro ⟨hi, hc⟩
    refine ⟨hi, ?_⟩
    rw [← hc]
    exact getD_eq_getElem _ _ hi
  · rintro ⟨hi, hc⟩
    refine ⟨hi, ?_⟩
    rw [← hc]
    exact (getD_eq_getElem _ _ hi).symm

theorem Chained.behindLast_eq (hs : s.Chained) (g : Fin G) :
    behindLast g s.blocks = s.buffer g := by
  rw [behindLast, hs g, getLast?_range]
  split
  · rename_i hzero
    exact hzero.symm
  · rename_i hpos
    exact Nat.succ_pred hpos

theorem Gapless.inPlace {H H' : List (Call G)} (hs : Gapless H s) (hb : Backed H' s) :
    s.InPlace where
  cells g i c hc := by
    obtain ⟨_, rfl⟩ := getElem?_chain.mp hc
    have hgroup : (s.cellAt g i).groupId = g := congrArg Prod.fst (hs.ids g i)
    have hid : (s.cellAt g i).blockId = i := congrArg Prod.snd (hs.ids g i)
    refine ⟨hgroup, hid, ?_⟩
    rw [(hb.cells g i).own (hs.valid g), hid]
  heads g := by
    refine ⟨s.head g, getElem?_chain.mpr ⟨hs.merged.exist g, rfl⟩, hs.merged.own g, ?_⟩
    rw [hs.chained.behindLast_eq]
    exact hs.merged.ids g

theorem InPlace.not_misplaced (hs : s.InPlace) : ¬s.Misplaced g i := by
  rintro ⟨hi, hne⟩
  exact hne (hs.cells g i _ (getElem?_chain.mpr ⟨hi, rfl⟩)).2.1

theorem tiesKept_of_pushes {cs : List (Call G)} (hpush : ∀ f, .invalidateChain f ∉ cs) :
    TiesKept cs := by
  intro pre k post hcs fuel s hr
  cases k with
  | pushDecision => trivial
  | invalidateChain f =>
    refine absurd ?_ (hpush f)
    rw [hcs]
    exact mem_append_right _ mem_cons_self

theorem noGap_of_inPlace (hG : G ≠ 1) {cs : List (Call G)} (hpush : ∀ f, .invalidateChain f ∉ cs)
    (hall : ∀ pre, pre <+: cs → ∃ fuel s, run fuel pre (setGroupCount G) = .done s ∧ s.InPlace) :
    NoGap cs := by
  induction cs using List.reverseRecOn with
  | nil => exact eachCall_nil
  | append_singleton cs k ih =>
    have hpush' : ∀ f, .invalidateChain f ∉ cs := fun f hf => hpush f (mem_append_left _ hf)
    have hgap : NoGap cs := ih hpush' fun pre hpre =>
      hall pre (hpre.trans (prefix_append cs [k]))
    refine EachCall.concat hgap fun fuel s hr => ?_
    cases k with
    | invalidateChain f => trivial
    | pushDecision g b v w =>
      have hs := run_gapless hG hpush' hgap hr
      rw [hs.follows_iff]
      intro hv
      by_contra hlt
      -- The call returns, and behind a gap it leaves a misplaced cell.
      obtain ⟨n, t, hrun, ht⟩ := hall _ prefix_rfl
      obtain ⟨s', hpre, hc⟩ := run_concat_eq_done hrun
      cases run_done_unique hr hpre
      have hstops := call_invariant hG hs.merged.exist
        (fun _ hp => stopsAt_of_gap hs.merged hv (not_le.mp hlt) hp) (fun _ => traces_stopsAt.exist)
        (fun _ _ _ => traces_stopsAt.popped) hc
      exact ht.not_misplaced hstops.misplaced

/-- **As long as no check fails, every call returns, and the cells are at their own index in every
state exactly if no vote skips a block.** -/
theorem cells_in_place_iff (hG : 2 ≤ G) (cs : List (Call G))
    (hpush : ∀ f, .invalidateChain f ∉ cs) (hchk : ChecksPass cs) :
    (∀ pre, pre <+: cs → ∃ fuel s, run fuel pre (setGroupCount G) = .done s ∧ s.InPlace) ↔
      NoGap cs := by
  have hone : G ≠ 1 := by omega
  constructor
  · exact noGap_of_inPlace hone hpush
  · rintro hgap pre ⟨post, rfl⟩
    have hpush' : ∀ f, .invalidateChain f ∉ pre := fun f hf =>
      hpush f (mem_append_left _ hf)
    obtain ⟨fuel, s, hrun, hs⟩ := run_backed hG hchk.of_append (tiesKept_of_pushes hpush')
    exact ⟨fuel, s, hrun, (run_gapless hone hpush' (EachCall.of_append hgap) hrun).inPlace hs⟩

/-- Group 0 votes for block 0 of group 1 at clock 2, so blocks 0 and 1 of group 0 are delivered. The
vote for its block 3 then comes right behind the last cell. -/
theorem cells_in_place_behind_delivery :
    ChecksPass [Call.pushDecision 1 0 0 2, .pushDecision (0 : Fin 2) 3 1 0] ∧
      ∀ pre, pre <+: [Call.pushDecision 1 0 0 2, .pushDecision (0 : Fin 2) 3 1 0] →
        ∃ fuel s, run fuel pre (setGroupCount 2) = .done s ∧ s.InPlace := by
  obtain ⟨s, hrun⟩ : ∃ s, run 5 [Call.pushDecision 1 0 0 2, .pushDecision (0 : Fin 2) 3 1 0]
      (setGroupCount 2) = .done s := ⟨_, rfl⟩
  have hchk := checksPass_of_done hrun
  have hfirst : ∃ s, run 5 [Call.pushDecision (1 : Fin 2) 0 0 2] (setGroupCount 2) = .done s ∧
      s.blocks = [(0, 0), (0, 1)] := ⟨_, rfl, rfl⟩
  obtain ⟨s₁, hrun₁, hblocks⟩ := hfirst
  refine ⟨hchk, (cells_in_place_iff (le_refl 2) _ (by simp) hchk).mpr ?_⟩
  have hone : NoGap [Call.pushDecision (1 : Fin 2) 0 0 2] :=
    EachCall.concat eachCall_nil fun _ _ _ _ i hi => absurd hi (Nat.not_lt_zero _)
  refine EachCall.concat hone fun fuel t ht _ i hi => Or.inr ?_
  cases run_done_unique hrun₁ ht
  rw [hblocks]
  have hcases : i = 0 ∨ i = 1 := by omega
  rcases hcases with rfl | rfl <;> simp

/-- The first vote is for block 2 of group 0: the cell at index 1 gets the id 2 as well. When block
0 is delivered, the node aborts. -/
theorem skipped_block_misplaced :
    ChecksPass [Call.pushDecision (0 : Fin 2) 2 1 5] ∧
      (∃ s, run 1 [Call.pushDecision (0 : Fin 2) 2 1 5] (setGroupCount 2) = .done s ∧
        ((s.chains 0).chain.map Cell.block) = [(0, 0), (0, 2), (0, 2)] ∧ ¬s.InPlace) ∧
      run 2 [Call.pushDecision 0 2 1 5, .pushDecision (1 : Fin 2) 0 0 3] (setGroupCount 2) =
        .failed .notSuccessor := by
  obtain ⟨s, hrun, hcells⟩ : ∃ s, run 1 [Call.pushDecision (0 : Fin 2) 2 1 5] (setGroupCount 2) =
      .done s ∧ (s.chains 0).chain.map Cell.block = [(0, 0), (0, 2), (0, 2)] := ⟨_, rfl, rfl⟩
  refine ⟨checksPass_of_done hrun, ⟨s, hrun, hcells, fun hs => ?_⟩, rfl⟩
  have hsecond : ((s.chains 0).chain[1]?).map Cell.block = some (0, 2) := by
    rw [← getElem?_map, hcells]
    rfl
  obtain ⟨c, hc, hblock⟩ := Option.map_eq_some_iff.mp hsecond
  have hid : c.blockId = 2 := congrArg Prod.snd hblock
  rw [(hs.cells 0 1 c hc).2.1] at hid
  exact absurd hid (by decide)

end MassBFT.Order.Manager
