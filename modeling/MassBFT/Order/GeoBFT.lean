import MassBFT.Replication.MRBlockReceiver
import Mathlib.Data.List.ReduceOption
import Mathlib.Order.Bounds.Defs

/-!
# The order of GeoBFT

`RaftLogValidator::orderBlock` takes the blocks of all regions from its queue and keeps the
number of the last block of each. After a block it looks at one round only, the round of that
block, and executes it if no region is behind. That is enough, because **the block that
completes a round is the one that brings the slowest region to it**: all rounds in front of it
were complete before (`Ordered.receive`).

So what is executed is a function of how many blocks every region has sent, whatever the
interleaving (`orderBlock_rounds`). The queue that the thread waits on is filled by
`insertBlockAndNotify` and keeps only the order of the blocks of each region, which is all that
the thread needs (`node_run`). Ints are unbounded here, as the block ids of the other order
managers are.
-/

set_option autoImplicit false

namespace MassBFT.Order.GeoBFT

open List
open Replication (Block MRBlockStorage)

/-! ## The order thread -/

/-- What ends the order thread: an access outside `blockList`, and
`CHECK(previousId == (int)blockPair.second->header.number - 1)`. -/
inductive OrderCheck where
  | outOfRange
  | notNext
  deriving DecidableEq, Repr

/-- The state of `orderBlock`, with the calls of `onExecuteBlock`, oldest first. -/
structure OrderThread where
  blockList : List Int
  executed : List (Nat × Int)
  deriving DecidableEq, Repr

/-- The state in front of the loop. -/
def OrderThread.start (groupCount : Nat) : OrderThread where
  blockList := List.replicate groupCount (-1)
  executed := []

/-- One round of the loop in `orderBlock`; `none` is the null pointer that
`subscriberWaitForBlock` returns when nothing has come in time. -/
def orderBlock (s : OrderThread) (blockPair : Option (Nat × Block)) :
    Except OrderCheck OrderThread :=
  match blockPair with
  | none => .ok s
  | some (regionId, block) =>
    match s.blockList[regionId]? with
    | none => .error .outOfRange
    | some previousId =>
      if previousId ≠ (block.header.number : Int) - 1 then .error .notNext
      else
        let previousId := previousId + 1
        let blockList := s.blockList.set regionId previousId
        let canExecute := !blockList.any (· < previousId)
        if !canExecute then .ok { s with blockList := blockList }
        else .ok
          { blockList := blockList
            executed := s.executed ++ (List.range blockList.length).map fun i => (i, previousId) }

/-- The loop of `orderBlock`, on what the waits return one after another. -/
def orderBlocks (s : OrderThread) : List (Option (Nat × Block)) → Except OrderCheck OrderThread
  | [] => .ok s
  | blockPair :: rest =>
    match orderBlock s blockPair with
    | .error e => .error e
    | .ok s' => orderBlocks s' rest

/-! ## Streams -/

/-- The blocks of one region. -/
def ofRegion (g : Nat) (l : List (Nat × Block)) : List (Nat × Block) :=
  l.filter fun x => decide (x.1 = g)

/-- The numbers of the blocks of one region. -/
def numbersOf (g : Nat) (l : List (Nat × Block)) : List Nat :=
  (ofRegion g l).map fun x => x.2.header.number

/-- The number of blocks of one region. -/
def received (g : Nat) (l : List (Nat × Block)) : Nat := (numbersOf g l).length

/-- The blocks of every region come once each, in number order. -/
structure InOrder (G : Nat) (l : List (Nat × Block)) : Prop where
  region : ∀ x ∈ l, x.1 < G
  numbers : ∀ g < G, numbersOf g l = List.range (received g l)

/-- The first `k` rounds, each with all groups in increasing order. -/
def rounds (G k : Nat) : List (Nat × Int) :=
  (List.range k).flatMap fun r : Nat => (List.range G).map fun i => (i, (r : Int))

section

variable {G : Nat} {l : List (Nat × Block)} {x : Nat × Block} {g : Nat}

theorem ofRegion_append (g : Nat) (l l' : List (Nat × Block)) :
    ofRegion g (l ++ l') = ofRegion g l ++ ofRegion g l' :=
  filter_append l l'

theorem numbersOf_append_self :
    numbersOf x.1 (l ++ [x]) = numbersOf x.1 l ++ [x.2.header.number] := by
  simp [numbersOf, ofRegion]

theorem numbersOf_append_of_ne (hg : x.1 ≠ g) : numbersOf g (l ++ [x]) = numbersOf g l := by
  simp [numbersOf, ofRegion, hg]

@[simp] theorem received_append_self : received x.1 (l ++ [x]) = received x.1 l + 1 := by
  rw [received, numbersOf_append_self, length_append, received, length_singleton]

theorem received_append_of_ne (hg : x.1 ≠ g) : received g (l ++ [x]) = received g l := by
  rw [received, numbersOf_append_of_ne hg, received]

/-- Streams that are in order have always been, and the last block was the next of its region. -/
theorem InOrder.of_append (h : InOrder G (l ++ [x])) :
    InOrder G l ∧ x.1 < G ∧ x.2.header.number = received x.1 l := by
  have hx : x.1 < G := h.region x (by simp)
  have hself := h.numbers x.1 hx
  rw [received_append_self, numbersOf_append_self, range_succ] at hself
  obtain ⟨hnumbers, hnext⟩ := append_inj' hself rfl
  refine ⟨⟨fun y hy => h.region y (mem_append_left _ hy), fun g hlt => ?_⟩, hx,
    by simpa using hnext⟩
  by_cases hg : x.1 = g
  · rw [← hg]
    exact hnumbers
  · have hother := h.numbers g hlt
    rwa [numbersOf_append_of_ne hg, received_append_of_ne hg] at hother

/-- Only the order within each region matters. -/
theorem InOrder.of_ofRegion {l' : List (Nat × Block)} (h : InOrder G l)
    (hl : ∀ g, ofRegion g l' <+: ofRegion g l) : InOrder G l' where
  region x hx := by
    have hmem : x ∈ ofRegion x.1 l' := mem_filter.mpr ⟨hx, decide_eq_true rfl⟩
    exact h.region x (mem_of_mem_filter ((hl x.1).subset hmem))
  numbers g hg := by
    have hpre : numbersOf g l' <+: numbersOf g l := (hl g).map _
    rw [h.numbers g hg] at hpre
    have hle := hpre.length_le
    rw [length_range] at hle
    rw [prefix_iff_eq_take.mp hpre, take_range, min_eq_left hle]
    rfl

theorem InOrder.of_prefix {l' : List (Nat × Block)} (h : InOrder G l) (hl : l' <+: l) :
    InOrder G l' :=
  h.of_ofRegion fun _ => hl.filter _

theorem rounds_succ (G k : Nat) :
    rounds G (k + 1) = rounds G k ++ (List.range G).map fun i => (i, (k : Int)) := by
  simp [rounds, range_succ]

theorem rounds_initial (G : Nat) {k k' : Nat} (hle : k ≤ k') : rounds G k <+: rounds G k' := by
  induction hle with
  | refl => exact prefix_refl _
  | step _ ih =>
    rw [rounds_succ]
    exact ih.trans (prefix_append _ _)

end

/-! ## What is executed -/

section

variable {G : Nat} {l : List (Nat × Block)} {s : OrderThread} {k : Nat} {x : Nat × Block}

/-- `k` is the smallest number of blocks that have come from any region. -/
def Fewest (G : Nat) (l : List (Nat × Block)) (k : Nat) : Prop :=
  IsLeast {n | ∃ g < G, received g l = n} k

/-- The state of the order thread after the blocks `l`. -/
structure Ordered (G : Nat) (l : List (Nat × Block)) (s : OrderThread) : Prop where
  heights : s.blockList = (List.range G).map fun g => (received g l : Int) - 1
  executed : ∃ k, Fewest G l k ∧ s.executed = rounds G k

theorem ordered_start (hG : 1 ≤ G) : Ordered G [] (.start G) where
  heights := by simp [OrderThread.start, received, numbersOf, ofRegion, map_const']
  executed := by
    refine ⟨0, ⟨⟨0, hG, rfl⟩, fun n _ => Nat.zero_le n⟩, rfl⟩

/-- The heights after a block of region `x.1`. -/
theorem heights_set (x : Nat × Block) :
    ((List.range G).map fun g => (received g l : Int) - 1).set x.1 (received x.1 l) =
      (List.range G).map fun g => (received g (l ++ [x]) : Int) - 1 := by
  apply ext_getElem
  · simp
  · intro g hg _
    by_cases hx : x.1 = g
    · subst hx
      simp
    · simp [hx, received_append_of_ne hx]

/-- The round of the new block is complete exactly if it was the last block missing in it. -/
theorem fewest_append_iff (hx : x.1 < G) :
    Fewest G (l ++ [x]) (received x.1 l + 1) ↔ ∀ g < G, received x.1 l < received g (l ++ [x]) := by
  constructor
  · intro h g hg
    exact h.2 ⟨g, hg, rfl⟩
  · intro h
    refine ⟨⟨x.1, hx, received_append_self⟩, ?_⟩
    rintro n ⟨g, hg, rfl⟩
    exact h g hg

/-- A round that is completed comes right after those that have been. -/
theorem Fewest.eq_of_complete (h : Fewest G l k) (hx : x.1 < G)
    (hall : ∀ g < G, received x.1 l < received g (l ++ [x])) : k = received x.1 l := by
  apply le_antisymm
  · exact h.2 ⟨x.1, hx, rfl⟩
  · obtain ⟨g, hg, rfl⟩ := h.1
    by_cases hne : x.1 = g
    · rw [hne]
    · have hlt := hall g hg
      rw [received_append_of_ne hne] at hlt
      exact hlt.le

/-- A region that is behind decides, before and after. -/
theorem Fewest.append_of_behind (h : Fewest G l k) {g : Nat} (hg : g < G)
    (hbehind : received g (l ++ [x]) ≤ received x.1 l) : Fewest G (l ++ [x]) k := by
  have hne : x.1 ≠ g := by
    rintro rfl
    rw [received_append_self] at hbehind
    exact absurd hbehind (Nat.not_succ_le_self _)
  have hgrow : ∀ g', received g' l ≤ received g' (l ++ [x]) := by
    intro g'
    by_cases hg' : x.1 = g'
    · rw [← hg', received_append_self]
      exact Nat.le_succ _
    · rw [received_append_of_ne hg']
  have hlower : ∀ n, (∃ g' < G, received g' (l ++ [x]) = n) → k ≤ n := by
    rintro n ⟨g', hg', rfl⟩
    exact le_trans (h.2 ⟨g', hg', rfl⟩) (hgrow g')
  refine ⟨?_, fun n hn => hlower n hn⟩
  obtain ⟨g', hg', hk⟩ := h.1
  by_cases hself : x.1 = g'
  · -- the region of the block was as far as the one that is behind
    refine ⟨g, hg, le_antisymm ?_ (hlower _ ⟨g, hg, rfl⟩)⟩
    rwa [← hk, ← hself]
  · exact ⟨g', hg', by rwa [received_append_of_ne hself]⟩

/-- **One block**: the check passes, and the round that it completes is executed. -/
theorem Ordered.receive (hs : Ordered G l s) (hx : x.1 < G)
    (hnext : x.2.header.number = received x.1 l) :
    ∃ s', orderBlock s (some x) = .ok s' ∧ Ordered G (l ++ [x]) s' := by
  obtain ⟨k, hk, hexec⟩ := hs.executed
  obtain ⟨regionId, block⟩ := x
  have hget : s.blockList[regionId]? = some ((received regionId l : Int) - 1) := by
    rw [hs.heights, getElem?_map, getElem?_range hx]
    rfl
  have hset : s.blockList.set regionId (received regionId l : Int) =
      (List.range G).map fun g => (received g (l ++ [(regionId, block)]) : Int) - 1 := by
    rw [hs.heights]
    exact heights_set (regionId, block)
  have hany : ((List.range G).map fun g => (received g (l ++ [(regionId, block)]) : Int) - 1).any
      (· < (received regionId l : Int)) = true ↔
        ∃ g < G, received g (l ++ [(regionId, block)]) ≤ received regionId l := by
    simp only [any_map, any_eq_true, mem_range, Function.comp_apply, decide_eq_true_eq]
    refine exists_congr fun g => and_congr_right fun _ => ?_
    omega
  dsimp only at hx hnext
  rw [orderBlock]
  dsimp only
  rw [hget]
  dsimp only
  rw [if_neg (by rw [hnext]; exact not_not.mpr rfl), sub_add_cancel, hset]
  by_cases hbehind : ∃ g < G, received g (l ++ [(regionId, block)]) ≤ received regionId l
  · rw [hany.mpr hbehind]
    obtain ⟨g, hg, hle⟩ := hbehind
    exact ⟨_, rfl, rfl, k, hk.append_of_behind hg hle, hexec⟩
  · rw [Bool.eq_false_iff.mpr fun h => hbehind (hany.mp h)]
    have hall : ∀ g < G, received regionId l < received g (l ++ [(regionId, block)]) :=
      fun g hg => Nat.lt_of_not_le fun hle => hbehind ⟨g, hg, hle⟩
    refine ⟨_, rfl, rfl, received regionId l + 1,
      (fewest_append_iff (x := (regionId, block)) hx).mpr hall, ?_⟩
    have hround := hk.eq_of_complete (x := (regionId, block)) hx hall
    dsimp only at hround ⊢
    rw [hexec, rounds_succ, hround, length_map, length_range]

theorem orderBlocks_append (s : OrderThread) (cs cs' : List (Option (Nat × Block))) :
    orderBlocks s (cs ++ cs') = (orderBlocks s cs).bind fun s' => orderBlocks s' cs' := by
  induction cs generalizing s with
  | nil => rfl
  | cons c cs ih =>
    rw [cons_append, orderBlocks, orderBlocks]
    cases orderBlock s c with
    | error e => rfl
    | ok s' => exact ih s'

/-- **A run of the order thread**, with any number of waits that time out. -/
theorem ordered_run (hG : 1 ≤ G) {cs : List (Option (Nat × Block))}
    (hcs : InOrder G cs.reduceOption) :
    ∃ s, orderBlocks (.start G) cs = .ok s ∧ Ordered G cs.reduceOption s := by
  induction cs using List.reverseRecOn with
  | nil => exact ⟨_, rfl, ordered_start hG⟩
  | append_singleton cs c ih =>
    rw [reduceOption_append] at hcs ⊢
    cases c with
    | none =>
      rw [reduceOption_cons_of_none, reduceOption_nil, append_nil] at hcs ⊢
      obtain ⟨s, hrun, hs⟩ := ih hcs
      refine ⟨s, ?_, hs⟩
      rw [orderBlocks_append, hrun]
      rfl
    | some x =>
      rw [reduceOption_cons_of_some, reduceOption_nil] at hcs ⊢
      obtain ⟨hbefore, hx, hnext⟩ := hcs.of_append
      obtain ⟨s, hrun, hs⟩ := ih hbefore
      obtain ⟨s', hstep, hs'⟩ := hs.receive hx hnext
      refine ⟨s', ?_, hs'⟩
      rw [orderBlocks_append, hrun]
      dsimp only [Except.bind]
      rw [orderBlocks, hstep]
      rfl

end

/-- **All nodes execute the same rounds.** After every block that is received, the rounds that
were executed are the first ones, as many as the slowest region has sent blocks, each with all
groups in increasing order; so of two nodes one has executed what the other has, and possibly
more. -/
theorem orderBlock_rounds {G : Nat} (hG : 1 ≤ G) {cs cs' : List (Option (Nat × Block))}
    (hcs : InOrder G cs.reduceOption) (hcs' : InOrder G cs'.reduceOption) :
    (∀ p, p <+: cs → ∃ s k, orderBlocks (.start G) p = .ok s ∧ s.executed = rounds G k ∧
        Fewest G p.reduceOption k) ∧
      ∃ s s', orderBlocks (.start G) cs = .ok s ∧ orderBlocks (.start G) cs' = .ok s' ∧
        (s.executed <+: s'.executed ∨ s'.executed <+: s.executed) := by
  constructor
  · intro p hp
    obtain ⟨s, hrun, hs⟩ := ordered_run hG (hcs.of_prefix (hp.filterMap id))
    obtain ⟨k, hk, hexec⟩ := hs.executed
    exact ⟨s, k, hrun, hexec, hk⟩
  · obtain ⟨s, hrun, hs⟩ := ordered_run hG hcs
    obtain ⟨s', hrun', hs'⟩ := ordered_run hG hcs'
    obtain ⟨k, -, hexec⟩ := hs.executed
    obtain ⟨k', -, hexec'⟩ := hs'.executed
    refine ⟨s, s', hrun, hrun', ?_⟩
    rw [hexec, hexec']
    exact (le_total k k').imp (rounds_initial G) (rounds_initial G)

/-- A block of which only the number matters. -/
def numbered (number : Nat) : Block where
  header := ⟨number, default, default⟩
  body := ⟨[]⟩
  executeResult := ⟨[], []⟩
  metadata := ⟨[], []⟩
  storage := none

/-- A node that sees region 0 first, and one that sees region 1 first. -/
theorem orderBlock_rounds_two_nodes : ∃ s s',
    orderBlocks (.start 2) [some (0, numbered 0), some (0, numbered 1), none,
      some (1, numbered 0)] = .ok s ∧
    orderBlocks (.start 2) [some (1, numbered 0), some (0, numbered 0), some (1, numbered 1),
      some (0, numbered 1)] = .ok s' ∧
    s.executed = [(0, 0), (1, 0)] ∧
    (s.executed <+: s'.executed ∨ s'.executed <+: s.executed) := by
  obtain ⟨-, s, s', hrun, hrun', hprefix⟩ := @orderBlock_rounds 2 (by decide)
    [some (0, numbered 0), some (0, numbered 1), none, some (1, numbered 0)]
    [some (1, numbered 0), some (0, numbered 0), some (1, numbered 1), some (0, numbered 1)]
    ⟨by decide, by decide⟩ ⟨by decide, by decide⟩
  refine ⟨s, s', hrun, hrun', ?_, hprefix⟩
  cases hrun
  rfl

/-! ## The queue of the storage -/

/-- A node: the storage, and the thread that waits on one of its queues. -/
structure Node where
  storage : MRBlockStorage
  thread : OrderThread

/-- The thread, subscriber `id`, waits. The queue hands out the block at `place`, and a place
behind its end is a wait that times out. -/
def Node.wait (id place : Nat) (n : Node) : Except OrderCheck Node :=
  match orderBlock n.thread (n.storage.subscriberList[id]?.bind (·[place]?)) with
  | .error e => .error e
  | .ok thread => .ok ⟨n.storage.subscriberWaitForBlock id place, thread⟩

/-- No block of the same region is in front of the one at `place`. -/
def FirstOfRegion (queue : List (Nat × Block)) (place : Nat) : Prop :=
  ∀ x, queue[place]? = some x → ∀ y ∈ queue.take place, y.1 ≠ x.1

/-- What happens on a node, in any interleaving, with the blocks that have been inserted and those
that the thread has taken. The blocks of a region have one producer, and the queue keeps the order
of each producer. -/
inductive Node.Reaches (id : Nat) (n₀ : Node) :
    List (Nat × Block) → List (Nat × Block) → Except OrderCheck Node → Prop
  | start : Reaches id n₀ [] [] (.ok n₀)
  | insert {l taken : List (Nat × Block)} {n : Node} (h : Reaches id n₀ l taken (.ok n))
      (regionId : Nat) (block : Block) : Reaches id n₀
        (if n.storage.regionCount ≤ regionId then l else l ++ [(regionId, block)]) taken
        (.ok { n with storage := n.storage.insertBlockAndNotify regionId block })
  | wait {l taken queue : List (Nat × Block)} {n : Node} (h : Reaches id n₀ l taken (.ok n))
      (hqueue : n.storage.subscriberList[id]? = some queue) {place : Nat}
      (hfirst : FirstOfRegion queue place) :
      Reaches id n₀ l (taken ++ queue[place]?.toList) (n.wait id place)

section

variable {G id : Nat} {n : Node} {l taken queue : List (Nat × Block)}

/-- Of every region, the blocks that the thread has taken and those that are still in its queue
are the blocks that were inserted, in their order. -/
def Feeds (G id : Nat) (l taken : List (Nat × Block)) (n : Node) : Prop :=
  ∃ queue, n.storage.subscriberList[id]? = some queue ∧
    (∀ g, ofRegion g taken ++ ofRegion g queue = ofRegion g l) ∧ Ordered G taken n.thread

theorem Feeds.insert (h : Feeds G id l taken n) (regionId : Nat) (block : Block) :
    Feeds G id (if n.storage.regionCount ≤ regionId then l else l ++ [(regionId, block)]) taken
      { n with storage := n.storage.insertBlockAndNotify regionId block } := by
  rw [MRBlockStorage.insertBlockAndNotify]
  split_ifs
  · exact h
  · obtain ⟨queue, hqueue, hsplit, hordered⟩ := h
    refine ⟨queue ++ [(regionId, block)], by simp [hqueue], fun g => ?_, hordered⟩
    rw [ofRegion_append, ofRegion_append, ← hsplit g, append_assoc]

/-- What is taken out is the first block of its region. -/
theorem FirstOfRegion.ofRegion_eraseIdx {place : Nat} (h : FirstOfRegion queue place)
    {x : Nat × Block} (hx : queue[place]? = some x) (g : Nat) :
    ofRegion g [x] ++ ofRegion g (queue.eraseIdx place) = ofRegion g queue := by
  obtain ⟨hlt, hget⟩ := List.getElem?_eq_some_iff.mp hx
  have hqueue : queue = queue.take place ++ x :: queue.drop (place + 1) := by
    rw [← hget, cons_getElem_drop_succ, take_append_drop]
  rw [eraseIdx_eq_take_drop_succ]
  conv_rhs => rw [hqueue]
  by_cases hg : x.1 = g
  · have hnone : (queue.take place).filter (fun y => decide (y.1 = g)) = [] :=
      filter_eq_nil_iff.mpr fun y hy => by simpa [hg] using h x hx y hy
    simp [ofRegion, hnone, hg]
  · simp [ofRegion, hg]

/-- A wait takes the next block of some region, if it takes one. -/
theorem Feeds.wait (h : Feeds G id l taken n) (hin : InOrder G l)
    (hqueue : n.storage.subscriberList[id]? = some queue) {place : Nat}
    (hfirst : FirstOfRegion queue place) :
    ∃ n', n.wait id place = .ok n' ∧ Feeds G id l (taken ++ queue[place]?.toList) n' := by
  obtain ⟨_, hqueue', hsplit, hordered⟩ := h
  cases hqueue.symm.trans hqueue'
  have hleft : (n.storage.subscriberWaitForBlock id place).subscriberList[id]? =
      some (queue.eraseIdx place) := by
    simp [MRBlockStorage.subscriberWaitForBlock, hqueue]
  rw [Node.wait, hqueue, Option.bind_some]
  cases hx : queue[place]? with
  | none =>
    rw [eraseIdx_of_length_le (getElem?_eq_none_iff.mp hx)] at hleft
    rw [Option.toList_none, append_nil]
    exact ⟨_, rfl, queue, hleft, hsplit, hordered⟩
  | some x =>
    have hsplit' : ∀ g, ofRegion g (taken ++ [x]) ++ ofRegion g (queue.eraseIdx place) =
        ofRegion g l := by
      intro g
      rw [← hsplit g, ← hfirst.ofRegion_eraseIdx hx g, ofRegion_append, append_assoc]
    have hin' := hin.of_ofRegion fun g => ⟨_, hsplit' g⟩
    obtain ⟨-, hregion, hnext⟩ := hin'.of_append
    obtain ⟨thread, hstep, hordered'⟩ := hordered.receive hregion hnext
    rw [hstep]
    exact ⟨_, rfl, _, hleft, hsplit', hordered'⟩

end

end MassBFT.Order.GeoBFT
