import MassBFT.Lib.Loop
import Mathlib.Data.List.Range
import Mathlib.Logic.Function.Basic
import Mathlib.Tactic.Ring

/-!
# Ordering by rounds

`RoundBasedOrderManager` delivers the blocks of all groups round by round. A round is committed
by a scan over its flags, in a loop that both entry points end with. What it is for is said by
`Commits`: after every call the rounds go on for as long as the next one is ready.

The scan looks up **the flag, not the index of the flag**, among the failed groups: a flag is
`false` where it is looked up, so what is asked is always whether group 0 has failed
(`Scanned`). So there are two questions that `Commits` can go by, and what is proved here holds
for both of them.
-/

set_option autoImplicit false

namespace MassBFT.Order

open List

/-! ## The manager -/

/-- The `CHECK` of `isRoundCommitted`: `CHECK(round >= 0)`. -/
inductive RoundCheck where
  | negativeRound
  deriving DecidableEq, Repr

/-- `RoundBasedOrderManager`, with what the callback was given, oldest first. -/
structure RoundBasedOrderManager where
  subChainCount : Nat
  lastCommittedRound : Int
  invalidGroupList : List Nat
  receiveMap : Int → Option (List Bool)
  delivered : List (Nat × Int)

namespace RoundBasedOrderManager

/-- `setSubChainCount`, on a new manager. -/
def setSubChainCount (count : Nat) : RoundBasedOrderManager where
  subChainCount := count
  lastCommittedRound := -1
  invalidGroupList := []
  receiveMap := fun _ => none
  delivered := []

/-- The inner loop of `isRoundCommitted`; `idx` is a flag of the round. -/
def allReceived (m : RoundBasedOrderManager) (flags : List Bool) : Bool :=
  flags.all fun idx => !(idx == false && !m.invalidGroupList.contains idx.toNat)

/-- The outer loop of `isRoundCommitted`, for that many rounds: every round of it is the one
after `lastCommittedRound`. -/
def commitRounds : Nat → RoundBasedOrderManager → Bool × RoundBasedOrderManager
  | 0, m => (true, m)
  | count + 1, m =>
    match m.receiveMap (m.lastCommittedRound + 1) with
    | none => (false, m)
    | some flags =>
      if m.allReceived flags then
        commitRounds count { m with
          lastCommittedRound := m.lastCommittedRound + 1
          receiveMap := Function.update m.receiveMap (m.lastCommittedRound + 1) none }
      else (false, m)

/-- `isRoundCommitted` -/
def isRoundCommitted (m : RoundBasedOrderManager) (round : Int) :
    Except RoundCheck (Bool × RoundBasedOrderManager) :=
  if round < 0 then .error .negativeRound
  else if round ≤ m.lastCommittedRound then .ok (true, m)
  else .ok (m.commitRounds (round - m.lastCommittedRound).toNat)

/-- The `for` loop of `tryCommitBlock`. -/
def deliver (m : RoundBasedOrderManager) : RoundBasedOrderManager :=
  let groups := (List.range m.subChainCount).filter fun i => !m.invalidGroupList.contains i
  { m with delivered := m.delivered ++ groups.map fun i => (i, m.lastCommittedRound) }

/-- One round of the loop in `tryCommitBlock`. A single round that is not committed leaves the
manager as it was. -/
def commitRound (m : RoundBasedOrderManager) :
    Except RoundCheck (Option RoundBasedOrderManager) :=
  match m.isRoundCommitted (m.lastCommittedRound + 1) with
  | .error e => .error e
  | .ok (false, _) => .ok none
  | .ok (true, m') => .ok (some m'.deliver)

/-- `tryCommitBlock` -/
def tryCommitBlock (fuel : Nat) (m : RoundBasedOrderManager) :
    Outcome RoundCheck RoundBasedOrderManager :=
  loop commitRound fuel m

/-- `invalidateChain` -/
def invalidateChain (fuel : Nat) (m : RoundBasedOrderManager) (subChainId : Nat) :
    Outcome RoundCheck (Bool × RoundBasedOrderManager) :=
  if m.subChainCount ≤ subChainId then .done (false, m)
  else if m.invalidGroupList.contains subChainId then .done (true, m)
  else
    let m' := { m with invalidGroupList := subChainId :: m.invalidGroupList }
    (m'.tryCommitBlock fuel).bind fun m'' => .done (true, m'')

/-- `pushDecision` -/
def pushDecision (fuel : Nat) (m : RoundBasedOrderManager) (subChainId : Nat) (blockNumber : Int) :
    Outcome RoundCheck (Bool × RoundBasedOrderManager) :=
  if m.subChainCount ≤ subChainId then .done (false, m)
  else
    let flags := (m.receiveMap blockNumber).getD (List.replicate m.subChainCount false)
    let m' := { m with
      receiveMap := Function.update m.receiveMap blockNumber (some (flags.set subChainId true)) }
    (m'.tryCommitBlock fuel).bind fun m'' => .done (true, m'')

/-- A call of the public interface. -/
inductive Call where
  | pushDecision (subChainId : Nat) (blockNumber : Int)
  | invalidateChain (subChainId : Nat)
  deriving DecidableEq, Repr

/-- One call; the answer is dropped. -/
def call (fuel : Nat) (m : RoundBasedOrderManager) (c : Call) :
    Outcome RoundCheck RoundBasedOrderManager :=
  match c with
  | .pushDecision i r => (m.pushDecision fuel i r).bind fun left => .done left.2
  | .invalidateChain i => (m.invalidateChain fuel i).bind fun left => .done left.2

/-- A sequence of calls. -/
def run (fuel : Nat) :
    List Call → RoundBasedOrderManager → Outcome RoundCheck RoundBasedOrderManager
  | [], m => .done m
  | c :: rest, m => (m.call fuel c).bind (run fuel rest)

/-! ## What it is for -/

section

variable (G : Nat) (H : List Call)

/-- The block of group `i` for round `r` was pushed. -/
def Pushed (i : Nat) (r : Int) : Prop := .pushDecision i r ∈ H

/-- Group `i` was reported to have failed. -/
def Invalidated (i : Nat) : Prop := .invalidateChain i ∈ H

instance (i : Nat) (r : Int) : Decidable (Pushed H i r) := inferInstanceAs (Decidable (_ ∈ H))

instance (i : Nat) : Decidable (Invalidated H i) := inferInstanceAs (Decidable (_ ∈ H))

/-- The groups that have not failed, in increasing order. -/
def alive : List Nat := (List.range G).filter fun i => decide (¬ Invalidated H i)

/-- Every group has pushed its block of the round or has failed, and a group that has not failed
has pushed it. -/
def Ready (r : Nat) : Prop :=
  (∀ i < G, Invalidated H i ∨ Pushed H i r) ∧ ∃ i < G, ¬ Invalidated H i ∧ Pushed H i r

/-- What `isRoundCommitted` asks: some group has pushed its block of the round, and every group
has, unless group 0 has failed. -/
def Scanned (r : Nat) : Prop := (∃ i < G, Pushed H i r) ∧ (Invalidated H 0 ∨ ∀ i < G, Pushed H i r)

/-- The blocks of the rounds from `k` to before `k'`. -/
def delivery (k k' : Nat) : List (Nat × Int) :=
  (List.range' k (k' - k)).flatMap fun r : Nat => (alive G H).map fun i => (i, (r : Int))

end

/-- Rounds are committed one after another, after every call for as long as the next one is
`ready`, and those that are committed deliver the blocks of the groups that have not failed. -/
inductive Commits (ready : List Call → Nat → Prop) (G : Nat) :
    List Call → Nat → List (Nat × Int) → Prop
  | start : Commits ready G [] 0 []
  | call {H : List Call} {k k' : Nat} {out : List (Nat × Int)} (c : Call)
      (h : Commits ready G H k out) (hle : k ≤ k')
      (hready : ∀ r, k ≤ r → r < k' → ready (H ++ [c]) r) (hlast : ¬ ready (H ++ [c]) k') :
      Commits ready G (H ++ [c]) k' (out ++ delivery G (H ++ [c]) k k')

/-- Round-based ordering: what is delivered is in the order of the rounds and inside a round in
the order of the groups, it was pushed, and the rounds are those that have become ready. -/
structure RoundOrder (G : Nat) (H : List Call) (delivered : List (Nat × Int)) : Prop where
  order : delivered.Pairwise fun x y => x.2 < y.2 ∨ x.2 = y.2 ∧ x.1 < y.1
  pushed : ∀ x ∈ delivered, Pushed H x.1 x.2
  rounds : ∃ k, Commits (Ready G) G H k delivered

/-! ## Committed rounds -/

section

variable {G : Nat} {H : List Call} {ready : List Call → Nat → Prop} {k k' : Nat}
  {out : List (Nat × Int)}

@[simp] theorem mem_alive {i : Nat} : i ∈ alive G H ↔ i < G ∧ ¬ Invalidated H i := by
  simp [alive]

theorem Pushed.append {i : Nat} {r : Int} (h : Pushed H i r) (c : Call) : Pushed (H ++ [c]) i r :=
  mem_append_left _ h

theorem Invalidated.append {i : Nat} (h : Invalidated H i) (c : Call) : Invalidated (H ++ [c]) i :=
  mem_append_left _ h

@[simp] theorem pushed_push {i j : Nat} {r n : Int} :
    Pushed (H ++ [.pushDecision j n]) i r ↔ Pushed H i r ∨ i = j ∧ r = n := by
  simp [Pushed]

@[simp] theorem pushed_invalidate {i j : Nat} {r : Int} :
    Pushed (H ++ [.invalidateChain j]) i r ↔ Pushed H i r := by
  simp [Pushed]

@[simp] theorem invalidated_push {i j : Nat} {n : Int} :
    Invalidated (H ++ [.pushDecision j n]) i ↔ Invalidated H i := by
  simp [Invalidated]

@[simp] theorem invalidated_invalidate {i j : Nat} :
    Invalidated (H ++ [.invalidateChain j]) i ↔ Invalidated H i ∨ i = j := by
  simp [Invalidated]

theorem alive_of_append {i : Nat} {c : Call} (h : i ∈ alive G (H ++ [c])) : i ∈ alive G H := by
  rw [mem_alive] at h ⊢
  exact ⟨h.1, fun hfail => h.2 (hfail.append c)⟩

@[simp] theorem mem_delivery {x : Nat × Int} :
    x ∈ delivery G H k k' ↔ ∃ r : Nat, (k ≤ r ∧ r < k') ∧ x.1 ∈ alive G H ∧ x.2 = r := by
  obtain ⟨i, n⟩ := x
  simp only [delivery, mem_flatMap, mem_range'_1, mem_map, Prod.mk.injEq]
  constructor
  · rintro ⟨r, hr, j, hj, rfl, rfl⟩
    exact ⟨r, by omega, hj, rfl⟩
  · rintro ⟨r, hr, hi, rfl⟩
    exact ⟨r, by omega, i, hi, rfl, rfl⟩

@[simp] theorem delivery_self : delivery G H k k = [] := by simp [delivery]

theorem delivery_succ (hle : k ≤ k') :
    delivery G H k (k' + 1) = delivery G H k k' ++ (alive G H).map fun i => (i, (k' : Int)) := by
  have hsucc : k' + 1 - k = (k' - k) + 1 := by omega
  have hlast : k + (k' - k) = k' := by omega
  rw [delivery, delivery, hsucc, List.range'_1_concat, hlast, flatMap_append]
  simp

theorem delivery_of_alive_nil (h : alive G H = []) : delivery G H k k' = [] := by
  simp [delivery, h]

/-- Readiness is not lost while some group has not failed, and nothing is ready at the start. -/
structure Gate (G : Nat) (ready : List Call → Nat → Prop) : Prop where
  start : ¬ ready [] 0
  grows : ∀ H c r, alive G (H ++ [c]) ≠ [] → ready H r → ready (H ++ [c]) r

theorem gate_ready : Gate G (Ready G) where
  start := by
    rintro ⟨-, i, -, -, hpush⟩
    cases hpush
  grows := by
    rintro H c r halive ⟨hall, -⟩
    have hall' : ∀ i < G, Invalidated (H ++ [c]) i ∨ Pushed (H ++ [c]) i r := by
      intro i hi
      exact (hall i hi).imp (fun h => h.append c) fun h => h.append c
    obtain ⟨i, hi⟩ := exists_mem_of_ne_nil _ halive
    rw [mem_alive] at hi
    exact ⟨hall', i, hi.1, hi.2, (hall' i hi.1).resolve_left hi.2⟩

theorem gate_scanned : Gate G (Scanned G) where
  start := by
    rintro ⟨⟨i, -, hpush⟩, -⟩
    cases hpush
  grows := by
    rintro H c r - ⟨⟨i, hi, hpush⟩, hall⟩
    refine ⟨⟨i, hi, hpush.append c⟩, hall.imp (fun h => h.append c) ?_⟩
    intro h j hj
    exact (h j hj).append c

/-- The round that comes next is not ready. -/
theorem Commits.not_ready (hgate : Gate G ready) (h : Commits ready G H k out) : ¬ ready H k := by
  cases h with
  | start => exact hgate.start
  | call c _ _ _ hlast => exact hlast

/-- The rounds that have been committed are ready, while some group has not failed. -/
theorem Commits.ready_of_lt (hgate : Gate G ready) (h : Commits ready G H k out)
    (halive : alive G H ≠ []) {r : Nat} (hr : r < k) : ready H r := by
  induction h with
  | start => exact absurd hr (Nat.not_lt_zero r)
  | @call H k k' out c _ _ hready _ ih =>
    rcases Nat.lt_or_ge r k with hlt | hge
    · refine hgate.grows H c r halive (ih ?_ hlt)
      obtain ⟨i, hi⟩ := exists_mem_of_ne_nil _ halive
      exact ne_nil_of_mem (alive_of_append hi)
    · exact hready r hge hr

/-- A group that has not failed is in every round. -/
theorem Commits.mem_iff (h : Commits ready G H k out) {i : Nat} (hi : i ∈ alive G H) (r : Nat) :
    (i, (r : Int)) ∈ out ↔ r < k := by
  induction h with
  | start => simp
  | @call H k k' out c _ hle _ _ ih =>
    rw [mem_append, ih (alive_of_append hi), mem_delivery]
    constructor
    · rintro (hlt | ⟨r', hr', -, heq⟩)
      · exact Nat.lt_of_lt_of_le hlt hle
      · rw [Int.ofNat_inj.mp heq]
        exact hr'.2
    · intro hlt
      rcases Nat.lt_or_ge r k with hlt' | hge
      · exact Or.inl hlt'
      · exact Or.inr ⟨r, ⟨hge, hlt⟩, hi, rfl⟩

theorem Commits.round_lt (h : Commits ready G H k out) : ∀ x ∈ out, x.2 < k := by
  induction h with
  | start => simp
  | call c _ hle _ _ ih =>
    intro x hx
    rcases mem_append.mp hx with hx | hx
    · have hlt := ih x hx
      omega
    · obtain ⟨r, hr, -, heq⟩ := mem_delivery.mp hx
      omega

theorem delivery_order : (delivery G H k k').Pairwise
    fun x y => x.2 < y.2 ∨ x.2 = y.2 ∧ x.1 < y.1 := by
  rw [delivery, pairwise_flatMap]
  constructor
  · intro r _
    rw [pairwise_map]
    refine Pairwise.imp ?_ (Pairwise.filter _ pairwise_lt_range)
    intro i j hij
    exact Or.inr ⟨rfl, hij⟩
  · refine Pairwise.imp ?_ pairwise_lt_range'
    intro r r' hr x hx y hy
    obtain ⟨i, -, rfl⟩ := mem_map.mp hx
    obtain ⟨j, -, rfl⟩ := mem_map.mp hy
    exact Or.inl (Int.ofNat_lt.mpr hr)

/-- Rounds come in their order, and the groups of a round in theirs. -/
theorem Commits.order (h : Commits ready G H k out) :
    out.Pairwise fun x y => x.2 < y.2 ∨ x.2 = y.2 ∧ x.1 < y.1 := by
  induction h with
  | start => exact Pairwise.nil
  | call c h _ _ _ ih =>
    refine pairwise_append.mpr ⟨ih, delivery_order, ?_⟩
    intro x hx y hy
    have hlt := h.round_lt x hx
    obtain ⟨r, hr, -, heq⟩ := mem_delivery.mp hy
    exact Or.inl (by omega)

/-- What is delivered was pushed, if the rounds wait until they are ready. -/
theorem Commits.pushed (h : Commits (Ready G) G H k out) : ∀ x ∈ out, Pushed H x.1 x.2 := by
  induction h with
  | start => simp
  | call c _ _ hready _ ih =>
    intro x hx
    rcases mem_append.mp hx with hx | hx
    · exact (ih x hx).append c
    · obtain ⟨r, hr, hi, heq⟩ := mem_delivery.mp hx
      rw [mem_alive] at hi
      rw [heq]
      exact ((hready r hr.1 hr.2).1 x.1 hi.1).resolve_left hi.2

theorem Commits.roundOrder (h : Commits (Ready G) G H k out) : RoundOrder G H out :=
  ⟨h.order, h.pushed, k, h⟩

/-- Only finitely many rounds were pushed. -/
theorem exists_bound (H : List Call) : ∃ N : Nat, ∀ i r, Pushed H i r → r < N := by
  induction H with
  | nil => exact ⟨0, fun _ _ h => by cases h⟩
  | cons c H ih =>
    obtain ⟨N, hN⟩ := ih
    cases c with
    | invalidateChain j =>
      refine ⟨N, fun i r h => hN i r ?_⟩
      simpa [Pushed] using h
    | pushDecision j n =>
      refine ⟨N + n.toNat + 1, fun i r h => ?_⟩
      rcases mem_cons.mp h with heq | h
      · cases heq
        omega
      · have hlt := hN i r h
        omega

/-- The rounds that become ready are committed. -/
theorem exists_commits (G : Nat) (H : List Call) : ∃ k out, Commits (Ready G) G H k out := by
  induction H using List.reverseRecOn with
  | nil => exact ⟨0, [], .start⟩
  | append_singleton H c ih =>
    classical
    obtain ⟨k, out, h⟩ := ih
    obtain ⟨N, hN⟩ := exists_bound (H ++ [c])
    have hstop : ∃ r, k ≤ r ∧ ¬ Ready G (H ++ [c]) r := by
      refine ⟨k + N, Nat.le_add_right k N, ?_⟩
      rintro ⟨-, i, -, -, hpush⟩
      have hlt := hN i _ hpush
      omega
    refine ⟨Nat.find hstop, _, .call c h (Nat.find_spec hstop).1 ?_ (Nat.find_spec hstop).2⟩
    intro r hge hlt
    by_contra hnot
    exact Nat.find_min hstop hlt ⟨hge, hnot⟩

end

end RoundBasedOrderManager

end MassBFT.Order
