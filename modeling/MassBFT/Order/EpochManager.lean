import MassBFT.Lib.Loop
import MassBFT.Lib.LRU
import Mathlib.Data.Fintype.Card
import Mathlib.Data.Finset.Image
import Mathlib.Order.Interval.Finset.Nat
import Mathlib.Tactic.Ring

/-!
# The epochs of one leader

`EpochManager` cuts the block numbers into epochs and lets a leader propose only up to the end of
its current epoch. Which blocks have come is kept in buckets, one for each block number with the
set of groups whose block of that number has been received, and **the buckets are in a cache that
forgets**: an epoch whose bucket were dropped could never be finished.

What the manager means is a function of how many blocks have been received from every group
(`View`): the epochs in front of the current one are complete, and every bucket from the current
epoch on is there with the right groups. `receivedBlock` keeps that as long as no block comes from
further ahead than the next epoch: the buckets in use are then those of three epochs, and the
cache keeps 64. Ints are unbounded here.
-/

set_option autoImplicit false

namespace MassBFT.Order.Iss

open Finset
open Function LRUCache

/-- `EpochManager`; a bucket is an `unordered_set<int>` of group ids. -/
structure EpochManager where
  epochLength : Nat
  groupCount : Nat
  currentEpoch : Nat
  bucket : LRUCache Nat (Finset Nat)

namespace EpochManager

/-- The constructor, with the default size of the cache. -/
def new (epochLength groupCount : Nat) : EpochManager where
  epochLength := epochLength
  groupCount := groupCount
  currentEpoch := 0
  bucket := .new 64 10

/-- The condition that `waitUntilCanPropose` waits for. -/
def canPropose (m : EpochManager) (blockNumber : Nat) : Bool :=
  if m.epochLength * (m.currentEpoch + 1) ≤ blockNumber then false else true

/-- The loop of `checkEpoch`, over the block numbers of the epoch. -/
def checkBlocks (groupCount : Nat) :
    List Nat → LRUCache Nat (Finset Nat) → Except KeyNotFound (Bool × LRUCache Nat (Finset Nat))
  | [], bucket => .ok (true, bucket)
  | i :: is, bucket =>
    if !bucket.contains i then .ok (false, bucket)
    else
      match bucket.getRef i with
      | .error e => .error e
      | .ok (res, bucket) =>
        if res.card < groupCount then .ok (false, bucket) else checkBlocks groupCount is bucket

/-- `checkEpoch`; the buckets it looks at move to the front of the cache. -/
def checkEpoch (m : EpochManager) (epochNumber : Nat) :
    Except KeyNotFound (Bool × LRUCache Nat (Finset Nat)) :=
  checkBlocks m.groupCount (List.range' (m.epochLength * epochNumber) m.epochLength) m.bucket

/-- One round of `while (checkEpoch(startCheckFrom))`. The flag is the answer of the last check,
and `startCheckFrom` is the current epoch whenever it is read. -/
def checkRound : EpochManager × Bool → Except KeyNotFound (Option (EpochManager × Bool))
  | (_, false) => .ok none
  | (m, true) =>
    match m.checkEpoch m.currentEpoch with
    | .error e => .error e
    | .ok (true, bucket) =>
      .ok (some ({ m with bucket := bucket, currentEpoch := m.currentEpoch + 1 }, true))
    | .ok (false, bucket) => .ok (some ({ m with bucket := bucket }, false))

/-- `receivedBlock`, with at most `n` rounds of its loop. -/
def receivedBlock (n : Nat) (m : EpochManager) (chainId blockId : Nat) :
    Outcome KeyNotFound EpochManager :=
  let bucket := if !m.bucket.contains blockId then m.bucket.insert blockId ∅ else m.bucket
  match bucket.getRef blockId with
  | .error e => .failed e
  | .ok (value, bucket) =>
    -- the set is changed through the pointer; its entry is in front already
    let bucket := bucket.touch blockId (insert chainId value)
    (loop checkRound n ({ m with bucket := bucket }, true)).bind fun s => .done s.1

end EpochManager

/-! ## What the buckets hold -/

section

variable {G : Nat}

/-- The groups whose block `n` has come, when `received g` blocks have come from group `g`. -/
def chainsWith (received : Fin G → Nat) (n : Nat) : Finset Nat :=
  (Finset.univ.filter fun g => n < received g).image Fin.val

/-- The bucket of block `n`: there is none before the first block of that number. -/
def bucketOf (received : Fin G → Nat) (n : Nat) : Option (Finset Nat) :=
  if chainsWith received n = ∅ then none else some (chainsWith received n)

/-- A key in front of `k` is at most one epoch away, if `k` is not in front of epoch `e`. -/
def Near (L e : Nat) (j k : Nat) : Prop := L * e ≤ k → j < L * (k / L + 2) ∧ L * (k / L) ≤ j + L

/-- The cache holds the buckets from epoch `e` on, and has used them lately. -/
structure Holds (L : Nat) (received : Fin G → Nat) (e : Nat)
    (bucket : LRUCache Nat (Finset Nat)) : Prop where
  maxSize : bucket.maxSize = 64
  content : ∀ n, L * e ≤ n → bucket.lookup n = bucketOf received n
  recent : bucket.keys.Pairwise (Near L e)

variable {L e : Nat} {received : Fin G → Nat} {bucket : LRUCache Nat (Finset Nat)}

theorem mem_chainsWith {n : Nat} {g : Fin G} :
    (g : Nat) ∈ chainsWith received n ↔ n < received g := by
  simp [chainsWith, Fin.val_inj]

theorem chainsWith_eq_empty {n : Nat} : chainsWith received n = ∅ ↔ ∀ g, received g ≤ n := by
  simp [chainsWith, filter_eq_empty_iff]

/-- **A bucket is full exactly if the block has come from every group.** -/
theorem card_chainsWith {n : Nat} : (chainsWith received n).card < G ↔ ∃ g, received g ≤ n := by
  rw [chainsWith, card_image_of_injective _ Fin.val_injective]
  constructor
  · intro h
    by_contra hall
    push Not at hall
    rw [filter_true_of_mem fun g _ => hall g, card_univ, Fintype.card_fin] at h
    exact lt_irrefl G h
  · rintro ⟨g, hg⟩
    have hmissing : Finset.univ.filter (fun g => n < received g) ⊂ Finset.univ :=
      filter_ssubset.mpr ⟨g, mem_univ g, not_lt.mpr hg⟩
    have hlt := card_lt_card hmissing
    rwa [card_univ, Fintype.card_fin] at hlt

theorem bucketOf_eq_some {n : Nat} {v : Finset Nat} (h : bucketOf received n = some v) :
    v = chainsWith received n ∧ ∃ g, n < received g := by
  rw [bucketOf] at h
  split_ifs at h with hempty
  rw [chainsWith_eq_empty] at hempty
  push Not at hempty
  exact ⟨(Option.some.inj h).symm, hempty⟩

theorem near_of_lt {i j : Nat} (hi : L * e ≤ i) (hi' : i < L * (e + 2)) (hj : j < L * (e + 2)) :
    Near L e i j := by
  intro hle
  have hL : 0 < L := Nat.pos_of_ne_zero fun h => by simp [h] at hj
  have hlow : e ≤ j / L := (Nat.le_div_iff_mul_le hL).mpr (by rwa [Nat.mul_comm])
  have hhigh : j / L < e + 2 := (Nat.div_lt_iff_lt_mul hL).mpr (by rwa [Nat.mul_comm])
  constructor
  · exact hi'.trans_le (Nat.mul_le_mul_left L (by omega))
  · calc L * (j / L) ≤ L * (e + 1) := Nat.mul_le_mul_left L (by omega)
      _ = L * e + L := by ring
      _ ≤ i + L := Nat.add_le_add_right hi L

/-- The keys that can stand in front of a bucket in use. -/
theorem Near.mem {j k : Nat} (hk : L * e ≤ k) (h : Near L e j k) :
    j ∈ Finset.Ico (L * (k / L) - L) (L * (k / L + 2)) := by
  obtain ⟨hlt, hle⟩ := h hk
  rw [mem_Ico]
  omega

theorem card_near (k : Nat) : (Finset.Ico (L * (k / L) - L) (L * (k / L + 2))).card ≤ 3 * L := by
  have hmul : L * (k / L + 2) = L * (k / L) + 2 * L := by ring
  rw [Nat.card_Ico, hmul]
  omega

variable (h : Holds L received e bucket) (hahead : ∀ g, received g ≤ L * (e + 2))

include h hahead in
/-- Every bucket in use belongs to the current epoch or the next. -/
theorem Holds.lt_of_mem {j : Nat} (hj : j ∈ bucket.keys) :
    j < L * (e + 2) ∨ j < L * e := by
  by_cases hle : L * e ≤ j
  · left
    have hsome : bucket.lookup j ≠ none := fun hnone => lookup_eq_none.mp hnone hj
    obtain ⟨v, hv⟩ := Option.ne_none_iff_exists'.mp hsome
    rw [h.content j hle] at hv
    obtain ⟨-, g, hg⟩ := bucketOf_eq_some hv
    exact hg.trans_le (hahead g)
  · exact Or.inr (Nat.lt_of_not_le hle)

include h hahead in
theorem Holds.near
    {i : Nat} (hi : L * e ≤ i) (hi' : i < L * (e + 2)) : ∀ j ∈ bucket.keys, Near L e i j := by
  intro j hj
  rcases h.lt_of_mem hahead hj with hlt | hlt
  · exact near_of_lt hi hi' hlt
  · exact fun hle => absurd hlt (Nat.not_lt.mpr hle)

/-! ### Using and adding buckets -/

include h hahead in
/-- A use of a bucket of the current epoch or the next. -/
theorem Holds.touch {i : Nat} (hi : L * e ≤ i) (hi' : i < L * (e + 2)) {v : Finset Nat}
    (hv : bucket.lookup i = some v) : Holds L received e (bucket.touch i v) where
  maxSize := h.maxSize
  content n hn := by rw [lookup_touch_of_lookup hv, h.content n hn]
  recent := pairwise_touch h.recent (h.near hahead hi hi')

/-- **The new bucket drops none that is in use**: only buckets of three epochs are used later. -/
theorem Holds.lookup_insert (hL : 3 * L < 64) (h : Holds L received e bucket)
    (hahead : ∀ g, received g ≤ L * (e + 2)) {i : Nat} (hi : L * e ≤ i)
    (hi' : i < L * (e + 2)) (hnew : bucket.contains i = false) :
    (bucket.insert i ∅).lookup i = some ∅ ∧
      ∀ n, L * e ≤ n → n ≠ i → (bucket.insert i ∅).lookup n = bucketOf received n := by
  have hrecent : (bucket.touch i ∅).keys.Pairwise (Near L e) :=
    pairwise_touch h.recent (h.near hahead hi hi')
  have hsurvives : ∀ n v, L * e ≤ n → (bucket.touch i ∅).lookup n = some v →
      (bucket.touch i ∅).prune.lookup n = some v := by
    intro n v hn hv
    refine lookup_prune_of_recent hrecent hv (fun j hj => hj.mem hn) ?_
    calc (Finset.Ico (L * (n / L) - L) (L * (n / L + 2))).card ≤ 3 * L := card_near n
      _ < 64 := hL
      _ = (bucket.touch i ∅).maxSize := h.maxSize.symm
  rw [LRUCache.insert, hnew, if_neg Bool.false_ne_true]
  refine ⟨hsurvives i ∅ hi (lookup_touch_self bucket i ∅), fun n hn hne => ?_⟩
  have hold : (bucket.touch i ∅).lookup n = bucketOf received n := by
    rw [lookup_touch_of_ne hne, h.content n hn]
  cases hb : bucketOf received n with
  | none => exact lookup_prune_eq_none (hold.trans hb)
  | some v => exact hsurvives n v hn (hold.trans hb)

theorem bucketOf_self {g : Fin G} : bucketOf (update received g (received g + 1))
    (received g) = some (insert (g : Nat) (chainsWith received (received g))) := by
  have hchains : chainsWith (update received g (received g + 1)) (received g) =
      insert (g : Nat) (chainsWith received (received g)) := by
    ext c
    simp only [chainsWith, mem_image, mem_filter, mem_univ, true_and, mem_insert]
    constructor
    · rintro ⟨g', hg', rfl⟩
      by_cases heq : g' = g
      · exact Or.inl (congrArg Fin.val heq)
      · rw [update_of_ne heq] at hg'
        exact Or.inr ⟨g', hg', rfl⟩
    · rintro (rfl | ⟨g', hg', rfl⟩)
      · exact ⟨g, by simp, rfl⟩
      · refine ⟨g', ?_, rfl⟩
        have hne : g' ≠ g := by
          rintro rfl
          exact lt_irrefl _ hg'
        rwa [update_of_ne hne]
  rw [bucketOf, hchains, if_neg (insert_ne_empty _ _)]

theorem bucketOf_of_ne {g : Fin G} {n : Nat} (hne : n ≠ received g) :
    bucketOf (update received g (received g + 1)) n = bucketOf received n := by
  have hchains : chainsWith (update received g (received g + 1)) n = chainsWith received n := by
    rw [chainsWith, chainsWith]
    congr 1
    apply filter_congr
    intro g' _
    by_cases heq : g' = g
    · subst heq
      rw [update_self]
      omega
    · rw [update_of_ne heq]
  rw [bucketOf, bucketOf, hchains]

/-- The bucket that a block of number `i` goes to, in front of the others. -/
structure Opened (L : Nat) (received : Fin G → Nat) (e i : Nat)
    (bucket : LRUCache Nat (Finset Nat)) : Prop where
  maxSize : bucket.maxSize = 64
  here : bucket.lookup i = some (chainsWith received i)
  others : ∀ n, L * e ≤ n → n ≠ i → bucket.lookup n = bucketOf received n
  recent : bucket.keys.Pairwise (Near L e)
  near : ∀ j ∈ bucket.keys, Near L e i j

theorem Holds.opened (hL : 3 * L < 64) (h : Holds L received e bucket)
    (hahead : ∀ g, received g ≤ L * (e + 2)) {i : Nat} (hi : L * e ≤ i) (hi' : i < L * (e + 2)) :
    Opened L received e i (if !bucket.contains i then bucket.insert i ∅ else bucket) := by
  have hnear := h.near hahead hi hi'
  cases hb : bucketOf received i with
  | some v =>
    have hthere : bucket.contains i = true := by
      rw [contains_eq_isSome, h.content i hi, hb, Option.isSome_some]
    rw [hthere, Bool.not_true, if_neg Bool.false_ne_true]
    refine ⟨h.maxSize, ?_, fun n hn _ => h.content n hn, h.recent, hnear⟩
    rw [h.content i hi, hb, (bucketOf_eq_some hb).1]
  | none =>
    have hnew : bucket.contains i = false := by
      rw [contains_eq_isSome, h.content i hi, hb, Option.isSome_none]
    have hempty : chainsWith received i = ∅ := by
      by_contra hne
      rw [bucketOf, if_neg hne] at hb
      cases hb
    obtain ⟨hhere, hothers⟩ := h.lookup_insert hL hahead hi hi' hnew
    rw [hnew, Bool.not_false, if_pos rfl]
    refine ⟨?_, ?_, hothers, pairwise_insert h.recent hnear, fun j hj => ?_⟩
    · rw [insert_maxSize, h.maxSize]
    · rw [hhere, hempty]
    · rcases mem_keys_of_insert hj with rfl | hj
      · exact near_of_lt hi hi' hi'
      · exact hnear j hj

/-- **The block of group `g` is entered** in its bucket. -/
theorem Opened.enter {g : Fin G} (h : Opened L received e (received g) bucket) :
    ∃ value bucket', bucket.getRef (received g) = .ok (value, bucket') ∧
      Holds L (update received g (received g + 1)) e
        (bucket'.touch (received g) (insert (g : Nat) value)) := by
  refine ⟨_, _, getRef_eq_ok.mpr ⟨_, h.here, rfl⟩, h.maxSize, fun n hn => ?_, ?_⟩
  · by_cases hne : n = received g
    · rw [hne, lookup_touch_self, bucketOf_self]
    · rw [lookup_touch_of_ne hne, lookup_touch_of_ne hne, h.others n hn hne,
        bucketOf_of_ne hne]
  · refine pairwise_touch (pairwise_touch h.recent h.near) fun j hj => ?_
    rcases mem_keys_touch.mp hj with rfl | hj
    · exact h.near _ (mem_keys_of_lookup h.here)
    · exact h.near j hj

/-! ### Checking an epoch -/

include h hahead in
/-- One bucket of the check: it is not there, or it is read and moves to the front. -/
theorem Holds.read {i : Nat} (hi : L * e ≤ i) (hi' : i < L * (e + 2)) :
    (bucket.contains i = false ∧ ∀ g, received g ≤ i) ∨
      (bucket.contains i = true ∧ ∃ bucket',
        bucket.getRef i = .ok (chainsWith received i, bucket') ∧ Holds L received e bucket') := by
  have hlookup := h.content i hi
  rw [contains_eq_isSome, hlookup]
  by_cases hempty : chainsWith received i = ∅
  · left
    rw [bucketOf, if_pos hempty]
    exact ⟨rfl, chainsWith_eq_empty.mp hempty⟩
  · right
    rw [bucketOf, if_neg hempty] at hlookup ⊢
    exact ⟨rfl, _, getRef_eq_ok.mpr ⟨_, hlookup, rfl⟩, h.touch hahead hi hi' hlookup⟩

/-- The check reads the buckets only, and finds out whether every block has come. -/
theorem Holds.checkBlocks (g₀ : Fin G) (hahead : ∀ g, received g ≤ L * (e + 2)) {is : List Nat}
    (his : ∀ i ∈ is, L * e ≤ i ∧ i < L * (e + 2)) (h : Holds L received e bucket) :
    ∃ finished bucket', EpochManager.checkBlocks G is bucket = .ok (finished, bucket') ∧
      Holds L received e bucket' ∧ (finished = true ↔ ∀ i ∈ is, ∀ g, i < received g) := by
  induction is generalizing bucket with
  | nil => exact ⟨true, bucket, rfl, h, by simp⟩
  | cons i is ih =>
    obtain ⟨hi, hi'⟩ := his i List.mem_cons_self
    have hmissing : ∀ g, received g ≤ i → (false = true ↔ ∀ j ∈ i :: is, ∀ g, j < received g) := by
      intro g hg
      simp only [Bool.false_eq_true, false_iff]
      intro hall
      exact absurd (hall i List.mem_cons_self g) (not_lt.mpr hg)
    rw [EpochManager.checkBlocks]
    rcases h.read hahead hi hi' with ⟨hcontains, hnone⟩ | ⟨hcontains, bucket', hget, htouched⟩
    · rw [hcontains, Bool.not_false, if_pos rfl]
      exact ⟨false, bucket, rfl, h, hmissing g₀ (hnone g₀)⟩
    · rw [hcontains, Bool.not_true, if_neg Bool.false_ne_true, hget]
      dsimp only
      by_cases hfull : (chainsWith received i).card < G
      · obtain ⟨g, hg⟩ := card_chainsWith.mp hfull
        rw [if_pos hfull]
        exact ⟨false, bucket', rfl, htouched, hmissing g hg⟩
      · have hi_all : ∀ g, i < received g := by
          intro g
          by_contra hg
          exact hfull (card_chainsWith.mpr ⟨g, not_lt.mp hg⟩)
        rw [if_neg hfull]
        obtain ⟨finished, bucket'', hcheck, hholds, hiff⟩ :=
          ih (fun j hj => his j (List.mem_cons_of_mem i hj)) htouched
        refine ⟨finished, bucket'', hcheck, hholds, ?_⟩
        rw [hiff, List.forall_mem_cons]
        exact ⟨fun hall => ⟨hi_all, hall⟩, fun hall => hall.2⟩

end

/-! ## The manager -/

section

variable {G L : Nat} {received : Fin G → Nat} {m : EpochManager}

/-- The state of a manager after `received g` blocks from every group `g`. -/
structure View (L : Nat) (received : Fin G → Nat) (m : EpochManager) : Prop where
  epochLength : m.epochLength = L
  groupCount : m.groupCount = G
  complete : ∀ g, L * m.currentEpoch ≤ received g
  ahead : ∀ g, received g ≤ L * (m.currentEpoch + 2)
  holds : Holds L received m.currentEpoch m.bucket

/-- The current epoch is the first that is not complete. -/
def Waiting (L : Nat) (received : Fin G → Nat) (m : EpochManager) : Prop :=
  0 < L → ∃ g, received g < L * (m.currentEpoch + 1)

theorem view_new (L G : Nat) : View L (fun _ : Fin G => 0) (.new L G) where
  epochLength := rfl
  groupCount := rfl
  complete _ := le_of_eq (Nat.mul_zero L)
  ahead _ := Nat.zero_le _
  holds :=
    { maxSize := rfl
      content := fun n _ => by
        rw [bucketOf, if_pos (chainsWith_eq_empty.mpr fun _ => Nat.zero_le n)]
        rfl
      recent := List.Pairwise.nil }

theorem waiting_new (g : Fin G) : Waiting L (fun _ : Fin G => 0) (.new L G) :=
  fun hL => ⟨g, by simpa [EpochManager.new] using hL⟩

/-- All numbers of an epoch are below a count exactly if its end is. -/
theorem forall_range'_lt_iff {e r : Nat} (he : L * e ≤ r) :
    (∀ i ∈ List.range' (L * e) L, i < r) ↔ L * (e + 1) ≤ r := by
  have hend : L * (e + 1) = L * e + L := by ring
  simp only [List.mem_range'_1, hend]
  constructor
  · intro h
    by_contra hlt
    exact absurd (h (L * e + L - 1) (by omega)) (by omega)
  · intro h i hi
    omega

/-- `checkEpoch` of the current epoch answers whether it is complete. -/
theorem View.checkEpoch (g₀ : Fin G) (h : View L received m) :
    ∃ finished bucket, m.checkEpoch m.currentEpoch = .ok (finished, bucket) ∧
      Holds L received m.currentEpoch bucket ∧
      (finished = true ↔ ∀ g, L * (m.currentEpoch + 1) ≤ received g) := by
  have hrange : ∀ i ∈ List.range' (L * m.currentEpoch) L,
      L * m.currentEpoch ≤ i ∧ i < L * (m.currentEpoch + 2) := by
    intro i hi
    have hend : L * (m.currentEpoch + 2) = L * m.currentEpoch + L + L := by ring
    rw [List.mem_range'_1] at hi
    omega
  obtain ⟨finished, bucket, hcheck, hholds, hiff⟩ := h.holds.checkBlocks g₀ h.ahead hrange
  refine ⟨finished, bucket, ?_, hholds, ?_⟩
  · rw [EpochManager.checkEpoch, h.epochLength, h.groupCount, hcheck]
  · rw [hiff]
    constructor
    · intro hall g
      exact (forall_range'_lt_iff (h.complete g)).mp fun i hi => hall i hi g
    · intro hall i hi g
      exact (forall_range'_lt_iff (h.complete g)).mpr (hall g) i hi

/-- What holds before every round of the loop. -/
def Checking (L : Nat) (received : Fin G → Nat) (s : EpochManager × Bool) : Prop :=
  View L received s.1 ∧ (s.2 = false → Waiting L received s.1)

theorem Checking.start (h : View L received m) : Checking L received (m, true) :=
  ⟨h, fun hfalse => Bool.noConfusion hfalse⟩

/-- **One round**: a complete epoch is left, an incomplete one ends the loop. -/
theorem Checking.round (g₀ : Fin G) (h : View L received m) :
    ∃ s', EpochManager.checkRound (m, true) = .ok (some s') ∧ Checking L received s' ∧
      (s'.2 = true → s'.1.currentEpoch = m.currentEpoch + 1) := by
  obtain ⟨finished, bucket, hcheck, hholds, hiff⟩ := h.checkEpoch g₀
  rw [EpochManager.checkRound, hcheck]
  cases finished with
  | true =>
    have hall := hiff.mp rfl
    refine ⟨_, rfl, ⟨?_, fun hfalse => nomatch hfalse⟩, fun _ => rfl⟩
    have hstart : L * m.currentEpoch ≤ L * (m.currentEpoch + 1) :=
      Nat.mul_le_mul_left L (Nat.le_succ _)
    refine ⟨h.epochLength, h.groupCount, hall, fun g => ?_, hholds.maxSize, fun n hn => ?_, ?_⟩
    · exact (h.ahead g).trans (Nat.mul_le_mul_left L (Nat.le_succ _))
    · exact hholds.content n (hstart.trans hn)
    · exact hholds.recent.imp fun hnear hle => hnear (hstart.trans hle)
  | false =>
    refine ⟨_, rfl, ⟨⟨h.epochLength, h.groupCount, h.complete, h.ahead, hholds⟩, fun _ _ => ?_⟩,
      fun htrue => nomatch htrue⟩
    by_contra hnone
    push Not at hnone
    exact Bool.false_ne_true (hiff.mpr hnone)

theorem Checking.next (g₀ : Fin G) {s s' : EpochManager × Bool} (hs : Checking L received s)
    (hround : EpochManager.checkRound s = .ok (some s')) :
    s.2 = true ∧ Checking L received s' ∧
      (s'.2 = true → s'.1.currentEpoch = s.1.currentEpoch + 1) := by
  obtain ⟨m, flag⟩ := s
  cases flag with
  | false => cases hround
  | true =>
    obtain ⟨s₁, hround₁, hs₁, hepoch⟩ := round g₀ hs.1
    rw [hround₁] at hround
    cases hround
    exact ⟨rfl, hs₁, hepoch⟩

/-- The loop is left in a view whose current epoch is not complete. -/
theorem Checking.of_loop (g₀ : Fin G) {s t : EpochManager × Bool} (hs : Checking L received s)
    {n : Nat} (h : loop EpochManager.checkRound n s = .done t) :
    View L received t.1 ∧ Waiting L received t.1 := by
  obtain ⟨ht, hleave⟩ := loop_invariant (fun s s' hs h => (next g₀ hs h).2.1) hs h
  obtain ⟨m, flag⟩ := t
  cases flag with
  | false => exact ⟨ht.1, ht.2 rfl⟩
  | true =>
    obtain ⟨s₁, hround₁, -⟩ := round g₀ ht.1
    rw [hround₁] at hleave
    cases hleave

/-- **The loop ends**: epochs that hold a block cannot all be complete. -/
theorem Checking.loop_done (hL : 0 < L) (g₀ : Fin G) {s : EpochManager × Bool}
    (hs : Checking L received s) : ∃ n t, loop EpochManager.checkRound n s = .done t := by
  have hbound : ∀ {s : EpochManager × Bool}, Checking L received s →
      s.1.currentEpoch ≤ received g₀ := fun hs =>
    (Nat.le_mul_of_pos_left _ hL).trans (hs.1.complete g₀)
  have hsafe : ∀ s, Checking L received s → ∃ next, EpochManager.checkRound s = .ok next := by
    rintro ⟨m, flag⟩ hs
    cases flag with
    | false => exact ⟨none, rfl⟩
    | true =>
      obtain ⟨s₁, hround₁, -⟩ := round g₀ hs.1
      exact ⟨some s₁, hround₁⟩
  let variant := fun s : EpochManager × Bool =>
    if s.2 then received g₀ + 2 - s.1.currentEpoch else 0
  have hdrop : ∀ s s', Checking L received s → EpochManager.checkRound s = .ok (some s') →
      Checking L received s' ∧ variant s' < variant s := by
    intro s s' hs h
    obtain ⟨hflag, hs', hepoch⟩ := next g₀ hs h
    have hle := hbound hs
    refine ⟨hs', ?_⟩
    simp only [variant, hflag, if_true]
    split_ifs with hflag'
    · rw [hepoch hflag']
      omega
    · omega
  obtain ⟨n, t, hloop, -⟩ := loop_done_of_variant variant hsafe hdrop hs
  exact ⟨n, t, hloop⟩

section

variable (hL : 3 * L < 64) (h : View L received m) {g : Fin G}
  (hnext : received g < L * (m.currentEpoch + 2))
include hL h hnext

/-- The block is entered before the epochs are checked. -/
theorem View.entered :
    ∃ bucket, View L (update received g (received g + 1)) { m with bucket := bucket } ∧
      ∀ n, m.receivedBlock n g (received g) =
        (loop EpochManager.checkRound n ({ m with bucket := bucket }, true)).bind
          fun s => .done s.1 := by
  obtain ⟨value, bucket, hget, hholds⟩ := (h.holds.opened hL h.ahead (h.complete g) hnext).enter
  refine ⟨bucket.touch (received g) (insert (g : Nat) value),
    ⟨h.epochLength, h.groupCount, ?_, ?_, hholds⟩, fun n => ?_⟩
  · exact (forall_update_iff received fun _ r => L * m.currentEpoch ≤ r).mpr
      ⟨(h.complete g).trans (Nat.le_succ _), fun g' _ => h.complete g'⟩
  · exact (forall_update_iff received fun _ r => r ≤ L * (m.currentEpoch + 2)).mpr
      ⟨hnext, fun g' _ => h.ahead g'⟩
  · rw [EpochManager.receivedBlock]
    dsimp only
    rw [hget]

/-- **`receivedBlock` keeps the view**: the next block of a group, from no further ahead than the
next epoch. -/
theorem View.receivedBlock {n : Nat} {m' : EpochManager}
    (hcall : m.receivedBlock n g (received g) = .done m') :
    View L (update received g (received g + 1)) m' ∧
      Waiting L (update received g (received g + 1)) m' := by
  obtain ⟨bucket, hview, hloop⟩ := h.entered hL hnext
  rw [hloop] at hcall
  obtain ⟨t, ht, hm'⟩ := Outcome.bind_eq_done hcall
  cases hm'
  exact Checking.of_loop g (Checking.start hview) ht

theorem View.receivedBlock_returns :
    ∃ n m', m.receivedBlock n g (received g) = .done m' := by
  obtain ⟨bucket, hview, hloop⟩ := h.entered hL hnext
  have hpos : 0 < L := Nat.pos_of_ne_zero fun hzero => by simp [hzero] at hnext
  obtain ⟨n, t, ht⟩ := Checking.loop_done hpos g (Checking.start hview)
  exact ⟨n, t.1, by rw [hloop, ht, Outcome.bind_done]⟩

end

end

end MassBFT.Order.Iss
