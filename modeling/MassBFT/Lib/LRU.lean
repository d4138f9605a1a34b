import Mathlib.Data.Finset.Card
import Mathlib.Data.List.AList

/-!
# Caches that drop the least recently used

The entries of an `LRUCache` stand in the order of their use, the latest in front. A cache grows
over its `maxSize` by less than `elasticity`; the insertion that reaches the bound cuts it back to
`maxSize` entries, from the back.

What a key has in front of it decides whether it survives. An order of use is followed as a
relation `R` that holds between every key and those behind it: moving a key to the front has to
establish `R` for that key only (`pairwise_touch`), dropping entries nothing at all, and **a key
with fewer than `maxSize` keys related to it is never dropped** (`lookup_prune_of_recent`).
-/

set_option autoImplicit false

namespace MassBFT

open List

/-- Entries in the order of their use, the latest in front; the index of the keys is the list. -/
structure LRUCache (K V : Type) where
  maxSize : Nat
  elasticity : Nat
  entries : AList fun _ : K => V

/-- `get` of a key that is not in the cache. -/
inductive KeyNotFound where
  | keyNotFound
  deriving DecidableEq, Repr

namespace LRUCache

variable {K V : Type}

/-- The empty cache. -/
def new (maxSize elasticity : Nat) : LRUCache K V := ⟨maxSize, elasticity, ∅⟩

/-- The keys, the latest in front. -/
def keys (c : LRUCache K V) : List K := c.entries.keys

/-- `while (size > maxSize) pop_back();` -/
def popBack {α : Type} (maxSize : Nat) (l : List α) : List α := List.dropLast^[l.length - maxSize] l

theorem iterate_dropLast {α : Type} (k : Nat) (l : List α) :
    List.dropLast^[k] l = l.take (l.length - k) := by
  induction k generalizing l with
  | zero => simp
  | succ k ih =>
    rw [Function.iterate_succ_apply, ih, dropLast_eq_take, take_take, length_take]
    congr 1
    omega

theorem popBack_eq_take {α : Type} (maxSize : Nat) (l : List α) :
    popBack maxSize l = l.take maxSize := by
  rw [popBack, iterate_dropLast]
  by_cases h : maxSize ≤ l.length
  · rw [Nat.sub_sub_self h]
  · have hnone : l.length - maxSize = 0 := by omega
    rw [hnone, Nat.sub_zero, take_of_length_le le_rfl, take_of_length_le (by omega)]

/-- Cuts a cache that has reached its bound back to `maxSize`; a `maxSize` of 0 is no bound. -/
def prune (c : LRUCache K V) : LRUCache K V :=
  if c.maxSize = 0 ∨ c.entries.entries.length < c.maxSize + c.elasticity then c
  else
    { c with
      entries :=
        { entries := popBack c.maxSize c.entries.entries
          nodupKeys := by
            rw [popBack_eq_take]
            exact c.entries.nodupKeys.sublist (take_sublist _ _) } }

section

variable [DecidableEq K]

def contains (c : LRUCache K V) (k : K) : Bool := decide (k ∈ c.entries)

def lookup (c : LRUCache K V) (k : K) : Option V := c.entries.lookup k

/-- The entry of `k` moves to the front, with the value `v`. -/
def touch (c : LRUCache K V) (k : K) (v : V) : LRUCache K V :=
  { c with entries := c.entries.insert k v }

/-- A key that is there gets the new value and no entry is dropped. -/
def insert (c : LRUCache K V) (k : K) (v : V) : LRUCache K V :=
  if c.contains k then c.touch k v else (c.touch k v).prune

/-- A use of `k`: its value, and the cache with its entry in front. -/
def getRef (c : LRUCache K V) (k : K) : Except KeyNotFound (V × LRUCache K V) :=
  match c.lookup k with
  | none => .error .keyNotFound
  | some v => .ok (v, c.touch k v)

end

/-! ## What the operations leave -/

theorem prune_maxSize (c : LRUCache K V) : c.prune.maxSize = c.maxSize := by
  rw [prune]
  split_ifs
  · rfl
  · rfl

theorem prune_sublist (c : LRUCache K V) : c.prune.entries.entries.Sublist c.entries.entries := by
  rw [prune]
  split_ifs
  · exact Sublist.refl _
  · dsimp only
    rw [popBack_eq_take]
    exact take_sublist _ _

theorem keys_prune_sublist (c : LRUCache K V) : c.prune.keys.Sublist c.keys :=
  c.prune_sublist.map Sigma.fst

section

variable [DecidableEq K] {c : LRUCache K V} {k j : K} {v : V} {R : K → K → Prop}

theorem lookup_eq_none : c.lookup k = none ↔ k ∉ c.keys := AList.lookup_eq_none

theorem mem_keys_of_lookup (h : c.lookup k = some v) : k ∈ c.keys := by
  by_contra hk
  rw [lookup_eq_none.mpr hk] at h
  cases h

theorem contains_eq_isSome (c : LRUCache K V) (k : K) : c.contains k = (c.lookup k).isSome := by
  rw [Bool.eq_iff_iff, contains, decide_eq_true_eq, lookup, AList.lookup_isSome]

@[simp] theorem lookup_touch_self (c : LRUCache K V) (k : K) (v : V) :
    (c.touch k v).lookup k = some v :=
  AList.lookup_insert c.entries

theorem lookup_touch_of_ne (h : j ≠ k) : (c.touch k v).lookup j = c.lookup j :=
  AList.lookup_insert_ne h

/-- A use does not change what is stored. -/
theorem lookup_touch_of_lookup (h : c.lookup k = some v) (j : K) :
    (c.touch k v).lookup j = c.lookup j := by
  by_cases hj : j = k
  · subst hj
    rw [lookup_touch_self, h]
  · exact lookup_touch_of_ne hj

theorem keys_touch (c : LRUCache K V) (k : K) (v : V) :
    (c.touch k v).keys = k :: c.keys.erase k :=
  AList.keys_insert c.entries

theorem mem_keys_touch : j ∈ (c.touch k v).keys ↔ j = k ∨ j ∈ c.keys := AList.mem_insert c.entries

theorem mem_keys_of_insert (h : j ∈ (c.insert k v).keys) : j = k ∨ j ∈ c.keys := by
  rw [insert] at h
  split_ifs at h
  · exact mem_keys_touch.mp h
  · exact mem_keys_touch.mp ((c.touch k v).keys_prune_sublist.subset h)

theorem insert_maxSize (c : LRUCache K V) (k : K) (v : V) : (c.insert k v).maxSize = c.maxSize := by
  rw [insert]
  split_ifs
  · rfl
  · exact prune_maxSize _

theorem getRef_eq_ok {r : V × LRUCache K V} :
    c.getRef k = .ok r ↔ ∃ v, c.lookup k = some v ∧ r = (v, c.touch k v) := by
  rw [getRef]
  cases hk : c.lookup k with
  | none => simp
  | some v => simp [eq_comm]

/-- **The order of use**: a key in front has to be related to the other keys only. -/
theorem pairwise_touch (h : c.keys.Pairwise R) (hk : ∀ j ∈ c.keys, R k j) :
    (c.touch k v).keys.Pairwise R := by
  rw [keys_touch, pairwise_cons]
  refine ⟨fun j hj => hk j (mem_of_mem_erase hj), ?_⟩
  exact h.sublist erase_sublist

theorem pairwise_insert (h : c.keys.Pairwise R) (hk : ∀ j ∈ c.keys, R k j) :
    (c.insert k v).keys.Pairwise R := by
  rw [insert]
  split_ifs
  · exact pairwise_touch h hk
  · exact (pairwise_touch h hk).sublist (keys_prune_sublist _)

theorem lookup_prune_eq_none (h : c.lookup k = none) : c.prune.lookup k = none := by
  rw [lookup_eq_none] at h ⊢
  exact fun hk => h (c.keys_prune_sublist.subset hk)

/-- **A recently used key survives**: only related keys stand in front of it, and these are
fewer than the cache keeps. -/
theorem lookup_prune_of_recent (hR : c.keys.Pairwise R)
    (hk : c.lookup k = some v) {S : Finset K} (hS : ∀ j, R j k → j ∈ S)
    (hcard : S.card < c.maxSize) : c.prune.lookup k = some v := by
  have hmem : (⟨k, v⟩ : Sigma fun _ : K => V) ∈ c.entries.entries := AList.mem_lookup_iff.mp hk
  refine AList.mem_lookup_iff.mpr ?_
  rw [prune]
  split_ifs
  · exact hmem
  · dsimp only
    rw [popBack_eq_take]
    obtain ⟨front, back, hsplit⟩ := append_of_mem hmem
    have hkeys : c.keys = front.map Sigma.fst ++ k :: back.map Sigma.fst := by
      rw [keys, AList.keys, List.keys, hsplit, map_append, map_cons]
    have hnodup : (front.map Sigma.fst).Nodup := by
      have hall : c.keys.Nodup := c.entries.keys_nodup
      rw [hkeys] at hall
      exact hall.of_append_left
    have hrelated : ∀ j ∈ front.map Sigma.fst, j ∈ S := by
      intro j hj
      rw [hkeys, pairwise_append] at hR
      exact hS j (hR.2.2 j hj k mem_cons_self)
    have hfew : front.length ≤ S.card := by
      have hle := Finset.card_le_card (fun j hj => hrelated j (mem_toFinset.mp hj) :
        (front.map Sigma.fst).toFinset ⊆ S)
      rwa [toFinset_card_of_nodup hnodup, length_map] at hle
    rw [hsplit, take_append]
    apply mem_append_right
    rw [mem_take_iff_getElem]
    exact ⟨0, by simp; omega, rfl⟩

end

end LRUCache

end MassBFT
