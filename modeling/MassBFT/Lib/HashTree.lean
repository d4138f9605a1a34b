import Mathlib.Data.List.Basic
import Mathlib.Data.Nat.Log
import Mathlib.Tactic.Common
import Mathlib.Tactic.Ring

/-!
# Hash trees over padded levels

The leaves form the lowest level; a level of odd length repeats its last entry, and the
level above holds the hashes of neighbouring pairs. A proof for a leaf is a number
whose bits say on which side the climber stands, and the siblings met on the way.

* `climb_siblings` — **climbing from a leaf with the siblings of the tree arrives at the
  tree's own node above it**, at every height;
* `climb_inj` — two climbs with one path that end alike started alike and met the same
  siblings, as long as the pairs they hashed do not collide;
* `isPrefix_leaves_top` — the tree over a list of leaves, before any hashing, still has the
  list in front of its leaves; what follows is padding.
-/

set_option autoImplicit false

namespace MassBFT.HashTree

open List

variable {H : Type} (node : H → H → H)

/-! ## Climbing -/

/-- Climb from `h`: a set bit says that the climber is the left of the pair. -/
def climb : Nat → List H → H → H
  | _, [], h => h
  | path, s :: sibs, h => climb (path / 2) sibs (if path % 2 = 1 then node h s else node s h)

/-- The pairs that a climb hashes, in order. -/
def pairs : Nat → List H → H → List (H × H)
  | _, [], _ => []
  | path, s :: sibs, h =>
    (if path % 2 = 1 then (h, s) else (s, h)) ::
      pairs (path / 2) sibs (if path % 2 = 1 then node h s else node s h)

variable {node}

theorem div_two_div (path n : Nat) : path / 2 / 2 ^ n = path / 2 ^ (n + 1) := by
  rw [Nat.div_div_eq_div_mul, pow_succ']

theorem climb_concat (path : Nat) (sibs : List H) (s h : H) :
    climb node path (sibs ++ [s]) h =
      if path / 2 ^ sibs.length % 2 = 1 then node (climb node path sibs h) s
      else node s (climb node path sibs h) := by
  induction sibs generalizing path h with
  | nil => simp [climb]
  | cons x sibs ih =>
    rw [cons_append, climb, ih, div_two_div, length_cons]
    rfl

theorem pairs_concat (path : Nat) (sibs : List H) (s h : H) :
    pairs node path (sibs ++ [s]) h = pairs node path sibs h ++
      [if path / 2 ^ sibs.length % 2 = 1 then (climb node path sibs h, s)
        else (s, climb node path sibs h)] := by
  induction sibs generalizing path h with
  | nil => simp [climb, pairs]
  | cons x sibs ih =>
    rw [cons_append, pairs, ih, div_two_div, length_cons]
    rfl

/-- The last pair of a climb is the top of it, on either side. -/
theorem climb_concat_pair (path : Nat) (sibs : List H) (s h : H) :
    ∃ a b, (a, b) ∈ pairs node path (sibs ++ [s]) h ∧ climb node path (sibs ++ [s]) h = node a b ∧
      (climb node path sibs h = a ∨ climb node path sibs h = b) := by
  rw [pairs_concat, climb_concat]
  split_ifs
  · exact ⟨_, _, mem_append_right _ (mem_singleton_self _), rfl, .inl rfl⟩
  · exact ⟨_, _, mem_append_right _ (mem_singleton_self _), rfl, .inr rfl⟩

theorem add_mul_two_pow (path a d : Nat) : (path + a * 2 ^ (d + 1)) % 2 = path % 2 ∧
    (path + a * 2 ^ (d + 1)) / 2 = path / 2 + a * 2 ^ d := by
  have hsplit : path + a * 2 ^ (d + 1) = path + 2 * (a * 2 ^ d) := by ring
  omega

/-- A climb of `d` steps looks at the `d` lowest bits of its path. -/
theorem climb_add_mul (path a : Nat) (sibs : List H) (h : H) :
    climb node (path + a * 2 ^ sibs.length) sibs h = climb node path sibs h := by
  induction sibs generalizing path h with
  | nil => rfl
  | cons x sibs ih =>
    obtain ⟨hmod, hdiv⟩ := add_mul_two_pow path a sibs.length
    rw [length_cons, climb, climb, hmod, hdiv, ih]

theorem pairs_add_mul (path a : Nat) (sibs : List H) (h : H) :
    pairs node (path + a * 2 ^ sibs.length) sibs h = pairs node path sibs h := by
  induction sibs generalizing path h with
  | nil => rfl
  | cons x sibs ih =>
    obtain ⟨hmod, hdiv⟩ := add_mul_two_pow path a sibs.length
    rw [length_cons, pairs, pairs, hmod, hdiv, ih]

/-- **A root binds the leaf and the siblings**, for one path and one length. -/
theorem climb_inj {path : Nat} {sibs sibs' : List H} {h h' : H} (hlen : sibs.length = sibs'.length)
    (hfree : ∀ p ∈ pairs node path sibs h, ∀ q ∈ pairs node path sibs' h',
      node p.1 p.2 = node q.1 q.2 → p = q)
    (heq : climb node path sibs h = climb node path sibs' h') : h = h' ∧ sibs = sibs' := by
  induction sibs generalizing path sibs' h h' with
  | nil =>
    obtain rfl : sibs' = [] := length_eq_zero_iff.mp hlen.symm
    exact ⟨heq, rfl⟩
  | cons s sibs ih =>
    obtain _ | ⟨s', sibs'⟩ := sibs'
    · cases hlen
    -- above the first pair the two climbs agree, so its two hashes are equal
    obtain ⟨hnode, rfl⟩ := ih (Nat.succ.inj hlen)
      (fun p hp q hq => hfree p (mem_cons_of_mem _ hp) q (mem_cons_of_mem _ hq)) heq
    have hpair := hfree _ mem_cons_self _ mem_cons_self
    by_cases hbit : path % 2 = 1
    · simp only [hbit, ↓reduceIte, Prod.mk.injEq] at hpair hnode
      obtain ⟨rfl, rfl⟩ := hpair hnode
      exact ⟨rfl, rfl⟩
    · simp only [hbit, ↓reduceIte, Prod.mk.injEq] at hpair hnode
      obtain ⟨rfl, rfl⟩ := hpair hnode
      exact ⟨rfl, rfl⟩

/-! ## The levels of a tree -/

/-- A level of odd length repeats its last entry. -/
def padded (l : List H) : List H := if l.length % 2 = 1 then l ++ l.getLast?.toList else l

variable (node) in
/-- The hashes of the neighbouring pairs of a level. -/
def parents : List H → List H
  | a :: b :: rest => node a b :: parents rest
  | [_] => []
  | [] => []

variable (node) in
/-- The padded level at height `k`. -/
def level (leaves : List H) : Nat → List H
  | 0 => padded leaves
  | k + 1 => padded (parents node (level leaves k))

theorem length_padded (l : List H) : (padded l).length = l.length + l.length % 2 := by
  unfold padded
  split_ifs with hodd
  · cases hl : l.getLast? with
    | none => simp [getLast?_eq_none_iff.mp hl] at hodd
    | some x => simp [hodd]
  · omega

theorem getElem?_padded {l : List H} {i : Nat} {x : H} (h : l[i]? = some x) :
    (padded l)[i]? = some x := by
  obtain ⟨hlt, _⟩ := List.getElem?_eq_some_iff.mp h
  unfold padded
  split_ifs
  · rw [getElem?_append_left hlt, h]
  · exact h

theorem length_parents (l : List H) : (parents node l).length = l.length / 2 := by
  induction l using parents.induct with
  | case1 a b rest ih => simp [parents, ih]; omega
  | case2 a => simp [parents]
  | case3 => simp [parents]

theorem getElem?_parents {l : List H} {i : Nat} {a b : H} (ha : l[2 * i]? = some a)
    (hb : l[2 * i + 1]? = some b) : (parents node l)[i]? = some (node a b) := by
  induction l using parents.induct generalizing i with
  | case1 x y rest ih =>
    cases i with
    | zero =>
      simp only [Nat.mul_zero, getElem?_cons_zero, Option.some.injEq, Nat.zero_add,
        getElem?_cons_succ] at ha hb
      simp [parents, ha, hb]
    | succ i =>
      rw [parents, getElem?_cons_succ]
      apply ih
      · rw [← ha, show 2 * (i + 1) = 2 * i + 1 + 1 by ring]
        rfl
      · rw [← hb, show 2 * (i + 1) + 1 = 2 * i + 1 + 1 + 1 by ring]
        rfl
  | case2 x => simp at hb
  | case3 => simp at ha

theorem even_length_level (leaves : List H) (k : Nat) : (level node leaves k).length % 2 = 0 := by
  cases k with
  | zero => rw [level, length_padded]; omega
  | succ k => rw [level, length_padded]; omega

/-- Above every leaf there is a node at every height. -/
theorem lt_length_level {leaves : List H} {i : Nat} (hi : i < leaves.length) (k : Nat) :
    i / 2 ^ k < (level node leaves k).length := by
  induction k with
  | zero => rw [level, length_padded]; simp; omega
  | succ k ih =>
    have heven := @even_length_level H node leaves k
    rw [level, length_padded, length_parents, pow_succ, ← Nat.div_div_eq_div_mul]
    omega

/-- Every `2 ^ (k + 1)` leaves need two entries at height `k`. -/
theorem length_level_le {leaves : List H} {k m : Nat} (h : leaves.length ≤ 2 ^ (k + 1) * m) :
    (level node leaves k).length ≤ 2 * m := by
  induction k generalizing m with
  | zero =>
    rw [level, length_padded]
    omega
  | succ k ih =>
    have hbelow : (level node leaves k).length ≤ 2 * (2 * m) := by
      apply ih
      rw [show 2 ^ (k + 1) * (2 * m) = 2 ^ (k + 1 + 1) * m by ring]
      exact h
    rw [level, length_padded, length_parents]
    omega

/-! ## Levels under a map -/

section

variable {H' : Type} {node' : H' → H' → H'} {f : H → H'}

theorem padded_map (f : H → H') (l : List H) : padded (l.map f) = (padded l).map f := by
  unfold padded
  rw [length_map]
  split_ifs
  · rw [map_append, getLast?_map]
    cases l.getLast? with
    | none => rfl
    | some x => rfl
  · rfl

theorem parents_map (hf : ∀ a b, f (node a b) = node' (f a) (f b)) (l : List H) :
    parents node' (l.map f) = (parents node l).map f := by
  induction l using parents.induct with
  | case1 a b rest ih =>
    simp only [map_cons, parents, hf]
    rw [ih]
  | case2 a => rfl
  | case3 => rfl

theorem level_map (hf : ∀ a b, f (node a b) = node' (f a) (f b)) (leaves : List H) (k : Nat) :
    level node' (leaves.map f) k = (level node leaves k).map f := by
  induction k with
  | zero => rw [level, level, padded_map]
  | succ k ih => rw [level, level, ih, parents_map hf, padded_map]

end

/-! ## The tree before it is hashed -/

/-- A tree over some leaves. -/
inductive LeafTree (α : Type) where
  | leaf (a : α)
  | node (l r : LeafTree α)
  deriving DecidableEq

namespace LeafTree

variable {α : Type}

def leaves : LeafTree α → List α
  | .leaf a => [a]
  | .node l r => l.leaves ++ r.leaves

/-- All leaves lie at depth `k`. -/
inductive Perfect : Nat → LeafTree α → Prop
  | leaf (a : α) : Perfect 0 (.leaf a)
  | node {k : Nat} {l r : LeafTree α} (hl : Perfect k l) (hr : Perfect k r) :
    Perfect (k + 1) (.node l r)

end LeafTree

section

variable {α : Type} {leaves : List α} {t : LeafTree α}

/-- The tree of depth `d` over a list, with all its padding. -/
def top (leaves : List α) (d : Nat) : Option (LeafTree α) :=
  (parents LeafTree.node (level LeafTree.node (leaves.map LeafTree.leaf) (d - 1)))[0]?

theorem mem_padded {l : List H} {x : H} (h : x ∈ padded l) : x ∈ l := by
  unfold padded at h
  split_ifs at h
  · rcases mem_append.mp h with h | h
    · exact h
    · rw [Option.mem_toList] at h
      exact mem_of_getLast? h
  · exact h

theorem forall_parents {P Q : H → Prop} (hnode : ∀ a b, P a → P b → Q (node a b)) {l : List H}
    (h : ∀ x ∈ l, P x) : ∀ x ∈ parents node l, Q x := by
  induction l using parents.induct with
  | case1 a b rest ih =>
    intro x hx
    rcases mem_cons.mp hx with rfl | hx
    · exact hnode a b (h a mem_cons_self) (h b (mem_cons_of_mem _ mem_cons_self))
    · exact ih (fun y hy => h y (mem_cons_of_mem _ (mem_cons_of_mem _ hy))) x hx
  | case2 a => exact fun x hx => nomatch hx
  | case3 => exact fun x hx => nomatch hx

/-- The induction over the heights of a tree: what holds of the leaves and is kept by a pair
holds of the whole tree. -/
theorem top_induction {P : Nat → LeafTree α → Prop} (hleaf : ∀ a ∈ leaves, P 0 (.leaf a))
    (hnode : ∀ k l r, P k l → P k r → P (k + 1) (.node l r)) {d : Nat} (hd : 1 ≤ d)
    (h : top leaves d = some t) : P d t := by
  have hlevel : ∀ k, ∀ u ∈ level LeafTree.node (leaves.map LeafTree.leaf) k, P k u := by
    intro k
    induction k with
    | zero =>
      intro u hu
      obtain ⟨a, ha, rfl⟩ := mem_map.mp (mem_padded hu)
      exact hleaf a ha
    | succ k ih => exact fun u hu => forall_parents (hnode k) ih u (mem_padded hu)
  have htop := forall_parents (hnode (d - 1)) (hlevel (d - 1)) t (mem_of_getElem? h)
  rwa [Nat.sub_add_cancel hd] at htop

theorem perfect_top {d : Nat} (hd : 1 ≤ d) (h : top leaves d = some t) : t.Perfect d :=
  top_induction (fun a _ => .leaf a) (fun _ _ _ => .node) hd h

theorem mem_leaves_top {d : Nat} (hd : 1 ≤ d) (h : top leaves d = some t) :
    ∀ a ∈ t.leaves, a ∈ leaves := by
  refine top_induction (P := fun _ u => ∀ a ∈ u.leaves, a ∈ leaves) ?_ ?_ hd h
  · intro a ha b hb
    rwa [mem_singleton.mp hb]
  · intro k l r hl hr a ha
    rcases mem_append.mp ha with ha | ha
    · exact hl a ha
    · exact hr a ha

/-- Pairing the entries of a level moves no leaf. -/
theorem flatMap_leaves_parents {l : List (LeafTree α)} (heven : l.length % 2 = 0) :
    (parents LeafTree.node l).flatMap LeafTree.leaves = l.flatMap LeafTree.leaves := by
  induction l using parents.induct with
  | case1 a b rest ih =>
    have hrest : rest.length % 2 = 0 := by
      simp only [length_cons] at heven
      omega
    rw [parents, flatMap_cons, flatMap_cons, flatMap_cons, ih hrest, LeafTree.leaves, append_assoc]
  | case2 a => cases heven
  | case3 => rfl

theorem isPrefix_flatMap_padded (l : List (LeafTree α)) :
    l.flatMap LeafTree.leaves <+: (padded l).flatMap LeafTree.leaves := by
  unfold padded
  split_ifs
  · rw [flatMap_append]
    exact prefix_append _ _
  · exact prefix_refl _

theorem isPrefix_flatMap_level (leaves : List α) (k : Nat) :
    leaves <+: (level LeafTree.node (leaves.map LeafTree.leaf) k).flatMap LeafTree.leaves := by
  induction k with
  | zero =>
    have hleaves : (leaves.map LeafTree.leaf).flatMap LeafTree.leaves = leaves := by
      rw [flatMap_map]
      exact flatMap_singleton' leaves
    have hpad := isPrefix_flatMap_padded (leaves.map LeafTree.leaf)
    rwa [hleaves] at hpad
  | succ k ih =>
    refine ih.trans ?_
    rw [← flatMap_leaves_parents (even_length_level _ k)]
    exact isPrefix_flatMap_padded _

/-- **The list stands in front of the leaves of its tree**, if the tree is deep enough. -/
theorem isPrefix_leaves_top {d : Nat} (hd : 1 ≤ d)
    (hlen : leaves.length ≤ 2 ^ d) (h : top leaves d = some t) :
    leaves <+: t.leaves := by
  have hfew : (level LeafTree.node (leaves.map LeafTree.leaf) (d - 1)).length ≤ 2 * 1 := by
    apply length_level_le
    rw [length_map, Nat.sub_add_cancel hd, Nat.mul_one]
    exact hlen
  have hsingle : (parents LeafTree.node
      (level LeafTree.node (leaves.map LeafTree.leaf) (d - 1))).length ≤ 1 := by
    rw [length_parents]
    omega
  have hpre := isPrefix_flatMap_level leaves (d - 1)
  rw [← flatMap_leaves_parents (even_length_level _ (d - 1))] at hpre
  unfold top at h
  generalize parents LeafTree.node (level LeafTree.node (leaves.map LeafTree.leaf) (d - 1)) =
    level at *
  match level, hsingle with
  | [], _ => cases h
  | [u], _ =>
    obtain rfl : u = t := Option.some.inj h
    rwa [flatMap_cons, flatMap_nil, append_nil] at hpre

end

/-! ## The siblings of a leaf -/

/-- The other one of a pair. -/
def siblingIndex (m : Nat) : Nat := if m % 2 = 0 then m + 1 else m - 1

/-- The path of leaf `i` up to height `d`: a bit is set where the node is a left one. -/
def pathTo (i : Nat) : Nat → Nat
  | 0 => 0
  | d + 1 => pathTo i d + if i / 2 ^ d % 2 = 0 then 2 ^ d else 0

variable (node) in
/-- The siblings of leaf `i` up to height `d`. -/
def siblings [Inhabited H] (leaves : List H) (i : Nat) : Nat → List H
  | 0 => []
  | d + 1 => siblings leaves i d ++ [(level node leaves d).getD (siblingIndex (i / 2 ^ d)) default]

theorem pathTo_lt (i d : Nat) : pathTo i d < 2 ^ d := by
  induction d with
  | zero => simp [pathTo]
  | succ d ih =>
    rw [pathTo, pow_succ]
    split_ifs <;> omega

variable [Inhabited H]

@[simp] theorem length_siblings (leaves : List H) (i d : Nat) :
    (siblings node leaves i d).length = d := by
  induction d with
  | zero => rfl
  | succ d ih => simp [siblings, ih]

theorem getElem?_eq_getD {l : List H} {i : Nat} (h : i < l.length) :
    l[i]? = some (l.getD i default) := by
  simp [List.getD, getElem?_eq_getElem h]

theorem climb_siblings {leaves : List H} {i : Nat} {x : H} (hx : leaves[i]? = some x) (d : Nat) :
    (level node leaves d)[i / 2 ^ d]? =
      some (climb node (pathTo i d) (siblings node leaves i d) x) := by
  have hi : i < leaves.length := (List.getElem?_eq_some_iff.mp hx).1
  induction d with
  | zero =>
    rw [level, pow_zero, Nat.div_one]
    exact getElem?_padded hx
  | succ d ih =>
    -- `m` is the node at height `d`; its pair hashes to the node at height `d + 1`
    have hlt := @lt_length_level H node leaves i hi d
    have hup : i / 2 ^ (d + 1) = i / 2 ^ d / 2 := by rw [pow_succ, ← Nat.div_div_eq_div_mul]
    have hbit : pathTo i (d + 1) = pathTo i d + (if i / 2 ^ d % 2 = 0 then 1 else 0) * 2 ^ d := by
      rw [pathTo]
      split_ifs <;> ring
    rw [level, hup, siblings, climb_concat, length_siblings]
    generalize i / 2 ^ d = m at *
    have heven := @even_length_level H node leaves d
    have hsame : climb node (pathTo i (d + 1)) (siblings node leaves i d) x =
        climb node (pathTo i d) (siblings node leaves i d) x := by
      have := @climb_add_mul H node (pathTo i d) (if m % 2 = 0 then 1 else 0)
        (siblings node leaves i d) x
      rwa [length_siblings, ← hbit] at this
    have htop : pathTo i (d + 1) / 2 ^ d % 2 = if m % 2 = 0 then 1 else 0 := by
      rw [hbit, Nat.add_mul_div_right _ _ (Nat.two_pow_pos d), Nat.div_eq_of_lt (pathTo_lt i d)]
      split_ifs <;> rfl
    rw [htop, hsame]
    apply getElem?_padded
    by_cases hpar : m % 2 = 0
    · simp only [siblingIndex, hpar, ↓reduceIte]
      apply getElem?_parents
      · rw [show 2 * (m / 2) = m by omega, ih]
      · rw [show 2 * (m / 2) + 1 = m + 1 by omega]
        exact getElem?_eq_getD (by omega)
    · simp only [siblingIndex, hpar, ↓reduceIte, Nat.zero_ne_one]
      apply getElem?_parents
      · rw [show 2 * (m / 2) = m - 1 by omega]
        exact getElem?_eq_getD (by omega)
      · rw [show 2 * (m / 2) + 1 = m by omega, ih]

end MassBFT.HashTree
