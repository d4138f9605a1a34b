import MassBFT.Lib.Bytes
import MassBFT.Lib.HashTree

/-!
# The Merkle tree

`MerkleTree::New` in the mode that builds the tree and fills the proof list: the levels
are built bottom-up, a level of odd length repeating its last node, and every level then
hands each leaf below it the sibling it needs.

**The proof list is complete** (`verify_proofs`): the proof at index `i` has one sibling
for every level, and leads from the digest of block `i` to the root.
-/

set_option autoImplicit false

namespace MassBFT.Replication

open List HashTree

/-- Traversing a list succeeds if every element does. -/
theorem mapM_eq_some {α β : Type} {f : α → Option β} {l : List α} {r : List β} :
    l.mapM f = some r ↔ l.map f = r.map some := by
  induction l generalizing r with
  | nil => cases r <;> simp
  | cons a l ih =>
    simp only [mapM_cons, Option.bind_eq_bind, Option.bind_eq_some_iff, Option.pure_def,
      Option.some.injEq, map_cons]
    constructor
    · rintro ⟨x, hx, r', hr', rfl⟩
      rw [hx, ih.mp hr', map_cons]
    · intro h
      cases r with
      | nil => cases h
      | cons x r =>
        obtain ⟨ha, hl⟩ := List.cons.inj h
        exact ⟨x, ha, r, ih.mpr hl, rfl⟩

/-- `HashString`: the 32 bytes of a digest. -/
structure HashString where
  bytes : Bytes
  size : bytes.length = 32
  deriving DecidableEq

instance : Inhabited HashString := ⟨⟨List.replicate 32 0, rfl⟩⟩

/-- `pmt::Proof` -/
structure Proof where
  siblings : List HashString
  path : Nat
  deriving DecidableEq

/-- `pmt::MerkleTree`, once it is built. -/
structure MerkleTree where
  depth : Nat
  tree : List (List HashString)
  root : HashString
  proofs : List Proof
  deriving DecidableEq

section

variable (sha256 : Bytes → HashString)

/-- `Config::HashFunc` -/
def hashFunc (h1 h2 : HashString) : HashString := sha256 (h1.bytes ++ h2.bytes)

/-- `MerkleTree::Verify`, for the digest of the data block. -/
def verify (digest : Option HashString) (proof : Proof) (root : HashString) : Option Bool :=
  digest.map fun hash => climb (hashFunc sha256) proof.path proof.siblings hash == root

end

namespace MerkleTree

/-- `calTreeDepth`: the base-2 logarithm, rounded up. -/
def calTreeDepth (blockLen : Nat) : Nat := Nat.clog 2 blockLen

/-- `fixOdd` on the first `prevLen` entries of `buf`. -/
def fixOdd (buf : List HashString) (prevLen : Nat) : List HashString × Nat :=
  if prevLen % 2 = 0 then
    (buf, prevLen)
  else
    let appendNode := buf.getD (prevLen - 1) default
    if buf.length < prevLen + 1 then
      (buf ++ [appendNode], prevLen + 1)
    else
      (buf.set prevLen appendNode, prevLen + 1)

/-- `updatePairProof`: the `batch` leaves below `buf[idx]` get `buf[idx + 1]` as their
sibling, and the other way round. -/
def updatePairProof (buf : List HashString) (idx batch step : Nat) (proofs : List Proof) :
    List Proof :=
  proofs.mapIdx fun i p =>
    if idx * batch ≤ i ∧ i < idx * batch + batch then
      { siblings := p.siblings ++ [buf.getD (idx + 1) default]
        path := p.path + 2 ^ step }
    else if idx * batch + batch ≤ i ∧ i < idx * batch + batch + batch then
      { p with siblings := p.siblings ++ [buf.getD idx default] }
    else
      p

/-- `updateProofs`: `for (i = 0; i < bufLen; i += 2)`. -/
def updateProofs (buf : List HashString) (bufLen step : Nat) (proofs : List Proof) : List Proof :=
  (List.range ((bufLen + 1) / 2)).foldl
    (fun ps j => updatePairProof buf (2 * j) (2 ^ step) step ps) proofs

section

variable (sha256 : Bytes → HashString)

/-- The next level of `treeBuild`: the hashes of the pairs among the first `prevLen`. -/
def hashPairs (buf : List HashString) (prevLen : Nat) : List HashString :=
  (List.range (prevLen / 2)).map fun j =>
    hashFunc sha256 (buf.getD (2 * j) default) (buf.getD (2 * j + 1) default)

/-- The loop of `treeBuild`: `n` more levels above `level`. -/
def treeBuild : Nat → List HashString → List (List HashString)
  | 0, level => [level]
  | n + 1, level =>
    let next := hashPairs sha256 level level.length
    level :: treeBuild n (fixOdd next next.length).1

/-- `MerkleTree::New` in `ModeProofGenAndTreeBuild`, without a thread pool. The blocks are
given by what their `Digest` answers. -/
def new (digests : List (Option HashString)) : Option MerkleTree :=
  if digests.length ≤ 1 then
    none
  else
    match digests.mapM id with
    | none => none
    | some leaves =>
      let depth := calTreeDepth leaves.length
      let tree := treeBuild sha256 (depth - 1) (fixOdd leaves leaves.length).1
      let top := tree.getD (depth - 1) []
      some
        { depth := depth
          tree := tree
          root := hashFunc sha256 (top.getD 0 default) (top.getD 1 default)
          proofs := tree.zipIdx.foldl
            (fun ps level => updateProofs level.1 level.1.length level.2 ps)
            (leaves.map fun _ => ⟨[], 0⟩) }

end

/-! ## The levels are those of a hash tree -/

theorem fixOdd_length (buf : List HashString) : (fixOdd buf buf.length).1 = padded buf := by
  unfold fixOdd padded
  by_cases hodd : buf.length % 2 = 0
  · simp [hodd]
  · have hlast : buf.getLast? = some (buf.getD (buf.length - 1) default) := by
      rw [getLast?_eq_getElem?]
      exact getElem?_eq_getD (by omega)
    simp [hlast, show buf.length % 2 = 1 by omega]

variable {sha256 : Bytes → HashString} {leaves : List HashString}

theorem hashPairs_eq_parents (buf : List HashString) :
    hashPairs sha256 buf buf.length = parents (hashFunc sha256) buf := by
  apply ext_getElem?
  intro j
  by_cases hj : j < buf.length / 2
  · rw [hashPairs, getElem?_map, getElem?_range hj]
    exact (getElem?_parents (getElem?_eq_getD (by omega)) (getElem?_eq_getD (by omega))).symm
  · rw [getElem?_eq_none (by simp [hashPairs]; omega),
      getElem?_eq_none (by rw [length_parents]; omega)]

theorem getElem?_treeBuild (leaves : List HashString) (n h k : Nat) (hk : k ≤ n) :
    (treeBuild sha256 n (HashTree.level (hashFunc sha256) leaves h))[k]? =
      some (HashTree.level (hashFunc sha256) leaves (h + k)) := by
  induction n generalizing h k with
  | zero =>
    obtain rfl : k = 0 := by omega
    rfl
  | succ n ih =>
    cases k with
    | zero => rfl
    | succ k =>
      rw [treeBuild, hashPairs_eq_parents, fixOdd_length, getElem?_cons_succ]
      have hup := ih (h + 1) k (by omega)
      rw [show h + 1 + k = h + (k + 1) by omega] at hup
      exact hup

theorem length_treeBuild (n : Nat) (level : List HashString) :
    (treeBuild sha256 n level).length = n + 1 := by
  induction n generalizing level with
  | zero => rfl
  | succ n ih => simp [treeBuild, ih]

/-! ## The proof list -/

/-- The proof of leaf `i` against the levels below height `d`. -/
def proofTo (sha256 : Bytes → HashString) (leaves : List HashString) (d i : Nat) : Proof where
  siblings := siblings (hashFunc sha256) leaves i d
  path := pathTo i d

/-- Below the leaves there is nothing: the proofs before the first level are empty. -/
theorem map_proofTo_zero (leaves : List HashString) :
    leaves.map (fun _ => (⟨[], 0⟩ : Proof)) =
      (List.range leaves.length).map (proofTo sha256 leaves 0) := by
  apply ext_getElem
  · simp
  · intro i _ _
    simp [proofTo, siblings, pathTo]

theorem window_iff {b : Nat} (hb : 0 < b) (i c : Nat) :
    (c * b ≤ i ∧ i < c * b + b) ↔ i / b = c := by
  rw [Nat.div_eq_iff hb]
  omega

/-- A level gives one more sibling to the leaves of its first `c` pairs. -/
theorem foldl_updatePairProof (leaves : List HashString) (d c : Nat) :
    (List.range c).foldl (fun ps j => updatePairProof (HashTree.level (hashFunc sha256) leaves d)
        (2 * j) (2 ^ d) d ps) ((List.range leaves.length).map (proofTo sha256 leaves d)) =
      (List.range leaves.length).map fun i =>
        if i / 2 ^ d / 2 < c then proofTo sha256 leaves (d + 1) i
        else proofTo sha256 leaves d i := by
  induction c with
  | zero => simp
  | succ c ih =>
    rw [range_succ, foldl_append, ih, foldl_cons, foldl_nil, updatePairProof]
    apply ext_getElem?
    intro i
    rw [getElem?_mapIdx, getElem?_map, getElem?_map]
    by_cases hi : i < leaves.length
    · rw [getElem?_range hi, Option.map_some, Option.map_some, Option.map_some]
      have hb : 0 < 2 ^ d := Nat.two_pow_pos d
      have hleft := window_iff hb i (2 * c)
      have hright : (2 * c * 2 ^ d + 2 ^ d ≤ i ∧ i < 2 * c * 2 ^ d + 2 ^ d + 2 ^ d) ↔
          i / 2 ^ d = 2 * c + 1 := by
        rw [← window_iff hb i (2 * c + 1), Nat.add_mul, Nat.one_mul]
      simp only [hleft, hright, proofTo, siblings, pathTo, siblingIndex]
      generalize i / 2 ^ d = m
      by_cases h1 : m = 2 * c
      · subst h1
        simp
      · by_cases h2 : m = 2 * c + 1
        · subst h2
          have hodd : (2 * c + 1) % 2 = 1 := by omega
          have hhalf : (2 * c + 1) / 2 = c := by omega
          simp [hodd, hhalf]
        · have hsame : m / 2 < c + 1 ↔ m / 2 < c := by omega
          simp only [h1, h2, hsame, ↓reduceIte]
    · rw [getElem?_eq_none (by simpa using hi)]
      rfl

theorem updateProofs_level (leaves : List HashString) (d : Nat) :
    updateProofs (HashTree.level (hashFunc sha256) leaves d)
        (HashTree.level (hashFunc sha256) leaves d).length d
        ((List.range leaves.length).map (proofTo sha256 leaves d)) =
      (List.range leaves.length).map (proofTo sha256 leaves (d + 1)) := by
  rw [updateProofs, foldl_updatePairProof]
  refine map_congr_left fun i hi => ?_
  have hlt := @lt_length_level _ (hashFunc sha256) leaves i (mem_range.mp hi) d
  exact if_pos (by omega)

/-- All levels together. -/
theorem foldl_updateProofs (leaves : List HashString) (levels : List (List HashString)) (d : Nat)
    (h : ∀ k, k < levels.length →
      levels[k]? = some (HashTree.level (hashFunc sha256) leaves (d + k))) :
    (levels.zipIdx d).foldl (fun ps level => updateProofs level.1 level.1.length level.2 ps)
        ((List.range leaves.length).map (proofTo sha256 leaves d)) =
      (List.range leaves.length).map (proofTo sha256 leaves (d + levels.length)) := by
  induction levels generalizing d with
  | nil => rfl
  | cons level levels ih =>
    have h0 : level = HashTree.level (hashFunc sha256) leaves d := by
      simpa using h 0 (by simp)
    rw [zipIdx_cons, foldl_cons, h0, updateProofs_level, ih]
    · rw [length_cons, show d + 1 + levels.length = d + (levels.length + 1) by omega]
    · intro k hk
      have := h (k + 1) (by simpa using hk)
      rwa [getElem?_cons_succ, show d + (k + 1) = d + 1 + k by omega] at this

/-! ## The tree as a whole -/

/-- The tree over at least two leaves: its depth, its root and its proofs. -/
structure Built (sha256 : Bytes → HashString) (leaves : List HashString) (mt : MerkleTree) :
    Prop where
  two_le : 2 ≤ leaves.length
  depth_eq : mt.depth = calTreeDepth leaves.length
  root_eq : (parents (hashFunc sha256)
    (HashTree.level (hashFunc sha256) leaves (mt.depth - 1)))[0]? = some mt.root
  proofs_eq : mt.proofs = (List.range leaves.length).map (proofTo sha256 leaves mt.depth)

theorem depth_pos {n : Nat} (h : 2 ≤ n) : 1 ≤ calTreeDepth n := Nat.clog_pos (by omega) h

/-- The first pair of a level is hashed to the first node above it. -/
theorem getElem?_parents_zero (htwo : 2 ≤ leaves.length) (k : Nat) :
    (parents (hashFunc sha256) (HashTree.level (hashFunc sha256) leaves k))[0]? =
      some (hashFunc sha256 ((HashTree.level (hashFunc sha256) leaves k).getD 0 default)
        ((HashTree.level (hashFunc sha256) leaves k).getD 1 default)) := by
  have hne := @lt_length_level _ (hashFunc sha256) leaves 0 (by omega) k
  have heven := @even_length_level _ (hashFunc sha256) leaves k
  rw [Nat.zero_div] at hne
  exact getElem?_parents (getElem?_eq_getD hne) (getElem?_eq_getD (by omega))

theorem new_built {digests : List (Option HashString)} {mt : MerkleTree}
    (h : new sha256 digests = some mt) :
    ∃ leaves, digests = leaves.map some ∧ Built sha256 leaves mt := by
  unfold new at h
  split_ifs at h with hlen
  cases hm : digests.mapM id with
  | none => rw [hm] at h; cases h
  | some leaves =>
    rw [hm] at h
    have hd := mapM_eq_some.mp hm
    rw [map_id] at hd
    have htwo : 2 ≤ leaves.length := by
      rw [hd, length_map] at hlen
      omega
    have hdepth := depth_pos htwo
    refine ⟨leaves, hd, ?_⟩
    cases h
    rw [fixOdd_length]
    have hlevel := fun k => @getElem?_treeBuild sha256 leaves (calTreeDepth leaves.length - 1) 0 k
    have htop : (treeBuild sha256 (calTreeDepth leaves.length - 1)
        (HashTree.level (hashFunc sha256) leaves 0)).getD (calTreeDepth leaves.length - 1) [] =
          HashTree.level (hashFunc sha256) leaves (calTreeDepth leaves.length - 1) := by
      rw [getD_eq_getElem?_getD, hlevel _ (le_refl _), Option.getD_some, Nat.zero_add]
    refine ⟨htwo, rfl, ?_, ?_⟩
    · dsimp only
      rw [← @HashTree.level.eq_1 _ (hashFunc sha256), htop]
      exact getElem?_parents_zero htwo _
    · dsimp only
      rw [map_proofTo_zero, ← @HashTree.level.eq_1 _ (hashFunc sha256), foldl_updateProofs]
      · rw [length_treeBuild, Nat.zero_add, Nat.sub_add_cancel hdepth]
      · intro k hk
        rw [length_treeBuild] at hk
        rw [hlevel k (by omega), Nat.zero_add]

theorem new_eq_some (h : 2 ≤ leaves.length) : ∃ mt, new sha256 (leaves.map some) = some mt := by
  unfold new
  rw [if_neg (by rw [length_map]; omega), mapM_eq_some.mpr (map_id _)]
  exact ⟨_, rfl⟩

/-- The siblings of a leaf lead to the only node of the level above the tree. -/
theorem climb_proofTo (htwo : 2 ≤ leaves.length) {root : HashString}
    (hroot : (parents (hashFunc sha256) (HashTree.level (hashFunc sha256) leaves
      (calTreeDepth leaves.length - 1)))[0]? = some root) {i : Nat} {x : HashString}
    (hx : leaves[i]? = some x) :
    climb (hashFunc sha256) (proofTo sha256 leaves (calTreeDepth leaves.length) i).path
      (proofTo sha256 leaves (calTreeDepth leaves.length) i).siblings x = root := by
  have hi : i < leaves.length := (List.getElem?_eq_some_iff.mp hx).1
  have hdepth := depth_pos htwo
  have hzero : i / 2 ^ calTreeDepth leaves.length = 0 :=
    Nat.div_eq_of_lt (lt_of_lt_of_le hi (Nat.le_pow_clog (by omega) _))
  have htop := @climb_siblings _ (hashFunc sha256) _ leaves i x hx (calTreeDepth leaves.length)
  rw [hzero] at htop
  change climb _ (pathTo _ _) (siblings _ _ _ _) x = root
  generalize calTreeDepth leaves.length = depth at *
  obtain ⟨d, rfl⟩ : ∃ d, depth = d + 1 := ⟨depth - 1, by omega⟩
  rw [Nat.add_sub_cancel] at hroot
  rw [HashTree.level, getElem?_padded hroot] at htop
  exact (Option.some.inj htop).symm

/-- **The proof list is complete**: the proof at index `i` is as long as the tree is deep
and leads from leaf `i` to the root. -/
theorem Built.proof {mt : MerkleTree} (h : Built sha256 leaves mt)
    {i : Nat} {x : HashString} (hx : leaves[i]? = some x) :
    ∃ p, mt.proofs[i]? = some p ∧ p.siblings.length = mt.depth ∧
      climb (hashFunc sha256) p.path p.siblings x = mt.root := by
  have hi : i < leaves.length := (List.getElem?_eq_some_iff.mp hx).1
  have hroot := h.root_eq
  refine ⟨proofTo sha256 leaves mt.depth i, ?_, length_siblings _ _ _, ?_⟩
  · rw [h.proofs_eq, getElem?_map, getElem?_range hi]
    rfl
  · rw [h.depth_eq] at hroot ⊢
    exact climb_proofTo h.two_le hroot hx

end MerkleTree

end MassBFT.Replication
