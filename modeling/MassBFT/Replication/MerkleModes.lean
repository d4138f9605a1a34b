import MassBFT.Lib.Stride
import MassBFT.Replication.Instances

/-!
# The modes of the Merkle tree

`MerkleTree::New` can fill the proof list, build the tree, or do both, each of them in one loop
or in routines that share it. Proof generation keeps no tree: it hashes a buffer in place, and
the buffer has a stale tail behind the level. `GenerateProof` reads a proof off the tree, from the
index that the leaf map has for the digest — the last one, if a block is repeated.

Without a thread pool the routines run one after another. Whatever the configuration, every
level is the level of one hash tree, in front of its buffer (`Filled`), and **all modes agree
on the root and on the proofs, and all proofs are accepted** (`modes_agree`).
-/

set_option autoImplicit false

namespace MassBFT.Replication

open Function List Stride HashTree

/-- `ModeType` -/
inductive ModeType where
  | proofGen
  | treeBuild
  | proofGenAndTreeBuild
  deriving DecidableEq, Repr

/-- `pmt::Config` -/
structure MerkleTree.Config where
  numRoutines : Nat
  mode : ModeType
  runInParallel : Bool
  leafGenParallel : Bool
  deriving DecidableEq, Repr

/-- `pmt::MerkleTree`, with the configuration it was built in and its leaf map. -/
structure ConfiguredTree extends MerkleTree where
  config : MerkleTree.Config
  leafMap : HashString → Option Nat

namespace MerkleTree

/-- `calculateNumRoutine`, with the default factor. -/
def calculateNumRoutine (numRoutines workCount : Nat) : Nat :=
  let lowered := if numRoutines > workCount / 16 then workCount / 16 else numRoutines
  if lowered = 0 then 1 else lowered

/-- One routine of `leafGenParallel`: it stops at a block without a digest. -/
def leafRoutine (digests : List (Option HashString)) :
    List Nat → Bool × List HashString → Bool × List HashString
  | [], out => out
  | j :: js, out =>
    match digests.getD j none with
    | none => (false, out.2)
    | some hash => leafRoutine digests js (out.1, out.2.set j hash)

/-- `leafGenParallel`, without a thread pool: the routines run one after another. -/
def leafGenParallel (numRoutines : Nat) (digests : List (Option HashString)) :
    Option (List HashString) :=
  let routines := calculateNumRoutine numRoutines digests.length
  let out := (List.range routines).foldl
    (fun out i => leafRoutine digests (indices i digests.length routines) out)
    (true, List.replicate digests.length default)
  if out.1 then some out.2 else none

/-- `leafGen` -/
def leafGen (digests : List (Option HashString)) : Option (List HashString) := digests.mapM id

/-- `initProofs` -/
def initProofs (leaves : List HashString) : List Proof := leaves.map fun _ => ⟨[], 0⟩

/-- `updateProofsParallel`, without a thread pool. -/
def updateProofsParallel (numRoutines : Nat) (buf : List HashString) (bufLen step : Nat)
    (proofs : List Proof) : List Proof :=
  (split 2 (calculateNumRoutine numRoutines bufLen) bufLen).foldl
    (fun ps j => updatePairProof buf j (2 ^ step) step ps) proofs

/-- What `proofGen` and `proofGenParallel` carry from one step to the next: the buffer, the length
of the level in front of it, the proofs, and the buffer that the next step writes to. -/
structure GenState where
  buf : List HashString
  prevLen : Nat
  proofs : List Proof
  next : List HashString

section

variable (sha256 : Bytes → HashString)

/-- The loop of `proofGen` that hashes the pairs in place. -/
def hashInPlace (buf : List HashString) (prevLen : Nat) : List HashString :=
  (indices 0 prevLen 2).foldl (fun buf idx => buf.set (idx / 2)
    (hashFunc sha256 (buf.getD idx default) (buf.getD (idx + 1) default))) buf

/-- The routines that hash the pairs of one buffer into another. -/
def hashInto (numRoutines : Nat) (buf : List HashString) (prevLen : Nat)
    (next : List HashString) : List HashString :=
  (split 2 (calculateNumRoutine numRoutines prevLen) prevLen).foldl (fun next j => next.set (j / 2)
    (hashFunc sha256 (buf.getD j default) (buf.getD (j + 1) default))) next

/-- One step of `proofGen`, on a copy of the buffer. -/
def proofGenStep (st : GenState) (step : Nat) : GenState :=
  let fixed := fixOdd (hashInPlace sha256 st.buf st.prevLen) (st.prevLen / 2)
  { buf := fixed.1
    prevLen := fixed.2
    proofs := updateProofs fixed.1 fixed.2 step st.proofs
    next := st.next }

/-- `proofGen`: the root and the proofs. -/
def proofGen (depth : Nat) (leaves : List HashString) : HashString × List Proof :=
  let fixed := fixOdd leaves leaves.length
  let st := (indices 1 depth 1).foldl (proofGenStep sha256)
    { buf := fixed.1
      prevLen := fixed.2
      proofs := updateProofs fixed.1 leaves.length 0 (initProofs leaves)
      next := [] }
  (hashFunc sha256 (st.buf.getD 0 default) (st.buf.getD 1 default), st.proofs)

/-- One step of `proofGenParallel`: the buffers change places, and the new one for the next step is
as long as the level that is being hashed now. -/
def proofGenParallelStep (numRoutines : Nat) (st : GenState) (step : Nat) : GenState :=
  let fixed := fixOdd (hashInto sha256 numRoutines st.buf st.prevLen st.next) (st.prevLen / 2)
  { buf := fixed.1
    prevLen := fixed.2
    proofs := updateProofsParallel numRoutines fixed.1 fixed.2 step st.proofs
    next := List.replicate (st.prevLen / 2) default }

/-- `proofGenParallel`, without a thread pool. -/
def proofGenParallel (numRoutines depth : Nat) (leaves : List HashString) :
    HashString × List Proof :=
  let fixed := fixOdd leaves leaves.length
  let st := (indices 1 depth 1).foldl (proofGenParallelStep sha256 numRoutines)
    { buf := fixed.1
      prevLen := fixed.2
      proofs := updateProofsParallel numRoutines fixed.1 leaves.length 0 (initProofs leaves)
      next := List.replicate (fixed.2 / 2) default }
  (hashFunc sha256 (st.buf.getD 0 default) (st.buf.getD 1 default), st.proofs)

/-- The next level of `treeBuild`, by one loop or by routines. -/
def nextLevel (config : Config) (level : List HashString) : List HashString :=
  if config.runInParallel then
    hashInto sha256 config.numRoutines level level.length
      (List.replicate (level.length / 2) default)
  else hashPairs sha256 level level.length

/-- The loop of `treeBuild`: `n` more levels above `level`. -/
def treeBuildWith (config : Config) : Nat → List HashString → List (List HashString)
  | 0, level => [level]
  | n + 1, level =>
    let next := nextLevel sha256 config level
    level :: treeBuildWith config n (fixOdd next next.length).1

/-- The leaf map of `treeBuild`: a later leaf replaces an equal one. -/
def leafMap (leaves : List HashString) : HashString → Option Nat :=
  leaves.zipIdx.foldl (fun map leaf => update map leaf.1 (some leaf.2)) fun _ => none

/-- The proofs of `ModeProofGenAndTreeBuild`, level by level. -/
def proofsOfTree (config : Config) (tree : List (List HashString)) (leaves : List HashString) :
    List Proof :=
  tree.zipIdx.foldl (fun ps level =>
    if config.runInParallel then
      updateProofsParallel config.numRoutines level.1 level.1.length level.2 ps
    else updateProofs level.1 level.1.length level.2 ps) (initProofs leaves)

/-- `MerkleTree::New`, without a thread pool. The blocks are given by what their `Digest`
answers. -/
def newWith (config : Config) (digests : List (Option HashString)) : Option ConfiguredTree :=
  if digests.length ≤ 1 then none
  else
    let depth := calTreeDepth digests.length
    let leafGen :=
      if config.runInParallel || config.leafGenParallel then
        leafGenParallel config.numRoutines digests
      else leafGen digests
    match leafGen with
    | none => none
    | some leaves =>
      if config.mode = .proofGen then
        let out :=
          if config.runInParallel then proofGenParallel sha256 config.numRoutines depth leaves
          else proofGen sha256 depth leaves
        some { depth := depth, tree := [], root := out.1, proofs := out.2, config := config,
               leafMap := fun _ => none }
      else
        let tree := treeBuildWith sha256 config (depth - 1) (fixOdd leaves leaves.length).1
        let top := tree.getD (depth - 1) []
        some { depth := depth
               tree := tree
               root := hashFunc sha256 (top.getD 0 default) (top.getD 1 default)
               proofs := if config.mode = .treeBuild then [] else proofsOfTree config tree leaves
               config := config
               leafMap := leafMap leaves }

end

end MerkleTree

namespace ConfiguredTree

/-- The loop of `GenerateProof` from height `i` on, at node `idx`: `depth` more levels. -/
def generateLoop (tree : List (List HashString)) : Nat → Nat → Nat → Proof → Proof
  | 0, _, _, proof => proof
  | depth + 1, i, idx, proof =>
    let level := tree.getD i []
    if idx % 2 = 1 then
      generateLoop tree depth (i + 1) (idx / 2)
        { proof with siblings := proof.siblings ++ [level.getD (idx - 1) default] }
    else
      generateLoop tree depth (i + 1) (idx / 2)
        { siblings := proof.siblings ++ [level.getD (idx + 1) default]
          path := proof.path + 2 ^ i }

/-- `GenerateProof`, for the digest of the data block. -/
def generateProof (mt : ConfiguredTree) (digest : Option HashString) : Option Proof :=
  if mt.config.mode = .proofGen then none
  else
    match digest with
    | none => none
    | some hash =>
      match mt.leafMap hash with
      | none => none
      | some idx => some (generateLoop mt.tree mt.depth 0 idx ⟨[], 0⟩)

end ConfiguredTree

namespace MerkleTree

theorem calculateNumRoutine_pos (numRoutines workCount : Nat) :
    0 < calculateNumRoutine numRoutines workCount := by
  unfold calculateNumRoutine
  dsimp only
  split_ifs
  · exact Nat.one_pos
  · omega
  · exact Nat.one_pos
  · omega

/-! ## The leaves -/

/-- What routines over the blocks `js` come to: one of them fails if and only if a block has no
digest, and otherwise the leaves of all the blocks are set. -/
structure LeavesSet (digests : List (Option HashString)) (js : List Nat)
    (out out' : Bool × List HashString) : Prop where
  ret : out'.1 = true ↔ out.1 = true ∧ ∀ j ∈ js, (digests.getD j none).isSome = true
  leaves : out'.1 = true →
    out'.2 = js.foldl (fun l j => l.set j ((digests.getD j none).getD default)) out.2

section

variable {digests : List (Option HashString)} {js js' : List Nat}
  {out out' out'' : Bool × List HashString}

theorem LeavesSet.append (h : LeavesSet digests js out out')
    (h' : LeavesSet digests js' out' out'') : LeavesSet digests (js ++ js') out out'' := by
  refine ⟨?_, fun hret => ?_⟩
  · rw [h'.ret, h.ret, and_assoc, forall_mem_append]
  · rw [h'.leaves hret, h.leaves (h'.ret.mp hret).1, foldl_append]

variable (digests out)

theorem leavesSet_nil : LeavesSet digests [] out out := ⟨by simp, fun _ => rfl⟩

theorem leafRoutine_leavesSet (js : List Nat) :
    LeavesSet digests js out (leafRoutine digests js out) := by
  induction js generalizing out with
  | nil => exact leavesSet_nil digests out
  | cons j js ih =>
    rw [leafRoutine]
    cases hj : digests.getD j none with
    | none => exact ⟨by simp [-getD_eq_getElem?_getD, hj], fun h => by cases h⟩
    | some hash =>
      have hone : LeavesSet digests [j] out (out.1, out.2.set j hash) :=
        ⟨by simp [-getD_eq_getElem?_getD, hj], fun _ => by
          rw [foldl_cons, hj]
          rfl⟩
      exact hone.append (ih _)

/-- The routines run one after another. -/
theorem leafRoutines_leavesSet (js : Nat → List Nat) (is : List Nat) :
    LeavesSet digests (is.flatMap js) out
      (is.foldl (fun out i => leafRoutine digests (js i) out) out) := by
  induction is generalizing out with
  | nil => exact leavesSet_nil digests out
  | cons i is ih =>
    rw [flatMap_cons, foldl_cons]
    exact (leafRoutine_leavesSet digests out (js i)).append (ih _)

variable {digests out}

/-- Once the leaves of all blocks are set, they are what one loop computes. -/
theorem LeavesSet.leafGen (hjs : ∀ j, j ∈ js ↔ j < digests.length)
    (h : LeavesSet digests js (true, List.replicate digests.length default) out) :
    (if out.1 then some out.2 else none) = leafGen digests := by
  cases hleaves : MerkleTree.leafGen digests with
  | some leaves =>
    have hmap := mapM_eq_some.mp hleaves
    rw [map_id] at hmap
    subst hmap
    rw [length_map] at hjs h
    have hret := h.ret.mpr ⟨rfl, fun j hj => by
      simp [getElem?_eq_getElem ((hjs j).mp hj)]⟩
    rw [if_pos hret, h.leaves hret]
    have hfront := @isPrefix_foldl_set _ id
      (fun j => ((leaves.map some).getD j none).getD default) js (fun _ _ _ _ h => h)
      (List.replicate leaves.length default) leaves (by simp)
      fun i hi => ⟨i, (hjs i).mpr hi, rfl, by simp [getElem?_eq_getElem hi]⟩
    refine congrArg some (hfront.eq_of_length ?_).symm
    rw [@length_foldl_set _ id, length_replicate]
  | none =>
    rw [if_neg]
    intro hret
    have hmap : digests.map id = (digests.map fun x => x.getD default).map some := by
      rw [map_map]
      refine map_congr_left fun x hx => ?_
      obtain ⟨j, hj⟩ := mem_iff_getElem?.mp hx
      have hsome := (h.ret.mp hret).2 j ((hjs j).mpr (List.getElem?_eq_some_iff.mp hj).1)
      rw [List.getD, hj, Option.getD_some] at hsome
      obtain ⟨y, rfl⟩ := Option.isSome_iff_exists.mp hsome
      rfl
    rw [MerkleTree.leafGen, mapM_eq_some.mpr hmap] at hleaves
    cases hleaves

end

/-- **The routines compute the leaves that one loop computes.** -/
theorem leafGenParallel_eq (numRoutines : Nat) (digests : List (Option HashString)) :
    leafGenParallel numRoutines digests = leafGen digests := by
  have hr := calculateNumRoutine_pos numRoutines digests.length
  refine LeavesSet.leafGen (fun j => ?_) (leafRoutines_leavesSet digests _ _ _)
  have hsplit := @mem_split 1 _ digests.length j Nat.one_pos hr
  rw [split] at hsplit
  simpa [mem_indices Nat.one_pos] using hsplit

theorem leafGen_map_some (leaves : List HashString) : leafGen (leaves.map some) = some leaves := by
  rw [leafGen, mapM_eq_some, map_id]

theorem mem_leafMap (leaves : List HashString) {x : HashString} (hx : x ∈ leaves) :
    ∃ i, leafMap leaves x = some i ∧ leaves[i]? = some x := by
  unfold leafMap
  induction leaves using List.reverseRecOn with
  | nil => cases hx
  | append_singleton leaves y ih =>
    rw [zipIdx_append, foldl_append]
    simp only [Nat.zero_add, zipIdx_singleton, foldl_cons, foldl_nil]
    by_cases hxy : x = y
    · subst hxy
      exact ⟨leaves.length, by rw [update_self], by simp⟩
    · have hold : x ∈ leaves := by
        simpa [hxy] using hx
      obtain ⟨i, hmap, hi⟩ := ih hold
      refine ⟨i, by rw [update_of_ne hxy, hmap], ?_⟩
      rw [List.getElem?_append_left (List.getElem?_eq_some_iff.mp hi).1, hi]

/-! ## A level in front of a buffer -/

section

variable {sha256 : Bytes → HashString} {l buf : List HashString}

theorem getD_front (h : l <+: buf) {i : Nat} (hi : i < l.length) :
    buf.getD i default = l.getD i default := by
  obtain ⟨tail, rfl⟩ := h
  exact getD_append l tail default i hi

/-- The level is padded where it ends, also if the buffer goes on. -/
theorem fixOdd_front (h : l <+: buf) :
    padded l <+: (fixOdd buf l.length).1 ∧ (fixOdd buf l.length).2 = (padded l).length := by
  obtain ⟨tail, rfl⟩ := h
  rw [length_padded]
  unfold fixOdd padded
  by_cases heven : l.length % 2 = 0
  · simp [heven]
  · have hodd : l.length % 2 = 1 := by omega
    have hlast : l.getLast? = some ((l ++ tail).getD (l.length - 1) default) := by
      rw [getLast?_eq_getElem?, getD_append _ _ _ _ (by omega)]
      exact getElem?_eq_getD (by omega)
    rw [if_neg heven, if_pos hodd, hlast]
    dsimp only
    cases tail with
    | nil => simp [hodd]
    | cons x tail =>
      rw [if_neg (by simp)]
      refine ⟨⟨tail, ?_⟩, by rw [hodd]⟩
      rw [set_append_right _ _ (le_refl _), Nat.sub_self, set_cons_zero]
      simp

/-- The hash of a pair of the level is an entry of the level above. -/
theorem getElem?_parents_front (h : l <+: buf) {i : Nat} (hi : 2 * i + 1 < l.length) :
    (parents (hashFunc sha256) l)[i]? =
      some (hashFunc sha256 (buf.getD (2 * i) default) (buf.getD (2 * i + 1) default)) := by
  rw [getD_front h hi, getD_front h (by omega)]
  exact getElem?_parents (getElem?_eq_getD (by omega)) (getElem?_eq_getD hi)

/-- After `c` rounds of hashing in place, `c` entries of the level above are there, and the rest is
as it was: the entries that a round reads have not been written to. -/
theorem getElem?_rounds (h : l <+: buf) {c : Nat} (hc : c ≤ l.length / 2) (i : Nat) :
    ((List.range c).foldl (fun buf k => buf.set (2 * k / 2) (hashFunc sha256
        (buf.getD (2 * k) default) (buf.getD (2 * k + 1) default))) buf)[i]? =
      if i < c then (parents (hashFunc sha256) l)[i]? else buf[i]? := by
  induction c generalizing i with
  | zero => rfl
  | succ c ih =>
    have hbelow := ih (by omega)
    have hlen : buf.length ≥ l.length := h.length_le
    rw [range_succ, foldl_append, foldl_cons, foldl_nil]
    generalize (List.range c).foldl (fun buf k => buf.set (2 * k / 2) (hashFunc sha256
      (buf.getD (2 * k) default) (buf.getD (2 * k + 1) default))) buf = out at hbelow ⊢
    have hread : ∀ j, c ≤ j → out.getD j default = buf.getD j default := by
      intro j hj
      rw [List.getD, List.getD, hbelow j, if_neg (not_lt.mpr hj)]
    rw [hread (2 * c) (by omega), hread (2 * c + 1) (by omega),
      Nat.mul_div_cancel_left c (by omega)]
    by_cases hic : c = i
    · subst hic
      have hout : c < out.length := by
        have hlt : c < buf.length := by omega
        have hc' := hbelow c
        rw [if_neg (lt_irrefl c), getElem?_eq_getElem hlt] at hc'
        exact (List.getElem?_eq_some_iff.mp hc').1
      rw [getElem?_set_self hout, if_pos (Nat.lt_succ_self c), getElem?_parents_front h (by omega)]
    · rw [getElem?_set_ne hic, hbelow i]
      by_cases hlt : i < c
      · rw [if_pos hlt, if_pos (by omega)]
      · rw [if_neg hlt, if_neg (by omega)]

theorem hashInPlace_front (h : l <+: buf) (heven : l.length % 2 = 0) :
    parents (hashFunc sha256) l <+: hashInPlace sha256 buf l.length := by
  have hcount : (l.length + (2 - 1)) / 2 = l.length / 2 := by omega
  rw [hashInPlace, indices_zero, hcount, foldl_map, prefix_iff_getElem?]
  intro i hi
  have hi' := hi
  rw [length_parents] at hi'
  rw [getElem?_rounds h (le_refl _), if_pos hi', getElem?_eq_getElem hi]

/-- Hashing into another buffer, the pairs in any order. -/
theorem foldl_hash_front (h : l <+: buf) (heven : l.length % 2 = 0) {js : List Nat}
    (hjs : ∀ j, j ∈ js ↔ ∃ k, j = 0 + 2 * k ∧ j < l.length) {next : List HashString}
    (hnext : l.length / 2 ≤ next.length) :
    parents (hashFunc sha256) l <+: js.foldl (fun next j => next.set (j / 2)
      (hashFunc sha256 (buf.getD j default) (buf.getD (j + 1) default))) next := by
  refine @isPrefix_foldl_set _ (· / 2) (fun j => hashFunc sha256 (buf.getD j default)
    (buf.getD (j + 1) default)) _ (fun j hj j' hj' heq => ?_) _ _ ?_ fun i hi => ?_
  · obtain ⟨k, rfl, -⟩ := (hjs j).mp hj
    obtain ⟨k', rfl, -⟩ := (hjs j').mp hj'
    omega
  · rw [length_parents]
    exact hnext
  · rw [length_parents] at hi
    refine ⟨2 * i, (hjs _).mpr ⟨i, by simp, by omega⟩, by simp, ?_⟩
    exact getElem?_parents_front h (by omega)

theorem hashInto_front (h : l <+: buf) (heven : l.length % 2 = 0) (numRoutines : Nat)
    {next : List HashString} (hnext : l.length / 2 ≤ next.length) :
    parents (hashFunc sha256) l <+: hashInto sha256 numRoutines buf l.length next := by
  refine foldl_hash_front h heven (fun j => ?_) hnext
  rw [mem_split Nat.two_pos (calculateNumRoutine_pos numRoutines l.length), mem_indices Nat.two_pos]

theorem length_hashInto (numRoutines prevLen : Nat) (next : List HashString) :
    (hashInto sha256 numRoutines buf prevLen next).length = next.length :=
  length_foldl_set (· / 2) _ _ _

end

/-! ## The proofs -/

section

variable {l buf : List HashString}

/-- `updatePairProof` for the `k`-th pair, by the number of the node above each leaf. -/
theorem updatePairProof_eq (buf : List HashString) (k step : Nat) (proofs : List Proof) :
    updatePairProof buf (2 * k) (2 ^ step) step proofs = proofs.mapIdx fun i p =>
      if i / 2 ^ step = 2 * k then
        ⟨p.siblings ++ [buf.getD (2 * k + 1) default], p.path + 2 ^ step⟩
      else if i / 2 ^ step = 2 * k + 1 then
        ⟨p.siblings ++ [buf.getD (2 * k) default], p.path⟩
      else p := by
  have hb : 0 < 2 ^ step := Nat.two_pow_pos step
  have hright : ∀ i, (2 * k * 2 ^ step + 2 ^ step ≤ i ∧
      i < 2 * k * 2 ^ step + 2 ^ step + 2 ^ step) ↔ i / 2 ^ step = 2 * k + 1 := by
    intro i
    rw [← window_iff hb i (2 * k + 1), Nat.add_mul, Nat.one_mul]
  unfold updatePairProof
  simp only [window_iff hb, hright]

/-- The rounds of `updateProofs` commute. -/
theorem updatePairProof_comm (buf : List HashString) (k k' step : Nat) (proofs : List Proof) :
    updatePairProof buf (2 * k') (2 ^ step) step
        (updatePairProof buf (2 * k) (2 ^ step) step proofs) =
      updatePairProof buf (2 * k) (2 ^ step) step
        (updatePairProof buf (2 * k') (2 ^ step) step proofs) := by
  by_cases hk : k = k'
  · rw [hk]
  · simp only [updatePairProof_eq, mapIdx_mapIdx]
    refine mapIdx_eq_mapIdx_iff.mpr fun i hi => ?_
    dsimp only [Function.comp]
    generalize i / 2 ^ step = m
    -- The leaf is below one of the two pairs at most.
    by_cases h : m / 2 = k
    · have h₀ : m ≠ 2 * k' := by omega
      have h₁ : m ≠ 2 * k' + 1 := by omega
      simp only [h₀, h₁, ↓reduceIte]
    · have h₀ : m ≠ 2 * k := by omega
      have h₁ : m ≠ 2 * k + 1 := by omega
      simp only [h₀, h₁, ↓reduceIte]

/-- The pairs may come in any order. -/
theorem updateProofs_perm {bufLen : Nat} {js : List Nat} (hperm : js.Perm (indices 0 bufLen 2))
    (buf : List HashString) (step : Nat) (proofs : List Proof) :
    js.foldl (fun ps j => updatePairProof buf j (2 ^ step) step ps) proofs =
      updateProofs buf bufLen step proofs := by
  rw [hperm.foldl_eq', indices_zero, foldl_map]
  · rfl
  · intro j hj j' hj' ps
    obtain ⟨k, rfl, -⟩ := (mem_indices Nat.two_pos).mp (hperm.mem_iff.mp hj)
    obtain ⟨k', rfl, -⟩ := (mem_indices Nat.two_pos).mp (hperm.mem_iff.mp hj')
    rw [Nat.zero_add, Nat.zero_add]
    exact updatePairProof_comm buf k k' step ps

/-- **The routines update the proofs as one loop does.** -/
theorem updateProofsParallel_eq (numRoutines : Nat) (buf : List HashString) (bufLen step : Nat)
    (proofs : List Proof) : updateProofsParallel numRoutines buf bufLen step proofs =
      updateProofs buf bufLen step proofs :=
  updateProofs_perm (split_perm Nat.two_pos (calculateNumRoutine_pos numRoutines bufLen) bufLen)
    buf step proofs

/-- Only the level in front of the buffer counts, and its padding may be left out. -/
theorem updateProofs_front (h : l <+: buf) (heven : l.length % 2 = 0) {bufLen : Nat}
    (hlen : (bufLen + 1) / 2 = l.length / 2) (step : Nat) (proofs : List Proof) :
    updateProofs buf bufLen step proofs = updateProofs l l.length step proofs := by
  have hlen' : (l.length + 1) / 2 = l.length / 2 := by omega
  unfold updateProofs
  rw [hlen, hlen']
  refine foldl_ext _ _ _ fun ps k hk => ?_
  have hlt := mem_range.mp hk
  unfold updatePairProof
  rw [getD_front h (by omega), getD_front h (by omega)]

end

/-! ## Proof generation -/

section

variable {sha256 : Bytes → HashString} {leaves : List HashString} {st : GenState}

/-- The buffer begins with level `k`, and the proofs go up to it. -/
structure Filled (sha256 : Bytes → HashString) (leaves : List HashString) (k : Nat)
    (st : GenState) : Prop where
  front : level (hashFunc sha256) leaves k <+: st.buf
  prevLen : st.prevLen = (level (hashFunc sha256) leaves k).length
  proofs : st.proofs = (List.range leaves.length).map (proofTo sha256 leaves (k + 1))

/-- The level above, once its entries are in front of a buffer. -/
theorem filled_succ {k : Nat} {out : List HashString} {prevLen : Nat} {proofs : List Proof}
    (hprev : prevLen = (level (hashFunc sha256) leaves k).length)
    (hout : parents (hashFunc sha256) (level (hashFunc sha256) leaves k) <+: out)
    (hproofs : proofs = (List.range leaves.length).map (proofTo sha256 leaves (k + 1)))
    (next : List HashString) :
    Filled sha256 leaves (k + 1)
      { buf := (fixOdd out (prevLen / 2)).1
        prevLen := (fixOdd out (prevLen / 2)).2
        proofs := updateProofs (fixOdd out (prevLen / 2)).1 (fixOdd out (prevLen / 2)).2 (k + 1)
          proofs
        next := next } := by
  rw [hprev, ← @length_parents _ (hashFunc sha256)]
  have hfixed := fixOdd_front hout
  rw [← level.eq_2, Nat.succ_eq_add_one] at hfixed
  obtain ⟨hfront, hlen⟩ := hfixed
  have heven := @even_length_level _ (hashFunc sha256) leaves (k + 1)
  refine ⟨hfront, hlen, ?_⟩
  dsimp only
  rw [hproofs, updateProofs_front hfront heven (by rw [hlen]; omega), updateProofs_level]

theorem Filled.step {k : Nat} (h : Filled sha256 leaves k st) :
    Filled sha256 leaves (k + 1) (proofGenStep sha256 st (k + 1)) := by
  have heven := @even_length_level _ (hashFunc sha256) leaves k
  have hout := @hashInPlace_front sha256 _ _ h.front heven
  rw [← h.prevLen] at hout
  exact filled_succ h.prevLen hout h.proofs st.next

/-- With routines there has to be room for the level above. -/
theorem Filled.parallelStep {k : Nat} (h : Filled sha256 leaves k st)
    (hnext : st.prevLen / 2 ≤ st.next.length) (numRoutines : Nat) :
    Filled sha256 leaves (k + 1) (proofGenParallelStep sha256 numRoutines st (k + 1)) ∧
      (proofGenParallelStep sha256 numRoutines st (k + 1)).prevLen / 2 ≤
        (proofGenParallelStep sha256 numRoutines st (k + 1)).next.length := by
  have heven := @even_length_level _ (hashFunc sha256) leaves k
  rw [h.prevLen] at hnext
  have hout := @hashInto_front sha256 _ _ h.front heven numRoutines st.next hnext
  rw [← h.prevLen] at hout
  have hfilled := filled_succ h.prevLen hout h.proofs (List.replicate (st.prevLen / 2) default)
  rw [proofGenParallelStep]
  dsimp only
  rw [updateProofsParallel_eq]
  refine ⟨hfilled, ?_⟩
  have hlen := hfilled.prevLen
  dsimp only at hlen
  rw [hlen, level, length_padded, length_parents, length_replicate, h.prevLen]
  omega

/-- What one step takes from one level to the next, the loop takes to the top. -/
theorem foldl_steps {I : Nat → GenState → Prop} {step : GenState → Nat → GenState}
    (hstep : ∀ k st, I k st → I (k + 1) (step st (k + 1))) (h : I 0 st)
    (depth : Nat) : I (depth - 1) ((indices 1 depth 1).foldl step st) := by
  have hcount : (depth - 1 + (1 - 1)) / 1 = depth - 1 := by simp
  rw [indices, hcount]
  induction depth - 1 with
  | zero => exact h
  | succ n ih =>
    rw [List.range'_1_concat, foldl_append, Nat.add_comm 1 n]
    exact hstep n _ ih

theorem initProofs_eq : initProofs leaves =
    (List.range leaves.length).map (proofTo sha256 leaves 0) :=
  map_proofTo_zero leaves

/-- The leaves, padded, with their first siblings. -/
theorem filled_zero (next : List HashString) :
    Filled sha256 leaves 0
      { buf := (fixOdd leaves leaves.length).1
        prevLen := (fixOdd leaves leaves.length).2
        proofs := updateProofs (fixOdd leaves leaves.length).1 leaves.length 0 (initProofs leaves)
        next := next } := by
  have hfixed := fixOdd_front (prefix_refl leaves)
  have hhalf : (leaves.length + 1) / 2 = (padded leaves).length / 2 := by
    rw [length_padded]
    omega
  rw [← @level.eq_1 _ (hashFunc sha256)] at hfixed hhalf
  obtain ⟨hfront, hlen⟩ := hfixed
  have heven := @even_length_level _ (hashFunc sha256) leaves 0
  refine ⟨hfront, hlen, ?_⟩
  dsimp only
  rw [updateProofs_front hfront heven hhalf, @initProofs_eq sha256, updateProofs_level]

/-- The last hash is the root. -/
theorem isRoot_front (htwo : 2 ≤ leaves.length) {k : Nat} {buf : List HashString}
    (hfront : level (hashFunc sha256) leaves k <+: buf) :
    (parents (hashFunc sha256) (level (hashFunc sha256) leaves k))[0]? =
      some (hashFunc sha256 (buf.getD 0 default) (buf.getD 1 default)) := by
  have hne := @lt_length_level _ (hashFunc sha256) leaves 0 (by omega) k
  have heven := @even_length_level _ (hashFunc sha256) leaves k
  rw [Nat.zero_div] at hne
  exact getElem?_parents_front hfront (by omega)

/-- What a construction has to give: the root of the hash tree, and all proofs. -/
structure Generated (sha256 : Bytes → HashString) (leaves : List HashString) (depth : Nat)
    (out : HashString × List Proof) : Prop where
  root : (parents (hashFunc sha256) (level (hashFunc sha256) leaves (depth - 1)))[0]? = some out.1
  proofs : out.2 = (List.range leaves.length).map (proofTo sha256 leaves depth)

theorem Filled.generated (htwo : 2 ≤ leaves.length) {depth : Nat} (hdepth : 1 ≤ depth)
    (h : Filled sha256 leaves (depth - 1) st) : Generated sha256 leaves depth
      (hashFunc sha256 (st.buf.getD 0 default) (st.buf.getD 1 default), st.proofs) := by
  refine ⟨isRoot_front htwo h.front, ?_⟩
  have hproofs := h.proofs
  rwa [Nat.sub_add_cancel hdepth] at hproofs

theorem proofGen_generated (htwo : 2 ≤ leaves.length) {depth : Nat} (hdepth : 1 ≤ depth) :
    Generated sha256 leaves depth (proofGen sha256 depth leaves) :=
  (foldl_steps (fun _ _ h => h.step) (filled_zero []) depth).generated htwo hdepth

theorem proofGenParallel_generated (numRoutines : Nat) (htwo : 2 ≤ leaves.length) {depth : Nat}
    (hdepth : 1 ≤ depth) :
    Generated sha256 leaves depth (proofGenParallel sha256 numRoutines depth leaves) := by
  rw [proofGenParallel, updateProofsParallel_eq]
  have hloop := @foldl_steps _
    (fun k st => Filled sha256 leaves k st ∧ st.prevLen / 2 ≤ st.next.length)
    (proofGenParallelStep sha256 numRoutines) (fun _ _ h => h.1.parallelStep h.2 numRoutines)
    ⟨filled_zero (List.replicate ((fixOdd leaves leaves.length).2 / 2) default), by simp⟩ depth
  exact hloop.1.generated htwo hdepth

end

/-! ## Trees -/

section

variable {sha256 : Bytes → HashString} {leaves : List HashString}

theorem nextLevel_level (config : Config) (k : Nat) :
    nextLevel sha256 config (level (hashFunc sha256) leaves k) =
      parents (hashFunc sha256) (level (hashFunc sha256) leaves k) := by
  unfold nextLevel
  split_ifs
  · have heven := @even_length_level _ (hashFunc sha256) leaves k
    have hfront := @hashInto_front sha256 _ _ (prefix_refl _) heven config.numRoutines
      (List.replicate ((level (hashFunc sha256) leaves k).length / 2) default) (by simp)
    refine (hfront.eq_of_length ?_).symm
    rw [length_hashInto, length_replicate, length_parents]
  · exact hashPairs_eq_parents _

/-- The routines build the tree that one loop builds. -/
theorem treeBuildWith_eq (config : Config) (n k : Nat) :
    treeBuildWith sha256 config n (level (hashFunc sha256) leaves k) =
      treeBuild sha256 n (level (hashFunc sha256) leaves k) := by
  induction n generalizing k with
  | zero => rfl
  | succ n ih =>
    rw [treeBuildWith, treeBuild, nextLevel_level, hashPairs_eq_parents, fixOdd_length,
      ← level.eq_2, ih (k + 1)]

theorem proofsOfTree_eq (config : Config) (tree : List (List HashString)) :
    proofsOfTree config tree leaves = tree.zipIdx.foldl
      (fun ps level => updateProofs level.1 level.1.length level.2 ps) (initProofs leaves) := by
  unfold proofsOfTree
  refine foldl_ext _ _ _ fun ps level _ => ?_
  rw [updateProofsParallel_eq, ite_self]

/-- **`new` is `New` in every configuration that builds the tree and fills the proof list**, also
in the one with routines that the block fragments use. -/
theorem newWith_toMerkleTree (config : Config) (hmode : config.mode = .proofGenAndTreeBuild)
    (digests : List (Option HashString)) :
    (newWith sha256 config digests).map ConfiguredTree.toMerkleTree = new sha256 digests := by
  have hne : config.mode ≠ .proofGen ∧ config.mode ≠ .treeBuild := by simp [hmode]
  unfold newWith new
  dsimp only
  by_cases hfew : digests.length ≤ 1
  · rw [if_pos hfew, if_pos hfew]
    rfl
  · rw [if_neg hfew, if_neg hfew, leafGenParallel_eq, ite_self]
    unfold leafGen
    cases hleaves : digests.mapM id with
    | none => rfl
    | some leaves =>
      have hlen := congrArg List.length (mapM_eq_some.mp hleaves)
      rw [length_map, length_map] at hlen
      dsimp only
      rw [if_neg hne.1, if_neg hne.2, hlen, fixOdd_length,
        ← @level.eq_1 _ (hashFunc sha256),
        treeBuildWith_eq, proofsOfTree_eq]
      rfl

/-- A tree in some configuration: what there is of it is right. -/
structure BuiltAs (sha256 : Bytes → HashString) (leaves : List HashString)
    (mt : ConfiguredTree) : Prop where
  depth_eq : mt.depth = calTreeDepth leaves.length
  root_eq : (parents (hashFunc sha256)
    (level (hashFunc sha256) leaves (calTreeDepth leaves.length - 1)))[0]? = some mt.root
  proofs_eq : mt.config.mode ≠ .treeBuild → mt.proofs =
    (List.range leaves.length).map (proofTo sha256 leaves (calTreeDepth leaves.length))
  tree_eq : mt.config.mode ≠ .proofGen → ∀ k, k < calTreeDepth leaves.length →
    mt.tree[k]? = some (level (hashFunc sha256) leaves k)
  leafMap_eq : mt.config.mode ≠ .proofGen → mt.leafMap = leafMap leaves

theorem generated_of_config (config : Config) (htwo : 2 ≤ leaves.length) :
    Generated sha256 leaves (calTreeDepth leaves.length)
      (if config.runInParallel then
        proofGenParallel sha256 config.numRoutines (calTreeDepth leaves.length) leaves
      else proofGen sha256 (calTreeDepth leaves.length) leaves) := by
  split_ifs
  · exact proofGenParallel_generated config.numRoutines htwo (depth_pos htwo)
  · exact proofGen_generated htwo (depth_pos htwo)

/-- The levels of the tree, in every configuration. -/
theorem getElem?_treeBuildWith (config : Config) (htwo : 2 ≤ leaves.length) {k : Nat}
    (hk : k < calTreeDepth leaves.length) :
    (treeBuildWith sha256 config (calTreeDepth leaves.length - 1)
      (fixOdd leaves leaves.length).1)[k]? = some (level (hashFunc sha256) leaves k) := by
  have hdepth := depth_pos htwo
  have hlevel := @getElem?_treeBuild sha256 leaves (calTreeDepth leaves.length - 1) 0 k (by omega)
  rw [← treeBuildWith_eq config, Nat.zero_add] at hlevel
  rwa [fixOdd_length]

theorem proofsOfTree_proofTo (config : Config) (htwo : 2 ≤ leaves.length) :
    proofsOfTree config (treeBuildWith sha256 config (calTreeDepth leaves.length - 1)
        (fixOdd leaves leaves.length).1) leaves =
      (List.range leaves.length).map (proofTo sha256 leaves (calTreeDepth leaves.length)) := by
  have hdepth := depth_pos htwo
  have hlength : (treeBuildWith sha256 config (calTreeDepth leaves.length - 1)
      (fixOdd leaves leaves.length).1).length = calTreeDepth leaves.length := by
    rw [fixOdd_length, ← @level.eq_1 _ (hashFunc sha256), treeBuildWith_eq,
      length_treeBuild, Nat.sub_add_cancel hdepth]
  rw [proofsOfTree_eq, @initProofs_eq sha256, foldl_updateProofs, hlength, Nat.zero_add]
  intro k hk
  rw [hlength] at hk
  rw [getElem?_treeBuildWith config htwo hk, Nat.zero_add]

/-- **`New` builds its tree in every configuration.** -/
theorem newWith_built (config : Config) (htwo : 2 ≤ leaves.length) :
    ∃ mt, newWith sha256 config (leaves.map some) = some mt ∧ mt.config = config ∧
      BuiltAs sha256 leaves mt := by
  unfold newWith
  rw [if_neg (by rw [length_map]; omega)]
  dsimp only
  rw [leafGenParallel_eq, ite_self, leafGen_map_some, length_map]
  dsimp only
  by_cases hmode : config.mode = .proofGen
  · rw [if_pos hmode]
    have hgen := @generated_of_config sha256 leaves config htwo
    refine ⟨_, rfl, rfl, rfl, hgen.root, fun _ => hgen.proofs, fun h => ?_, fun h => ?_⟩
    · exact absurd hmode h
    · exact absurd hmode h
  · rw [if_neg hmode]
    have hdepth := depth_pos htwo
    have hlevel := fun k => @getElem?_treeBuildWith sha256 leaves config htwo k
    refine ⟨_, rfl, rfl, rfl, ?_, fun h => ?_, fun _ k hk => hlevel k hk, fun _ => rfl⟩
    · have htop := hlevel (calTreeDepth leaves.length - 1) (by omega)
      dsimp only
      rw [@List.getD_eq_getElem?_getD _ _ (calTreeDepth leaves.length - 1), htop, Option.getD_some]
      exact getElem?_parents_zero htwo _
    · dsimp only at h ⊢
      rw [if_neg h]
      exact proofsOfTree_proofTo config htwo

end

end MerkleTree

namespace ConfiguredTree

open MerkleTree

variable {sha256 : Bytes → HashString} {leaves : List HashString} {mt : ConfiguredTree}

/-- The loop of `GenerateProof` reads the siblings off the tree. -/
theorem generateLoop_proofTo {tree : List (List HashString)} (idx n i : Nat)
    (htree : ∀ k, k < i + n → tree[k]? = some (level (hashFunc sha256) leaves k)) :
    generateLoop tree n i (idx / 2 ^ i) (proofTo sha256 leaves i idx) =
      proofTo sha256 leaves (i + n) idx := by
  induction n generalizing i with
  | zero => rfl
  | succ n ih =>
    have hlevel : tree.getD i [] = level (hashFunc sha256) leaves i := by
      rw [List.getD, htree i (by omega), Option.getD_some]
    have hup : idx / 2 ^ i / 2 = idx / 2 ^ (i + 1) := by
      rw [Nat.div_div_eq_div_mul, pow_succ]
    have hnext := ih (i + 1) fun k hk => htree k (by omega)
    rw [show i + (n + 1) = i + 1 + n by omega, ← hnext, generateLoop, hlevel, hup]
    by_cases hodd : idx / 2 ^ i % 2 = 1
    · rw [if_pos hodd]
      congr 1
      simp [proofTo, siblings, pathTo, siblingIndex, hodd]
    · rw [if_neg hodd]
      congr 1
      simp [proofTo, siblings, pathTo, siblingIndex, show idx / 2 ^ i % 2 = 0 by omega]

/-- **`GenerateProof` finds every leaf**, and the proof of one that is equal to it. -/
theorem generateProof_leaf (h : BuiltAs sha256 leaves mt)
    (hmode : mt.config.mode ≠ .proofGen) {x : HashString} (hx : x ∈ leaves) :
    ∃ i, leaves[i]? = some x ∧ mt.generateProof (some x) =
      some (proofTo sha256 leaves (calTreeDepth leaves.length) i) := by
  obtain ⟨i, hmap, hi⟩ := mem_leafMap leaves hx
  refine ⟨i, hi, ?_⟩
  have hloop := @generateLoop_proofTo sha256 leaves mt.tree i (calTreeDepth leaves.length) 0
    (fun k hk => h.tree_eq hmode k (by omega))
  rw [pow_zero, Nat.div_one, Nat.zero_add] at hloop
  rw [generateProof, if_neg hmode, h.leafMap_eq hmode, hmap, h.depth_eq]
  exact congrArg some hloop

theorem verify_proofTo (h : BuiltAs sha256 leaves mt)
    (htwo : 2 ≤ leaves.length) {i : Nat} {x : HashString} (hx : leaves[i]? = some x) :
    verify sha256 (some x) (proofTo sha256 leaves (calTreeDepth leaves.length) i) mt.root =
      some true := by
  rw [verify, Option.map_some, climb_proofTo htwo h.root_eq hx, beq_self_eq_true]

theorem verify_generateProof (h : BuiltAs sha256 leaves mt)
    (htwo : 2 ≤ leaves.length) (hmode : mt.config.mode ≠ .proofGen) {x : HashString}
    (hx : x ∈ leaves) : ∃ p, mt.generateProof (some x) = some p ∧
      verify sha256 (some x) p mt.root = some true := by
  obtain ⟨i, hi, hproof⟩ := generateProof_leaf h hmode hx
  exact ⟨_, hproof, verify_proofTo h htwo hi⟩

end ConfiguredTree

open MerkleTree ConfiguredTree

/-- Blocks that all have a digest, and the leaves that are these digests. -/
theorem exists_leaves {α : Type} {digest : α → Option HashString} {blocks : List α}
    (hdigest : ∀ block ∈ blocks, (digest block).isSome = true) :
    ∃ leaves : List HashString, blocks.map digest = leaves.map some ∧
      leaves.length = blocks.length ∧
      ∀ (i : Nat) block, blocks[i]? = some block →
        ∃ x, digest block = some x ∧ leaves[i]? = some x := by
  have hleaf : ∀ block ∈ blocks, digest block = some ((digest block).getD default) := by
    intro block hb
    obtain ⟨x, hx⟩ := Option.isSome_iff_exists.mp (hdigest block hb)
    rw [hx, Option.getD_some]
  refine ⟨blocks.map fun block => (digest block).getD default, ?_, length_map _, ?_⟩
  · rw [map_map]
    exact map_congr_left hleaf
  · intro i block hb
    refine ⟨_, hleaf block (mem_of_getElem? hb), ?_⟩
    rw [List.getElem?_map, hb, Option.map_some]

/-- **All modes agree and are complete.** The blocks are of any type that has a `Digest`, and
everything else about the three configurations is arbitrary. -/
theorem modes_agree {α : Type} (sha256 : Bytes → HashString) (digest : α → Option HashString)
    (blocks : List α) (htwo : 2 ≤ blocks.length)
    (hdigest : ∀ block ∈ blocks, (digest block).isSome = true)
    (gen build both : MerkleTree.Config) (hgen : gen.mode = .proofGen)
    (hbuild : build.mode = .treeBuild) (hboth : both.mode = .proofGenAndTreeBuild) :
    ∃ mt₁ mt₂ mt₃, newWith sha256 gen (blocks.map digest) = some mt₁ ∧
      newWith sha256 build (blocks.map digest) = some mt₂ ∧
      newWith sha256 both (blocks.map digest) = some mt₃ ∧
      mt₁.root = mt₂.root ∧ mt₂.root = mt₃.root ∧ mt₁.proofs = mt₃.proofs ∧
      (∀ (i : Nat) block, blocks[i]? = some block → ∃ p, mt₁.proofs[i]? = some p ∧
        verify sha256 (digest block) p mt₁.root = some true) ∧
      ∀ block ∈ blocks,
        (∃ p, mt₂.generateProof (digest block) = some p ∧
          verify sha256 (digest block) p mt₂.root = some true) ∧
        ∃ p, mt₃.generateProof (digest block) = some p ∧
          verify sha256 (digest block) p mt₃.root = some true := by
  obtain ⟨leaves, hleaves, hlength, hleaf⟩ := exists_leaves hdigest
  have hlen : 2 ≤ leaves.length := by rwa [hlength]
  obtain ⟨mt₁, hnew₁, hconfig₁, hmt₁⟩ := @newWith_built sha256 leaves gen hlen
  obtain ⟨mt₂, hnew₂, hconfig₂, hmt₂⟩ := @newWith_built sha256 leaves build hlen
  obtain ⟨mt₃, hnew₃, hconfig₃, hmt₃⟩ := @newWith_built sha256 leaves both hlen
  have hproofs₁ := hmt₁.proofs_eq (by simp [hconfig₁, hgen])
  have hproofs₃ := hmt₃.proofs_eq (by simp [hconfig₃, hboth])
  refine ⟨mt₁, mt₂, mt₃, ?_, ?_, ?_, ?_, ?_, hproofs₁.trans hproofs₃.symm, ?_, ?_⟩
  · rw [hleaves, hnew₁]
  · rw [hleaves, hnew₂]
  · rw [hleaves, hnew₃]
  · exact Option.some.inj (hmt₁.root_eq.symm.trans hmt₂.root_eq)
  · exact Option.some.inj (hmt₂.root_eq.symm.trans hmt₃.root_eq)
  · intro i block hb
    obtain ⟨x, hx, hi⟩ := hleaf i block hb
    refine ⟨proofTo sha256 leaves (calTreeDepth leaves.length) i, ?_, ?_⟩
    · rw [hproofs₁, List.getElem?_map, List.getElem?_range (List.getElem?_eq_some_iff.mp hi).1]
      rfl
    · rw [hx]
      exact verify_proofTo hmt₁ hlen hi
  · intro block hb
    obtain ⟨i, hi⟩ := mem_iff_getElem?.mp hb
    obtain ⟨x, hx, hxi⟩ := hleaf i block hi
    have hmem := mem_of_getElem? hxi
    rw [hx]
    exact ⟨verify_generateProof hmt₂ hlen (by simp [hconfig₂, hbuild]) hmem,
      verify_generateProof hmt₃ hlen (by simp [hconfig₃, hboth]) hmem⟩

/-- Three blocks, two of them equal, with and without routines. -/
theorem modes_agree_repeated_block :
    (∀ block ∈ [[1], [2], [1]], (some (lengthHash block)).isSome = true) ∧
    ∃ mt₁ mt₂ mt₃,
      newWith lengthHash ⟨0, .proofGen, false, false⟩ [some (lengthHash [1]), some (lengthHash [2]),
        some (lengthHash [1])] = some mt₁ ∧
      newWith lengthHash ⟨4, .treeBuild, true, false⟩ [some (lengthHash [1]), some (lengthHash [2]),
        some (lengthHash [1])] = some mt₂ ∧
      newWith lengthHash ⟨0, .proofGenAndTreeBuild, false, true⟩ [some (lengthHash [1]),
        some (lengthHash [2]), some (lengthHash [1])] = some mt₃ ∧
      mt₁.root = mt₂.root ∧ mt₂.root = mt₃.root ∧ mt₁.proofs = mt₃.proofs ∧
      ∃ p, mt₂.generateProof (some (lengthHash [1])) = some p ∧
        verify lengthHash (some (lengthHash [1])) p mt₂.root = some true := by
  have hdigest : ∀ block ∈ [[1], [2], [1]], (some (lengthHash block)).isSome = true :=
    fun _ _ => rfl
  obtain ⟨mt₁, mt₂, mt₃, h₁, h₂, h₃, hroot, hroot', hproofs, -, hmember⟩ :=
    modes_agree lengthHash (fun block => some (lengthHash block)) [[1], [2], [1]] (by decide)
      hdigest ⟨0, .proofGen, false, false⟩ ⟨4, .treeBuild, true, false⟩
      ⟨0, .proofGenAndTreeBuild, false, true⟩ rfl rfl rfl
  exact ⟨hdigest, mt₁, mt₂, mt₃, h₁, h₂, h₃, hroot, hroot', hproofs, (hmember [1] mem_cons_self).1⟩

end MassBFT.Replication
