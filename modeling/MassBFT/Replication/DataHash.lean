import MassBFT.Replication.Binding
import MassBFT.Replication.Block

/-!
# What a data hash identifies

`GenerateMerkleTree` hashes the payloads of a batch, pads every odd level with its last node,
takes a single request twice, and hashes pairs of digests with the same function as payloads.
**A hash without collisions then identifies the padded tree of the batch, not the batch**:
three requests and the same three with the last one repeated have one tree.

`requestTree` is that tree before any hashing. Two batches with one root have one tree
(`root_eq_iff`), unless a payload of 64 bytes can stand for a pair of digests; and a tree
together with the number of requests gives the payloads back (`payloads_eq_of_length`).
-/

set_option autoImplicit false

namespace MassBFT.Replication

open List HashTree

/-! ## Hashing a tree -/

section

variable (sha256 : Bytes → HashString)

/-- The hash of a tree of payloads. -/
def rootOf : LeafTree Bytes → HashString
  | .leaf payload => sha256 payload
  | .node l r => hashFunc sha256 (rootOf l) (rootOf r)

/-- Everything that is hashed for a tree. -/
def hashedInputs : LeafTree Bytes → List Bytes
  | .leaf payload => [payload]
  | .node l r =>
    ((rootOf sha256 l).bytes ++ (rootOf sha256 r).bytes) :: (hashedInputs l ++ hashedInputs r)

end

/-- Somewhere a payload of 64 bytes stands where the other tree has a pair of digests. -/
def Clash : LeafTree Bytes → LeafTree Bytes → Prop
  | .leaf _, .leaf _ => False
  | .leaf payload, .node _ _ => payload.length = 64
  | .node _ _, .leaf payload => payload.length = 64
  | .node l r, .node l' r' => Clash l l' ∨ Clash r r'

theorem not_clash_of_perfect {k : Nat} {t u : LeafTree Bytes} (ht : t.Perfect k)
    (hu : u.Perfect k) : ¬ Clash t u := by
  induction ht generalizing u with
  | leaf a =>
    cases hu
    exact fun h => h
  | node _ _ ihl ihr =>
    cases hu with
    | node hl hr =>
      rintro (h | h)
      · exact ihl hl h
      · exact ihr hr h

theorem not_clash_of_leaves {t u : LeafTree Bytes} (ht : ∀ p ∈ t.leaves, p.length ≠ 64)
    (hu : ∀ p ∈ u.leaves, p.length ≠ 64) : ¬ Clash t u := by
  induction t generalizing u with
  | leaf a =>
    cases u with
    | leaf b => exact fun h => h
    | node l r => exact ht a (mem_singleton_self a)
  | node l r ihl ihr =>
    cases u with
    | leaf b => exact hu b (mem_singleton_self b)
    | node l' r' =>
      rintro (h | h)
      · exact ihl (fun p hp => ht p (mem_append_left _ hp))
          (fun p hp => hu p (mem_append_left _ hp)) h
      · exact ihr (fun p hp => ht p (mem_append_right _ hp))
          (fun p hp => hu p (mem_append_right _ hp)) h

section

variable {sha256 : Bytes → HashString}

theorem length_pair (a b : HashString) : (a.bytes ++ b.bytes).length = 64 := by
  rw [length_append, a.size, b.size]

/-- **One root, one tree**, if no two inputs collide and no payload stands against a pair. -/
theorem rootOf_inj {t u : LeafTree Bytes}
    (hfree : NoCollision sha256 (hashedInputs sha256 t ++ hashedInputs sha256 u))
    (hclash : ¬ Clash t u) (h : rootOf sha256 t = rootOf sha256 u) : t = u := by
  induction t generalizing u with
  | leaf a =>
    have ha : a ∈ hashedInputs sha256 (.leaf a) ++ hashedInputs sha256 u :=
      mem_append_left _ (mem_singleton_self a)
    cases u with
    | leaf b =>
      rw [hfree a ha b (mem_append_right _ (mem_singleton_self b)) h]
    | node l r =>
      refine absurd ?_ hclash
      have hinput := hfree a ha _ (mem_append_right _ mem_cons_self) h
      rw [Clash, hinput]
      exact length_pair _ _
  | node l r ihl ihr =>
    have hpair := @List.mem_append_left _ _ (hashedInputs sha256 (.node l r))
      (hashedInputs sha256 u) mem_cons_self
    cases u with
    | leaf b =>
      refine absurd ?_ hclash
      have hinput := hfree _ hpair b (mem_append_right _ (mem_singleton_self b)) h
      rw [Clash, ← hinput]
      exact length_pair _ _
    | node l' r' =>
      have hinput := hfree _ hpair _ (mem_append_right _ mem_cons_self) h
      obtain ⟨hl, hr⟩ := Prod.mk.inj (bytes_append_inj hinput)
      have hsub : ∀ v w, (∀ a ∈ hashedInputs sha256 v, a ∈ hashedInputs sha256 (.node l r)) →
          (∀ a ∈ hashedInputs sha256 w, a ∈ hashedInputs sha256 (.node l' r')) →
          NoCollision sha256 (hashedInputs sha256 v ++ hashedInputs sha256 w) := by
        intro v w hv hw
        refine hfree.mono fun a ha => ?_
        rcases mem_append.mp ha with ha | ha
        · exact mem_append_left _ (hv a ha)
        · exact mem_append_right _ (hw a ha)
      rw [ihl (hsub l l' (fun a ha => mem_cons_of_mem _ (mem_append_left _ ha))
          (fun a ha => mem_cons_of_mem _ (mem_append_left _ ha)))
          (fun hc => hclash (.inl hc)) hl,
        ihr (hsub r r' (fun a ha => mem_cons_of_mem _ (mem_append_right _ ha))
          (fun a ha => mem_cons_of_mem _ (mem_append_right _ ha)))
          (fun hc => hclash (.inr hc)) hr]

end

/-! ## The tree of a batch -/

def payloads (userRequests : List Envelop) : List Bytes := userRequests.map Envelop.payload

/-- The payloads that become leaves: a single request is taken twice. -/
def leafPayloads (userRequests : List Envelop) : List Bytes :=
  payloads (userRequests ++ if userRequests.length = 1 then userRequests else [])

/-- The depth of the tree over a batch. -/
def requestDepth (userRequests : List Envelop) : Nat :=
  MerkleTree.calTreeDepth (leafPayloads userRequests).length

/-- The tree over a batch, with all its padding. -/
def requestTree (userRequests : List Envelop) : Option (LeafTree Bytes) :=
  top (leafPayloads userRequests) (requestDepth userRequests)

section

variable {sha256 : Bytes → HashString} {userRequests : List Envelop}
  {validateHandle : Option ValidateHandle} {mt : MerkleTree}

/-- **`GenerateMerkleTree` hashes the tree of the batch.** -/
theorem generateMerkleTree_root
    (h : generateMerkleTree sha256 userRequests validateHandle = some mt) :
    2 ≤ (leafPayloads userRequests).length ∧
      ∃ t, requestTree userRequests = some t ∧ mt.root = rootOf sha256 t := by
  obtain ⟨leaves, hleaves, hbuilt⟩ := MerkleTree.new_built (generateMerkleTree_unchecked h)
  have hmap : leaves = ((leafPayloads userRequests).map LeafTree.leaf).map (rootOf sha256) := by
    have hsome : leaves.map some = (leafPayloads userRequests).map fun p => some (sha256 p) := by
      rw [← hleaves, ← map_append, leafPayloads, payloads, map_map]
      rfl
    apply map_injective_iff.mpr (Option.some_injective _)
    rw [hsome, map_map, map_map]
    rfl
  have hlen : leaves.length = (leafPayloads userRequests).length := by
    rw [hmap, length_map, length_map]
  have hroot := hbuilt.root_eq
  rw [hbuilt.depth_eq, hlen, hmap, @level_map _ LeafTree.node _ _ (rootOf sha256) (fun _ _ => rfl),
    @parents_map _ LeafTree.node _ _ (rootOf sha256) (fun _ _ => rfl), getElem?_map,
    Option.map_eq_some_iff] at hroot
  obtain ⟨t, ht, hroot⟩ := hroot
  exact ⟨hlen ▸ hbuilt.two_le, t, ht, hroot.symm⟩

theorem isPrefix_leaves_requestTree (htwo : 2 ≤ (leafPayloads userRequests).length)
    {t : LeafTree Bytes} (h : requestTree userRequests = some t) :
    leafPayloads userRequests <+: t.leaves :=
  isPrefix_leaves_top (MerkleTree.depth_pos htwo) (Nat.le_pow_clog (by omega) _) h

theorem mem_leafPayloads {p : Bytes} (h : p ∈ leafPayloads userRequests) :
    p ∈ payloads userRequests := by
  rw [leafPayloads, payloads, map_append] at h
  rcases mem_append.mp h with h | h
  · exact h
  · split_ifs at h
    · exact h
    · cases h

end

section

variable {sha256 : Bytes → HashString} {A B : List Envelop}
  {validateA validateB : Option ValidateHandle} {mtA mtB : MerkleTree}

/-- A batch is given back by its tree and the number of its requests. -/
theorem payloads_eq_of_length (htwo : 2 ≤ (leafPayloads A).length)
    (hlen : A.length = B.length) {t : LeafTree Bytes} (hA : requestTree A = some t)
    (hB : requestTree B = some t) : payloads A = payloads B := by
  have hsame : (leafPayloads A).length = (leafPayloads B).length := by
    simp only [leafPayloads, payloads, length_map, length_append, hlen]
    split_ifs
    · exact congrArg _ hlen
    · rfl
  have hprefix := isPrefix_leaves_requestTree htwo hA
  have hprefix' := isPrefix_leaves_requestTree (hsame ▸ htwo) hB
  have hleaf : leafPayloads A = leafPayloads B := by
    rw [prefix_iff_eq_take.mp hprefix, prefix_iff_eq_take.mp hprefix', hsame]
  simp only [leafPayloads, payloads, map_append] at hleaf
  exact (append_inj hleaf (by rw [length_map, length_map, hlen])).1

/-- The trees have the same depth, or no payload has the length of a pair of digests. -/
def Separated (A B : List Envelop) : Prop :=
  requestDepth A = requestDepth B ∨ ∀ p ∈ payloads A ++ payloads B, p.length ≠ 64

/-- Two batches that differ, and that padding makes one tree. -/
def PaddedAlike (A B : List Envelop) : Prop :=
  payloads A ≠ payloads B ∧ requestTree A = requestTree B

/-- What is hashed for a batch. -/
def batchInputs (sha256 : Bytes → HashString) (userRequests : List Envelop) : List Bytes :=
  (requestTree userRequests).toList.flatMap (hashedInputs sha256)

theorem Separated.not_clash (h : Separated A B) (hA : 2 ≤ (leafPayloads A).length)
    (hB : 2 ≤ (leafPayloads B).length) {t u : LeafTree Bytes} (ht : requestTree A = some t)
    (hu : requestTree B = some u) : ¬ Clash t u := by
  have hdA := MerkleTree.depth_pos hA
  have hdB := MerkleTree.depth_pos hB
  rcases h with hdepth | hlen
  · have hperfect := perfect_top hdA ht
    change t.Perfect (requestDepth A) at hperfect
    rw [hdepth] at hperfect
    exact not_clash_of_perfect hperfect (perfect_top hdB hu)
  · refine not_clash_of_leaves (fun p hp => hlen p ?_) (fun p hp => hlen p ?_)
    · exact mem_append_left _ (mem_leafPayloads (mem_leaves_top hdA ht p hp))
    · exact mem_append_right _ (mem_leafPayloads (mem_leaves_top hdB hu p hp))

/-- **Two batches have one root exactly if they have one tree.** -/
theorem root_eq_iff (hfree : NoCollision sha256 (batchInputs sha256 A ++ batchInputs sha256 B))
    (hsep : Separated A B) (hA : generateMerkleTree sha256 A validateA = some mtA)
    (hB : generateMerkleTree sha256 B validateB = some mtB) :
    mtA.root = mtB.root ↔ requestTree A = requestTree B := by
  obtain ⟨htwoA, t, ht, hrootA⟩ := generateMerkleTree_root hA
  obtain ⟨htwoB, u, hu, hrootB⟩ := generateMerkleTree_root hB
  rw [hrootA, hrootB, ht, hu, Option.some.injEq]
  constructor
  · intro hroot
    refine rootOf_inj ?_ (hsep.not_clash htwoA htwoB ht hu) hroot
    rw [batchInputs, batchInputs, ht, hu] at hfree
    simpa using hfree
  · intro h
    rw [h]

/-- Batches of one length are never padded to one tree. -/
theorem not_paddedAlike_of_length (hlen : A.length = B.length)
    (hA : generateMerkleTree sha256 A validateA = some mtA) : ¬ PaddedAlike A B := by
  rintro ⟨hdiff, htree⟩
  obtain ⟨htwo, t, ht, -⟩ := generateMerkleTree_root hA
  exact hdiff (payloads_eq_of_length htwo hlen ht (htree ▸ ht))

end

/-! ## Which batches the data hash tells apart -/

/-- **The data hash identifies the batch exactly up to padding.** -/
theorem dataHash_identifies_iff {sha256 : Bytes → HashString} {A B : List Envelop}
    {validateA validateB : Option ValidateHandle} {mtA mtB : MerkleTree}
    (hfree : NoCollision sha256 (batchInputs sha256 A ++ batchInputs sha256 B))
    (hsep : Separated A B) (hA : generateMerkleTree sha256 A validateA = some mtA)
    (hB : generateMerkleTree sha256 B validateB = some mtB) :
    (mtA.root = mtB.root → payloads A = payloads B) ↔ ¬ PaddedAlike A B := by
  rw [root_eq_iff hfree hsep hA hB, PaddedAlike, not_and', not_not]

/-- A request without a signature. -/
def plainRequest (payload : Bytes) : Envelop := ⟨payload, ⟨[], ⟨List.replicate 64 0, length_zeros⟩⟩⟩

/-- Three requests with different payloads, and the same three in another order. -/
theorem dataHash_identifies_order : ∃ mtA mtB,
    generateMerkleTree lengthHash ([[1], [2], [3]].map plainRequest) none = some mtA ∧
    generateMerkleTree lengthHash ([[1], [3], [2]].map plainRequest) none = some mtB ∧
    mtA.root ≠ mtB.root := by
  obtain ⟨mtA, hA⟩ : ∃ mt, generateMerkleTree lengthHash
    ([[1], [2], [3]].map plainRequest) none = some mt := ⟨_, rfl⟩
  obtain ⟨mtB, hB⟩ : ∃ mt, generateMerkleTree lengthHash
    ([[1], [3], [2]].map plainRequest) none = some mt := ⟨_, rfl⟩
  have hsep : Separated ([[1], [2], [3]].map plainRequest) ([[1], [3], [2]].map plainRequest) :=
    .inl rfl
  have hidentifies := (dataHash_identifies_iff (by decide +kernel) hsep hA hB).mpr
    (not_paddedAlike_of_length rfl hA)
  exact ⟨mtA, mtB, hA, hB, fun hroot => absurd (hidentifies hroot) (by decide)⟩

/-- The last of three requests is repeated. -/
theorem not_every_root_identifies :
    ¬ ∀ (sha256 : Bytes → HashString) (A B : List Envelop) (mtA mtB : MerkleTree),
      A ≠ [] → B ≠ [] → NoCollision sha256 (batchInputs sha256 A ++ batchInputs sha256 B) →
      generateMerkleTree sha256 A none = some mtA → generateMerkleTree sha256 B none = some mtB →
      mtA.root = mtB.root → payloads A = payloads B := by
  intro h
  obtain ⟨mtA, hA⟩ : ∃ mt, generateMerkleTree lengthHash
    ([[1], [2], [3]].map plainRequest) none = some mt := ⟨_, rfl⟩
  obtain ⟨mtB, hB⟩ : ∃ mt, generateMerkleTree lengthHash
    ([[1], [2], [3], [3]].map plainRequest) none = some mt := ⟨_, rfl⟩
  have hfree : NoCollision lengthHash (batchInputs lengthHash ([[1], [2], [3]].map plainRequest) ++
      batchInputs lengthHash ([[1], [2], [3], [3]].map plainRequest)) := by decide +kernel
  have htree : requestTree ([[1], [2], [3]].map plainRequest) =
      requestTree ([[1], [2], [3], [3]].map plainRequest) := by decide +kernel
  have hroot := (root_eq_iff hfree (.inl rfl) hA hB).mpr htree
  exact absurd (h lengthHash _ _ mtA mtB (by simp) (by simp) hfree hA hB hroot) (by decide)

end MassBFT.Replication
