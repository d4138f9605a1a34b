import MassBFT.Replication.DataHash
import MassBFT.Replication.MerkleModes

/-!
# A client that asks for single transactions

`getTxWithProof` answers with an envelope and a Merkle proof that leads from its payload to the data
hash of a block, and `ValidateUserRequestMerkleProof` climbs along the proof. The client does not
know how deep the tree is: **it accepts the requests of the block, and every inner node of the tree
as well**, because a node is the hash of 64 bytes that may as well be a payload
(`light_client_accepts`).
-/

set_option autoImplicit false

namespace MassBFT.Client

open List Replication HashTree

/-! ## What the client accepts -/

section

variable (sha256 : Bytes → HashString)

/-- `ValidateUserRequestMerkleProof` -/
def validateUserRequestMerkleProof (root : HashString) (proof : Proof) (envelop : Envelop) : Bool :=
  verify sha256 (envelop.digest sha256 none) proof root == some true

variable {sha256} {t : LeafTree Bytes} {p : Bytes}

theorem validate_iff {root : HashString} {proof : Proof} {envelop : Envelop} :
    validateUserRequestMerkleProof sha256 root proof envelop = true ↔
      climb (hashFunc sha256) proof.path proof.siblings (sha256 envelop.payload) = root := by
  simp [validateUserRequestMerkleProof, verify, Envelop.digest]

theorem leaves_or_pair (hp : p ∈ hashedInputs sha256 t) : p ∈ t.leaves ∨ p.length = 64 := by
  induction t with
  | leaf q => exact .inl hp
  | node l r ihl ihr =>
    rcases mem_cons.mp hp with rfl | hp
    · exact .inr (length_pair _ _)
    · rcases mem_append.mp hp with hp | hp
      · exact (ihl hp).imp_left (mem_append_left _)
      · exact (ihr hp).imp_left (mem_append_right _)

/-- From every input of the tree one can climb to its root. -/
theorem exists_climb (hp : p ∈ hashedInputs sha256 t) : ∃ path siblings,
    path < 2 ^ siblings.length ∧
      climb (hashFunc sha256) path siblings (sha256 p) = rootOf sha256 t := by
  induction t with
  | leaf q =>
    rw [mem_singleton.mp hp]
    exact ⟨0, [], Nat.one_pos, rfl⟩
  | node l r ihl ihr =>
    rcases mem_cons.mp hp with rfl | hp
    · exact ⟨0, [], Nat.one_pos, rfl⟩
    · rcases mem_append.mp hp with hp | hp
      · obtain ⟨path, siblings, hlt, hclimb⟩ := ihl hp
        refine ⟨path + 1 * 2 ^ siblings.length, siblings ++ [rootOf sha256 r], ?_, ?_⟩
        · rw [length_append, length_singleton, pow_succ]
          omega
        · rw [climb_concat, Nat.add_mul_div_right _ _ (Nat.two_pow_pos _), Nat.div_eq_of_lt hlt,
            if_pos rfl, climb_add_mul, hclimb]
          rfl
      · obtain ⟨path, siblings, hlt, hclimb⟩ := ihr hp
        refine ⟨path, siblings ++ [rootOf sha256 l], ?_, ?_⟩
        · rw [length_append, length_singleton, pow_succ]
          omega
        · rw [climb_concat, Nat.div_eq_of_lt hlt, if_neg (by simp), hclimb]
          rfl

/-- **Who climbs to the root is an input of the tree**, whatever the proof, if no two inputs collide
and no leaf can be taken for a pair. -/
theorem mem_hashedInputs_of_climb {path : Nat} {siblings : List HashString}
    (hfree : NoCollision sha256 (hashedInputs sha256 t ++ verifyInputs sha256 p ⟨siblings, path⟩))
    (h64 : ∀ q ∈ t.leaves, q.length ≠ 64)
    (h : climb (hashFunc sha256) path siblings (sha256 p) = rootOf sha256 t) :
    p ∈ hashedInputs sha256 t := by
  induction siblings using List.reverseRecOn generalizing t with
  | nil =>
    have hp := mem_append_right (hashedInputs sha256 t)
      (mem_cons_self : p ∈ verifyInputs sha256 p ⟨[], path⟩)
    cases t with
    | leaf q =>
      rw [hfree p hp q (mem_append_left _ (mem_singleton_self q)) h]
      exact mem_singleton_self q
    | node l r =>
      rw [hfree p hp _ (mem_append_left _ mem_cons_self) h]
      exact mem_cons_self
  | append_singleton siblings s ih =>
    obtain ⟨a, b, hab, hnode, hside⟩ :=
      @climb_concat_pair _ (hashFunc sha256) path siblings s (sha256 p)
    have hinput : a.bytes ++ b.bytes ∈
        hashedInputs sha256 t ++ verifyInputs sha256 p ⟨siblings ++ [s], path⟩ :=
      mem_append_right _ (mem_cons_of_mem _ (mem_map.mpr ⟨(a, b), hab, rfl⟩))
    have hroot : sha256 (a.bytes ++ b.bytes) = rootOf sha256 t := hnode.symm.trans h
    cases t with
    | leaf q =>
      have hq := hfree _ hinput q (mem_append_left _ (mem_singleton_self q)) hroot
      exact absurd (hq ▸ length_pair a b) (h64 q (mem_singleton_self q))
    | node l r =>
      have hpair := hfree _ hinput _ (mem_append_left _ mem_cons_self) hroot
      obtain ⟨rfl, rfl⟩ := Prod.mk.inj (bytes_append_inj hpair)
      -- a shorter climb ends in a subtree
      have hsub : ∀ u, (∀ x ∈ hashedInputs sha256 u, x ∈ hashedInputs sha256 l ++
          hashedInputs sha256 r) → NoCollision sha256
          (hashedInputs sha256 u ++ verifyInputs sha256 p ⟨siblings, path⟩) := by
        intro u hu
        refine hfree.mono fun x hx => ?_
        rcases mem_append.mp hx with hx | hx
        · exact mem_append_left _ (mem_cons_of_mem _ (hu x hx))
        · refine mem_append_right _ ?_
          rw [verifyInputs, pairs_concat, map_append, ← cons_append]
          exact mem_append_left _ hx
      refine mem_cons_of_mem _ ?_
      rcases hside with hside | hside
      · exact mem_append_left _ (ih (hsub l fun x => mem_append_left _)
          (fun q hq => h64 q (mem_append_left _ hq)) hside)
      · exact mem_append_right _ (ih (hsub r fun x => mem_append_right _)
          (fun q hq => h64 q (mem_append_right _ hq)) hside)

/-- The proofs of the tree lead from the payloads of the requests to its root. -/
theorem exists_proof_of_request {userRequests : List Envelop}
    {validateHandle : Option ValidateHandle} {mt : MerkleTree}
    (h : generateMerkleTree sha256 userRequests validateHandle = some mt)
    (hp : p ∈ payloads userRequests) :
    ∃ proof ∈ mt.proofs,
      climb (hashFunc sha256) proof.path proof.siblings (sha256 p) = mt.root := by
  obtain ⟨leaves, hleaves, hbuilt⟩ := MerkleTree.new_built (generateMerkleTree_unchecked h)
  obtain ⟨e, he, rfl⟩ := mem_map.mp hp
  have hmem : some (sha256 e.payload) ∈ leaves.map some := by
    rw [← hleaves]
    exact mem_append_left _ (mem_map_of_mem he)
  obtain ⟨x, hx, hxe⟩ := mem_map.mp hmem
  cases hxe
  obtain ⟨i, hi⟩ := mem_iff_getElem?.mp hx
  obtain ⟨proof, hproof, -, hclimb⟩ := hbuilt.proof hi
  exact ⟨proof, mem_of_getElem? hproof, hclimb⟩

end

/-- **What the client accepts, for the data hash of a block.** With a hash without collisions an
accepted envelope is a request of the block, or 64 bytes of the tree that no client has ever sent.
Each request is accepted with a proof of the tree, and for each input of the tree there is a proof
that the client accepts. -/
theorem light_client_accepts {sha256 : Bytes → HashString} {userRequests : List Envelop}
    {validateHandle : Option ValidateHandle} {mt : MerkleTree}
    (h : generateMerkleTree sha256 userRequests validateHandle = some mt)
    (h64 : ∀ e ∈ userRequests, e.payload.length ≠ 64) :
    ∃ t, requestTree userRequests = some t ∧ ∀ envelop : Envelop,
      (∀ proof, NoCollision sha256
          (hashedInputs sha256 t ++ verifyInputs sha256 envelop.payload proof) →
        validateUserRequestMerkleProof sha256 mt.root proof envelop = true →
        envelop.payload ∈ payloads userRequests ∨
          envelop.payload.length = 64 ∧ envelop.payload ∈ hashedInputs sha256 t) ∧
      (envelop.payload ∈ payloads userRequests → ∃ proof ∈ mt.proofs,
        validateUserRequestMerkleProof sha256 mt.root proof envelop = true) ∧
      (envelop.payload ∈ hashedInputs sha256 t →
        ∃ proof, validateUserRequestMerkleProof sha256 mt.root proof envelop = true) := by
  obtain ⟨htwo, t, ht, hroot⟩ := generateMerkleTree_root h
  have hleaves : ∀ q ∈ t.leaves, q ∈ payloads userRequests := fun q hq =>
    mem_leafPayloads (mem_leaves_top (MerkleTree.depth_pos htwo) ht q hq)
  have hleaf64 : ∀ q ∈ t.leaves, q.length ≠ 64 := by
    intro q hq
    obtain ⟨e, he, rfl⟩ := mem_map.mp (hleaves q hq)
    exact h64 e he
  refine ⟨t, ht, fun envelop =>
    ⟨fun proof hfree haccept => ?_, fun hrequest => ?_, fun hinput => ?_⟩⟩
  · have hclimb := (validate_iff.mp haccept).trans hroot
    have hmem := mem_hashedInputs_of_climb hfree hleaf64 hclimb
    rcases leaves_or_pair hmem with hleaf | hlen
    · exact .inl (hleaves _ hleaf)
    · exact .inr ⟨hlen, hmem⟩
  · obtain ⟨proof, hproof, hclimb⟩ := exists_proof_of_request h hrequest
    exact ⟨proof, hproof, validate_iff.mpr hclimb⟩
  · obtain ⟨path, siblings, -, hclimb⟩ := exists_climb hinput
    exact ⟨⟨siblings, path⟩, validate_iff.mpr (hclimb.trans hroot.symm)⟩

/-- A request passes, and so do two hashes of the tree. -/
theorem light_client_accepts_pair : ∃ mt proof proof',
    generateMerkleTree lengthHash ([[1], [2], [3]].map plainRequest) none = some mt ∧
      validateUserRequestMerkleProof lengthHash mt.root proof (plainRequest [2]) = true ∧
      validateUserRequestMerkleProof lengthHash mt.root proof'
        (plainRequest ((lengthHash [1]).bytes ++ (lengthHash [2]).bytes)) = true := by
  obtain ⟨mt, h⟩ : ∃ mt, generateMerkleTree lengthHash ([[1], [2], [3]].map plainRequest) none =
    some mt := ⟨_, rfl⟩
  obtain ⟨t, ht, haccepts⟩ := light_client_accepts h (by decide)
  have hpair : ∃ t, requestTree ([[1], [2], [3]].map plainRequest) = some t ∧
      (lengthHash [1]).bytes ++ (lengthHash [2]).bytes ∈ hashedInputs lengthHash t :=
    ⟨_, rfl, by decide +kernel⟩
  obtain ⟨t', ht', hmem⟩ := hpair
  obtain rfl := Option.some.inj (ht.symm.trans ht')
  obtain ⟨proof, -, hproof⟩ := (haccepts (plainRequest [2])).2.1 (by decide)
  obtain ⟨proof', hproof'⟩ := (haccepts (plainRequest _)).2.2 hmem
  exact ⟨mt, proof, proof', h, hproof, hproof'⟩

end MassBFT.Client
