import MassBFT.Replication.Instances

/-!
# What the root binds a shard to

The validator climbs from every shard to the root, along the path and with the siblings that
come with the shard. Neither the path nor the number of siblings is compared with the slot
that the shard is stored in. **So the root binds a shard to its proof, and the proof is the
sender's**: the honest bytes of one range are accepted for another one.

`received` is what the bytes say, without any check, and `received_of_accepted` says that an
accepted range of new slots stores just that. A shard is the encoder's exactly if the
encoder's shard of the slot passes with the proof that was received for it, and a proof with the
path and the length of the slot is enough (`stored_eq_iff_verifies`).
-/

set_option autoImplicit false

namespace MassBFT.Replication

open Function List

/-! ## What the bytes say -/

section

variable (w : Wire)

/-- The shards of a slot with their proofs. -/
def parseSlot (depth slot : Nat) : Nat → SlotCursor → Except Fault (Cursor × List (Proof × Bytes))
  | 0, s => .ok (s.cursor, [])
  | n + 1, s =>
    match parsePiece w depth slot s with
    | .error e => .error e
    | .ok (s, piece) =>
      match parseSlot depth slot n s with
      | .error e => .error e
      | .ok (c, pieces) => .ok (c, piece :: pieces)

/-- The shards of `n` slots, none of which is skipped. -/
def parseSlots (depth instanceCount : Nat) :
    Nat → Nat → Cursor → Except Fault (List (List (Proof × Bytes)))
  | 0, _, _ => .ok []
  | n + 1, i, c =>
    match parseSlot w depth i instanceCount ⟨c, 0, instanceCount * depth⟩ with
    | .error e => .error e
    | .ok (c, pieces) =>
      match parseSlots depth instanceCount n (i + 1) c with
      | .error e => .error e
      | .ok slots => .ok (pieces :: slots)

/-- The shard that a range has for an instance of a slot, and its proof. -/
def received (cfg : Config) (raw : Bytes) (start stop i k : Nat) : Proof × Bytes :=
  match w.getInt64 raw with
  | none => default
  | some (depth, rest) =>
    match parseSlots w depth.toNat cfg.instanceCount (stop - start) start
      (Cursor.first depth.toNat rest) with
    | .error _ => default
    | .ok slots => (slots.getD (i - start) []).getD k default

end

section

variable {sha256 : Bytes → HashString} {w : Wire} {root : HashString} {depth inst : Nat}

/-- The pieces of a slot, as they are stored once all of them have been verified. -/
structure StoredAs (sha256 : Bytes → HashString) (root : HashString) (inst : Nat)
    (pieces : List (Proof × Bytes)) (fragments : List Bytes) : Prop where
  length : pieces.length = inst
  fragments : fragments = pieces.map Prod.snd
  verified : ∀ p ∈ pieces, verify sha256 (some (sha256 p.2)) p.1 root = some true

theorem parseSlot_of_readPieces {slot n : Nat} {s : SlotCursor} {c : Cursor}
    {fragments : List Bytes}
    (h : readPieces sha256 w root depth slot n s = .ok (some c, fragments)) :
    ∃ pieces, parseSlot w depth slot n s = .ok (c, pieces) ∧
      StoredAs sha256 root n pieces fragments := by
  induction n generalizing s fragments with
  | zero =>
    cases h
    exact ⟨[], rfl, rfl, rfl, by simp⟩
  | succ n ih =>
    rw [readPieces] at h
    cases hparse : parsePiece w depth slot s with
    | error e => rw [hparse] at h; cases h
    | ok t =>
      obtain ⟨t, proof, fragment⟩ := t
      rw [hparse] at h
      dsimp only at h
      by_cases hver : verify sha256 (some (sha256 fragment)) proof root = some true
      swap
      · rw [if_neg hver] at h
        cases h
      rw [if_pos hver] at h
      cases hread : readPieces sha256 w root depth slot n t with
      | error e => rw [hread] at h; cases h
      | ok u =>
        obtain ⟨c', rest⟩ := u
        rw [hread] at h
        cases h
        obtain ⟨pieces, hpieces, hlen, hfrag, hall⟩ := ih hread
        refine ⟨(proof, fragment) :: pieces, ?_, ?_, ?_, ?_⟩
        · rw [parseSlot, hparse]
          dsimp only
          rw [hpieces]
        · rw [length_cons, hlen]
        · rw [map_cons, hfrag]
        · intro p hp
          rcases mem_cons.mp hp with rfl | hp
          · exact hver
          · exact hall p hp

theorem parseSlots_of_validateSlots {n i : Nat} {c : Cursor} {storage storage' : Storage}
    (hfresh : ∀ j, i ≤ j → j < i + n → (storage j).cacheGuard = false)
    (h : validateSlots sha256 w root depth inst n i c storage = .ok (true, storage')) :
    ∃ slots, parseSlots w depth inst n i c = .ok slots ∧
      (∀ j, j < n → ∃ pieces, slots[j]? = some pieces ∧
        StoredAs sha256 root inst pieces (storage' (i + j)).encodeFragment) ∧
      ∀ j, j < i → storage' j = storage j := by
  induction n generalizing i c storage with
  | zero =>
    cases h
    exact ⟨[], rfl, by simp, fun _ _ => rfl⟩
  | succ n ih =>
    rcases validateSlots_succ h with ⟨hguard, -⟩ | ⟨-, c', fragments, hread, hnext⟩
    · rw [hfresh i (le_refl _) (by omega)] at hguard
      cases hguard
    · rcases hnext with ⟨-, hfalse, -⟩ | ⟨c', rfl, hrest⟩
      · cases hfalse
      obtain ⟨pieces, hpieces, hstored⟩ := parseSlot_of_readPieces hread
      obtain ⟨slots, hslots, hall, hbefore⟩ := @ih (i + 1) c' _ (fun j h1 h2 => by
        rw [update_of_ne (by omega : j ≠ i)]
        exact hfresh j (by omega) (by omega)) hrest
      refine ⟨pieces :: slots, ?_, fun j hj => ?_, fun j hj => ?_⟩
      · rw [parseSlots, hpieces]
        dsimp only
        rw [hslots]
      · cases j with
        | zero =>
          refine ⟨pieces, rfl, ?_⟩
          rw [Nat.add_zero, hbefore i (by omega), update_self]
          exact hstored
        | succ j =>
          obtain ⟨p, hp, hstored'⟩ := hall j (by omega)
          rw [Nat.add_right_comm] at hstored'
          exact ⟨p, hp, hstored'⟩
      · rw [hbefore j (by omega), update_of_ne (by omega : j ≠ i)]

/-- **What is accepted on an empty context is what was received, and it verifies.** -/
theorem received_of_accepted {cfg : Config} {raw : Bytes} {start stop : Nat} {storage : Storage}
    (h : validateAndDeserializeFragments sha256 w cfg Storage.empty root raw start stop =
      .ok (true, storage))
    {i k : Nat} (hstart : start ≤ i) (hstop : i < stop) (hk : k < cfg.instanceCount) :
    (storage i).encodeFragment[k]? = some (received w cfg raw start stop i k).2 ∧
      verify sha256 (some (sha256 (received w cfg raw start stop i k).2))
        (received w cfg raw start stop i k).1 root = some true := by
  have hrange : ¬ (stop ≤ start ∨ cfg.fragmentCnt < stop) := by
    intro hout
    rw [validateAndDeserializeFragments, if_pos hout] at h
    cases h
  rw [validateAndDeserializeFragments, if_neg hrange] at h
  rw [received]
  cases hdepth : w.getInt64 raw with
  | none => rw [hdepth] at h; cases h
  | some t =>
    obtain ⟨depth, rest⟩ := t
    rw [hdepth] at h
    dsimp only at h ⊢
    split_ifs at h
    obtain ⟨slots, hslots, hall, -⟩ := parseSlots_of_validateSlots (fun _ _ _ => rfl) h
    obtain ⟨pieces, hpieces, hlen, hfrag, hver⟩ := hall (i - start) (by omega)
    rw [Nat.add_sub_cancel' hstart] at hfrag
    obtain ⟨p, hp⟩ : ∃ p, pieces[k]? = some p :=
      ⟨_, getElem?_eq_getElem (by omega : k < pieces.length)⟩
    have hget : (slots.getD (i - start) []).getD k default = p := by
      simp only [getD_eq_getElem?_getD, hpieces, Option.getD_some, hp]
    rw [show parseSlots w depth.toNat cfg.instanceCount (stop - start) start
      (Cursor.first depth.toNat rest) = .ok slots from hslots]
    dsimp only
    rw [hget, hfrag, getElem?_map, hp]
    exact ⟨rfl, hver p (mem_of_getElem? hp)⟩

end

/-! ## Hashes that do not collide -/

section

variable (sha256 : Bytes → HashString)

/-- What `Verify` hashes. -/
def verifyInputs (block : Bytes) (proof : Proof) : List Bytes :=
  block :: (HashTree.pairs (hashFunc sha256) proof.path proof.siblings (sha256 block)).map
    fun p => p.1.bytes ++ p.2.bytes

/-- No two of the inputs have one hash. -/
def NoCollision (inputs : List Bytes) : Prop :=
  ∀ a ∈ inputs, ∀ b ∈ inputs, sha256 a = sha256 b → a = b

instance (inputs : List Bytes) : Decidable (NoCollision sha256 inputs) :=
  inferInstanceAs (Decidable (∀ a ∈ inputs, ∀ b ∈ inputs, sha256 a = sha256 b → a = b))

variable {sha256}

theorem NoCollision.mono {inputs inputs' : List Bytes} (h : NoCollision sha256 inputs)
    (hsub : ∀ a ∈ inputs', a ∈ inputs) : NoCollision sha256 inputs' :=
  fun a ha b hb => h a (hsub a ha) b (hsub b hb)

theorem bytes_append_inj {a b c d : HashString} (h : a.bytes ++ b.bytes = c.bytes ++ d.bytes) :
    (a, b) = (c, d) := by
  obtain ⟨h1, h2⟩ := append_inj h (a.size.trans c.size.symm)
  obtain ⟨a, _⟩ := a
  obtain ⟨b, _⟩ := b
  obtain ⟨c, _⟩ := c
  obtain ⟨d, _⟩ := d
  obtain rfl : a = c := h1
  obtain rfl : b = d := h2
  rfl

/-- `Verify` looks at as many bits of the path as there are siblings. -/
theorem verify_mod (digest : Option HashString) (p : Proof) (root : HashString) :
    verify sha256 digest { p with path := p.path % 2 ^ p.siblings.length } root =
      verify sha256 digest p root := by
  have hclimb := @HashTree.climb_add_mul _ (hashFunc sha256) (p.path % 2 ^ p.siblings.length)
    (p.path / 2 ^ p.siblings.length) p.siblings
  rw [Nat.mul_comm, Nat.mod_add_div] at hclimb
  simp only [verify, hclimb]

theorem verifyInputs_mod (block : Bytes) (p : Proof) :
    verifyInputs sha256 block { p with path := p.path % 2 ^ p.siblings.length } =
      verifyInputs sha256 block p := by
  have hpairs := @HashTree.pairs_add_mul _ (hashFunc sha256) (p.path % 2 ^ p.siblings.length)
    (p.path / 2 ^ p.siblings.length) p.siblings
  rw [Nat.mul_comm, Nat.mod_add_div] at hpairs
  simp only [verifyInputs, hpairs]

/-- Two blocks that lead to one root along one path, with as many siblings, are equal. -/
theorem verify_inj {path : Nat} {siblings siblings' : List HashString}
    (hlen : siblings.length = siblings'.length) {root : HashString} {x y : Bytes}
    (hfree : NoCollision sha256
      (verifyInputs sha256 x ⟨siblings, path⟩ ++ verifyInputs sha256 y ⟨siblings', path⟩))
    (hx : verify sha256 (some (sha256 x)) ⟨siblings, path⟩ root = some true)
    (hy : verify sha256 (some (sha256 y)) ⟨siblings', path⟩ root = some true) :
    x = y ∧ siblings = siblings' := by
  simp only [verify, Option.map_some, Option.some.injEq, beq_iff_eq] at hx hy
  have hpair : ∀ p ∈ HashTree.pairs (hashFunc sha256) path siblings (sha256 x),
      ∀ q ∈ HashTree.pairs (hashFunc sha256) path siblings' (sha256 y),
      hashFunc sha256 p.1 p.2 = hashFunc sha256 q.1 q.2 → p = q := by
    intro p hp q hq heq
    refine bytes_append_inj (hfree _ ?_ _ ?_ heq)
    · exact mem_append_left _ (mem_cons_of_mem _ (mem_map.mpr ⟨p, hp, rfl⟩))
    · exact mem_append_right _ (mem_cons_of_mem _ (mem_map.mpr ⟨q, hq, rfl⟩))
  obtain ⟨hhash, hsib⟩ := HashTree.climb_inj hlen hpair (hx.trans hy.symm)
  refine ⟨hfree x ?_ y ?_ hhash, hsib⟩
  · exact mem_append_left _ mem_cons_self
  · exact mem_append_right _ mem_cons_self

end

/-! ## Slots -/

section

variable (sha256 : Bytes → HashString) (w : Wire) (cfg : Config) (enc : Encoded)

/-- The encoder's shard of an instance of a slot. -/
def Encoded.fragment (i k : Nat) : Bytes := enc.ecEncodeResult.getD (i * cfg.instanceCount + k) []

/-- What is hashed to build the tree. -/
def Encoded.hashed : List Bytes :=
  (List.range enc.ecEncodeResult.length).flatMap fun q =>
    verifyInputs sha256 (enc.ecEncodeResult.getD q []) (enc.mt.proofs.getD q default)

/-- What is hashed to verify a range, and to verify the encoder's shards in its place. -/
def Encoded.compared (raw : Bytes) (start stop : Nat) : List Bytes :=
  (List.range' start (stop - start)).flatMap fun i =>
    (List.range cfg.instanceCount).flatMap fun k =>
      verifyInputs sha256 (received w cfg raw start stop i k).2
          (received w cfg raw start stop i k).1 ++
        verifyInputs sha256 (enc.fragment cfg i k) (received w cfg raw start stop i k).1

variable {sha256 w cfg enc} {raw : Bytes} {start stop : Nat} {storage : Storage} {i k : Nat}

theorem Encoded.mem_compared (hstart : start ≤ i) (hstop : i < stop) (hk : k < cfg.instanceCount)
    {a : Bytes} (ha : a ∈ verifyInputs sha256 (received w cfg raw start stop i k).2
        (received w cfg raw start stop i k).1 ++
      verifyInputs sha256 (enc.fragment cfg i k) (received w cfg raw start stop i k).1) :
    a ∈ enc.compared sha256 w cfg raw start stop := by
  rw [Encoded.compared, mem_flatMap]
  refine ⟨i, ?_, ?_⟩
  · rw [mem_range'_1]
    omega
  · exact mem_flatMap.mpr ⟨k, mem_range.mpr hk, ha⟩

theorem MerkleTree.Built.proofAt_path {leaves : List HashString} {mt : MerkleTree}
    (h : MerkleTree.Built sha256 leaves mt) {q : Nat} (hq : q < leaves.length) :
    (mt.proofs.getD q default).path = HashTree.pathTo q mt.depth := by
  rw [h.proofs_eq, getD_eq_getElem?_getD, getElem?_map, getElem?_range hq]
  rfl

/-- A proof with the path and the length of the slot is enough. -/
theorem verifies_of_path
    {ec : ErasureCode} {message : Bytes} (hencoded : Encodes sha256 ec cfg message enc)
    (hval : validateAndDeserializeFragments sha256 w cfg Storage.empty enc.mt.root raw start stop =
      .ok (true, storage))
    (hfree : NoCollision sha256 (enc.hashed sha256 ++ enc.compared sha256 w cfg raw start stop))
    (hstart : start ≤ i) (hstop : i < stop) (hle : stop ≤ cfg.fragmentCnt)
    (hk : k < cfg.instanceCount)
    (hlen : (received w cfg raw start stop i k).1.siblings.length = enc.mt.depth)
    (hpath : (received w cfg raw start stop i k).1.path % 2 ^ enc.mt.depth =
      HashTree.pathTo (i * cfg.instanceCount + k) enc.mt.depth) :
    verify sha256 (some (sha256 (enc.fragment cfg i k)))
      (received w cfg raw start stop i k).1 enc.mt.root = some true := by
  obtain ⟨-, hver⟩ := received_of_accepted hval hstart hstop hk
  have hq : i * cfg.instanceCount + k < enc.ecEncodeResult.length := by
    rw [hencoded.length_eq]
    exact lt_mul_of_lt (by omega) hk
  obtain ⟨-, hdepth, hown⟩ := Encoded.proof_at hencoded.built hq
  have hproof := hencoded.built.proofAt_path (by rw [length_map]; exact hq)
  generalize hp : received w cfg raw start stop i k = p at *
  have hfree' : NoCollision sha256 (verifyInputs sha256 p.2 p.1 ++
      verifyInputs sha256 (enc.fragment cfg i k)
        (enc.mt.proofs.getD (i * cfg.instanceCount + k) default)) := by
    refine hfree.mono fun a ha => ?_
    rcases mem_append.mp ha with ha | ha
    · refine mem_append_right _ (Encoded.mem_compared hstart hstop hk ?_)
      rw [hp]
      exact mem_append_left _ ha
    · refine mem_append_left _ ?_
      exact mem_flatMap.mpr ⟨_, mem_range.mpr hq, ha⟩
  rw [← verify_mod, hlen, hpath, ← hproof] at hver
  rw [← verifyInputs_mod p.2 p.1, hlen, hpath, ← hproof] at hfree'
  obtain ⟨heq, -⟩ := verify_inj (hlen.trans hdepth.symm) hfree' hver hown
  rw [← verify_mod, hlen, hpath, ← hproof, ← heq]
  exact hver

end

/-! ## Two shards -/

/-- The encoding of two bytes in two slots. -/
def twoShards : Encoded where
  ecEncodeResult := [[1], [2]]
  mt :=
    { depth := 1
      tree := [[lengthHash [1], lengthHash [2]]]
      root := hashFunc lengthHash (lengthHash [1]) (lengthHash [2])
      proofs := [⟨[lengthHash [2]], 1⟩, ⟨[lengthHash [1]], 0⟩] }

theorem twoShards_encoded : initWithMessage lengthHash (splitCode 2) ⟨2, 0, 1, 1⟩ [1, 2] =
    .ok (some twoShards) := rfl

/-- The encoder's bytes of one of the slots. -/
def slotBytes (i : Nat) : Bytes :=
  (twoShards.serializeFragments littleEndian ⟨2, 0, 1, 1⟩ i (i + 1)).getD []

/-! ## Slots and shards -/

/-- **A shard that is accepted for a slot is the encoder's exactly if the encoder's shard
passes with the proof that was received for the slot**; it is if the path and the number of
siblings of this proof are those of the slot. -/
theorem stored_eq_iff_verifies {sha256 : Bytes → HashString} {w : Wire} {cfg : Config}
    {enc : Encoded} {raw : Bytes} {start stop : Nat} {storage : Storage}
    (hval : validateAndDeserializeFragments sha256 w cfg Storage.empty enc.mt.root raw start stop =
      .ok (true, storage))
    (hfree : NoCollision sha256 (enc.compared sha256 w cfg raw start stop))
    {i k : Nat} (hstart : start ≤ i) (hstop : i < stop) (hk : k < cfg.instanceCount) :
    ((storage i).encodeFragment[k]? = some (enc.fragment cfg i k) ↔
      verify sha256 (some (sha256 (enc.fragment cfg i k)))
        (received w cfg raw start stop i k).1 enc.mt.root = some true) ∧
    ∀ (ec : ErasureCode) (message : Bytes), initWithMessage sha256 ec cfg message = .ok (some enc) →
      NoCollision sha256 (enc.hashed sha256 ++ enc.compared sha256 w cfg raw start stop) →
      stop ≤ cfg.fragmentCnt →
      (received w cfg raw start stop i k).1.siblings.length = enc.mt.depth →
      (received w cfg raw start stop i k).1.path % 2 ^ enc.mt.depth =
        HashTree.pathTo (i * cfg.instanceCount + k) enc.mt.depth →
      (storage i).encodeFragment[k]? = some (enc.fragment cfg i k) := by
  obtain ⟨hstored, hver⟩ := received_of_accepted hval hstart hstop hk
  have hiff : (storage i).encodeFragment[k]? = some (enc.fragment cfg i k) ↔
      verify sha256 (some (sha256 (enc.fragment cfg i k)))
        (received w cfg raw start stop i k).1 enc.mt.root = some true := by
    rw [hstored, Option.some.injEq]
    constructor
    · intro heq
      rw [← heq]
      exact hver
    · intro henc
      exact (verify_inj rfl (hfree.mono fun a ha => Encoded.mem_compared hstart hstop hk ha)
        hver henc).1
  refine ⟨hiff, fun ec message hinit hfree' hle hlen hpath => hiff.mpr ?_⟩
  exact verifies_of_path (initWithMessage_encodes hinit) hval hfree' hstart hstop hle hk hlen hpath

set_option maxRecDepth 10000 in
/-- The encoder's bytes of the first slot, for the first slot. -/
theorem stored_first_slot :
    ∃ storage, validateAndDeserializeFragments lengthHash littleEndian ⟨2, 0, 1, 1⟩ Storage.empty
        twoShards.mt.root (slotBytes 0) 0 1 = .ok (true, storage) ∧
      (storage 0).encodeFragment[0]? = some [1] ∧
      verify lengthHash (some (lengthHash [1]))
        (received littleEndian ⟨2, 0, 1, 1⟩ (slotBytes 0) 0 1 0 0).1 twoShards.mt.root =
          some true := by
  have hval : ∃ storage, validateAndDeserializeFragments lengthHash littleEndian ⟨2, 0, 1, 1⟩
      Storage.empty twoShards.mt.root (slotBytes 0) 0 1 = .ok (true, storage) := ⟨_, rfl⟩
  obtain ⟨storage, hval⟩ := hval
  obtain ⟨hiff, hpath⟩ := @stored_eq_iff_verifies _ _ _ _ _ _ _ _ hval (by decide +kernel) 0 0
    (le_refl 0) Nat.one_pos Nat.one_pos
  have hstored := hpath (splitCode 2) [1, 2] twoShards_encoded (by decide +kernel) (by decide)
    (by decide +kernel) (by decide +kernel)
  exact ⟨storage, hval, hstored, hiff.mp hstored⟩

set_option maxRecDepth 10000 in
/-- The encoder's bytes of the second slot are accepted for the first one. -/
theorem not_every_accepted_slot_bound :
    ¬ ∀ (sha256 : Bytes → HashString) (w : Wire) (ec : ErasureCode) (cfg : Config)
      (message : Bytes) (enc : Encoded) (raw : Bytes) (start stop : Nat) (storage : Storage),
      ec.Restores cfg → initWithMessage sha256 ec cfg message = .ok (some enc) →
      NoCollision sha256 (enc.hashed sha256 ++ enc.compared sha256 w cfg raw start stop) →
      validateAndDeserializeFragments sha256 w cfg Storage.empty enc.mt.root raw start stop =
        .ok (true, storage) →
      ∀ i k, start ≤ i → i < stop → k < cfg.instanceCount →
        (storage i).encodeFragment[k]? = some (enc.fragment cfg i k) := by
  intro h
  have hstored := h lengthHash littleEndian (splitCode 2) ⟨2, 0, 1, 1⟩ [1, 2] twoShards
    (slotBytes 1) 0 1 _ (@splitCode_restores ⟨2, 0, 1, 1⟩ (by norm_num) rfl) twoShards_encoded
    (by decide +kernel) rfl 0 0 (le_refl 0) Nat.one_pos Nat.one_pos
  have hother : (some [2] : Option Bytes) = some [1] := hstored
  exact absurd hother (by decide)

end MassBFT.Replication
