import MassBFT.Replication.Pieces

/-!
# What is serialized is accepted

The sender's half meets `Pieces` here: a serialized range is a depth and well-formed
pieces, and what `keptSize` leaves out of a proof is what the proof before it has in the
same places, so every proof is completed to the one in the tree. Hence **an honest range is
accepted, and stores the encoder's fragments**, whether all of its slots are new or all of
them are filled already (`validate_serialized_fresh`, `validate_serialized_guarded`).

The second half is `regenerateMessage`: from a storage that holds the encoder's fragments
in enough slots, and nothing else, it restores the message (`regenerate_encoded`).
-/

set_option autoImplicit false

namespace MassBFT.Replication

open List

/-! ## The encoder's result -/

/-- What `initWithMessage` leaves in the context. -/
structure Encodes (sha256 : Bytes → HashString) (ec : ErasureCode) (cfg : Config)
    (message : Bytes) (enc : Encoded) : Prop where
  fits : ∀ idx, idx < cfg.instanceCount → idx * partLen cfg message.length ≤ message.length
  length_eq : enc.ecEncodeResult.length = cfg.fragmentCnt * cfg.instanceCount
  shard : ∀ idx, idx < cfg.instanceCount → ∃ shards,
    ec.encode (msgView message (partLen cfg message.length) idx) = some shards ∧
      ∀ j, j < cfg.fragmentCnt →
        enc.ecEncodeResult.getD (j * cfg.instanceCount + idx) [] = shards.getD j []
  built : MerkleTree.Built sha256 (enc.ecEncodeResult.map sha256) enc.mt

theorem built_hashed {sha256 : Bytes → HashString} {blocks : List Bytes} {mt : MerkleTree}
    (h : MerkleTree.new sha256 (blocks.map fun block => some (sha256 block)) = some mt) :
    MerkleTree.Built sha256 (blocks.map sha256) mt := by
  obtain ⟨leaves, hleaves, hbuilt⟩ := MerkleTree.new_built h
  have hmap : blocks.map sha256 = leaves :=
    map_injective_iff.mpr (Option.some_injective _) (by rw [map_map]; exact hleaves)
  rwa [hmap]

theorem new_hashed (sha256 : Bytes → HashString) {blocks : List Bytes} (h : 2 ≤ blocks.length) :
    ∃ mt, MerkleTree.new sha256 (blocks.map fun block => some (sha256 block)) = some mt := by
  obtain ⟨mt, hmt⟩ := @MerkleTree.new_eq_some sha256 (blocks.map sha256) (by simpa using h)
  rw [map_map] at hmt
  exact ⟨mt, hmt⟩

theorem lt_mul_of_lt {n inst j k : Nat} (hj : j < n) (hk : k < inst) : j * inst + k < n * inst := by
  have h1 := Nat.add_one_mul j inst
  have h2 : (j + 1) * inst ≤ n * inst := Nat.mul_le_mul_right inst hj
  omega

theorem range_le_shards (inst : Nat) {start stop n : Nat} (hlt : start < stop) (hle : stop ≤ n) :
    start * inst + (stop - start) * inst ≤ n * inst := by
  rw [← Nat.add_mul]
  exact Nat.mul_le_mul_right _ (by omega)

theorem initWithMessage_encodes {sha256 : Bytes → HashString} {ec : ErasureCode} {cfg : Config}
    {message : Bytes} {enc : Encoded} (h : initWithMessage sha256 ec cfg message = .ok (some enc)) :
    Encodes sha256 ec cfg message enc := by
  unfold initWithMessage at h
  dsimp only at h
  split_ifs at h with hany
  cases hm : (List.range cfg.instanceCount).mapM
      (fun idx => ec.encode (msgView message (partLen cfg message.length) idx)) with
  | none => rw [hm] at h; cases h
  | some results =>
    rw [hm] at h
    dsimp only at h
    split at h
    · cases h
    · rename_i mt hmt
      cases h
      have hres := mapM_eq_some.mp hm
      have hlen : results.length = cfg.instanceCount := by
        have := congrArg List.length hres
        simpa using this.symm
      refine ⟨?_, by simp, ?_, ?_⟩
      · intro idx hidx
        by_contra hlt
        exact hany (any_eq_true.mpr ⟨idx, mem_range.mpr hidx, by simpa using hlt⟩)
      · intro idx hidx
        refine ⟨results.getD idx [], ?_, ?_⟩
        · have hget := congrArg (·[idx]?) hres
          simpa [hidx, getD_eq_getElem?_getD, hlen] using hget
        · intro j hj
          have hinst : 0 < cfg.instanceCount := by omega
          have hlt := lt_mul_of_lt hj hidx
          have hmod : (j * cfg.instanceCount + idx) % cfg.instanceCount = idx := by
            rw [Nat.mul_comm, Nat.mul_add_mod, Nat.mod_eq_of_lt hidx]
          have hdiv : (j * cfg.instanceCount + idx) / cfg.instanceCount = j := by
            rw [Nat.mul_comm, Nat.mul_add_div hinst, Nat.div_eq_of_lt hidx, Nat.add_zero]
          simp only [getD_eq_getElem?_getD, getElem?_map, getElem?_range hlt,
            Option.map_some, Option.getD_some, hmod, hdiv]
      · exact built_hashed hmt

/-! ## Left-out siblings -/

theorem keptSize_le (previous current : List HashString) (n : Nat) :
    keptSize previous current n ≤ n := by
  induction n with
  | zero => exact le_refl 0
  | succ n ih =>
    rw [keptSize]
    split_ifs
    · omega
    · exact le_refl _

theorem keptSize_same {previous current : List HashString} {n j : Nat}
    (h : keptSize previous current n ≤ j) (hj : j < n) :
    previous.getD j default = current.getD j default := by
  induction n with
  | zero => omega
  | succ n ih =>
    rw [keptSize] at h
    split_ifs at h with heq
    · by_cases hjn : j = n
      · rw [hjn, heq]
      · exact ih h (by omega)
    · omega

theorem drop_keptSize {previous current : List HashString} {depth : Nat}
    (hp : previous.length = depth) (hc : current.length = depth) :
    previous.drop (keptSize previous current depth) =
      current.drop (keptSize previous current depth) := by
  apply ext_getElem
  · simp [hp, hc]
  · intro j h1 h2
    rw [length_drop] at h1 h2
    have hsame := @keptSize_same previous current depth (keptSize previous current depth + j)
      (by omega) (by omega)
    simpa [getD_eq_getElem?_getD, getElem?_eq_getElem (by omega :
      keptSize previous current depth + j < previous.length), getElem?_eq_getElem (by omega :
      keptSize previous current depth + j < current.length)] using hsame

/-! ## Serialized ranges -/

/-- The format carries everything that is written about a context's shards. -/
structure Encoded.Carried (w : Wire) (enc : Encoded) : Prop where
  size : ∀ n, n ≤ enc.mt.depth → Carries w.putInt64 w.getInt64 (n : Int)
  path : ∀ p ∈ enc.mt.proofs, Carries w.putUInt32 w.getUInt32 p.path ∧
    (w.putUInt32 p.path).length = 4
  fragment : ∀ b ∈ enc.ecEncodeResult, Carries w.putString w.getString b

/-- The siblings of shard `i`. -/
def Encoded.siblingsAt (enc : Encoded) (i : Nat) : List HashString :=
  (enc.mt.proofs.getD i default).siblings

/-- Shard `i` as a piece of a range that starts with shard `first`. -/
def Encoded.pieceAt (enc : Encoded) (first i : Nat) : Piece where
  path := (enc.mt.proofs.getD i default).path
  own := (enc.siblingsAt i).take (enc.proofSize enc.mt.depth first i)
  fragment := enc.ecEncodeResult.getD i []

section

variable {sha256 : Bytes → HashString} {w : Wire} {cfg : Config} {enc : Encoded} {start stop : Nat}

theorem Encoded.proofSize_le (enc : Encoded) (depth first i : Nat) :
    enc.proofSize depth first i ≤ depth := by
  rw [proofSize]
  split_ifs
  · exact le_refl _
  · exact keptSize_le _ _ _

section

variable (hb : MerkleTree.Built sha256 (enc.ecEncodeResult.map sha256) enc.mt)
include hb

/-- Every shard has its proof in the tree. -/
theorem Encoded.proof_at {i : Nat} (hi : i < enc.ecEncodeResult.length) :
    enc.mt.proofs.getD i default ∈ enc.mt.proofs ∧ (enc.siblingsAt i).length = enc.mt.depth ∧
      verify sha256 (some (sha256 (enc.ecEncodeResult.getD i [])))
        (enc.mt.proofs.getD i default) enc.mt.root = some true := by
  have hx : (enc.ecEncodeResult.map sha256)[i]? = some (sha256 (enc.ecEncodeResult.getD i [])) := by
    rw [getElem?_map, getD_eq_getElem?_getD, getElem?_eq_getElem hi]
    rfl
  obtain ⟨p, hp, hlen, hclimb⟩ := hb.proof hx
  have hget : enc.mt.proofs.getD i default = p := by
    rw [getD_eq_getElem?_getD, hp, Option.getD_some]
  rw [siblingsAt, hget]
  refine ⟨mem_of_getElem? hp, hlen, ?_⟩
  rw [verify, Option.map_some, hclimb, beq_self_eq_true]

theorem Encoded.length_own {first i : Nat} (hi : i < enc.ecEncodeResult.length) :
    (enc.pieceAt first i).own.length = enc.proofSize enc.mt.depth first i := by
  have hlen := (proof_at hb hi).2.1
  have hle := enc.proofSize_le enc.mt.depth first i
  rw [pieceAt, length_take]
  omega

theorem Encoded.piece_eq {first i : Nat} (hi : i < enc.ecEncodeResult.length) :
    enc.piece w enc.mt.depth first i = (enc.pieceAt first i).bytes w := by
  rw [Piece.bytes, length_own hb hi]
  rfl

/-- What is left out of a proof stands in the proof before. -/
theorem Encoded.proven {first i : Nat} (hfirst : first ≤ i) (hi : i < enc.ecEncodeResult.length) :
    Proven sha256 (enc.pieceAt first) enc.mt.root enc.siblingsAt first i := by
  obtain ⟨-, hlen, hverify⟩ := proof_at hb hi
  refine ⟨?_, hverify⟩
  rw [completed, length_own hb hi]
  by_cases hif : i = first
  · subst hif
    rw [recalledAt, if_pos rfl]
    simp [pieceAt, proofSize, ← hlen]
  · have hprev := (proof_at hb (by omega : i - 1 < enc.ecEncodeResult.length)).2.1
    have hsize : enc.proofSize enc.mt.depth first i =
        keptSize (enc.siblingsAt (i - 1)) (enc.siblingsAt i) enc.mt.depth := by
      rw [proofSize, if_neg hif]
      rfl
    rw [recalledAt, if_neg hif, Option.getD_some, pieceAt, hsize, drop_keptSize hprev hlen,
      take_append_drop]

theorem Encoded.wellFormed (hw : enc.Carried w) {first n : Nat}
    (hn : first + n ≤ enc.ecEncodeResult.length) :
    WellFormed w (enc.pieceAt first) enc.mt.depth first n where
  carried i h1 h2 := by
    have hi : i < enc.ecEncodeResult.length := by omega
    obtain ⟨hpath, hwidth⟩ := hw.path _ (proof_at hb hi).1
    refine ⟨hpath, hwidth, ?_, hw.fragment _ ?_⟩
    · exact hw.size _ (by rw [length_own hb hi]; exact enc.proofSize_le _ _ _)
    · change enc.ecEncodeResult.getD i [] ∈ enc.ecEncodeResult
      rw [getD_eq_getElem?_getD, getElem?_eq_getElem hi, Option.getD_some]
      exact getElem_mem hi
  own_le i h1 h2 := by
    rw [length_own hb (by omega)]
    exact enc.proofSize_le _ _ _

end

/-- What is needed to send ranges of a context: the result of the encoder, which the format
carries. -/
structure Encoded.Sendable (sha256 : Bytes → HashString) (w : Wire) (cfg : Config)
    (enc : Encoded) : Prop where
  built : MerkleTree.Built sha256 (enc.ecEncodeResult.map sha256) enc.mt
  length_eq : enc.ecEncodeResult.length = cfg.fragmentCnt * cfg.instanceCount
  inst_pos : 0 < cfg.instanceCount
  carried : enc.Carried w

/-- A serialized range is the depth and the pieces. -/
theorem Encoded.serializeFragments_eq (he : enc.Sendable sha256 w cfg)
    (hlt : start < stop) (hle : stop ≤ cfg.fragmentCnt) :
    enc.serializeFragments w cfg start stop =
      some (w.putInt64 enc.mt.depth ++ piecesBytes w (enc.pieceAt (start * cfg.instanceCount))
        (start * cfg.instanceCount) ((stop - start) * cfg.instanceCount)) := by
  have hbound : start * cfg.instanceCount + (stop - start) * cfg.instanceCount ≤
      enc.ecEncodeResult.length := he.length_eq ▸ range_le_shards _ hlt hle
  have hinst := he.inst_pos
  have hstart : start < enc.ecEncodeResult.length := by
    have h1 := Nat.le_mul_of_pos_right start hinst
    have h2 := Nat.le_mul_of_pos_left cfg.instanceCount (by omega : 0 < stop - start)
    omega
  have hdepth : (enc.mt.proofs.getD start default).siblings.length = enc.mt.depth :=
    (proof_at he.built hstart).2.1
  rw [serializeFragments, if_neg (by omega)]
  dsimp only
  rw [hdepth, piecesBytes]
  congr 2
  refine flatMap_congr fun i hi => ?_
  rw [mem_range'_1] at hi
  exact piece_eq he.built (by omega)

/-- The cursor at the first piece of a range. -/
def Cursor.first (depth : Nat) (rest : Bytes) : Cursor where
  rest := rest
  previousProof := none
  cacheWhenGuard := List.replicate depth default
  cacheWhenGuardFlag := false

theorem Cursor.reads_first (depth : Nat) (rest : Bytes) :
    (Cursor.first depth rest).Reads depth (Recall.first depth) :=
  ⟨⟨rfl, rfl, rfl⟩, length_replicate, by rintro _ ⟨⟩⟩

/-- The storage after the encoder's fragments of a range have been stored. -/
def Encoded.stored (enc : Encoded) (cfg : Config) (storage : Storage) (start stop : Nat) :
    Storage :=
  storage.fill (enc.pieceAt (start * cfg.instanceCount)) cfg.instanceCount start (stop - start)

variable (he : enc.Sendable sha256 w cfg)

include he

section

variable (hlt : start < stop) (hle : stop ≤ cfg.fragmentCnt) {raw : Bytes}
  (hraw : enc.serializeFragments w cfg start stop = some raw)
include hlt hle hraw

/-- On a serialized range the validator is the loop over its slots. -/
theorem Encoded.validate_serialized (storage : Storage) :
    validateAndDeserializeFragments sha256 w cfg storage enc.mt.root raw start stop =
      validateSlots sha256 w enc.mt.root enc.mt.depth cfg.instanceCount (stop - start) start
        (Cursor.first enc.mt.depth (piecesBytes w (enc.pieceAt (start * cfg.instanceCount))
          (start * cfg.instanceCount) ((stop - start) * cfg.instanceCount))) storage := by
  rw [serializeFragments_eq he hlt hle] at hraw
  cases hraw
  rw [validateAndDeserializeFragments, if_neg (by omega), he.carried.size _ (le_refl _)]
  dsimp only
  rw [if_neg (by omega), Int.toNat_natCast]
  rfl

/-- **An honest range for new slots is accepted and stored.** -/
theorem Encoded.validate_serialized_fresh {storage : Storage}
    (hguard : ∀ j, start ≤ j → j < stop → (storage j).cacheGuard = false) :
    validateAndDeserializeFragments sha256 w cfg storage enc.mt.root raw start stop =
      .ok (true, enc.stored cfg storage start stop) := by
  have hrange : start * cfg.instanceCount + (stop - start) * cfg.instanceCount ≤
      enc.ecEncodeResult.length := he.length_eq ▸ range_le_shards _ hlt hle
  have hinst := he.inst_pos
  have hpos := Nat.mul_le_mul_right cfg.instanceCount (by omega : 1 ≤ stop - start)
  rw [Nat.one_mul] at hpos
  rw [validate_serialized he hlt hle hraw]
  refine validateSlots_fresh (le_refl _) (wellFormed he.built he.carried hrange)
    (fun q h1 h2 => proven he.built h1 (by omega)) ?_ (Cursor.reads_first _ _) ?_
    (append_nil _).symm (fun j h1 h2 => hguard j h1 (by omega))
  · rw [length_own he.built (by omega), proofSize, if_pos rfl]
  · rw [recalledAt, if_pos rfl]
    rfl

/-- An honest range whose slots are all filled is accepted and changes nothing. -/
theorem Encoded.validate_serialized_guarded {storage : Storage}
    (hguard : ∀ j, start ≤ j → j < stop → (storage j).cacheGuard = true) :
    validateAndDeserializeFragments sha256 w cfg storage enc.mt.root raw start stop =
      .ok (true, storage) := by
  rw [validate_serialized he hlt hle hraw]
  exact validateSlots_guarded
    (wellFormed he.built he.carried (he.length_eq ▸ range_le_shards _ hlt hle))
    (Cursor.reads_first _ _) (append_nil _).symm (fun j h1 h2 => hguard j h1 (by omega))

end

end

/-! ## Regenerating -/

/-- What the Reed-Solomon library promises: a message that is not empty is encoded, all shards
have one length, and any `dataShardCnt` shards in their places give the message back. -/
structure ErasureCode.Restores (ec : ErasureCode) (cfg : Config) : Prop where
  encodes : ∀ msg : Bytes, msg ≠ [] → ∃ shards, ec.encode msg = some shards
  restores : ∀ (msg : Bytes) (shards : List Bytes), ec.encode msg = some shards →
    shards.length = cfg.fragmentCnt ∧ ∃ len, 0 < len ∧ (∀ s ∈ shards, s.length = len) ∧
      ∀ pieces : List (Option Bytes), pieces.length = cfg.fragmentCnt →
        (∀ (j : Nat) (b : Bytes), pieces[j]? = some (some b) → shards[j]? = some b) →
        cfg.dataShardCnt ≤ pieces.countP Option.isSome →
        ∀ k, k ≤ msg.length → ec.decode pieces len k = some (msg.take k)

section

variable {ec : ErasureCode} {cfg : Config}

/-- Shards of one length, at least one of them present, are read with that length. -/
theorem decodeWithBuffer_eq {list : List Bytes} {len : Nat}
    (hmem : ∀ s ∈ list, s.isEmpty = false → s.length = len)
    (hsome : ∃ s ∈ list, s.isEmpty = false) (k : Int) :
    decodeWithBuffer ec list k =
      .ok (ec.decode (list.map fun s => if s.isEmpty then none else some s) len k) := by
  have hfind : ((list.find? fun s => !s.isEmpty).getD []).length = len := by
    have hfound : (list.find? fun s => !s.isEmpty).isSome := by
      obtain ⟨s, hs, hne⟩ := hsome
      rw [find?_isSome]
      exact ⟨s, hs, by rw [hne]; rfl⟩
    obtain ⟨s, hs⟩ := Option.isSome_iff_exists.mp hfound
    rw [hs, Option.getD_some]
    exact hmem s (mem_of_find?_eq_some hs) (by simpa using find?_some hs)
  have hany : ¬(list.any fun s => !s.isEmpty && decide (s.length < len)) = true := by
    rw [any_eq_true]
    rintro ⟨s, hs, hbad⟩
    rw [Bool.and_eq_true, decide_eq_true_eq, Bool.not_eq_true'] at hbad
    have hlen := hmem s hs hbad.1
    omega
  have htake : (list.map fun s => if s.isEmpty then none else some (s.take len)) =
      list.map fun s => if s.isEmpty then none else some s := by
    refine map_congr_left fun s hs => ?_
    split_ifs with hne
    · rfl
    · rw [take_of_length_le (hmem s hs (by simpa using hne)).le]
  rw [decodeWithBuffer, hfind, if_neg hany, htake]

/-! ### Shards that have arrived

Slots that are not filled read as the empty string, which no shard is. -/

section

variable {shards : List Bytes} {n len : Nat} {filled : Nat → Bool}

variable (hpos : 0 < len) (hlen : ∀ j < n, (shards.getD j []).length = len)

include hpos hlen in
theorem isEmpty_shard {j : Nat} (hj : j < n) : (shards.getD j []).isEmpty = false := by
  rw [isEmpty_eq_false_iff, ← length_pos_iff, hlen j hj]
  exact hpos

include hpos hlen in
theorem map_arrived :
    ((List.range n).map fun j => if filled j then shards.getD j [] else []).map
        (fun s => if s.isEmpty then none else some s) =
      (List.range n).map fun j => if filled j then some (shards.getD j []) else none := by
  rw [map_map]
  refine map_congr_left fun j hj => ?_
  rw [Function.comp_apply]
  split_ifs with hf hempty hempty
  · rw [isEmpty_shard hpos hlen (mem_range.mp hj)] at hempty
    cases hempty
  · rfl
  · rfl
  · exact absurd rfl hempty

include hlen in
theorem length_arrived {s : Bytes}
    (hs : s ∈ (List.range n).map fun j => if filled j then shards.getD j [] else [])
    (hne : s.isEmpty = false) : s.length = len := by
  obtain ⟨j, hj, rfl⟩ := mem_map.mp hs
  split_ifs at hne ⊢
  · exact hlen j (mem_range.mp hj)
  · cases hne

include hpos hlen in
theorem exists_arrived (hcount : 0 < (List.range n).countP filled) :
    ∃ s ∈ (List.range n).map fun j => if filled j then shards.getD j [] else [],
      s.isEmpty = false := by
  obtain ⟨j, hj, hf⟩ := countP_pos_iff.mp hcount
  exact ⟨shards.getD j [], mem_map.mpr ⟨j, hj, if_pos hf⟩,
    isEmpty_shard hpos hlen (mem_range.mp hj)⟩

theorem getElem?_arrived {j : Nat} {b : Bytes} (hn : n ≤ shards.length)
    (hb : ((List.range n).map fun j => if filled j then some (shards.getD j []) else none)[j]? =
      some (some b)) : shards[j]? = some b := by
  rw [getElem?_map, Option.map_eq_some_iff] at hb
  obtain ⟨j', hj', hif⟩ := hb
  obtain ⟨hjlt, rfl⟩ := List.getElem?_eq_some_iff.mp hj'
  rw [getElem_range] at hif
  split_ifs at hif
  cases hif
  rw [length_range] at hjlt
  rw [getD_eq_getElem?_getD, getElem?_eq_getElem (lt_of_lt_of_le hjlt hn)]
  rfl

theorem countP_arrived : ((List.range n).map fun j =>
    if filled j then some (shards.getD j []) else none).countP Option.isSome =
      (List.range n).countP filled := by
  rw [countP_map]
  refine countP_congr fun j _ => ?_
  rw [Function.comp_apply]
  split_ifs with hf <;> simp [hf]

end

theorem decodeWithBuffer_restores (hec : ec.Restores cfg) (hdata : 0 < cfg.dataShardCnt)
    {msg : Bytes} {shards : List Bytes} (henc : ec.encode msg = some shards) {filled : Nat → Bool}
    (hcount : cfg.dataShardCnt ≤ (List.range cfg.fragmentCnt).countP filled) {k : Nat}
    (hk : k ≤ msg.length) :
    decodeWithBuffer ec ((List.range cfg.fragmentCnt).map fun j =>
      if filled j then shards.getD j [] else []) k = .ok (some (msg.take k)) := by
  obtain ⟨hshards, len, hpos, hall, hdec⟩ := hec.restores msg shards henc
  have hlen : ∀ j < cfg.fragmentCnt, (shards.getD j []).length = len := by
    intro j hj
    have hlt : j < shards.length := hshards ▸ hj
    rw [getD_eq_getElem?_getD, getElem?_eq_getElem hlt]
    exact hall _ (getElem_mem hlt)
  rw [decodeWithBuffer_eq (fun s => length_arrived hlen)
    (exists_arrived hpos hlen (lt_of_lt_of_le hdata hcount)), map_arrived hpos hlen, hdec]
  · simp
  · exact fun j b => getElem?_arrived hshards.ge
  · rw [countP_arrived]
    exact hcount
  · exact hk

theorem le_partLen_mul (hinst : 0 < cfg.instanceCount) (n : Nat) :
    n ≤ cfg.instanceCount * partLen cfg n := by
  have hdiv := Nat.div_add_mod n cfg.instanceCount
  have hlt := Nat.mod_lt n hinst
  rw [partLen]
  split_ifs with h
  · rw [Nat.mul_add, Nat.mul_one]
    omega
  · omega

theorem fragmentLen_natCast (cfg : Config) (n : Nat) :
    fragmentLen cfg (n : Int) = (partLen cfg n : Nat) := by
  rw [fragmentLen, ← Int.ofNat_tmod, ← Int.ofNat_tdiv, partLen]
  split_ifs with h1 h2 h2
  · push_cast
    rfl
  · exact absurd (by exact_mod_cast h1) h2
  · exact absurd (by exact_mod_cast h2) h1
  · rfl

/-- The encoder's fragments of one slot. -/
def Encoded.slot (enc : Encoded) (cfg : Config) (j : Nat) : List Bytes :=
  (List.range' (j * cfg.instanceCount) cfg.instanceCount).map fun q => enc.ecEncodeResult.getD q []

theorem Encoded.getD_slot (enc : Encoded) {j i : Nat} (hi : i < cfg.instanceCount) :
    (enc.slot cfg j).getD i [] = enc.ecEncodeResult.getD (j * cfg.instanceCount + i) [] := by
  rw [slot, getD_eq_getElem?_getD, getElem?_map, getElem?_range' (by omega)]
  simp

/-- The filled slots hold the encoder's fragments, and the others nothing. -/
def Encoded.Fills (enc : Encoded) (cfg : Config) (filled : Nat → Bool) (storage : Storage) : Prop :=
  ∀ j, (storage j).encodeFragment = if filled j then enc.slot cfg j else []

variable {sha256 : Bytes → HashString} {message : Bytes} {enc : Encoded} {filled : Nat → Bool}
  {storage : Storage} (henc : Encodes sha256 ec cfg message enc) (hec : ec.Restores cfg)
  (hdata : 0 < cfg.dataShardCnt) (hfill : enc.Fills cfg filled storage)
  (hcount : cfg.dataShardCnt ≤ (List.range cfg.fragmentCnt).countP filled)

include henc hec hdata hfill hcount in
/-- One part of the message is decoded. -/
theorem decode_part {i k : Nat} (hi : i < cfg.instanceCount)
    (hk : k ≤ (msgView message (partLen cfg message.length) i).length) :
    decodeWithBuffer ec ((List.range cfg.fragmentCnt).map fun j =>
      (storage j).encodeFragment.getD i []) k =
        .ok (some ((msgView message (partLen cfg message.length) i).take k)) := by
  obtain ⟨shards, hshards, hget⟩ := henc.shard i hi
  rw [← decodeWithBuffer_restores hec hdata hshards hcount hk]
  congr 1
  refine map_congr_left fun j hj => ?_
  rw [hfill j]
  split_ifs with hf
  · rw [enc.getD_slot hi, hget j (mem_range.mp hj)]
  · rfl

/-- The bytes of a part lie inside the message, and reach to the next part or to the end. -/
theorem exists_dataSize {len n i : Nat} (hi : i < cfg.instanceCount)
    (hsize : n ≤ cfg.instanceCount * len) (hfits : ∀ j < cfg.instanceCount, j * len ≤ n) :
    ∃ size : Nat, dataSize cfg (len : Nat) n i = (size : Int) ∧ i * len + size ≤ n ∧
      size ≤ (i + 1) * len ∧ ((i + 1) * len ≤ i * len + size ∨ i * len + size = n) := by
  have hmul := Nat.add_one_mul i len
  have hoff := hfits i hi
  by_cases hlast : i = cfg.instanceCount - 1
  · have hinst' : cfg.instanceCount = i + 1 := by omega
    rw [hinst'] at hsize
    refine ⟨n - i * len, ?_, by omega, by omega, by omega⟩
    rw [dataSize, if_pos hlast, Nat.cast_sub hoff]
    push_cast
    rfl
  · have hnext := hfits (i + 1) (by omega)
    exact ⟨len, by rw [dataSize, if_neg hlast], by omega, by omega, by omega⟩

/-- Writing the next bytes of the message behind its front. -/
theorem overwrite_front {buffer message : Bytes} {offset size : Nat}
    (hfront : buffer.take offset = message.take offset) (hle : offset + size ≤ message.length) :
    overwrite buffer offset ((message.drop offset).take size) =
      message.take (offset + size) ++ buffer.drop (offset + size) := by
  have hcopied : ((message.drop offset).take size).length = size := by
    rw [length_take, length_drop]
    omega
  rw [overwrite, hcopied, hfront, ← append_assoc, ← take_add]

include henc hec hdata hfill hcount in
/-- The loop over the parts: what has been written is the front of the message. -/
theorem regenerateParts_encoded {i n : Nat} (hn : i + n = cfg.instanceCount)
    (hinst : 0 < cfg.instanceCount) {buffer : Bytes}
    (hlen : buffer.length = message.length) (hfront : buffer.take (i * partLen cfg message.length) =
      message.take (i * partLen cfg message.length)) :
    regenerateParts ec cfg storage (partLen cfg message.length : Nat) (List.range' i n)
      (some buffer) message.length = .ok (some message) := by
  have hsize := le_partLen_mul hinst message.length
  have hfits := henc.fits
  have hpart := @decode_part ec cfg sha256 message enc filled storage henc hec hdata hfill hcount
  generalize partLen cfg message.length = len at *
  induction n generalizing i buffer with
  | zero =>
    obtain rfl : i = cfg.instanceCount := by omega
    rw [take_of_length_le (by omega), take_of_length_le hsize] at hfront
    rw [List.range'_zero, regenerateParts, hfront]
  | succ n ih =>
    have hi : i < cfg.instanceCount := by omega
    obtain ⟨size, hsizeEq, hle, hview⟩ := exists_dataSize hi hsize hfits
    have htake : (msgView message len i).take size = (message.drop (i * len)).take size := by
      rw [msgView, take_take, Nat.min_eq_left hview.1]
    have hdec := @hpart i size hi (by
      rw [msgView, length_take, length_drop]
      omega)
    have hcast : ((i : Int) * (len : Nat)) = ((i * len : Nat) : Int) := by push_cast; rfl
    have hpf : PartFits cfg (len : Nat) message.length i := by
      rw [PartFits, hsizeEq, hcast]
      omega
    rw [List.range'_succ, regenerateParts, hsizeEq, hdec]
    dsimp only
    rw [if_neg (not_not.mpr hpf), hcast, Int.toNat_natCast, Int.toNat_natCast, Option.map_some,
      htake, take_take, Nat.min_self, overwrite_front hfront hle]
    refine ih (by omega) ?_ ?_
    · rw [length_append, length_take, length_drop]
      omega
    · rcases hview.2 with h | h
      · rw [take_append_of_le_length (by rw [length_take]; omega), take_take]
        congr 1
        omega
      · rw [h, drop_eq_nil_of_le (by omega), append_nil,
          take_of_length_le (le_refl _)]

theorem length_overwrite {buffer new : Bytes} {offset : Nat}
    (h : offset + new.length ≤ buffer.length) :
    (overwrite buffer offset new).length = buffer.length := by
  rw [overwrite, length_append, length_append, length_take, length_drop]
  omega

theorem length_regenerateParts {len : Int} {parts : List Nat}
    {buffer : Option Bytes} {size : Nat} (hbuffer : ∀ b, buffer = some b → b.length = size)
    {msg : Bytes} (h : regenerateParts ec cfg storage len parts buffer size = .ok (some msg)) :
    msg.length = size := by
  induction parts generalizing buffer with
  | nil =>
    rw [regenerateParts] at h
    exact hbuffer msg (Except.ok.inj h)
  | cons i parts ih =>
    rw [regenerateParts] at h
    split at h
    · cases h
    · exact ih (by simp) h
    · rename_i part _
      split_ifs at h with hfits
      refine ih ?_ h
      intro b hb
      obtain ⟨b', hb', rfl⟩ := Option.map_eq_some_iff.mp hb
      have hsize := hbuffer b' hb'
      obtain ⟨h1, h2, h3⟩ := hfits
      rw [length_overwrite, hsize]
      rw [length_take]
      omega

/-- What is regenerated has the size that was asked for. -/
theorem length_regenerateMessage {actualMessageSize : Int} {msg : Bytes}
    (h : regenerateMessage ec cfg storage actualMessageSize [] = .ok (some msg)) :
    msg.length = actualMessageSize.toNat := by
  rw [regenerateMessage] at h
  have hlen := length_regenerateParts (by rintro b ⟨⟩; rfl) h
  simpa using hlen

include henc hec hdata hfill hcount in
/-- **Enough of the encoder's fragments give the message back**, in a buffer that is not longer than
the message. -/
theorem regenerate_encoded (hinst : 0 < cfg.instanceCount) {bufferOut : Bytes}
    (hbuffer : bufferOut.length ≤ message.length) :
    regenerateMessage ec cfg storage message.length bufferOut = .ok (some message) := by
  have hlen : (bufferOut ++ List.replicate (message.length - bufferOut.length) 0).length =
      message.length := by
    rw [length_append, length_replicate]
    omega
  rw [regenerateMessage, fragmentLen_natCast, Int.toNat_natCast, hlen, range_eq_range']
  exact regenerateParts_encoded henc hec hdata hfill hcount (by omega) hinst hlen (by simp)

/-! ## Something to encode for every instance -/

/-- Every instance has something to encode. -/
def PartsNonempty (cfg : Config) (messageSize : Nat) : Prop :=
  ∀ idx < cfg.instanceCount, idx * partLen cfg messageSize < messageSize

instance (cfg : Config) (messageSize : Nat) : Decidable (PartsNonempty cfg messageSize) :=
  inferInstanceAs (Decidable
    (∀ idx < cfg.instanceCount, idx * partLen cfg messageSize < messageSize))

theorem msgView_ne_nil {idx : Nat} (hlen : 0 < partLen cfg message.length)
    (h : idx * partLen cfg message.length < message.length) :
    msgView message (partLen cfg message.length) idx ≠ [] := by
  have hpos : 0 < (idx + 1) * partLen cfg message.length := Nat.mul_pos (Nat.succ_pos idx) hlen
  rw [← length_pos_iff, msgView, length_take, length_drop]
  omega

theorem partLen_pos (hinst : 0 < cfg.instanceCount) (hne : message ≠ []) :
    0 < partLen cfg message.length := by
  have hpos := length_pos_iff.mpr hne
  have hle := @le_partLen_mul cfg hinst message.length
  by_contra hzero
  rw [Nat.eq_zero_of_not_pos hzero, Nat.mul_zero] at hle
  omega

/-- If every instance has something to encode, the message is encoded. -/
theorem initWithMessage_of_parts (hec : ec.Restores cfg) (hinst : 0 < cfg.instanceCount)
    (htwo : 2 ≤ cfg.fragmentCnt) (hne : message ≠ []) (hparts : PartsNonempty cfg message.length) :
    ∃ enc, initWithMessage sha256 ec cfg message = .ok (some enc) := by
  have hlen := partLen_pos hinst hne
  have hany : ¬ ((List.range cfg.instanceCount).any fun idx =>
      decide (message.length < idx * partLen cfg message.length)) = true := by
    rw [any_eq_true]
    rintro ⟨idx, hidx, hlt⟩
    have hpart := hparts idx (mem_range.mp hidx)
    rw [decide_eq_true_eq] at hlt
    omega
  obtain ⟨results, hresults⟩ : ∃ results, (List.range cfg.instanceCount).mapM
      (fun idx => ec.encode (msgView message (partLen cfg message.length) idx)) = some results := by
    refine ⟨(List.range cfg.instanceCount).map fun idx =>
      (ec.encode (msgView message (partLen cfg message.length) idx)).getD [], ?_⟩
    rw [mapM_eq_some, map_map]
    refine map_congr_left fun idx hidx => ?_
    obtain ⟨shards, hshards⟩ := hec.encodes _ (msgView_ne_nil hlen (hparts idx (mem_range.mp hidx)))
    simp [hshards]
  have htotal : 2 ≤ cfg.fragmentCnt * cfg.instanceCount :=
    htwo.trans (Nat.le_mul_of_pos_right _ hinst)
  obtain ⟨mt, hmt⟩ := @new_hashed sha256
    ((List.range (cfg.fragmentCnt * cfg.instanceCount)).map fun p =>
      (results.getD (p % cfg.instanceCount) []).getD (p / cfg.instanceCount) [])
    (by simpa using htotal)
  unfold initWithMessage
  dsimp only
  rw [if_neg hany, hresults]
  dsimp only
  rw [hmt]
  exact ⟨_, rfl⟩

end

end MassBFT.Replication
