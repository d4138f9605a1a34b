import MassBFT.Replication.Instances
import MassBFT.Replication.MRBlockReceiver

/-!
# How many nodes stand behind a remote block

`getBlockFromRawString` asks for as many valid signatures as make half of the list that the
first fragment carries, rounded up, and counts entries: of any known key, and as often as it
is listed. Neither the size of the region nor its nodes enter the check, so an empty list
passes, and **the sender decides how many signatures are enough**.

The check is one for `f + 1` nodes of the region exactly for lists in which no `f` nodes of
the region, together with all the nodes elsewhere, fill half of the entries (`NoMinority`,
`quorum_iff_noMinority`). The lists that the consensus makes, of `2 f + 1` nodes or more, are
of that kind (`noMinority_of_nodup`).
-/

set_option autoImplicit false

namespace MassBFT.Replication

open List

/-- The bytes in front of the body, which the signatures are over. -/
def serHeader (w : Wire) (raw : Bytes) : Bytes :=
  match Block.deserializeFromString w raw with
  | none => []
  | some (_, ret) => raw.take ret.bodyPos

theorem serHeader_eq {w : Wire} {raw : Bytes} {block : Block} {ret : PosList}
    (h : Block.deserializeFromString w raw = some (block, ret)) :
    serHeader w raw = raw.take ret.bodyPos := by
  rw [serHeader, h]

namespace MRBlockReceiver

section

variable {Key Node : Type} [DecidableEq Node] (mr : MRBlockReceiver Key) (node : Key → Node)

/-- The node whose key a signature names. -/
def signer (sig : SignaturePair) : Option Node := (mr.bccsp.getKey sig.2.ski).map node

/-- The nodes that have a valid signature in a list. -/
def signers (header : Bytes) (signatures : List SignaturePair) : Finset Node :=
  ((signatures.filter (mr.sigVerified header)).filterMap (mr.signer node)).toFinset

/-- More than a third of the region, rounded down, has signed the header of the message. -/
def HasQuorum (region : Finset Node) (raw : Bytes) (block : Block) : Prop :=
  (region.card - 1) / 3 + 1 ≤
    (mr.signers node (serHeader mr.wire raw) block.metadata.consensusSignatures ∩ region).card

/-- The entry is of a node in `T`, or of one outside the region. -/
def backs (region T : Finset Node) (sig : SignaturePair) : Bool :=
  match mr.signer node sig with
  | none => false
  | some n => decide (n ∈ T ∨ n ∉ region)

/-- No `f` nodes of the region, with all nodes elsewhere, can fill half of the list. -/
def NoMinority (region : Finset Node) (signatures : List SignaturePair) : Prop :=
  ∀ T ⊆ region, T.card ≤ (region.card - 1) / 3 →
    signatures.countP (mr.backs node region T) < (signatures.length + 1) / 2

/-- The same keys, with another outcome of the verification. -/
def withVerify (verifyRaw : Key → DigestString → Bytes → Bool) : MRBlockReceiver Key :=
  { mr with bccsp := { mr.bccsp with verifyRaw := verifyRaw } }

variable {mr node} {region T : Finset Node} {raw header : Bytes} {sig : SignaturePair}
  {signatures : List SignaturePair}

theorem mem_signers {n : Node} : n ∈ mr.signers node header signatures ↔
    ∃ sig ∈ signatures, mr.sigVerified header sig = true ∧ mr.signer node sig = some n := by
  simp only [signers, mem_toFinset, mem_filterMap, mem_filter, and_assoc]

omit [DecidableEq Node] in
theorem exists_signer (h : mr.sigVerified header sig = true) :
    ∃ n, mr.signer node sig = some n := by
  rw [sigVerified] at h
  rw [signer]
  cases hkey : mr.bccsp.getKey sig.2.ski with
  | none => rw [hkey] at h; cases h
  | some key => exact ⟨node key, rfl⟩

/-- Valid entries are of the signers, or of nodes elsewhere. -/
theorem countP_verified_le : signatures.countP (mr.sigVerified header) ≤
    signatures.countP (mr.backs node region (mr.signers node header signatures ∩ region)) := by
  apply countP_mono_left
  intro sig hmem hver
  obtain ⟨n, hn⟩ := @exists_signer _ _ mr node _ _ hver
  rw [backs, hn, decide_eq_true_eq]
  by_cases hregion : n ∈ region
  · exact .inl (Finset.mem_inter.mpr ⟨mem_signers.mpr ⟨sig, hmem, hver, hn⟩, hregion⟩)
  · exact .inr hregion

/-- If exactly the keys of `T` and those from elsewhere verify, the valid entries are those. -/
theorem sigVerified_withVerify (header : Bytes) (sig : SignaturePair) :
    (mr.withVerify fun key _ _ =>
      decide (node key ∈ T ∨ node key ∉ region)).sigVerified header sig =
      mr.backs node region T sig := by
  rw [sigVerified, backs, signer]
  change (match mr.bccsp.getKey sig.2.ski with
    | none => false
    | some key => decide (node key ∈ T ∨ node key ∉ region)) = _
  cases mr.bccsp.getKey sig.2.ski with
  | none => rfl
  | some key => rfl

theorem signers_withVerify_subset : (mr.withVerify fun key _ _ =>
    decide (node key ∈ T ∨ node key ∉ region)).signers node header signatures ∩ region ⊆ T := by
  intro n hn
  obtain ⟨hsigner, hregion⟩ := Finset.mem_inter.mp hn
  obtain ⟨sig, -, hver, hnode⟩ := mem_signers.mp hsigner
  rw [sigVerified_withVerify, backs] at hver
  have hnode' : mr.signer node sig = some n := hnode
  rw [hnode', decide_eq_true_eq] at hver
  exact hver.resolve_right (not_not.mpr hregion)

theorem getBlockFromRawString_of_verified {decoded : Block} {ret : PosList}
    (hdec : Block.deserializeFromString mr.wire raw = some (decoded, ret))
    {first : EncodeBlockFragment} {rest : List EncodeBlockFragment}
    (hcnt : (first.blockSignatures.length + 1) / 2 ≤
      first.blockSignatures.countP (mr.sigVerified (raw.take ret.bodyPos))) :
    mr.getBlockFromRawString raw (first :: rest) = .ok (some { decoded with
      metadata := { decoded.metadata with consensusSignatures := first.blockSignatures } }) := by
  rw [getBlockFromRawString, hdec]
  dsimp only
  rw [if_neg (not_lt.mpr hcnt)]

/-- Distinct nodes of the region, at least `2 f + 1` of them. -/
theorem noMinority_of_nodup (hnodup : (signatures.map (mr.signer node)).Nodup)
    (hregion : ∀ sig ∈ signatures, ∃ n ∈ region, mr.signer node sig = some n)
    (hlen : 2 * ((region.card - 1) / 3) + 1 ≤ signatures.length) :
    mr.NoMinority node region signatures := by
  intro T _ hcard
  have hle : signatures.countP (mr.backs node region T) ≤ T.card := by
    have hsub : ((signatures.filter (mr.backs node region T)).map (mr.signer node)).toFinset ⊆
        T.image some := by
      intro o ho
      obtain ⟨sig, hsig, rfl⟩ := mem_map.mp (mem_toFinset.mp ho)
      obtain ⟨hmem, hbacks⟩ := mem_filter.mp hsig
      obtain ⟨n, hn, hsigner⟩ := hregion sig hmem
      rw [backs, hsigner, decide_eq_true_eq] at hbacks
      rw [hsigner]
      exact Finset.mem_image_of_mem some (hbacks.resolve_right (not_not.mpr hn))
    have hdistinct : ((signatures.filter (mr.backs node region T)).map (mr.signer node)).Nodup :=
      hnodup.sublist (filter_sublist.map _)
    calc signatures.countP (mr.backs node region T)
        = ((signatures.filter (mr.backs node region T)).map (mr.signer node)).toFinset.card := by
          rw [toFinset_card_of_nodup hdistinct, length_map, countP_eq_length_filter]
      _ ≤ (T.image some).card := Finset.card_le_card hsub
      _ ≤ T.card := Finset.card_image_le
  omega

end

/-! ## Four nodes -/

/-- A signature that anybody can recompute: the key, and the hash that is signed. -/
def plainSign (key : Nat) (d : Bytes) : DigestString :=
  ⟨(UInt8.ofNat key :: d ++ List.replicate 64 0).take 64, by simp⟩

/-- The keys of nodes 0 to 3, each under a ski of one byte. -/
def plainKeys : BCCSP Nat where
  getKey ski :=
    match ski with
    | [b] => if b < 4 then some b.toNat else none
    | _ => none
  verifyRaw key md d := decide (md = plainSign key d)

/-- A receiver of region 0, for blocks in two shards. -/
def plainReceiver : MRBlockReceiver Nat where
  sha256 := lengthHash
  wire := littleEndian
  ec := splitCode 2
  bccsp := plainKeys
  localRegionId := 0
  bfgConfig _ := ⟨2, 0, 1, 2⟩

/-- What node `key` contributes to the certificate of a header. -/
def plainSignature (header : Bytes) (key : Nat) : SignaturePair :=
  ([], ⟨[UInt8.ofNat key], plainSign key (lengthHash header).bytes⟩)

/-- A serialized block with one request. -/
def plainMessage (number : Nat) (dataHash : HashString) (payload : Bytes) : Bytes :=
  Block.serializeToString littleEndian
    { header := ⟨number, default, dataHash⟩
      body := ⟨[⟨payload, ⟨[], plainSign 0 []⟩⟩]⟩
      executeResult := ⟨[], []⟩
      metadata := ⟨[], []⟩
      storage := none }

theorem plainSignature_verified (header : Bytes) {key : Nat} (h : key < 4) :
    plainReceiver.sigVerified header (plainSignature header key) = true := by
  have hkey : plainReceiver.bccsp.getKey [UInt8.ofNat key] = some key := by
    obtain rfl | rfl | rfl | rfl : key = 0 ∨ key = 1 ∨ key = 2 ∨ key = 3 := by omega
    · rfl
    · rfl
    · rfl
    · rfl
  rw [sigVerified, plainSignature]
  dsimp only
  rw [hkey]
  exact decide_eq_true rfl

/-- The message decodes. -/
theorem plainMessage_decodes : (Block.deserializeFromString plainReceiver.wire
    (plainMessage 0 default [1])).isSome = true := by
  decide +kernel

/-- A fragment that carries these signatures. -/
def signedFragment (signatures : List SignaturePair) : EncodeBlockFragment :=
  ⟨signatures, 0, default, 0, 0, 1, []⟩

/-! ## The quorum -/

/-- **The check is one for a quorum exactly for lists without a minority that fills half of
them.** The message decodes, and the keys verify whatever signatures they like. -/
theorem quorum_iff_noMinority {Key Node : Type} [DecidableEq Node] {mr : MRBlockReceiver Key}
    {node : Key → Node} {region : Finset Node} {raw : Bytes}
    (hraw : (Block.deserializeFromString mr.wire raw).isSome = true) {first : EncodeBlockFragment}
    {rest : List EncodeBlockFragment} :
    (∀ verifyRaw block,
        (mr.withVerify verifyRaw).getBlockFromRawString raw (first :: rest) = .ok (some block) →
        (mr.withVerify verifyRaw).HasQuorum node region raw block) ↔
      mr.NoMinority node region first.blockSignatures := by
  obtain ⟨⟨decoded, ret⟩, hdec⟩ := Option.isSome_iff_exists.mp hraw
  constructor
  · intro hall T hT hcard
    by_contra hfill
    -- the keys of `T` and those from elsewhere sign, and nobody else does
    let verifyRaw : Key → DigestString → Bytes → Bool :=
      fun key _ _ => decide (node key ∈ T ∨ node key ∉ region)
    have hcnt : (first.blockSignatures.length + 1) / 2 ≤ first.blockSignatures.countP
        ((mr.withVerify verifyRaw).sigVerified (raw.take ret.bodyPos)) := by
      rw [countP_congr fun sig _ => by rw [sigVerified_withVerify]]
      exact not_lt.mp hfill
    have hblock := @getBlockFromRawString_of_verified _ (mr.withVerify verifyRaw) raw _ _ hdec first
      rest hcnt
    have hquorum := hall verifyRaw _ hblock
    have hle := Finset.card_le_card (@signers_withVerify_subset _ _ _ mr node region T
      (serHeader mr.wire raw) first.blockSignatures)
    exact absurd (le_trans hquorum hle) (by omega)
  · intro hno verifyRaw block hblock
    obtain ⟨decoded', ret', first', rest', hdec', hlist, hcnt, rfl⟩ :=
      getBlockFromRawString_eq_some hblock
    obtain ⟨rfl, rfl⟩ := List.cons.inj hlist
    by_contra hfew
    have hheader : serHeader mr.wire raw = raw.take ret'.bodyPos := serHeader_eq hdec'
    rw [HasQuorum, not_le] at hfew
    have hle := @countP_verified_le _ _ _ (mr.withVerify verifyRaw) node region
      (serHeader mr.wire raw) first.blockSignatures
    have hlt := hno _ Finset.inter_subset_right (Nat.lt_succ_iff.mp hfew)
    rw [← hheader] at hcnt
    exact absurd (lt_of_le_of_lt (le_trans hcnt hle) hlt) (lt_irrefl _)

/-- Three of four nodes have signed. -/
theorem quorum_of_three_signatures :
    ∃ block, plainReceiver.getBlockFromRawString (plainMessage 0 default [1])
        [signedFragment ([0, 1, 2].map (plainSignature
          (serHeader littleEndian (plainMessage 0 default [1]))))] = .ok (some block) ∧
      plainReceiver.HasQuorum id (Finset.range 4) (plainMessage 0 default [1]) block := by
  obtain ⟨⟨decoded, ret⟩, hdec⟩ := Option.isSome_iff_exists.mp plainMessage_decodes
  have hno : plainReceiver.NoMinority id (Finset.range 4) ([0, 1, 2].map (plainSignature
      (serHeader littleEndian (plainMessage 0 default [1])))) :=
    noMinority_of_nodup (by decide) (by decide) (by decide)
  have hall : ∀ sig ∈ [0, 1, 2].map (plainSignature
      (serHeader littleEndian (plainMessage 0 default [1]))), plainReceiver.sigVerified
        ((plainMessage 0 default [1]).take ret.bodyPos) sig = true := by
    intro sig hsig
    obtain ⟨key, hkey, rfl⟩ := mem_map.mp hsig
    rw [← serHeader_eq hdec]
    exact plainSignature_verified _ (by
      simp only [mem_cons, not_mem_nil, or_false] at hkey
      omega)
  have hblock := @getBlockFromRawString_of_verified _ plainReceiver _ _ _ hdec (signedFragment _)
    [] (by rw [signedFragment, countP_eq_length.mpr hall]; decide)
  exact ⟨_, hblock, (quorum_iff_noMinority plainMessage_decodes).mpr hno plainKeys.verifyRaw _
    hblock⟩

/-- No signature at all. -/
theorem not_every_block_has_quorum :
    ¬ ∀ (mr : MRBlockReceiver Nat) (node : Nat → Nat) (region : Finset Nat) (raw : Bytes)
      (peerList : List EncodeBlockFragment) (block : Block), region.Nonempty →
      mr.getBlockFromRawString raw peerList = .ok (some block) →
      mr.HasQuorum node region raw block := by
  intro h
  obtain ⟨⟨decoded, ret⟩, hdec⟩ := Option.isSome_iff_exists.mp plainMessage_decodes
  have hquorum := h plainReceiver id (Finset.range 4) _ [signedFragment []] _ (by decide)
    (getBlockFromRawString_of_verified hdec (le_refl 0))
  change 1 + 1 ≤ (∅ ∩ Finset.range 4).card at hquorum
  rw [Finset.empty_inter, Finset.card_empty] at hquorum
  omega

end MRBlockReceiver

end MassBFT.Replication
