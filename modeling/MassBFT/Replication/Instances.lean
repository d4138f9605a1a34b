import MassBFT.Replication.BlockReceiver
import MassBFT.Replication.RoundTrip

/-!
# A format, a code and a hash

The parameters of the replication model, made concrete: `littleEndian` carries the shards and
headers of any context of a real size, a code without parity cuts the message into pieces and
joins them again, and `lengthHash` is a hash that can be evaluated.
-/

set_option autoImplicit false

namespace MassBFT.Replication

open List

/-! ## The format -/

variable {sha256 : Bytes → HashString}

theorem path_lt {leaves : List HashString} {mt : MerkleTree}
    (h : MerkleTree.Built sha256 leaves mt) {p : Proof} (hp : p ∈ mt.proofs) :
    p.path < 2 ^ mt.depth := by
  rw [h.proofs_eq] at hp
  obtain ⟨i, -, rfl⟩ := mem_map.mp hp
  exact HashTree.pathTo_lt i mt.depth

/-- A context with at most `2 ^ 32` shards of less than 4 GiB is carried. -/
theorem Encoded.carried_littleEndian {enc : Encoded}
    (h : MerkleTree.Built sha256 (enc.ecEncodeResult.map sha256) enc.mt)
    (hcnt : enc.ecEncodeResult.length ≤ 2 ^ 32)
    (hlen : ∀ b ∈ enc.ecEncodeResult, b.length < 2 ^ 32) : enc.Carried littleEndian := by
  have hdepth : enc.mt.depth ≤ 32 := by
    rw [h.depth_eq, length_map, MerkleTree.calTreeDepth]
    exact Nat.clog_le_of_le_pow hcnt
  refine ⟨fun n hn => ?_, fun p hp => ⟨?_, length_putLE 4 _⟩, fun b hb => ?_⟩
  · exact littleEndian.carries_int64 (by
      have : n ≤ 32 := by omega
      exact lt_of_le_of_lt this (by norm_num))
  · exact littleEndian.carries_uint32
      (lt_of_lt_of_le (path_lt h hp) (Nat.pow_le_pow_right (by norm_num) hdepth))
  · exact littleEndian.carries_string (hlen b hb)

/-- A header without signatures is carried if its numbers fit. -/
theorem header_littleEndian {number size start stop : Nat} (root : HashString)
    (hnumber : number < 2 ^ 64) (hsize : size < 2 ^ 64) (hstart : start < 2 ^ 32)
    (hstop : stop < 2 ^ 32) :
    (fragmentHeader littleEndian).Carries ([], number, root, size, start, stop) := by
  refine Codec.Carries.pair ?_ (Codec.Carries.pair (littleEndian.carries_uint64 hnumber)
    (Codec.Carries.pair (carries_hash root) (Codec.Carries.pair
      (littleEndian.carries_uint64 hsize) (Codec.Carries.pair
        (littleEndian.carries_uint32 hstart) (littleEndian.carries_uint32 hstop)))))
  exact Codec.Carries.vector (littleEndian.carries_uint32 (by norm_num)) (by simp)

/-! ## The code -/

/-- The shards of a message that is cut into `d` pieces, the last ones filled up with zeros. -/
def cut (d : Nat) (msg : Bytes) : List Bytes :=
  let len := (msg.length + d - 1) / d
  (List.range d).map fun j =>
    ((msg ++ List.replicate (d * len - msg.length) 0).drop (j * len)).take len

/-- Reed-Solomon without parity shards: cut, and join when everything is there; `Join` refuses to
give more than there is. -/
def splitCode (d : Nat) : ErasureCode where
  encode msg := if msg = [] then none else some (cut d msg)
  decode pieces _ dataSize := (pieces.mapM id).bind fun shards =>
    if dataSize ≤ shards.flatten.length then some (shards.flatten.take dataSize.toNat) else none

theorem flatten_chunks (x : Bytes) (len d : Nat) :
    ((List.range d).map fun j => (x.drop (j * len)).take len).flatten = x.take (d * len) := by
  induction d with
  | zero => simp
  | succ d ih =>
    rw [range_succ, map_append, flatten_append, ih, Nat.add_one_mul, take_add]
    simp

theorem le_mul_ceil {d : Nat} (hd : 0 < d) (n : Nat) : n ≤ d * ((n + d - 1) / d) := by
  have h1 := Nat.div_add_mod (n + d - 1) d
  have h2 := Nat.mod_lt (n + d - 1) hd
  omega

theorem length_cut (d : Nat) (msg : Bytes) : (cut d msg).length = d := by
  simp [cut]

theorem flatten_cut {d : Nat} (hd : 0 < d) (msg : Bytes) {k : Nat} (hk : k ≤ msg.length) :
    k ≤ (cut d msg).flatten.length ∧ (cut d msg).flatten.take k = msg.take k := by
  have hle := le_mul_ceil hd msg.length
  rw [cut, flatten_chunks]
  refine ⟨?_, ?_⟩
  · rw [length_take, length_append, length_replicate]
    omega
  · rw [take_take, take_append_of_le_length (by omega)]
    congr 1
    omega

theorem length_of_mem_cut {d : Nat} (hd : 0 < d) {msg s : Bytes} (hs : s ∈ cut d msg) :
    s.length = (msg.length + d - 1) / d := by
  have hle := le_mul_ceil hd msg.length
  obtain ⟨j, hj, rfl⟩ := mem_map.mp hs
  rw [mem_range] at hj
  have hj' : (j + 1) * ((msg.length + d - 1) / d) ≤ d * ((msg.length + d - 1) / d) :=
    Nat.mul_le_mul_right _ hj
  rw [Nat.add_one_mul] at hj'
  rw [length_take, length_drop, length_append, length_replicate]
  omega

theorem splitCode_restores {cfg : Config} (hdata : 0 < cfg.dataShardCnt)
    (hparity : cfg.parityShardCnt = 0) : (splitCode cfg.dataShardCnt).Restores cfg where
  encodes msg hne := ⟨_, if_neg hne⟩
  restores msg shards h := by
    have hne : msg ≠ [] := by
      rintro rfl
      cases h
    obtain rfl : cut cfg.dataShardCnt msg = shards := by
      rw [splitCode] at h
      exact Option.some.inj ((if_neg hne).symm.trans h)
    have hcnt : cfg.fragmentCnt = cfg.dataShardCnt := by rw [Config.fragmentCnt, hparity]; rfl
    have hpos : 0 < msg.length := length_pos_iff.mpr hne
    refine ⟨by rw [length_cut, hcnt], _, ?_, fun s hs => length_of_mem_cut hdata hs, ?_⟩
    · exact Nat.div_pos (by omega) hdata
    · intro pieces hlen hright hcount k hk
      -- every piece is there, and is the shard of its place
      have hall : ∀ p ∈ pieces, p.isSome = true :=
        countP_eq_length.mp (le_antisymm countP_le_length (by omega))
      have hpieces : pieces = (cut cfg.dataShardCnt msg).map some := by
        apply ext_getElem?
        intro j
        rw [getElem?_map]
        cases hj : pieces[j]? with
        | none =>
          rw [getElem?_eq_none_iff] at hj
          rw [getElem?_eq_none (by rw [length_cut]; omega)]
          rfl
        | some p =>
          obtain ⟨b, rfl⟩ := Option.isSome_iff_exists.mp (hall p (mem_of_getElem? hj))
          rw [hright j b hj]
          rfl
      have hjoin : pieces.mapM id = some (cut cfg.dataShardCnt msg) := by
        rw [mapM_eq_some, map_id, hpieces]
      obtain ⟨henough, htake⟩ := flatten_cut hdata msg hk
      simp only [splitCode, hjoin, Option.bind_some, Nat.cast_le, henough, if_true,
        Int.toNat_natCast, htake]

theorem ceil_le {d n : Nat} (hd : 0 < d) (hn : 0 < n) : (n + d - 1) / d ≤ n := by
  apply Nat.div_le_of_le_mul
  obtain ⟨d, rfl⟩ : ∃ k, d = k + 1 := ⟨d - 1, by omega⟩
  obtain ⟨n, rfl⟩ : ∃ k, n = k + 1 := ⟨n - 1, by omega⟩
  have hprod := Nat.zero_le (d * n)
  have hmul : (d + 1) * (n + 1) = d * n + d + n + 1 := by ring
  omega

/-- No shard is longer than the message. -/
theorem length_le_of_splitCode {d : Nat} (hd : 0 < d) {cfg : Config}
    (hinst : 0 < cfg.instanceCount) {message : Bytes} {enc : Encoded}
    (h : Encodes sha256 (splitCode d) cfg message enc) {b : Bytes} (hb : b ∈ enc.ecEncodeResult) :
    b.length ≤ message.length := by
  obtain ⟨q, hq, rfl⟩ := mem_iff_getElem.mp hb
  rw [h.length_eq, Nat.mul_comm] at hq
  obtain ⟨shards, hshards, hget⟩ := h.shard (q % cfg.instanceCount) (Nat.mod_lt q hinst)
  have hmem := hget (q / cfg.instanceCount) (Nat.div_lt_of_lt_mul hq)
  rw [Nat.mul_comm, Nat.div_add_mod, getD_eq_getElem?_getD, getElem?_eq_getElem
    (by rw [h.length_eq, Nat.mul_comm]; exact hq), Option.getD_some] at hmem
  rw [hmem]
  generalize hview : msgView message (partLen cfg message.length) (q % cfg.instanceCount) = view
    at hshards
  have hle : view.length ≤ message.length := by
    rw [← hview, msgView, length_take, length_drop]
    omega
  by_cases hne : view = []
  · rw [splitCode, hne] at hshards
    cases hshards
  · obtain rfl : cut d view = shards := by
      rw [splitCode] at hshards
      exact Option.some.inj ((if_neg hne).symm.trans hshards)
    rw [getD_eq_getElem?_getD]
    cases hj : (cut d view)[q / cfg.instanceCount]? with
    | none => simp
    | some s =>
      rw [Option.getD_some, length_of_mem_cut hd (mem_of_getElem? hj)]
      exact le_trans (ceil_le hd (length_pos_iff.mpr hne)) hle

/-! ## The hash -/

/-- The length of the data, its first bytes, and those from the second digest of a pair on. -/
def lengthHash (bs : Bytes) : HashString where
  bytes := UInt8.ofNat bs.length ::
    ((bs ++ List.replicate 15 0).take 15 ++ (bs.drop 32 ++ List.replicate 16 0).take 16)
  size := by simp

end MassBFT.Replication
