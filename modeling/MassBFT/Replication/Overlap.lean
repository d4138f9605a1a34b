import MassBFT.Replication.Binding

/-!
# Ranges that overlap

A serialized proof leaves out what it shares with the proof before it, and the validator
completes it from the proof it read last. Slots that are filled already are skipped; their
siblings go to a cache, so that the next new slot can be completed from it. **But every skipped
slot starts the cache anew, from the last proof that was read**: what an earlier skipped slot
wrote is forgotten. `Memory` says what the validator remembers at each slot of an honest range,
and `At.right_iff` when that is enough.

A run of skipped slots between two new slots is harmless exactly if every sibling that has
changed since the first of the new slots is written again for the last skipped slot or for the
second one (`Rewritten`); runs of one slot always are, and so are runs in front of a range. From
this follows when a sequence of overlapping honest ranges is accepted (`overlaps_accepted`).
-/

set_option autoImplicit false

namespace MassBFT.Replication

open List Encoded

/-! ## Writing over a cache -/

section

variable {f g : Nat → Piece} {proof : Nat → List HashString} {base own : List HashString}

theorem overwritten_concat (f : Nat → Piece) (p n : Nat) (base : List HashString) :
    overwritten f p (n + 1) base = completed (f (p + n)).own (some (overwritten f p n base)) := by
  induction n generalizing p base with
  | zero => rfl
  | succ n ih =>
    rw [overwritten, ih, Nat.add_right_comm, Nat.add_assoc]
    rfl

theorem overwritten_congr {p n : Nat} (h : ∀ q, p ≤ q → q < p + n → f q = g q) :
    overwritten f p n base = overwritten g p n base := by
  induction n generalizing p base with
  | zero => rfl
  | succ n ih =>
    rw [overwritten, overwritten, h p (le_refl _) (by omega)]
    exact ih fun q h1 h2 => h q (by omega) (by omega)

theorem getD_completed (own base : List HashString) (j : Nat) :
    (completed own (some base)).getD j default =
      if j < own.length then own.getD j default else base.getD j default := by
  simp only [completed, Option.getD_some, getD_eq_getElem?_getD]
  split_ifs with hj
  · rw [getElem?_append_left hj]
  · rw [getElem?_append_right (by omega), getElem?_drop,
      Nat.add_sub_cancel' (Nat.le_of_not_lt hj)]

/-- **A sibling is right again once a piece writes it**, and if none does it was right before. -/
theorem getD_overwritten_iff {p n : Nat}
    (hproof : ∀ q, p ≤ q → q < p + n → completed (f q).own (some (proof (q - 1))) = proof q)
    (j : Nat) :
    (overwritten f p n base).getD j default = (proof (p + n - 1)).getD j default ↔
      (∃ q, p ≤ q ∧ q < p + n ∧ j < (f q).own.length) ∨
        base.getD j default = (proof (p - 1)).getD j default := by
  induction n with
  | zero =>
    rw [overwritten, Nat.add_zero]
    exact ⟨.inr, fun h => h.resolve_left fun ⟨q, h1, h2, _⟩ => by omega⟩
  | succ n ih =>
    have hlast := hproof (p + n) (by omega) (by omega)
    rw [overwritten_concat, ← Nat.add_assoc, Nat.add_sub_cancel, ← hlast, getD_completed,
      getD_completed]
    split_ifs with hj
    · exact ⟨fun _ => .inl ⟨p + n, by omega, by omega, hj⟩, fun _ => rfl⟩
    · rw [ih fun q h1 h2 => hproof q h1 (by omega)]
      refine or_congr_left ⟨?_, ?_⟩
      · rintro ⟨q, h1, h2, hq⟩
        exact ⟨q, h1, by omega, hq⟩
      · rintro ⟨q, h1, h2, hq⟩
        refine ⟨q, h1, ?_, hq⟩
        have hne : q ≠ p + n := by
          rintro rfl
          exact hj hq
        omega

/-- If the first piece is completed right, so are the others. -/
theorem overwritten_from {p n : Nat} (hn : 0 < n)
    (hfirst : completed (f p).own (some base) = proof p)
    (hproof : ∀ q, p < q → q < p + n → completed (f q).own (some (proof (q - 1))) = proof q) :
    overwritten f p n base = proof (p + n - 1) := by
  induction n, hn using Nat.le_induction with
  | base => exact hfirst
  | succ n hn ih =>
    have hlast := hproof (p + n) (by omega) (by omega)
    rw [overwritten_concat, ih fun q h1 h2 => hproof q h1 (by omega), hlast, ← Nat.add_assoc,
      Nat.add_sub_cancel]

theorem overwritten_eq_iff {depth p n : Nat}
    (hproof : ∀ q, p ≤ q → q < p + n → completed (f q).own (some (proof (q - 1))) = proof q)
    (hlen : (overwritten f p n base).length = depth) (hdepth : (proof (p + n - 1)).length = depth) :
    overwritten f p n base = proof (p + n - 1) ↔
      ∀ j, j < depth → base.getD j default ≠ (proof (p - 1)).getD j default →
        ∃ q, p ≤ q ∧ q < p + n ∧ j < (f q).own.length := by
  constructor
  · intro heq j _ hne
    have hj := @getD_overwritten_iff f proof base p n hproof j
    rw [heq] at hj
    exact (hj.mp rfl).resolve_right hne
  · intro hall
    apply ext_getElem
    · rw [hlen, hdepth]
    · intro j h1 h2
      have hj : (overwritten f p n base).getD j default = (proof (p + n - 1)).getD j default := by
        rw [getD_overwritten_iff hproof]
        by_cases hsame : base.getD j default = (proof (p - 1)).getD j default
        · exact .inr hsame
        · exact .inl (hall j (by omega) hsame)
      simpa [getD_eq_getElem?_getD, getElem?_eq_getElem h1, getElem?_eq_getElem h2] using hj

end

/-! ## What is remembered at a slot -/

section

variable (enc : Encoded) (cfg : Config)

/-- The siblings of the last shard in front of slot `i`. -/
def Encoded.siblingsBefore (i : Nat) : List HashString := enc.siblingsAt (i * cfg.instanceCount - 1)

/-- Every sibling in which the shards in front of slots `r + 1` and `i - 1` differ is written for
slot `i - 1` or for the first shard of slot `i`. -/
def Encoded.Rewritten (r i : Nat) : Prop :=
  ∀ j, j < enc.mt.depth →
    (enc.siblingsBefore cfg (r + 1)).getD j default ≠
      (enc.siblingsBefore cfg (i - 1)).getD j default →
    ∃ q, (i - 1) * cfg.instanceCount ≤ q ∧ q ≤ i * cfg.instanceCount ∧
      j < keptSize (enc.siblingsAt (q - 1)) (enc.siblingsAt q) enc.mt.depth

/-- Slot `r` is the last new slot of the range in front of slot `i`, and not the one before it. -/
structure SkippedSince (filled : Nat → Bool) (start r i : Nat) : Prop where
  start_le : start ≤ r
  lt : r + 1 < i
  new : filled r = false
  skipped : ∀ j, r < j → j < i → filled j = true

theorem SkippedSince.unique {filled : Nat → Bool} {start r r' i : Nat}
    (h : SkippedSince filled start r i) (h' : SkippedSince filled start r' i) : r = r' := by
  have hlt := h.lt
  have hlt' := h'.lt
  by_contra hne
  rcases Nat.lt_or_gt_of_ne hne with hless | hmore
  · exact absurd (h.skipped r' hless (by omega)) (by simp [h'.new])
  · exact absurd (h'.skipped r hmore (by omega)) (by simp [h.new])

/-- The skipped slots in front of slot `i`, if there are any behind a new one, do no harm. -/
def Encoded.RewrittenBefore (filled : Nat → Bool) (start i : Nat) : Prop :=
  ∀ r, SkippedSince filled start r i → enc.Rewritten cfg r i

/-- What is remembered at slot `i` if slot `r` was the last one that was read. -/
def Encoded.remembered (first r i : Nat) : List HashString :=
  if i = r + 1 then enc.siblingsBefore cfg (r + 1)
  else overwritten (enc.pieceAt first) ((i - 1) * cfg.instanceCount) cfg.instanceCount
    (enc.siblingsBefore cfg (r + 1))

/-- What the validator remembers when it comes to slot `i` of an honest range. -/
inductive Memory (filled : Nat → Bool) (start i : Nat) (m : Recall) : Prop where
  /-- No slot has been read: the cache is the last proof. -/
  | skipped (hskipped : ∀ j, start ≤ j → j < i → filled j = true) (hproof : m.proof = none)
      (hrecalled : m.recalled enc.mt.depth =
        recalledAt enc.siblingsAt (start * cfg.instanceCount) (i * cfg.instanceCount))
  /-- Slot `r` was the last one that was read. -/
  | read (r : Nat) (hstart : start ≤ r) (hlt : r < i) (hnew : filled r = false)
      (hskipped : ∀ j, r < j → j < i → filled j = true)
      (hproof : m.proof = some (enc.siblingsBefore cfg (r + 1)))
      (hrecalled : m.recalled enc.mt.depth =
        some (enc.remembered cfg (start * cfg.instanceCount) r i))

/-- The proof that the first shard of slot `i` is completed to if slots were skipped. -/
def Encoded.recalledProof (r i : Nat) : Proof where
  siblings := completed (enc.pieceAt (r * cfg.instanceCount) (i * cfg.instanceCount)).own
    (some (enc.remembered cfg (r * cfg.instanceCount) r i))
  path := (enc.mt.proofs.getD (i * cfg.instanceCount) default).path

/-- What is hashed to verify the first shards of slots behind skipped ones. -/
def Encoded.recalledInputs (sha256 : Bytes → HashString) : List Bytes :=
  (List.range cfg.fragmentCnt).flatMap fun r =>
    (List.range cfg.fragmentCnt).flatMap fun i =>
      verifyInputs sha256 (enc.ecEncodeResult.getD (i * cfg.instanceCount) [])
        (enc.recalledProof cfg r i)

end

/-- As long as no proof has been read, a skipped slot is written over what is recalled. -/
theorem Recall.Whole.completed_base {depth : Nat} {m : Recall} (hm : m.Whole depth)
    (hproof : m.proof = none) {own : List HashString}
    (hfull : m.recalled depth = none → own.length = depth) :
    completed own (some (m.base depth)) = completed own (m.recalled depth) := by
  have hrecalled := hm.recalled_eq
  rw [hm.base_eq, hproof, Option.getD_none]
  cases hskip : m.skipped with
  | true =>
    rw [hskip] at hrecalled
    rw [hrecalled, if_pos rfl]
  | false =>
    rw [hskip, hproof, if_neg Bool.false_ne_true] at hrecalled
    have hlen := hfull hrecalled
    simp [completed, hrecalled, hlen, hm.length_cache]

section

variable {sha256 : Bytes → HashString} {w : Wire} {cfg : Config} {enc : Encoded}
  {filled : Nat → Bool} {start n i : Nat} {c : Cursor} {m : Recall}

section

variable (hb : MerkleTree.Built sha256 (enc.ecEncodeResult.map sha256) enc.mt) {first q : Nat}
  (hfirst : first < q) (hq : q < enc.ecEncodeResult.length)
include hb hfirst hq

/-- Behind another shard the proof is completed from the proof before. -/
theorem Encoded.completed_previous :
    completed (enc.pieceAt first q).own (some (enc.siblingsAt (q - 1))) = enc.siblingsAt q := by
  have hproven := (proven hb hfirst.le hq).completed_eq
  rwa [recalledAt, if_neg (by omega)] at hproven

theorem Encoded.length_own_kept :
    (enc.pieceAt first q).own.length =
      keptSize (enc.siblingsAt (q - 1)) (enc.siblingsAt q) enc.mt.depth := by
  rw [length_own hb hq, proofSize, if_neg (by omega)]
  rfl

end

theorem Encoded.pieceAt_congr {first first' q : Nat} (h : first < q) (h' : first' < q) :
    enc.pieceAt first q = enc.pieceAt first' q := by
  simp only [pieceAt, proofSize, if_neg (Nat.ne_of_gt h), if_neg (Nat.ne_of_gt h')]

/-- What is remembered behind skipped slots does not depend on where the range starts. -/
theorem Encoded.remembered_congr (hinst : 0 < cfg.instanceCount) {r : Nat}
    (h : SkippedSince filled start r i) :
    enc.remembered cfg (start * cfg.instanceCount) r i =
      enc.remembered cfg (r * cfg.instanceCount) r i := by
  have hlt := h.lt
  have hfirst := Nat.mul_le_mul_right cfg.instanceCount h.start_le
  have hpos : r * cfg.instanceCount < (i - 1) * cfg.instanceCount :=
    Nat.mul_lt_mul_of_pos_right (by omega) hinst
  simp only [remembered, if_neg (by omega : ¬ i = r + 1)]
  exact overwritten_congr fun q h1 h2 => pieceAt_congr (by omega) (by omega)

theorem Encoded.Sendable.lt_length (he : enc.Sendable sha256 w cfg) (hi : i < cfg.fragmentCnt) :
    i * cfg.instanceCount + cfg.instanceCount ≤ enc.ecEncodeResult.length := by
  rw [he.length_eq, ← Nat.add_one_mul]
  exact Nat.mul_le_mul_right _ hi

theorem Encoded.wellFormed_slot (he : enc.Sendable sha256 w cfg) (hstart : start ≤ i)
    (hi : i < cfg.fragmentCnt) :
    WellFormed w (enc.pieceAt (start * cfg.instanceCount)) enc.mt.depth
      (i * cfg.instanceCount) cfg.instanceCount := by
  have hfirst := Nat.mul_le_mul_right cfg.instanceCount hstart
  have hlength := he.lt_length hi
  exact (wellFormed he.built he.carried (n := i * cfg.instanceCount - start * cfg.instanceCount +
    cfg.instanceCount) (by omega)).mono (by omega) (by omega)

/-- The first shard behind skipped slots is completed right exactly if what has changed is
written again. -/
theorem Encoded.remembered_right_iff (he : enc.Sendable sha256 w cfg) {r : Nat} (hstart : start ≤ r)
    (hlt : r + 1 < i) (hi : i < cfg.fragmentCnt) :
    completed (enc.pieceAt (start * cfg.instanceCount) (i * cfg.instanceCount)).own
        (some (enc.remembered cfg (start * cfg.instanceCount) r i)) =
      enc.siblingsAt (i * cfg.instanceCount) ↔ enc.Rewritten cfg r i := by
  have hinst := he.inst_pos
  have hlength := he.lt_length hi
  have hlast : (i - 1) * cfg.instanceCount + cfg.instanceCount = i * cfg.instanceCount := by
    rw [← Nat.add_one_mul, Nat.sub_add_cancel (by omega)]
  have hfirst : start * cfg.instanceCount < (i - 1) * cfg.instanceCount :=
    Nat.mul_lt_mul_of_pos_right (by omega) hinst
  have hr : (r + 1) * cfg.instanceCount ≤ (i - 1) * cfg.instanceCount :=
    Nat.mul_le_mul_right _ (by omega)
  have hproof : ∀ q, (i - 1) * cfg.instanceCount ≤ q →
      q < (i - 1) * cfg.instanceCount + (cfg.instanceCount + 1) →
      completed (enc.pieceAt (start * cfg.instanceCount) q).own (some (enc.siblingsAt (q - 1))) =
        enc.siblingsAt q :=
    fun q h1 h2 => completed_previous he.built (by omega) (by omega)
  have hwf : WellFormed w (enc.pieceAt (start * cfg.instanceCount)) enc.mt.depth
      ((i - 1) * cfg.instanceCount) (cfg.instanceCount + 1) := by
    refine (wellFormed he.built he.carried
      (n := i * cfg.instanceCount - start * cfg.instanceCount + 1) (by omega)).mono
      (by omega) (by omega)
  have hbase : (enc.siblingsBefore cfg (r + 1)).length = enc.mt.depth :=
    (proof_at he.built (by omega)).2.1
  have hiff := overwritten_eq_iff hproof (length_overwritten hwf hbase)
    (proof_at he.built (by omega)).2.1
  rw [overwritten_concat, hlast, ← Nat.add_assoc, hlast, Nat.add_sub_cancel] at hiff
  rw [remembered, if_neg (by omega), hiff, Rewritten]
  refine forall₃_congr fun j _ _ => exists_congr fun q => ?_
  constructor
  · rintro ⟨h1, h2, h3⟩
    rw [length_own_kept he.built (by omega) (by omega)] at h3
    exact ⟨h1, by omega, h3⟩
  · rintro ⟨h1, h2, h3⟩
    refine ⟨h1, by omega, ?_⟩
    rw [length_own_kept he.built (by omega) (by omega)]
    exact h3

/-- The validator is at slot `i` of an honest range, `n` slots in front of its end. -/
structure At (w : Wire) (enc : Encoded) (cfg : Config) (filled : Nat → Bool) (start n i : Nat)
    (c : Cursor) (m : Recall) : Prop extends c.Reads enc.mt.depth m where
  start_le : start ≤ i
  bound : i + n ≤ cfg.fragmentCnt
  rest : c.rest = piecesBytes w (enc.pieceAt (start * cfg.instanceCount)) (i * cfg.instanceCount)
    (n * cfg.instanceCount)
  memory : Memory enc cfg filled start i m

/-- The first shard of slot `i` is completed to its proof. -/
def Encoded.Right (enc : Encoded) (cfg : Config) (start i : Nat) (m : Recall) : Prop :=
  completed (enc.pieceAt (start * cfg.instanceCount) (i * cfg.instanceCount)).own
    (m.recalled enc.mt.depth) = enc.siblingsAt (i * cfg.instanceCount)

variable (he : enc.Sendable sha256 w cfg) (h : At w enc cfg filled start (n + 1) i c m)

include he h

/-- The first shard of slot `i` is completed right, unless slots were skipped behind a new one. -/
theorem At.right_or : (enc.Right cfg start i m ∧ ∀ r, ¬ SkippedSince filled start r i) ∨
    ∃ r, SkippedSince filled start r i ∧
      m.recalled enc.mt.depth = some (enc.remembered cfg (start * cfg.instanceCount) r i) := by
  have hinst := he.inst_pos
  have hlength := he.lt_length (by have := h.bound; omega : i < cfg.fragmentCnt)
  cases h.memory with
  | skipped hskipped hproof hrecalled =>
    refine .inl ⟨?_, fun r hr => ?_⟩
    · rw [Right, hrecalled]
      exact (proven he.built (Nat.mul_le_mul_right _ h.start_le) (by omega)).completed_eq
    · have hlt := hr.lt
      exact absurd (hskipped r hr.start_le (by omega)) (by simp [hr.new])
  | read r hr hlt hnew hskipped hproof hrecalled =>
    by_cases hnext : i = r + 1
    · refine .inl ⟨?_, fun r' hr' => ?_⟩
      · have hpos := Nat.mul_lt_mul_of_pos_right (by omega : start < i) hinst
        rw [Right, hrecalled, remembered, if_pos hnext, ← hnext]
        exact completed_previous he.built hpos (by omega)
      · have hlt' := hr'.lt
        rcases Nat.lt_or_ge r' r with hless | hge
        · exact absurd (hr'.skipped r hless hlt) (by simp [hnew])
        · omega
    · exact .inr ⟨r, ⟨hr, by omega, hnew, hskipped⟩, hrecalled⟩

/-- **What is remembered completes the first shard of slot `i` exactly if the skipped slots in
front of it do no harm.** -/
theorem At.right_iff : enc.Right cfg start i m ↔ enc.RewrittenBefore cfg filled start i := by
  have hi := h.bound
  rcases h.right_or he with ⟨hright, hnone⟩ | ⟨r, hr, hrecalled⟩
  · exact iff_of_true hright fun r hr => absurd hr (hnone r)
  · rw [Right, hrecalled, remembered_right_iff he hr.start_le hr.lt (by omega)]
    constructor
    · intro hrewritten r' hr'
      rw [hr'.unique hr]
      exact hrewritten
    · intro hall
      exact hall r hr

/-- In front of the first shard of a range nothing is recalled, and nothing is left out. -/
theorem At.full (hnone : m.recalled enc.mt.depth = none) :
    (enc.pieceAt (start * cfg.instanceCount) (i * cfg.instanceCount)).own.length =
      enc.mt.depth := by
  have hinst := he.inst_pos
  have hlength := he.lt_length (by have := h.bound; omega : i < cfg.fragmentCnt)
  cases h.memory with
  | skipped hskipped hproof hrecalled =>
    rw [hrecalled, recalledAt] at hnone
    split_ifs at hnone with heq
    rw [length_own he.built (by omega), proofSize, if_pos heq]
  | read r hr hlt hnew hskipped hproof hrecalled =>
    rw [hrecalled] at hnone
    cases hnone

/-- The bytes of slot `i`, and those of the slots behind it. -/
theorem At.rest_slot : WellFormed w (enc.pieceAt (start * cfg.instanceCount)) enc.mt.depth
      (i * cfg.instanceCount) cfg.instanceCount ∧
    c.rest = piecesBytes w (enc.pieceAt (start * cfg.instanceCount)) (i * cfg.instanceCount)
        cfg.instanceCount ++
      piecesBytes w (enc.pieceAt (start * cfg.instanceCount)) ((i + 1) * cfg.instanceCount)
        (n * cfg.instanceCount) := by
  refine ⟨wellFormed_slot he h.start_le (by have := h.bound; omega), ?_⟩
  rw [h.rest, piecesBytes_slot]

/-- Skipping a filled slot. -/
theorem At.skip (hfilled : filled i = true) :
    ∃ c' m', skipSlot w enc.mt.depth cfg.instanceCount c = .ok c' ∧
      At w enc cfg filled start n (i + 1) c' m' := by
  have hbound := h.bound
  have hinst := he.inst_pos
  have hlength := he.lt_length (by omega : i < cfg.fragmentCnt)
  have hfirst := Nat.mul_le_mul_right cfg.instanceCount h.start_le
  have hnext := Nat.add_one_mul i cfg.instanceCount
  obtain ⟨hwf, hrest⟩ := h.rest_slot he
  obtain ⟨c', hskip, hrest', hc'⟩ := skipSlot_bytes hwf h.toReads hrest
  have hfilled' : ∀ r, (∀ j, r ≤ j → j < i → filled j = true) →
      ∀ j, r ≤ j → j < i + 1 → filled j = true := by
    intro r hall j h1 h2
    by_cases hj : j = i
    · rw [hj, hfilled]
    · exact hall j h1 (by omega)
  refine ⟨c', _, hskip, hc', (by have := h.start_le; omega), by omega, hrest', ?_⟩
  cases h.memory with
  | skipped hskipped hproof hrecalled =>
    refine .skipped (hfilled' start hskipped) hproof ?_
    have hright := h.toReads.completed_base hproof (h.full he)
    rw [hrecalled, (proven he.built hfirst (by omega)).completed_eq] at hright
    have hrun := overwritten_from hinst hright
      fun q h1 h2 => completed_previous he.built (by omega) (by omega)
    rw [hc'.recalled_eq, if_pos rfl, recalledAt, if_neg (by omega), hrun, hnext]
  | read r hr hlt hnew hskipped hproof hrecalled =>
    refine .read r hr (by omega) hnew (hfilled' (r + 1) hskipped) hproof ?_
    rw [hc'.recalled_eq, if_pos rfl, h.toReads.base_eq, hproof, remembered, if_neg (by omega),
      Nat.add_sub_cancel]
    rfl

/-- Reading a new slot whose first shard is completed right. -/
theorem At.store (hnew : filled i = false) (hright : enc.Right cfg start i m) :
    ∃ c' m', readPieces sha256 w enc.mt.root enc.mt.depth i cfg.instanceCount
        ⟨c, 0, cfg.instanceCount * enc.mt.depth⟩ = .ok (some c', enc.slot cfg i) ∧
      At w enc cfg filled start n (i + 1) c' m' := by
  have hbound := h.bound
  have hlength := he.lt_length (by omega : i < cfg.fragmentCnt)
  have hfirst := Nat.mul_le_mul_right cfg.instanceCount h.start_le
  have hnext := Nat.add_one_mul i cfg.instanceCount
  obtain ⟨hwf, hrest⟩ := h.rest_slot he
  obtain ⟨c', hread, hrest', hc'⟩ := readPieces_completed he.inst_pos hfirst hwf
    (fun q h1 h2 => proven he.built (by omega) (by omega)) (h.toReads.newSlot _ i)
    (Nat.zero_add _).le hright (h.full he) hrest
  rw [← hnext] at hc'
  refine ⟨c', _, hread, hc', (by have := h.start_le; omega), by omega, hrest',
    .read i h.start_le (by omega) hnew (by omega) rfl ?_⟩
  rw [hc'.recalled_eq, remembered, if_pos rfl]
  rfl

variable (hfree : NoCollision sha256 (enc.hashed sha256 ++ enc.recalledInputs cfg sha256))

include hfree in
/-- If no hashes collide, a first shard that verifies is completed right. -/
theorem At.right_of_verified
    (hverify : verify sha256 (some (sha256 (enc.ecEncodeResult.getD (i * cfg.instanceCount) [])))
      ⟨completed (enc.pieceAt (start * cfg.instanceCount) (i * cfg.instanceCount)).own
          (m.recalled enc.mt.depth),
        (enc.mt.proofs.getD (i * cfg.instanceCount) default).path⟩ enc.mt.root = some true) :
    enc.Right cfg start i m := by
  rcases h.right_or he with ⟨hright, -⟩ | ⟨r, hr, hrecalled⟩
  · exact hright
  have hbound := h.bound
  have hinst := he.inst_pos
  have hlength := he.lt_length (by omega : i < cfg.fragmentCnt)
  have hpos : r * cfg.instanceCount < i * cfg.instanceCount :=
    Nat.mul_lt_mul_of_pos_right (by have := hr.lt; omega) hinst
  have hfirst := Nat.mul_le_mul_right cfg.instanceCount hr.start_le
  have hlen := length_completed ((h.rest_slot he).1.own_le _ (le_refl _) (by omega))
    (fun _ hvec => h.toReads.length_recalled hvec) (h.full he)
  obtain ⟨-, hdepth, hown⟩ := proof_at he.built (by omega : i * cfg.instanceCount < _)
  have hproof : (⟨completed (enc.pieceAt (start * cfg.instanceCount)
      (i * cfg.instanceCount)).own (m.recalled enc.mt.depth),
      (enc.mt.proofs.getD (i * cfg.instanceCount) default).path⟩ : Proof) =
        enc.recalledProof cfg r i := by
    rw [hrecalled, remembered_congr hinst hr, pieceAt_congr (by omega) hpos]
    rfl
  refine (verify_inj (hlen.trans hdepth.symm) (hfree.mono fun a ha => ?_) hverify hown).2
  rcases mem_append.mp ha with ha | ha
  · rw [hproof] at ha
    have hrlt := hr.lt
    refine mem_append_right _ (mem_flatMap.mpr ⟨r, mem_range.mpr (by omega), ?_⟩)
    exact mem_flatMap.mpr ⟨i, mem_range.mpr (by omega), ha⟩
  · exact mem_append_left _ (mem_flatMap.mpr ⟨_, mem_range.mpr (by omega), ha⟩)

/-! ## One call -/

/-- The slots that hold fragments once a call has come to slot `i`. -/
def reached (filled : Nat → Bool) (start i : Nat) : Nat → Bool :=
  fun j => filled j || (decide (start ≤ j) && decide (j < i))

/-- The encoder's fragments, in the slots that are filled. -/
def Encoded.holding (enc : Encoded) (cfg : Config) (filled : Nat → Bool) : Storage :=
  fun j => if filled j then ⟨true, enc.slot cfg j⟩ else ⟨false, []⟩

omit he h in
theorem Encoded.holding_reached_skip (hfilled : filled i = true) :
    enc.holding cfg (reached filled start i) = enc.holding cfg (reached filled start (i + 1)) := by
  congr 1
  funext j
  by_cases hj : j = i
  · simp [reached, hj, hfilled]
  · have hlt : j < i ↔ j < i + 1 := by omega
    simp [reached, hlt]

omit he h in
theorem Encoded.holding_reached_store (hstart : start ≤ i) :
    Function.update (enc.holding cfg (reached filled start i)) i ⟨true, enc.slot cfg i⟩ =
      enc.holding cfg (reached filled start (i + 1)) := by
  funext j
  by_cases hj : j = i
  · subst hj
    simp [holding, reached, hstart]
  · have hlt : j < i ↔ j < i + 1 := by omega
    rw [Function.update_of_ne hj]
    simp [holding, reached, hlt]

omit he h in
theorem Encoded.guard_holding_reached :
    (enc.holding cfg (reached filled start i) i).cacheGuard = filled i := by
  cases hf : filled i <;> simp [holding, reached, hf]

/-- One slot of an honest range, if the skipped slots in front of it do no harm. -/
theorem At.step (hok : filled i = false → enc.RewrittenBefore cfg filled start i) :
    ∃ c' m', validateSlots sha256 w enc.mt.root enc.mt.depth cfg.instanceCount (n + 1) i c
        (enc.holding cfg (reached filled start i)) =
      validateSlots sha256 w enc.mt.root enc.mt.depth cfg.instanceCount n (i + 1) c'
        (enc.holding cfg (reached filled start (i + 1))) ∧
      At w enc cfg filled start n (i + 1) c' m' := by
  rw [validateSlots, guard_holding_reached]
  cases hfilled : filled i with
  | true =>
    obtain ⟨c', m', hskip, h'⟩ := h.skip he hfilled
    refine ⟨c', m', ?_, h'⟩
    rw [if_pos rfl, hskip, ← holding_reached_skip hfilled]
  | false =>
    obtain ⟨c', m', hread, h'⟩ := h.store he hfilled ((h.right_iff he).mpr (hok hfilled))
    refine ⟨c', m', ?_, h'⟩
    rw [if_neg Bool.false_ne_true, hread, ← holding_reached_store h.start_le]

include hfree in
/-- If no hashes collide, a new slot that is accepted has no harmful slots in front of it. -/
theorem At.rewritten_of_accepted {storage : Storage}
    (hval : validateSlots sha256 w enc.mt.root enc.mt.depth cfg.instanceCount (n + 1) i c
      (enc.holding cfg (reached filled start i)) = .ok (true, storage))
    (hnew : filled i = false) : enc.RewrittenBefore cfg filled start i := by
  rcases validateSlots_succ hval with ⟨hguard, -⟩ | ⟨-, c', fragments, hread, hrest'⟩
  · rw [guard_holding_reached, hnew] at hguard
    cases hguard
  · rcases hrest' with ⟨-, hfalse, -⟩ | ⟨c', rfl, -⟩
    · cases hfalse
    refine (h.right_iff he).mp (h.right_of_verified he hfree ?_)
    by_contra hverify
    obtain ⟨hwf, hrest⟩ := h.rest_slot he
    rw [readPieces_refused he.inst_pos hwf (h.toReads.newSlot _ i) (le_refl _) (h.full he) hrest
      hverify] at hread
    cases hread

omit h

/-- **The slots of an honest range are all stored** if no skipped slot does harm. -/
theorem At.run (h : At w enc cfg filled start n i c m)
    (hok : ∀ k, i ≤ k → k < i + n → filled k = false → enc.RewrittenBefore cfg filled start k) :
    validateSlots sha256 w enc.mt.root enc.mt.depth cfg.instanceCount n i c
        (enc.holding cfg (reached filled start i)) =
      .ok (true, enc.holding cfg (reached filled start (i + n))) := by
  induction n generalizing i c m with
  | zero => rfl
  | succ n ih =>
    obtain ⟨c', m', hstep, h'⟩ := h.step he (hok i (le_refl _) (by omega))
    rw [hstep, ih h' fun k h1 h2 => hok k (by omega) (by omega), Nat.add_right_comm]
    rfl

/-- If no hashes collide, an honest range that is accepted skips no slot that does harm. -/
theorem At.run_rewritten (h : At w enc cfg filled start n i c m)
    (hfree : NoCollision sha256 (enc.hashed sha256 ++ enc.recalledInputs cfg sha256))
    {storage : Storage}
    (hval : validateSlots sha256 w enc.mt.root enc.mt.depth cfg.instanceCount n i c
      (enc.holding cfg (reached filled start i)) = .ok (true, storage)) {k : Nat}
    (hik : i ≤ k) (hkn : k < i + n) (hnew : filled k = false) :
    enc.RewrittenBefore cfg filled start k := by
  induction n generalizing i c m with
  | zero => omega
  | succ n ih =>
    have hok := h.rewritten_of_accepted he hfree hval
    rcases Nat.eq_or_lt_of_le hik with rfl | hlt
    · exact hok hnew
    · obtain ⟨c', m', hstep, h'⟩ := h.step he hok
      rw [hstep] at hval
      exact ih h' hval hlt (by omega)

end

/-! ## Sequences of ranges -/

section

variable (sha256 : Bytes → HashString) (w : Wire) (cfg : Config) (enc : Encoded)

/-- The strings that the encoder serializes for the ranges, one after another: the answers, and
what is stored in the end. -/
def Encoded.feed : List (Nat × Nat) → Storage → Except Fault (List Bool × Storage)
  | [], storage => .ok ([], storage)
  | (start, stop) :: ranges, storage =>
    match validateAndDeserializeFragments sha256 w cfg storage enc.mt.root
      ((enc.serializeFragments w cfg start stop).getD []) start stop with
    | .error e => .error e
    | .ok (answer, storage) =>
      match feed ranges storage with
      | .error e => .error e
      | .ok (answers, storage) => .ok (answer :: answers, storage)

/-- The slot lies in one of the ranges. -/
def covered (ranges : List (Nat × Nat)) (j : Nat) : Bool :=
  ranges.any fun range => decide (range.1 ≤ j) && decide (j < range.2)

/-- All ranges are accepted on an empty context, and the slots that they cover hold the encoder's
fragments. -/
def Encoded.AllAccepted (ranges : List (Nat × Nat)) : Prop :=
  ∃ storage, enc.feed sha256 w cfg ranges Storage.empty =
      .ok (List.replicate ranges.length true, storage) ∧
    ∀ j, covered ranges j = true → storage j = ⟨true, enc.slot cfg j⟩

/-- In no range of the sequence do skipped slots do harm, if it follows the ranges `past`. -/
def Encoded.AllRewritten : List (Nat × Nat) → List (Nat × Nat) → Prop
  | _, [] => True
  | past, (start, stop) :: ranges =>
    (∀ i, start ≤ i → i < stop → covered past i = false →
      enc.RewrittenBefore cfg (covered past) start i) ∧
    Encoded.AllRewritten (past ++ [(start, stop)]) ranges

end

section

variable {sha256 : Bytes → HashString} {w : Wire} {cfg : Config} {enc : Encoded}
  {filled : Nat → Bool} {start stop : Nat}

theorem reached_start (filled : Nat → Bool) (start : Nat) :
    reached filled start start = filled := by
  funext j
  have hnot : ¬ (start ≤ j ∧ j < start) := by omega
  simp [reached, ← Bool.decide_and, hnot]

theorem covered_concat (ranges : List (Nat × Nat)) (start stop : Nat) :
    reached (covered ranges) start stop = covered (ranges ++ [(start, stop)]) := by
  funext j
  simp [reached, covered]

variable (he : enc.Sendable sha256 w cfg)

include he

/-- What the validator does with an honest range. -/
theorem Encoded.validate_holding (hlt : start < stop) (hle : stop ≤ cfg.fragmentCnt) :
    ∃ c m, At w enc cfg filled start (stop - start) start c m ∧
      validateAndDeserializeFragments sha256 w cfg (enc.holding cfg filled) enc.mt.root
          ((enc.serializeFragments w cfg start stop).getD []) start stop =
        validateSlots sha256 w enc.mt.root enc.mt.depth cfg.instanceCount (stop - start) start c
          (enc.holding cfg (reached filled start start)) := by
  obtain ⟨raw, hraw⟩ : ∃ raw, enc.serializeFragments w cfg start stop = some raw :=
    ⟨_, serializeFragments_eq he hlt hle⟩
  rw [hraw, Option.getD_some, validate_serialized he hlt hle hraw, reached_start]
  refine ⟨_, _, ⟨Cursor.reads_first _ _, le_refl _, by omega, rfl, ?_⟩, rfl⟩
  exact .skipped (by omega) rfl (by rw [recalledAt, if_pos rfl]; rfl)

theorem Encoded.validate_rewritten (hlt : start < stop) (hle : stop ≤ cfg.fragmentCnt)
    (hok : ∀ i, start ≤ i → i < stop → filled i = false → enc.RewrittenBefore cfg filled start i) :
    validateAndDeserializeFragments sha256 w cfg (enc.holding cfg filled) enc.mt.root
        ((enc.serializeFragments w cfg start stop).getD []) start stop =
      .ok (true, enc.holding cfg (reached filled start stop)) := by
  obtain ⟨c, m, h, hval⟩ := @validate_holding _ _ _ _ filled _ _ he hlt hle
  rw [hval, h.run he fun k h1 h2 => hok k h1 (by omega), Nat.add_sub_cancel' hlt.le]

theorem Encoded.rewritten_of_validate (hlt : start < stop) (hle : stop ≤ cfg.fragmentCnt)
    (hfree : NoCollision sha256 (enc.hashed sha256 ++ enc.recalledInputs cfg sha256))
    {storage : Storage}
    (hval : validateAndDeserializeFragments sha256 w cfg (enc.holding cfg filled) enc.mt.root
      ((enc.serializeFragments w cfg start stop).getD []) start stop = .ok (true, storage)) :
    ∀ i, start ≤ i → i < stop → filled i = false → enc.RewrittenBefore cfg filled start i := by
  obtain ⟨c, m, h, hslots⟩ := @validate_holding _ _ _ _ filled _ _ he hlt hle
  rw [hslots] at hval
  intro i h1 h2 hnew
  exact h.run_rewritten he hfree hval h1 (by omega) hnew

/-- **Honest ranges are accepted in any order and overlap, as long as no skipped slot does harm.**
-/
theorem Encoded.feed_rewritten {past ranges : List (Nat × Nat)}
    (hvalid : ∀ range ∈ ranges, range.1 < range.2 ∧ range.2 ≤ cfg.fragmentCnt)
    (hok : enc.AllRewritten cfg past ranges) :
    enc.feed sha256 w cfg ranges (enc.holding cfg (covered past)) =
      .ok (List.replicate ranges.length true, enc.holding cfg (covered (past ++ ranges))) := by
  induction ranges generalizing past with
  | nil => rw [append_nil]; rfl
  | cons range ranges ih =>
    obtain ⟨start, stop⟩ := range
    obtain ⟨hlt, hle⟩ := hvalid _ mem_cons_self
    rw [feed, validate_rewritten he hlt hle hok.1, covered_concat]
    dsimp only
    rw [ih (fun range hr => hvalid range (mem_cons_of_mem _ hr)) hok.2, append_assoc]
    rfl

/-- If no hashes collide, skipped slots do no harm in ranges that are all accepted. -/
theorem Encoded.rewritten_of_feed {past ranges : List (Nat × Nat)}
    (hvalid : ∀ range ∈ ranges, range.1 < range.2 ∧ range.2 ≤ cfg.fragmentCnt)
    (hfree : NoCollision sha256 (enc.hashed sha256 ++ enc.recalledInputs cfg sha256))
    {storage : Storage} (hfeed : enc.feed sha256 w cfg ranges (enc.holding cfg (covered past)) =
      .ok (List.replicate ranges.length true, storage)) : enc.AllRewritten cfg past ranges := by
  induction ranges generalizing past with
  | nil => trivial
  | cons range ranges ih =>
    obtain ⟨start, stop⟩ := range
    obtain ⟨hlt, hle⟩ := hvalid _ mem_cons_self
    rw [feed] at hfeed
    cases hval : validateAndDeserializeFragments sha256 w cfg (enc.holding cfg (covered past))
        enc.mt.root ((enc.serializeFragments w cfg start stop).getD []) start stop with
    | error e => rw [hval] at hfeed; cases hfeed
    | ok t =>
      obtain ⟨answer, storage'⟩ := t
      rw [hval] at hfeed
      dsimp only at hfeed
      cases hrest : enc.feed sha256 w cfg ranges storage' with
      | error e => rw [hrest] at hfeed; cases hfeed
      | ok u =>
        obtain ⟨answers, storage''⟩ := u
        rw [hrest] at hfeed
        cases hfeed
        have hok := rewritten_of_validate he hlt hle hfree hval
        rw [validate_rewritten he hlt hle hok, covered_concat] at hval
        cases hval
        exact ⟨hok, ih (fun range hr => hvalid range (mem_cons_of_mem _ hr)) hrest⟩

end

/-- **A sequence of honest ranges is accepted if no skipped slot does harm, and, hashes that
collide apart, only then.** -/
theorem overlaps_accepted {sha256 : Bytes → HashString} {w : Wire} {ec : ErasureCode}
    {cfg : Config} {message : Bytes} {enc : Encoded}
    (hinit : initWithMessage sha256 ec cfg message = .ok (some enc))
    (hinst : 1 ≤ cfg.instanceCount) (hw : enc.Carried w) (ranges : List (Nat × Nat))
    (hvalid : ∀ range ∈ ranges, range.1 < range.2 ∧ range.2 ≤ cfg.fragmentCnt) :
    (enc.AllRewritten cfg [] ranges → enc.AllAccepted sha256 w cfg ranges) ∧
    (NoCollision sha256 (enc.hashed sha256 ++ enc.recalledInputs cfg sha256) →
      enc.AllAccepted sha256 w cfg ranges → enc.AllRewritten cfg [] ranges) := by
  have henc := initWithMessage_encodes hinit
  have he : enc.Sendable sha256 w cfg := ⟨henc.built, henc.length_eq, hinst, hw⟩
  constructor
  · intro hok
    -- an empty context holds the fragments of no range
    have hfeed := feed_rewritten he hvalid hok
    refine ⟨_, hfeed, fun j hj => ?_⟩
    rw [nil_append, holding, if_pos hj]
  · rintro hfree ⟨storage, hfeed, -⟩
    exact rewritten_of_feed he hvalid hfree hfeed

/-- A run of one skipped slot does no harm. -/
theorem Encoded.rewritten_of_short (enc : Encoded) (cfg : Config) {r i : Nat} (hlt : r + 1 < i)
    (hshort : i ≤ r + 2) : enc.Rewritten cfg r i := by
  intro j _ hne
  obtain rfl : i = r + 2 := by omega
  exact absurd rfl hne

/-- A range around a slot that is filled. -/
theorem overlaps_accepted_around : ∃ enc,
    initWithMessage lengthHash (splitCode 8) ⟨8, 0, 1, 1⟩ [1, 2, 3, 4, 5, 6, 7, 8] =
      .ok (some enc) ∧
    enc.AllAccepted lengthHash littleEndian ⟨8, 0, 1, 1⟩ [(4, 5), (3, 7)] := by
  obtain ⟨enc, hinit⟩ : ∃ enc, initWithMessage lengthHash (splitCode 8) ⟨8, 0, 1, 1⟩
      [1, 2, 3, 4, 5, 6, 7, 8] = .ok (some enc) := ⟨_, rfl⟩
  have henc := initWithMessage_encodes hinit
  have hcarried : enc.Carried littleEndian := by
    refine carried_littleEndian henc.built ?_ fun b hb => ?_
    · rw [henc.length_eq]
      norm_num [Config.fragmentCnt]
    · exact lt_of_le_of_lt (length_le_of_splitCode (by norm_num) (by norm_num) henc hb)
        (by norm_num)
  refine ⟨enc, hinit, (overlaps_accepted hinit (le_refl 1) hcarried [(4, 5), (3, 7)]
    (by decide)).1 ⟨fun i _ _ _ r hr => ?_, fun i _ _ _ r hr => ?_, trivial⟩⟩
  · exact absurd (hr.skipped (r + 1) (by omega) hr.lt) (by simp [covered])
  · refine enc.rewritten_of_short _ hr.lt ?_
    by_contra hlong
    have hone := hr.skipped (r + 1) (by omega) hr.lt
    have htwo := hr.skipped (r + 2) (by omega) (by omega)
    simp only [covered, nil_append, any_cons, any_nil, Bool.or_false,
      Bool.and_eq_true, decide_eq_true_eq] at hone htwo
    omega

set_option maxRecDepth 10000 in
/-- A range around two slots that are filled is turned down. -/
theorem not_every_overlap_accepted : ∃ enc,
    initWithMessage lengthHash (splitCode 8) ⟨8, 0, 1, 1⟩ [1, 2, 3, 4, 5, 6, 7, 8] =
      .ok (some enc) ∧
    (enc.feed lengthHash littleEndian ⟨8, 0, 1, 1⟩ [(4, 6), (3, 7)] Storage.empty).toOption.map
      Prod.fst = some [true, false] := by
  refine ⟨_, rfl, ?_⟩
  decide +kernel

end MassBFT.Replication
