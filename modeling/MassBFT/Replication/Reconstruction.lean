import MassBFT.Replication.BlockReceiver
import MassBFT.Replication.RoundTrip

/-!
# Reconstructing a block, fragment by fragment

The invariant of `genBlockFromQueue` for the root of an honest encoding: the slots that are
marked are those that hold the encoder's fragments, each range that an honest sender may send
is marked as a whole or not at all, and fewer than `dataShardCnt` slots are marked
(`Reconstructing`). A root without marked slots gets a new context, so nothing is asked of
the old one.

One round either returns the message or keeps the invariant and every mark (`Advances`).
**An honest fragment advances and marks its range** (`receive_honest`).
-/

set_option autoImplicit false

namespace MassBFT.Replication

open Function List

/-! ## Marks -/

theorem countP_update {v : Nat → Bool} {i : Nat} (hi : v i = false) {n : Nat} :
    (List.range n).countP (update v i true) = (List.range n).countP v + if i < n then 1 else 0 := by
  induction n with
  | zero => simp
  | succ n ih =>
    rw [range_succ, countP_append, countP_append, ih]
    by_cases hin : i = n
    · subst hin
      simp [hi]
    · have hne : update v i true n = v n := update_of_ne (Ne.symm hin) _ _
      have hlt : i < n + 1 ↔ i < n := by omega
      simp only [countP_singleton, hne, hlt]
      omega

/-- Marking a range marks its slots, and counts marked slots if they were counted before. -/
theorem foldl_mark {F start n : Nat} (hF : start + n ≤ F) {v : Nat → Bool} {c : Nat}
    (hc : c = (List.range F).countP v) :
    ∀ s, (List.range' start n).foldl (fun s i =>
        if s.1 i then s else (update s.1 i true, s.2 + 1)) (v, c) = s →
      s.2 = (List.range F).countP s.1 ∧
        ∀ j, s.1 j = (v j || decide (start ≤ j ∧ j < start + n)) := by
  induction n generalizing start v c with
  | zero =>
    rintro s rfl
    refine ⟨hc, fun j => ?_⟩
    simp
  | succ n ih =>
    intro s hs
    rw [List.range'_succ, foldl_cons] at hs
    dsimp only at hs
    split_ifs at hs with hv
    · obtain ⟨h1, h2⟩ := ih (by omega) hc s hs
      refine ⟨h1, fun j => ?_⟩
      rw [h2 j]
      by_cases hj : j = start
      · subst hj
        simp [hv]
      · congr 2
        exact propext ⟨fun h => by omega, fun h => by omega⟩
    · have hfalse : v start = false := by simpa using hv
      obtain ⟨h1, h2⟩ := @ih (start + 1) (by omega) (update v start true) (c + 1)
        (by rw [countP_update hfalse, hc, if_pos (by omega)]) s hs
      refine ⟨h1, fun j => ?_⟩
      rw [h2 j]
      by_cases hj : j = start
      · subst hj
        simp
      · rw [update_of_ne hj]
        congr 2
        exact propext ⟨fun h => by omega, fun h => by omega⟩

theorem markShards_spec {F start stop : Nat} (hlt : start < stop) (hF : stop ≤ F) {v : Nat → Bool}
    {c : Nat} (hc : c = (List.range F).countP v) :
    (markShards v c start stop).2 = (List.range F).countP (markShards v c start stop).1 ∧
      ∀ j, (markShards v c start stop).1 j = (v j || decide (start ≤ j ∧ j < stop)) := by
  have h := foldl_mark (by omega : start + (stop - start) ≤ F) hc _ rfl
  rw [Nat.add_sub_cancel' (le_of_lt hlt)] at h
  exact h

/-! ## What returns a message -/

namespace BlockReceiver

variable {σ : Type} {br : BlockReceiver σ} {f : EncodeBlockFragment} {msg : Bytes} {kept : σ}

theorem regenerate_of_returned {number : Nat} {r : Receiving σ}
    (h : br.round number r f = .returned msg kept) :
    ∃ r', br.regenerate r' f = .returned msg kept := by
  rw [round] at h
  split_ifs at h with hnumber
  cases hprep : prepare r f.root with
  | none => rw [hprep] at h; cases h
  | some r' =>
    rw [hprep] at h
    dsimp only [receive] at h
    split at h
    · cases h
    · split at h
      · cases h
      · cases h
      · split at h
        · exact ⟨_, h⟩
        · cases h

theorem regenerateMessage_of_returned (hcb : br.validateCallback = none) {r : Receiving σ}
    (h : br.regenerate r f = .returned msg kept) :
    regenerateMessage br.ec br.localFragmentConfig (r.haveShard f.root).storage
      (toInt32 f.size) [] = .ok (some msg) := by
  rw [regenerate, hcb] at h
  split_ifs at h
  split at h
  · cases h
  · cases h
  · rename_i msg' hmsg
    cases h
    exact hmsg

end BlockReceiver

/-! ## The invariant -/

/-- Ranges that honest senders may send: not empty, within the slots, equal or disjoint. -/
structure SenderRanges (cfg : Config) (ranges : Nat → Nat → Prop) : Prop where
  bounds : ∀ s e, ranges s e → s < e ∧ e ≤ cfg.fragmentCnt
  apart : ∀ s e s' e' i, ranges s e → ranges s' e' → s ≤ i → i < e → s' ≤ i → i < e' →
    s = s' ∧ e = e'

/-- The context holds the encoder's fragments in the marked slots, and nothing else. -/
structure Holding (cfg : Config) (enc : Encoded) (val : BlockRegenerateOptions) : Prop where
  guard : ∀ j, (val.storage j).cacheGuard = val.shardsValidated j
  fills : enc.Fills cfg val.shardsValidated val.storage
  alive : ∀ j, val.freed j = false

/-- The state of the encoder's root while the block is not complete. -/
structure Reconstructing (cfg : Config) (enc : Encoded) (ranges : Nat → Nat → Prop)
    (val : BlockRegenerateOptions) : Prop where
  count : val.currentShardCnt = (List.range cfg.fragmentCnt).countP val.shardsValidated
  below : val.currentShardCnt < cfg.dataShardCnt
  bounded : ∀ j, val.shardsValidated j = true → j < cfg.fragmentCnt
  whole : ∀ s e, ranges s e → ∀ i j, s ≤ i → i < e → s ≤ j → j < e →
    val.shardsValidated i = val.shardsValidated j
  holding : val.currentShardCnt ≠ 0 → Holding cfg enc val

section

variable {cfg : Config} {enc : Encoded} {ranges : Nat → Nat → Prop} {val : BlockRegenerateOptions}

theorem Reconstructing.unmarked (h : Reconstructing cfg enc ranges val)
    (h0 : val.currentShardCnt = 0) (j : Nat) : val.shardsValidated j = false := by
  cases hj : val.shardsValidated j with
  | false => rfl
  | true =>
    have hcount := h.count
    rw [h0] at hcount
    have hnone := countP_eq_zero.mp hcount.symm j (mem_range.mpr (h.bounded j hj))
    exact absurd hj hnone

/-- With a new context, the root without marks holds what is marked: nothing. -/
theorem Reconstructing.withContext (h : Reconstructing cfg enc ranges val)
    (h0 : val.currentShardCnt = 0) :
    Reconstructing cfg enc ranges val.withContext ∧ Holding cfg enc val.withContext := by
  have hun := h.unmarked h0
  have hhold : Holding cfg enc val.withContext := by
    refine ⟨fun j => (hun j).symm, fun j => ?_, fun _ => rfl⟩
    change [] = if val.shardsValidated j then enc.slot cfg j else []
    rw [hun j]
    rfl
  exact ⟨⟨h.count, h.below, h.bounded, h.whole, fun _ => hhold⟩, hhold⟩

end

/-! ## Honest fragments -/

/-- The callback, if there is one, accepts the message and leaves it as it is. -/
def AcceptsMessage {σ : Type} (validateCallback : Option (ValidateFunc σ)) (message : Bytes) :
    Prop :=
  ∀ validate, validateCallback = some validate → ∀ kept fragments,
    ∃ kept', validate kept message fragments = .ok (kept', message, true)

/-- An honest encoding of `message`, and a receiver that is set up for it. -/
structure HonestSetting {σ : Type} (br : BlockReceiver σ) (message : Bytes) (enc : Encoded)
    (ranges : Nat → Nat → Prop) : Prop where
  data_pos : 0 < br.localFragmentConfig.dataShardCnt
  inst_pos : 0 < br.localFragmentConfig.instanceCount
  encoded : initWithMessage br.sha256 br.ec br.localFragmentConfig message = .ok (some enc)
  carried : enc.Carried br.wire
  restores : br.ec.Restores br.localFragmentConfig
  ranges : SenderRanges br.localFragmentConfig ranges
  accepts : AcceptsMessage br.validateCallback message

/-- The round returns the message, or goes on with the marks it had and those of `cover`. -/
def Advances {σ : Type} (cfg : Config) (message : Bytes) (enc : Encoded)
    (ranges : Nat → Nat → Prop) (marked : Nat → Bool) (cover : Nat → Prop) (p : Progress σ) :
    Prop :=
  (∃ kept, p = .returned message kept) ∨
    ∃ r, p = .waiting r ∧ Reconstructing cfg enc ranges (r.haveShard enc.mt.root) ∧
      ∀ j, marked j = true ∨ cover j → (r.haveShard enc.mt.root).shardsValidated j = true

section

variable {σ : Type} {br : BlockReceiver σ} {message : Bytes} {enc : Encoded}
  {ranges : Nat → Nat → Prop} {val : BlockRegenerateOptions} {r : Receiving σ}
  {f : EncodeBlockFragment} {cfg : Config}

/-- The encoder's bytes of a range are accepted, and its slots are filled then. -/
theorem HonestSetting.validate (hs : HonestSetting br message enc ranges)
    (hval : Reconstructing br.localFragmentConfig enc ranges val)
    (hhold : Holding br.localFragmentConfig enc val) {start stop : Nat} (hrange : ranges start stop)
    {raw : Bytes}
    (hraw : enc.serializeFragments br.wire br.localFragmentConfig start stop = some raw) :
    ∃ storage, validateAndDeserializeFragments br.sha256 br.wire br.localFragmentConfig val.storage
        enc.mt.root raw start stop = .ok (true, storage) ∧
      (∀ j, (storage j).cacheGuard = (val.shardsValidated j || decide (start ≤ j ∧ j < stop))) ∧
      enc.Fills br.localFragmentConfig
        (fun j => val.shardsValidated j || decide (start ≤ j ∧ j < stop)) storage := by
  obtain ⟨hlt, hle⟩ := hs.ranges.bounds _ _ hrange
  have henc := initWithMessage_encodes hs.encoded
  have he : enc.Sendable br.sha256 br.wire br.localFragmentConfig :=
    ⟨henc.built, henc.length_eq, hs.inst_pos, hs.carried⟩
  have hwhole := hval.whole _ _ hrange start
  cases hmark : val.shardsValidated start with
  | false =>
    refine ⟨_, enc.validate_serialized_fresh he hlt hle hraw (fun j h1 h2 => ?_), fun j => ?_,
      fun j => ?_⟩
    · rw [hhold.guard j, ← hwhole j (le_refl _) hlt h1 h2, hmark]
    · rw [Encoded.stored, Storage.fill]
      split_ifs with hj
      · rw [decide_eq_true (by omega), Bool.or_true]
      · rw [hhold.guard j, decide_eq_false (by omega), Bool.or_false]
    · rw [Encoded.stored, Storage.fill]
      split_ifs with hj hm hm
      · rfl
      · exact absurd (by simp [show start ≤ j ∧ j < stop by omega]) hm
      · rw [hhold.fills j, if_pos]
        simpa only [show ¬ (start ≤ j ∧ j < stop) by omega, decide_false, Bool.or_false] using hm
      · rw [hhold.fills j, if_neg]
        simpa only [show ¬ (start ≤ j ∧ j < stop) by omega, decide_false, Bool.or_false] using hm
  | true =>
    have hsame : ∀ j, (val.shardsValidated j || decide (start ≤ j ∧ j < stop)) =
        val.shardsValidated j := by
      intro j
      by_cases hj : start ≤ j ∧ j < stop
      · rw [← hwhole j (le_refl _) hlt hj.1 hj.2, hmark, Bool.true_or]
      · rw [decide_eq_false hj, Bool.or_false]
    refine ⟨_, enc.validate_serialized_guarded he hlt hle hraw (fun j h1 h2 => ?_), fun j => ?_,
      fun j => ?_⟩
    · rw [hhold.guard j, ← hwhole j (le_refl _) hlt h1 h2, hmark]
    · rw [hhold.guard j, hsame j]
    · rw [hhold.fills j]
      simp only [hsame j]

/-- The state of the root after a fragment for new or old slots has been accepted. -/
theorem Reconstructing.accept (hroot : f.root = enc.mt.root)
    (hval : Reconstructing cfg enc ranges (r.haveShard enc.mt.root))
    (hranges : SenderRanges cfg ranges) (hrange : ranges f.start f.stop) {storage : Storage}
    (hguard : ∀ j, (storage j).cacheGuard = ((r.haveShard enc.mt.root).shardsValidated j ||
      decide (f.start ≤ j ∧ j < f.stop)))
    (hfills : enc.Fills cfg (fun j => (r.haveShard enc.mt.root).shardsValidated j ||
      decide (f.start ≤ j ∧ j < f.stop)) storage)
    (halive : ∀ j, (r.haveShard enc.mt.root).freed j = false)
    (hacc : (BlockReceiver.accept r f storage).haveShard enc.mt.root = val) :
    val.currentShardCnt = (List.range cfg.fragmentCnt).countP val.shardsValidated ∧
      (∀ j, val.shardsValidated j = ((r.haveShard enc.mt.root).shardsValidated j ||
        decide (f.start ≤ j ∧ j < f.stop))) ∧
      Holding cfg enc val ∧
      (val.currentShardCnt < cfg.dataShardCnt → Reconstructing cfg enc ranges val) := by
  obtain ⟨hlt, hle⟩ := hranges.bounds _ _ hrange
  obtain ⟨hcount, hmark⟩ := markShards_spec hlt hle hval.count
  rw [← hroot] at hcount hmark hacc hval hguard hfills halive ⊢
  rw [BlockReceiver.accept_haveShard] at hacc
  subst hacc
  have hmark' := funext hmark
  have hhold : Holding cfg enc ((r.haveShard f.root).accepted f storage) := by
    refine ⟨fun j => (hguard j).trans (hmark j).symm, ?_, fun j => ?_⟩
    · unfold BlockRegenerateOptions.accepted
      dsimp only
      rw [hmark']
      exact hfills
    · simp only [BlockRegenerateOptions.accepted, halive j, Bool.false_and]
  refine ⟨hcount, hmark, hhold, fun hbelow => ⟨hcount, hbelow, fun j hj => ?_, ?_, fun _ => hhold⟩⟩
  · rw [show ((r.haveShard f.root).accepted f storage).shardsValidated j = _ from hmark j,
      Bool.or_eq_true, decide_eq_true_eq] at hj
    rcases hj with hj | hj
    · exact hval.bounded j hj
    · omega
  · -- a range of an honest sender is the marked one, or has no slot in common with it
    intro s e hse i j hi1 hi2 hj1 hj2
    refine (hmark i).trans (Eq.trans ?_ (hmark j).symm)
    rw [hval.whole s e hse i j hi1 hi2 hj1 hj2]
    congr 2
    apply propext
    constructor
    · intro h
      obtain ⟨rfl, rfl⟩ := hranges.apart _ _ _ _ i hrange hse h.1 h.2 hi1 hi2
      exact ⟨hj1, hj2⟩
    · intro h
      obtain ⟨rfl, rfl⟩ := hranges.apart _ _ _ _ j hrange hse h.1 h.2 hj1 hj2
      exact ⟨hi1, hi2⟩

theorem not_dangling (halive : ∀ j, val.freed j = false) : br.dangling val = false := by
  rw [BlockReceiver.dangling, any_eq_false]
  intro j _
  rw [halive j]
  simp

/-- Enough marked slots, and the right size: the message is returned. -/
theorem HonestSetting.regenerate (hs : HonestSetting br message enc ranges)
    (hroot : f.root = enc.mt.root)
    (hhold : Holding br.localFragmentConfig enc (r.haveShard enc.mt.root))
    (hcount : br.localFragmentConfig.dataShardCnt ≤
      (List.range br.localFragmentConfig.fragmentCnt).countP
        (r.haveShard enc.mt.root).shardsValidated)
    (hsize : toInt32 f.size = message.length) :
    ∃ kept, br.regenerate r f = .returned message kept := by
  rw [BlockReceiver.regenerate, hroot, not_dangling hhold.alive, hsize,
    regenerate_encoded (initWithMessage_encodes hs.encoded) hs.restores hs.data_pos hhold.fills
      hcount hs.inst_pos (Nat.zero_le _)]
  cases hcb : br.validateCallback with
  | none => exact ⟨r.kept, rfl⟩
  | some validate =>
    obtain ⟨kept', hacc⟩ := hs.accepts validate hcb r.kept (r.blockMap enc.mt.root)
    refine ⟨kept', ?_⟩
    simp only [hacc, Bool.false_eq_true, if_false]

/-- **An honest fragment advances and marks its range.** Its size field matters only if the
block is complete with it. -/
theorem HonestSetting.receive (hs : HonestSetting br message enc ranges)
    (hval : Reconstructing br.localFragmentConfig enc ranges (r.haveShard enc.mt.root))
    (hhold : Holding br.localFragmentConfig enc (r.haveShard enc.mt.root))
    (hroot : f.root = enc.mt.root) (hrange : ranges f.start f.stop)
    (hraw : enc.serializeFragments br.wire br.localFragmentConfig f.start f.stop =
      some f.encodeMessage)
    (hsize : toInt32 f.size = message.length ∨ ¬ br.Completes (r.haveShard enc.mt.root) f) :
    Advances br.localFragmentConfig message enc ranges (r.haveShard enc.mt.root).shardsValidated
      (fun j => f.start ≤ j ∧ j < f.stop) (br.receive r f) := by
  obtain ⟨hlt, hle⟩ := hs.ranges.bounds _ _ hrange
  obtain ⟨storage, hvalid, hguard, hfills⟩ := hs.validate hval hhold hrange hraw
  obtain ⟨hcount, hmark, hhold', hval'⟩ :=
    hval.accept hroot hs.ranges hrange hguard hfills hhold.alive rfl
  rw [BlockReceiver.receive, if_neg (not_not.mpr ⟨by omega, hle, hlt⟩), hroot, hvalid]
  dsimp only
  split_ifs with hdata
  · left
    refine hs.regenerate hroot hhold' (by omega) (hsize.resolve_right (not_not.mpr ?_))
    rw [← hroot, BlockReceiver.accept_haveShard, hroot] at hdata
    exact hdata
  · right
    refine ⟨_, rfl, hval' (by omega), fun j hj => ?_⟩
    rw [hmark j, Bool.or_eq_true, decide_eq_true_eq]
    exact hj

theorem Reconstructing.count_ne_zero
    (h : Reconstructing cfg enc ranges val) {j : Nat} (hj : val.shardsValidated j = true) :
    val.currentShardCnt ≠ 0 := by
  intro h0
  rw [h.unmarked h0 j] at hj
  cases hj

/-! ## Rounds -/

/-- A root that has accepted shards keeps its context; another one can get one. -/
def Ready (r : Receiving σ) (root : HashString) : Prop :=
  (r.haveShard root).currentShardCnt ≠ 0 ∨ r.freeContexts ≠ 0

theorem prepare_ready {root : HashString} (h : Ready r root) :
    ∃ r', BlockReceiver.prepare r root = some r' ∧
      r'.haveShard root = (r.haveShard root).prepared ∧
      ∀ other, other ≠ root → r'.haveShard other = r.haveShard other := by
  rw [BlockReceiver.prepare]
  by_cases h0 : (r.haveShard root).currentShardCnt = 0
  · rw [if_pos h0, if_neg (h.resolve_left (not_not.mpr h0))]
    exact ⟨_, rfl, update_self _ _ _, fun other hne => update_of_ne hne _ _⟩
  · rw [if_neg h0]
    exact ⟨r, rfl, by rw [BlockRegenerateOptions.prepared, if_neg h0], fun _ _ => rfl⟩

/-- The encoder's root, once it has a context. -/
theorem Reconstructing.prepare
    (hval : Reconstructing cfg enc ranges (r.haveShard enc.mt.root)) (h : Ready r enc.mt.root) :
    ∃ r', BlockReceiver.prepare r enc.mt.root = some r' ∧
      Reconstructing cfg enc ranges (r'.haveShard enc.mt.root) ∧
      Holding cfg enc (r'.haveShard enc.mt.root) ∧
      (r'.haveShard enc.mt.root).shardsValidated = (r.haveShard enc.mt.root).shardsValidated ∧
      (r'.haveShard enc.mt.root).currentShardCnt = (r.haveShard enc.mt.root).currentShardCnt := by
  obtain ⟨r', hprep, hroot, -⟩ := prepare_ready h
  refine ⟨r', hprep, ?_⟩
  rw [hroot, BlockRegenerateOptions.prepared]
  split_ifs with h0
  · obtain ⟨h1, h2⟩ := hval.withContext h0
    exact ⟨h1, h2, rfl, rfl⟩
  · exact ⟨hval, hval.holding h0, rfl, rfl⟩

/-- The fragment is one that an honest sender of the block sends. -/
structure IsHonest (br : BlockReceiver σ) (number : Nat) (message : Bytes) (enc : Encoded)
    (ranges : Nat → Nat → Prop) (f : EncodeBlockFragment) : Prop where
  number : f.blockNumber = number
  root : f.root = enc.mt.root
  size : f.size = message.length
  range : ranges f.start f.stop
  bytes : enc.serializeFragments br.wire br.localFragmentConfig f.start f.stop =
    some f.encodeMessage

theorem HonestSetting.round (hs : HonestSetting br message enc ranges)
    (hlen : message.length < 2 ^ 31) {number : Nat}
    (hval : Reconstructing br.localFragmentConfig enc ranges (r.haveShard enc.mt.root))
    (hready : Ready r enc.mt.root) (hf : IsHonest br number message enc ranges f) :
    Advances br.localFragmentConfig message enc ranges (r.haveShard enc.mt.root).shardsValidated
      (fun j => f.start ≤ j ∧ j < f.stop) (br.round number r f) := by
  obtain ⟨r', hprep, hval', hhold', hmarks, -⟩ := hval.prepare hready
  have hadv := hs.receive hval' hhold' hf.root hf.range hf.bytes
    (.inl (by rw [hf.size, toInt32_natCast hlen]))
  rw [BlockReceiver.round, if_neg (not_not.mpr hf.number), hf.root, hprep, ← hmarks]
  exact hadv

/-- A call that has used up its queue has not seen `dataShardCnt` slots marked. -/
theorem Reconstructing.card_lt (h : Reconstructing cfg enc ranges val) {slots : Finset Nat}
    (hslots : ∀ j ∈ slots, val.shardsValidated j = true) : slots.card < cfg.dataShardCnt := by
  refine lt_of_le_of_lt ?_ h.below
  rw [h.count, countP_eq_length_filter]
  have hsub : slots ⊆ ((List.range cfg.fragmentCnt).filter val.shardsValidated).toFinset := by
    intro j hj
    rw [mem_toFinset, mem_filter, mem_range]
    exact ⟨h.bounded j (hslots j hj), hslots j hj⟩
  exact (Finset.card_le_card hsub).trans (toFinset_card_le _)

/-- If the new marks cover enough slots, the message is returned. -/
theorem Advances.returned {marked : Nat → Bool} {cover : Nat → Prop}
    {p : Progress σ} (h : Advances cfg message enc ranges marked cover p) {slots : Finset Nat}
    (hcard : cfg.dataShardCnt ≤ slots.card) (hslots : ∀ j ∈ slots, cover j) :
    ∃ kept, p = .returned message kept := by
  rcases h with h | ⟨r, -, hval, hmarks⟩
  · exact h
  · have := hval.card_lt fun j hj => hmarks j (.inr (hslots j hj))
    omega

theorem reconstructing_empty (hdata : 0 < cfg.dataShardCnt) :
    Reconstructing cfg enc ranges .empty where
  count := by simp [BlockRegenerateOptions.empty]
  below := hdata
  bounded j hj := by cases hj
  whole _ _ _ _ _ _ _ _ _ := rfl
  holding h := absurd rfl h

end

end MassBFT.Replication
