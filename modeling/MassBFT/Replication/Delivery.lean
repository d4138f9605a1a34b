import MassBFT.Replication.Instances
import MassBFT.Replication.Reconstruction

/-!
# Erasure-coded replication delivers the block

The senders of a region split the shards of a block among the nodes of another region by
`getSenderConfig`, and the receivers repeat what they get to each other. With at most a
third of either region silent, the ranges that arrive cover `dataShardCnt` slots
(`card_surviving`), and a receiver that sees only them, in any order and any number of
times, accepts each one (`run_honest`) and **regenerates the block**.

The size of the block travels as a `size_t` and is read as an `int`: a block of 2 GiB has a
negative size on the other side.
-/

set_option autoImplicit false

namespace MassBFT.Replication

open List FragmentUtil BlockReceiver

/-! ## From the sender to the queue -/

/-- `initBFG`: the configuration of a region, with a context for each of its nodes. -/
def bfgConfig (u : FragmentUtil) (nodes : Nat) : Config :=
  { u.getBFGConfig with concurrency := nodes }

/-- What a sender writes is what `deserializeFromString` reads. -/
theorem deserialize_sent {w : Wire} {cfg : Config} {enc : Encoded} {start stop number size : Nat}
    {signatures : List SignaturePair} {raw : Bytes}
    (hsent : encodeAndSendFragment w cfg enc start stop number size signatures = some raw)
    (hw : (fragmentHeader w).Carries (signatures, number, enc.mt.root, size, start, stop)) :
    ∃ body, enc.serializeFragments w cfg start stop = some body ∧
      EncodeBlockFragment.deserializeFromString w raw =
        some ⟨signatures, number, enc.mt.root, size, start, stop, body⟩ := by
  rw [encodeAndSendFragment] at hsent
  cases hbody : enc.serializeFragments w cfg start stop with
  | none => rw [hbody] at hsent; cases hsent
  | some body =>
    rw [hbody] at hsent
    cases hsent
    refine ⟨body, rfl, ?_⟩
    have hread := hw body
    simp only [EncodeBlockFragment.deserializeFromString, EncodeBlockFragment.serializeToString,
      Bool.false_eq_true, if_false, hread]

/-- Sender `s` sends range `c` of the block, and node `me` of the other region gets it: from
the sender, or from a node that is not silent. -/
structure Arrives (w : Wire) (u : FragmentUtil) (cfg : Config) (enc : Encoded)
    (number size : Nat) (signatures : Nat → List SignaturePair) (silentA silentB : Finset Nat)
    (me s : Nat) (c : FragmentConfig) (f : EncodeBlockFragment) : Prop where
  sender : s < u._localServerCount ∧ s ∉ silentA
  config : c ∈ u.getSenderConfig s
  receiver : c.remoteId = me ∨ c.remoteId ∉ silentB
  sent : ∃ raw, encodeAndSendFragment w cfg enc c.startFragmentId c.endFragmentId number size
    (signatures s) = some raw ∧ EncodeBlockFragment.deserializeFromString w raw = some f

/-- The format carries the shards of the block and the headers of all of its fragments. -/
structure Carried (w : Wire) (u : FragmentUtil) (enc : Encoded) (number size : Nat)
    (signatures : Nat → List SignaturePair) : Prop where
  shards : enc.Carried w
  headers : ∀ s, s < u._localServerCount → ∀ c ∈ u.getSenderConfig s, (fragmentHeader w).Carries
    (signatures s, number, enc.mt.root, size, c.startFragmentId, c.endFragmentId)

/-! ## Honest queues -/

/-- Every fragment that the call takes off the queue is accepted by the validator. -/
def Accepted {σ : Type} (br : BlockReceiver σ) (number : Nat) :
    Receiving σ → List EncodeBlockFragment → Prop
  | _, [] => True
  | r, f :: queue =>
    (∃ r' storage, prepare r f.root = some r' ∧
      validateAndDeserializeFragments br.sha256 br.wire br.localFragmentConfig
        (r'.haveShard f.root).storage f.root f.encodeMessage f.start f.stop = .ok (true, storage)) ∧
    ∀ r', br.round number r f = .waiting r' → Accepted br number r' queue

section

variable {σ : Type} {br : BlockReceiver σ} {message : Bytes} {enc : Encoded}
  {ranges : Nat → Nat → Prop} {number : Nat}

/-- A queue of honest fragments: each is accepted, and if the block is not returned, all of
their ranges are marked. -/
theorem HonestSetting.run_honest (hs : HonestSetting br message enc ranges)
    (hlen : message.length < 2 ^ 31) {r : Receiving σ}
    (hval : Reconstructing br.localFragmentConfig enc ranges (r.haveShard enc.mt.root))
    (hready : Ready r enc.mt.root) {queue : List EncodeBlockFragment}
    (hqueue : ∀ f ∈ queue, IsHonest br number message enc ranges f) :
    Accepted br number r queue ∧
      Advances br.localFragmentConfig message enc ranges (r.haveShard enc.mt.root).shardsValidated
        (fun j => ∃ f ∈ queue, f.start ≤ j ∧ j < f.stop) (br.genBlockFromQueue number r queue) := by
  induction queue generalizing r with
  | nil =>
    refine ⟨trivial, .inr ⟨r, rfl, hval, fun j hj => ?_⟩⟩
    rcases hj with hj | ⟨f, hf, -⟩
    · exact hj
    · cases hf
  | cons f queue ih =>
    have hf := hqueue f mem_cons_self
    have hrest : ∀ g ∈ queue, IsHonest br number message enc ranges g :=
      fun g hg => hqueue g (mem_cons_of_mem f hg)
    obtain ⟨r', hprep, hval', hhold', -, -⟩ := hval.prepare hready
    obtain ⟨storage, hvalid, -, -⟩ := hs.validate hval' hhold' hf.range hf.bytes
    have hfirst : ∃ r' storage, prepare r f.root = some r' ∧
        validateAndDeserializeFragments br.sha256 br.wire br.localFragmentConfig
          (r'.haveShard f.root).storage f.root f.encodeMessage f.start f.stop =
            .ok (true, storage) := by
      rw [hf.root]
      exact ⟨r', storage, hprep, hvalid⟩
    have hlt := (hs.ranges.bounds _ _ hf.range).1
    rcases hs.round hlen hval hready hf with ⟨kept, hret⟩ | ⟨r'', hwait, hval'', hmarks⟩
    · refine ⟨⟨hfirst, fun r'' h => ?_⟩, .inl ⟨kept, ?_⟩⟩
      · rw [hret] at h
        cases h
      · rw [genBlockFromQueue, hret]
    · have hready'' : Ready r'' enc.mt.root :=
        .inl (hval''.count_ne_zero (hmarks f.start (.inr ⟨le_refl _, hlt⟩)))
      obtain ⟨hacc, hadv⟩ := ih hval'' hready'' hrest
      refine ⟨⟨hfirst, fun r₂ h => ?_⟩, ?_⟩
      · rw [hwait] at h
        cases h
        exact hacc
      · rw [genBlockFromQueue, hwait]
        rcases hadv with hret | ⟨r₂, hwait₂, hval₂, hmarks₂⟩
        · exact .inl hret
        · refine .inr ⟨r₂, hwait₂, hval₂, fun j hj => ?_⟩
          apply hmarks₂
          rcases hj with hj | ⟨g, hg, hgj⟩
          · exact .inl (hmarks j (.inl hj))
          · rcases mem_cons.mp hg with rfl | hg
            · exact .inl (hmarks j (.inr hgj))
            · exact .inr ⟨g, hg, hgj⟩

end

/-! ## The two regions -/

/-- One instance: a message that is not empty is encoded. -/
theorem initWithMessage_single {sha256 : Bytes → HashString} {ec : ErasureCode} {cfg : Config}
    (hec : ec.Restores cfg) (hinst : cfg.instanceCount = 1) (hcnt : 2 ≤ cfg.fragmentCnt)
    {message : Bytes} (hne : message ≠ []) :
    ∃ enc, initWithMessage sha256 ec cfg message = .ok (some enc) := by
  refine initWithMessage_of_parts hec (hinst ▸ Nat.one_pos) hcnt hne fun idx hidx => ?_
  rw [hinst, Nat.lt_one_iff] at hidx
  rw [hidx, Nat.zero_mul]
  exact length_pos_iff.mpr hne

section

variable {nA nB : Nat}

/-- The ranges that the nodes of one region send to the other. -/
def planned (nA nB s e : Nat) : Prop :=
  ∃ x < nA, ∃ c ∈ (plan nA nB).getSenderConfig x, c.startFragmentId = s ∧ c.endFragmentId = e

theorem bfgConfig_comm (nA nB : Nat) : bfgConfig (plan nB nA) nA =
    { bfgConfig (plan nA nB) nB with concurrency := nA } := by
  rw [bfgConfig, bfgConfig, getBFGConfig_comm nB nA]

theorem senderRanges_planned (hA : 0 < nA) (hB : 0 < nB) (nodes : Nat) :
    SenderRanges (bfgConfig (plan nB nA) nodes) (planned nA nB) where
  bounds := by
    rintro s e ⟨x, hx, c, hc, rfl, rfl⟩
    have hcnt : (bfgConfig (plan nB nA) nodes).fragmentCnt = Nat.lcm nB nA :=
      fragmentCnt_getBFGConfig hB hA
    rw [hcnt, Nat.lcm_comm]
    exact getSenderConfig_bounds hA hB hx hc
  apart := by
    rintro s e s' e' i ⟨x, -, c, hc, rfl, rfl⟩ ⟨x', -, c', hc', rfl, rfl⟩ h1 h2 h1' h2'
    obtain rfl := getSenderConfig_unique hA hB hc hc' ⟨h1, h2⟩ ⟨h1', h2'⟩
    exact ⟨rfl, rfl⟩

variable {sha256 : Bytes → HashString} {w : Wire} {ec : ErasureCode} {message : Bytes}
  {enc : Encoded} {σ : Type}

/-- Receivers are set up for what the senders encode: both regions compute the same shards. -/
theorem honestSetting_regions (hA : 0 < nA) (hB : 0 < nB)
    (hec : ec.Restores (bfgConfig (plan nA nB) nB))
    (henc : initWithMessage sha256 ec (bfgConfig (plan nA nB) nB) message =
      .ok (some enc)) (hw : enc.Carried w) {validate : Option (ValidateFunc σ)}
    (hacc : AcceptsMessage validate message) :
    HonestSetting ⟨sha256, w, ec, bfgConfig (plan nB nA) nA, validate⟩ message enc
      (planned nA nB) := by
  have hvalid := valid_getBFGConfig hB hA
  simp only [Config.valid, Bool.and_eq_true, decide_eq_true_eq] at hvalid
  refine ⟨hvalid.1.1, hvalid.1.2, ?_, hw, ?_, senderRanges_planned hA hB nA, hacc⟩
  · rw [← henc, bfgConfig_comm]
    rfl
  · rw [bfgConfig_comm]
    exact ⟨hec.encodes, hec.restores⟩

section

variable {number : Nat} {signatures : Nat → List SignaturePair} {silentA silentB : Finset Nat}
  {me s : Nat} {c : FragmentConfig} {f : EncodeBlockFragment}

/-- What arrives is what was sent. -/
theorem Arrives.fragment {u : FragmentUtil} {cfg : Config} {size : Nat}
    (h : Arrives w u cfg enc number size signatures silentA silentB me s c f)
    (hw : Carried w u enc number size signatures) :
    ∃ body, enc.serializeFragments w cfg c.startFragmentId c.endFragmentId = some body ∧
      f = ⟨signatures s, number, enc.mt.root, size, c.startFragmentId, c.endFragmentId, body⟩ := by
  obtain ⟨raw, hsent, hread⟩ := h.sent
  obtain ⟨body, hbody, hread'⟩ := deserialize_sent hsent (hw.headers s h.sender.1 c h.config)
  rw [hread] at hread'
  exact ⟨body, hbody, Option.some.inj hread'⟩

theorem Arrives.isHonest (h : Arrives w (plan nA nB)
      (bfgConfig (plan nA nB) nB) enc number message.length signatures silentA silentB
      me s c f)
    (hw : Carried w (plan nA nB) enc number message.length signatures)
    (validate : Option (ValidateFunc σ)) :
    IsHonest ⟨sha256, w, ec, bfgConfig (plan nB nA) nA, validate⟩ number message enc
      (planned nA nB) f := by
  obtain ⟨body, hbody, rfl⟩ := h.fragment hw
  refine ⟨rfl, rfl, rfl, ⟨s, h.sender.1, c, h.config, rfl, rfl⟩, ?_⟩
  dsimp only
  rw [bfgConfig_comm]
  exact hbody

end

/-- Both regions compute their plans, the senders encode the block, and every receiver that is
not silent accepts each fragment that reaches it and regenerates the block. The sizes are `int`s,
and so is their product in `LCM`; no other number of the plans is larger. -/
def Delivers (σ : Type) (sha256 : Bytes → HashString) (w : Wire) (ec : ErasureCode) (nA nB : Nat)
    (silentA silentB : Finset Nat) (message : Bytes) : Prop :=
  nA * nB < 2 ^ 31 ∧ ∃ roundsA roundsB uA uB, reset roundsA nA nB = .done uA ∧
    reset roundsB nB nA = .done uB ∧
    (ec.Restores (bfgConfig uA nB) →
      ∃ enc, initWithMessage sha256 ec (bfgConfig uA nB) message = .ok (some enc) ∧
        ∀ number signatures, Carried w uA enc number message.length signatures →
        ∀ validate : Option (ValidateFunc σ), AcceptsMessage validate message →
        ∀ me, me ∉ silentB → ∀ (kept : σ) (queue : List EncodeBlockFragment),
        (∀ f ∈ queue, ∃ s c, Arrives w uA (bfgConfig uA nB) enc number message.length signatures
          silentA silentB me s c f) →
        (∀ s c, s < nA → s ∉ silentA → c ∈ uA.getSenderConfig s →
          c.remoteId = me ∨ c.remoteId ∉ silentB →
          ∃ f ∈ queue, Arrives w uA (bfgConfig uA nB) enc number message.length signatures
            silentA silentB me s c f) →
        Accepted ⟨sha256, w, ec, bfgConfig uB nA, validate⟩ number (.start nA kept) queue ∧
          ∃ kept', genBlockFromQueue ⟨sha256, w, ec, bfgConfig uB nA, validate⟩
            number (.start nA kept) queue = .returned message kept')

end

/-! ## Two senders and one receiver -/

section

variable {w : Wire} {u : FragmentUtil} {cfg : Config} {enc : Encoded} {number size : Nat}
  {signatures : Nat → List SignaturePair} {silentA silentB : Finset Nat} {me : Nat}

theorem arrives_serialized (hw : Carried w u enc number size signatures) {s : Nat}
    (hs : s < u._localServerCount) (hsA : s ∉ silentA) {c : FragmentConfig}
    (hc : c ∈ u.getSenderConfig s) (hme : c.remoteId = me ∨ c.remoteId ∉ silentB) {body : Bytes}
    (hbody : enc.serializeFragments w cfg c.startFragmentId c.endFragmentId = some body) :
    Arrives w u cfg enc number size signatures silentA silentB me s c
      ⟨signatures s, number, enc.mt.root, size, c.startFragmentId, c.endFragmentId, body⟩ := by
  obtain ⟨raw, hsent⟩ : ∃ raw, encodeAndSendFragment w cfg enc c.startFragmentId c.endFragmentId
      number size (signatures s) = some raw := by
    rw [encodeAndSendFragment, hbody]
    exact ⟨_, rfl⟩
  obtain ⟨body', hbody', hread⟩ := deserialize_sent hsent (hw.headers s hs c hc)
  obtain rfl := Option.some.inj (hbody.symm.trans hbody')
  exact ⟨⟨hs, hsA⟩, hc, hme, raw, hsent, hread⟩

/-- What is returned without a callback has the size that some fragment claims, as an `int`. -/
theorem length_returned {σ : Type} {br : BlockReceiver σ} (hcb : br.validateCallback = none)
    {r : Receiving σ} {queue : List EncodeBlockFragment} {msg : Bytes} {kept : σ}
    (h : br.genBlockFromQueue number r queue = .returned msg kept) :
    ∃ f ∈ queue, msg.length = (toInt32 f.size).toNat := by
  induction queue generalizing r with
  | nil => cases h
  | cons f queue ih =>
    rw [genBlockFromQueue] at h
    cases hround : br.round number r f with
    | waiting r' =>
      rw [hround] at h
      obtain ⟨g, hg, hlen⟩ := ih h
      exact ⟨g, mem_cons_of_mem f hg, hlen⟩
    | blocked => rw [hround] at h; cases h
    | fault e => rw [hround] at h; cases h
    | returned msg' kept' =>
      rw [hround] at h
      cases h
      obtain ⟨r', hreg⟩ := regenerate_of_returned hround
      exact ⟨f, mem_cons_self, length_regenerateMessage (regenerateMessage_of_returned hcb hreg)⟩

/-- Two senders with one range each, and one receiver: no parity. -/
theorem plan_two_one : (plan 2 1).getSenderConfig 0 = [⟨0, 1, 0, 0⟩] ∧
    (plan 2 1).getSenderConfig 1 = [⟨1, 2, 1, 0⟩] ∧
    bfgConfig (plan 2 1) 1 = ⟨2, 0, 1, 1⟩ := by
  decide

theorem sender_two_one {s : Nat} {c : FragmentConfig} (hs : s < 2)
    (hc : c ∈ (plan 2 1).getSenderConfig s) : c = ⟨s, s + 1, s, 0⟩ := by
  obtain ⟨hzero, hone, -⟩ := plan_two_one
  obtain rfl | rfl : s = 0 ∨ s = 1 := by omega
  · rw [hzero] at hc
    exact mem_singleton.mp hc
  · rw [hone] at hc
    exact mem_singleton.mp hc

theorem carried_two_one {message : Bytes} {enc : Encoded} (hlen : message.length < 2 ^ 32)
    (henc : Encodes lengthHash (splitCode 2) ⟨2, 0, 1, 1⟩ message enc) :
    enc.Carried littleEndian := by
  refine enc.carried_littleEndian henc.built (by rw [henc.length_eq]; decide) fun b hb => ?_
  exact lt_of_le_of_lt (length_le_of_splitCode (by norm_num) (by norm_num) henc hb) hlen

theorem serialized_two_one (enc : Encoded) {s : Nat} (hs : s < 2) :
    ∃ body, enc.serializeFragments littleEndian ⟨2, 0, 1, 1⟩ s (s + 1) = some body :=
  ⟨_, if_neg (by change ¬ (s + 1 ≤ s ∨ 2 < s + 1); omega)⟩

/-- If a block of less than 4 GiB is delivered there, then from fragments that say its size. -/
theorem exists_returned_of_delivers {message : Bytes} (hlen : message.length < 2 ^ 32)
    (h : Delivers Unit lengthHash littleEndian (splitCode 2) 2 1 ∅ ∅ message) :
    ∃ queue kept, (∀ f ∈ queue, f.size = message.length) ∧
      genBlockFromQueue ⟨lengthHash, littleEndian, splitCode 2,
        bfgConfig (plan 1 2) 2, none⟩ 0 (.start 2 ()) queue = .returned message kept := by
  obtain ⟨-, roundsA, roundsB, uA, uB, hA, hB, hall⟩ := h
  obtain rfl := reset_unique (by norm_num) (by norm_num) hA
  obtain rfl := reset_unique (by norm_num) (by norm_num) hB
  obtain ⟨hzero, hone, hcfg⟩ := plan_two_one
  rw [hcfg] at hall
  obtain ⟨enc, henc, hdel⟩ := hall (@splitCode_restores ⟨2, 0, 1, 1⟩ (by norm_num) rfl)
  have henc' := initWithMessage_encodes henc
  have hw : Carried littleEndian (plan 2 1) enc 0 message.length fun _ => [] := by
    refine ⟨carried_two_one hlen henc', fun s hs c hc => ?_⟩
    obtain rfl := sender_two_one hs hc
    have hs' : s < 2 := hs
    exact header_littleEndian _ (by norm_num) (by omega) (lt_trans hs' (by norm_num))
      (lt_of_le_of_lt hs' (by norm_num))
  obtain ⟨body₀, hbody₀⟩ := serialized_two_one enc Nat.two_pos
  obtain ⟨body₁, hbody₁⟩ := serialized_two_one enc Nat.one_lt_two
  have harr₀ := @arrives_serialized _ _ ⟨2, 0, 1, 1⟩ _ _ _ _ ∅ ∅ 0 hw 0 (by decide) (by simp)
    ⟨0, 1, 0, 0⟩ (by rw [hzero]; simp) (.inl rfl) body₀ hbody₀
  have harr₁ := @arrives_serialized _ _ ⟨2, 0, 1, 1⟩ _ _ _ _ ∅ ∅ 0 hw 1 (by decide) (by simp)
    ⟨1, 2, 1, 0⟩ (by rw [hone]; simp) (.inl rfl) body₁ hbody₁
  obtain ⟨-, kept, hret⟩ := hdel 0 (fun _ => []) hw none (by rintro _ ⟨⟩) 0 (by simp) ()
    [_, _] (by
      intro f hf
      rcases mem_pair.mp hf with rfl | rfl
      · exact ⟨_, _, harr₀⟩
      · exact ⟨_, _, harr₁⟩) (by
      intro s c hs _ hc _
      obtain rfl := sender_two_one hs hc
      obtain rfl | rfl : s = 0 ∨ s = 1 := by omega
      · exact ⟨_, by simp, harr₀⟩
      · exact ⟨_, by simp, harr₁⟩)
  refine ⟨_, kept, ?_, hret⟩
  intro f hf
  rcases mem_pair.mp hf with rfl | rfl
  · rfl
  · rfl

end

/-! ## The block is delivered -/

/-- **Replication delivers the block**, for any two regions with a product of sizes that is an
`int`, any block shorter than 2 GiB, at most a third of either region silent, and any order and
number of arrivals. -/
theorem block_delivered (σ : Type) (sha256 : Bytes → HashString) (w : Wire) (ec : ErasureCode)
    {nA nB : Nat} (hA : 1 ≤ nA) (hB : 1 ≤ nB) (hint : nA * nB < 2 ^ 31)
    (hlcm : 2 ≤ Nat.lcm nA nB) {message : Bytes} (hne : message ≠ [])
    (hlen : message.length < 2 ^ 31) {silentA silentB : Finset Nat}
    (hsA : silentA.card ≤ (nA - 1) / 3) (hsB : silentB.card ≤ (nB - 1) / 3) :
    Delivers σ sha256 w ec nA nB silentA silentB message := by
  obtain ⟨roundsA, hresetA⟩ := reset_done hA hB
  obtain ⟨roundsB, hresetB⟩ := reset_done hB hA
  refine ⟨hint, roundsA, roundsB, _, _, hresetA, hresetB, fun hec => ?_⟩
  have hcnt : (bfgConfig (plan nA nB) nB).fragmentCnt = Nat.lcm nA nB :=
    fragmentCnt_getBFGConfig hA hB
  obtain ⟨enc, henc⟩ := @initWithMessage_single sha256 ec _ hec rfl (by rw [hcnt]; exact hlcm)
    message hne
  refine ⟨enc, henc, ?_⟩
  intro number signatures hw validate hacc me _ kept queue hfrom hall
  have hs := honestSetting_regions hA hB hec henc hw.shards hacc
  have hhonest : ∀ f ∈ queue, IsHonest ⟨sha256, w, ec, bfgConfig (plan nB nA) nA,
      validate⟩ number message enc (planned nA nB) f := by
    intro f hf
    obtain ⟨s, c, harr⟩ := hfrom f hf
    exact harr.isHonest hw validate
  have hready : Ready (Receiving.start nA kept) enc.mt.root := .inr (by
    change nA ≠ 0
    omega)
  obtain ⟨haccepted, hadv⟩ := hs.run_honest hlen (reconstructing_empty hs.data_pos) hready hhonest
  refine ⟨haccepted, ?_⟩
  -- the slots whose sender and receiver are not silent
  have hsurv := card_surviving hA hB hsA hsB
  rw [getBFGConfig_comm nA nB] at hsurv
  refine hadv.returned hsurv ?_
  intro i hi
  rw [Finset.mem_filter, Finset.mem_range] at hi
  obtain ⟨hi, hsender, hreceiver⟩ := hi
  obtain ⟨c, hc, hholds⟩ := exists_getSenderConfig hA hB i
  have hremote := (mem_getSenderConfig hA hB hc hholds).2
  have hlt : i / (plan nA nB)._localFPS < nA := by
    rw [Nat.div_lt_iff_lt_mul (fps_pos hA hB).1, Nat.mul_comm, localFPS_mul]
    exact hi
  obtain ⟨f, hf, harr⟩ := hall _ c hlt hsender hc (.inr (by rw [← hremote]; exact hreceiver))
  obtain ⟨body, -, rfl⟩ := harr.fragment hw
  exact ⟨_, hf, hholds.1, hholds.2⟩

/-- One byte, from two senders to one receiver. -/
theorem block_delivered_two_one :
    ∃ queue kept, (∀ f ∈ queue, f.size = [(7 : UInt8)].length) ∧
      genBlockFromQueue ⟨lengthHash, littleEndian, splitCode 2,
        bfgConfig (plan 1 2) 2, none⟩ 0 (.start 2 ()) queue = .returned [7] kept :=
  exists_returned_of_delivers (by decide)
    (block_delivered Unit lengthHash littleEndian (splitCode 2) (by norm_num) (by norm_num)
      (by norm_num) (by decide) (by decide) (by decide) (by decide) (by decide))

/-- A block of 2 GiB says a negative size, and is regenerated as an empty one. -/
theorem not_delivers_two_gib {message : Bytes} (hlen : message.length = 2 ^ 31) :
    ¬ Delivers Unit lengthHash littleEndian (splitCode 2) 2 1 ∅ ∅ message := by
  intro h
  obtain ⟨queue, kept, hsize, hret⟩ := exists_returned_of_delivers (by rw [hlen]; norm_num) h
  obtain ⟨f, hf, hflen⟩ := length_returned rfl hret
  have hneg : toInt32 (2 ^ 31) = -2 ^ 31 := by decide
  rw [hsize f hf, hlen, hneg] at hflen
  rw [Int.toNat_of_nonpos (by norm_num)] at hflen
  norm_num at hflen

theorem not_every_block_delivered :
    ¬ ∀ (sha256 : Bytes → HashString) (w : Wire) (ec : ErasureCode) (nA nB : Nat)
      (silentA silentB : Finset Nat) (message : Bytes), 1 ≤ nA → 1 ≤ nB → nA * nB < 2 ^ 31 →
      2 ≤ Nat.lcm nA nB → message ≠ [] → silentA.card ≤ (nA - 1) / 3 → silentB.card ≤ (nB - 1) / 3 →
      Delivers Unit sha256 w ec nA nB silentA silentB message := by
  intro h
  refine not_delivers_two_gib (length_replicate (n := 2 ^ 31) (a := (0 : UInt8))) ?_
  refine h lengthHash littleEndian (splitCode 2) 2 1 ∅ ∅ _ (by norm_num) (by norm_num)
    (by norm_num) (by decide) ?_ (by decide) (by decide)
  intro hnil
  have hlen := congrArg List.length hnil
  rw [length_replicate] at hlen
  norm_num at hlen

end MassBFT.Replication
