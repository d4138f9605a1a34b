import MassBFT.Replication.Delivery

/-!
# Fragments of faulty nodes

A receiver takes fragments from anybody, with any root, range, size and bytes. A range whose
bytes break off makes `validateAndDeserializeFragments` throw out of the receiving loop; a
fragment of the honest root that is turned down after others have been accepted leaves its
slots guarded and empty; a wrong size field completes the block with the wrong bytes, and the
rejection frees the views that the next attempt reads; roots that are never completed use up
the contexts. **So a faulty fragment can stop the reconstruction.**

`Harmless` says which fragments cannot, as a condition on the fragment and the state before
it. In every run whose rounds all meet it, the block is regenerated
(`reconstructs_of_harmless`).
-/

set_option autoImplicit false

namespace MassBFT.Replication

open Function List BlockReceiver

/-! ## Bytes that do not fault -/

/-- The bytes are a depth and well-formed pieces, the first with its whole proof. -/
def WellFormedBytes (w : Wire) (cfg : Config) (f : EncodeBlockFragment) (piece : Nat → Piece) :
    Prop :=
  ∃ (depth : Nat) (rest : Bytes),
    f.encodeMessage = w.putInt64 depth ++ (piecesBytes w piece (f.start * cfg.instanceCount)
      ((f.stop - f.start) * cfg.instanceCount) ++ rest) ∧
    Carries w.putInt64 w.getInt64 (depth : Int) ∧
    WellFormed w piece depth (f.start * cfg.instanceCount)
      ((f.stop - f.start) * cfg.instanceCount) ∧
    (piece (f.start * cfg.instanceCount)).own.length = depth

section

variable {sha256 : Bytes → HashString} {w : Wire} {cfg : Config} {f : EncodeBlockFragment}
  {piece : Nat → Piece}

theorem WellFormedBytes.validate (h : WellFormedBytes w cfg f piece) (hinst : 0 < cfg.instanceCount)
    (hlt : f.start < f.stop) (hle : f.stop ≤ cfg.fragmentCnt) (storage : Storage) :
    ∃ b storage', validateAndDeserializeFragments sha256 w cfg storage f.root f.encodeMessage
        f.start f.stop = .ok (b, storage') ∧
      (∀ j, (storage j).cacheGuard = true → storage' j = storage j) ∧
      ∀ j, ∀ x ∈ (storage' j).encodeFragment, x ∈ (storage j).encodeFragment ∨ x = [] ∨
        ∃ q, f.start * cfg.instanceCount ≤ q ∧ q < f.stop * cfg.instanceCount ∧
          x = (piece q).fragment := by
  obtain ⟨depth, rest, hbytes, hdepth, hwf, hfirst⟩ := h
  have hend : f.start * cfg.instanceCount + (f.stop - f.start) * cfg.instanceCount =
      f.stop * cfg.instanceCount := by
    rw [← Nat.add_mul, Nat.add_sub_cancel' (le_of_lt hlt)]
  obtain ⟨b, storage', hval, hkeep, hmem⟩ := @validateSlots_wellFormed sha256 w piece f.root depth
    _ rest _ _ (f.stop - f.start) f.start hinst hwf (Cursor.reads_first depth _)
    (fun _ _ => hfirst) rfl storage
  rw [hend] at hmem
  refine ⟨b, storage', ?_, hkeep, hmem⟩
  rw [validateAndDeserializeFragments, if_neg (by omega), hbytes, hdepth]
  dsimp only
  rw [if_neg (by omega), Int.toNat_natCast]
  exact hval

theorem WellFormedBytes.validate_guarded (h : WellFormedBytes w cfg f piece)
    (hlt : f.start < f.stop) (hle : f.stop ≤ cfg.fragmentCnt) {storage : Storage}
    (hguard : ∀ j, f.start ≤ j → j < f.stop → (storage j).cacheGuard = true) :
    validateAndDeserializeFragments sha256 w cfg storage f.root f.encodeMessage f.start f.stop =
      .ok (true, storage) := by
  obtain ⟨depth, rest, hbytes, hdepth, hwf, -⟩ := h
  have hval := @validateSlots_guarded sha256 w piece f.root depth _ rest _ _ (f.stop - f.start)
    f.start hwf (Cursor.reads_first depth _) rfl storage fun j h1 h2 => hguard j h1 (by omega)
  rw [validateAndDeserializeFragments, if_neg (by omega), hbytes, hdepth]
  dsimp only
  rw [if_neg (by omega), Int.toNat_natCast]
  exact hval

end

/-! ## Regeneration that does not fault -/

section

variable {ec : ErasureCode} {cfg : Config} {storage : Storage}

/-- All shards that are stored have one length. -/
def SameLength (storage : Storage) (len : Nat) : Prop :=
  ∀ j, ∀ x ∈ (storage j).encodeFragment, x = [] ∨ x.length = len

/-- The shards of one instance. -/
def Storage.shards (storage : Storage) (cfg : Config) (i : Nat) : List Bytes :=
  (List.range cfg.fragmentCnt).map fun j => (storage j).encodeFragment.getD i []

/-- No shard is shorter than the first one. -/
def Readable (fragmentList : List Bytes) : Prop :=
  ∀ x ∈ fragmentList, x = [] ∨ ((fragmentList.find? fun f => !f.isEmpty).getD []).length ≤ x.length

theorem decodeWithBuffer_ok_iff {fragmentList : List Bytes} {dataLen : Int} :
    (∃ part, decodeWithBuffer ec fragmentList dataLen = .ok part) ↔ Readable fragmentList := by
  rw [decodeWithBuffer, Readable]
  split_ifs with hany
  · refine iff_of_false (by simp) fun h => ?_
    obtain ⟨x, hx, hbad⟩ := any_eq_true.mp hany
    simp only [Bool.and_eq_true, Bool.not_eq_true', isEmpty_eq_false_iff, decide_eq_true_eq] at hbad
    rcases h x hx with hnil | hle
    · exact hbad.1 hnil
    · exact absurd hbad.2 (not_lt.mpr hle)
  · refine iff_of_true ⟨_, rfl⟩ fun x hx => ?_
    have hx := any_eq_false.mp (Bool.eq_false_iff.mpr hany) x hx
    simp only [Bool.and_eq_true, Bool.not_eq_true', isEmpty_eq_false_iff,
      decide_eq_true_eq, not_and, not_lt] at hx
    exact or_iff_not_imp_left.mpr hx

theorem SameLength.readable {len : Nat} (h : SameLength storage len) (i : Nat) :
    Readable (storage.shards cfg i) := by
  have hlen : ∀ x ∈ storage.shards cfg i, x = [] ∨ x.length = len := by
    intro x hx
    obtain ⟨j, -, rfl⟩ := mem_map.mp hx
    rw [getD_eq_getElem?_getD]
    cases hget : (storage j).encodeFragment[i]? with
    | none => exact .inl rfl
    | some x => exact h j x (mem_of_getElem? hget)
  intro x hx
  refine (hlen x hx).imp_right fun hx => ?_
  cases hfirst : (storage.shards cfg i).find? fun f => !f.isEmpty with
  | none => exact Nat.zero_le _
  | some first =>
    rcases hlen first (mem_of_find?_eq_some hfirst) with rfl | hlength
    · exact Nat.zero_le _
    · exact (hlength.trans hx.symm).le

/-- The part of one instance: its shards can be read, and if they are decoded, they fit. -/
def PartReads (ec : ErasureCode) (cfg : Config) (storage : Storage) (len : Int) (size i : Nat) :
    Prop :=
  Readable (storage.shards cfg i) ∧
    (decodeWithBuffer ec (storage.shards cfg i) (dataSize cfg len size i) ≠ .ok none →
      PartFits cfg len size i)

/-- Every part is read, whatever has become of those in front of it. -/
theorem regenerateParts_ok_iff {len : Int} {size : Nat} {parts : List Nat} {buffer : Option Bytes} :
    (∃ msg, regenerateParts ec cfg storage len parts buffer size = .ok msg) ↔
      ∀ i ∈ parts, PartReads ec cfg storage len size i := by
  induction parts generalizing buffer with
  | nil => exact iff_of_true ⟨buffer, rfl⟩ (by simp)
  | cons i parts ih =>
    rw [forall_mem_cons, PartReads, ← @decodeWithBuffer_ok_iff ec _ (dataSize cfg len size i),
      Storage.shards, regenerateParts]
    cases decodeWithBuffer ec ((List.range cfg.fragmentCnt).map fun j =>
        (storage j).encodeFragment.getD i []) (dataSize cfg len size i) with
    | error e => simp
    | ok part =>
      cases part with
      | none => simp [ih]
      | some part =>
        dsimp only
        split_ifs with hfits
        · simp [hfits, ih]
        · simp [hfits]

theorem regenerateMessage_ok_iff {size : Int} :
    (∃ msg, regenerateMessage ec cfg storage size [] = .ok msg) ↔ ∀ i, i < cfg.instanceCount →
      PartReads ec cfg storage (fragmentLen cfg size) size.toNat i := by
  rw [regenerateMessage, regenerateParts_ok_iff]
  simp

/-- Shards of one length and a size whose parts lie inside the buffer: no fault. -/
theorem regenerateMessage_ok {len : Nat} (h : SameLength storage len) {size : Int}
    (hfits : ∀ i, i < cfg.instanceCount → PartFits cfg (fragmentLen cfg size) size.toNat i) :
    ∃ msg, regenerateMessage ec cfg storage size [] = .ok msg :=
  regenerateMessage_ok_iff.mpr fun i hi => ⟨h.readable i, fun _ => hfits i hi⟩

end

/-! ## The condition -/

/-- The callback accepts the message, and nothing else, and leaves blocks as they are. -/
def AcceptsExactly {σ : Type} (validateCallback : Option (ValidateFunc σ)) (message : Bytes) :
    Prop :=
  ∃ validate, validateCallback = some validate ∧ ∀ kept raw fragments,
    ∃ kept', validate kept raw fragments = .ok (kept', raw, decide (raw = message))

theorem AcceptsExactly.acceptsMessage {σ : Type} {validateCallback : Option (ValidateFunc σ)}
    {message : Bytes} (h : AcceptsExactly validateCallback message) :
    AcceptsMessage validateCallback message := by
  obtain ⟨validate, hcb, hexact⟩ := h
  intro validate' hcb' kept fragments
  obtain rfl : validate = validate' := Option.some.inj (hcb.symm.trans hcb')
  obtain ⟨kept', hanswer⟩ := hexact kept message fragments
  rw [decide_eq_true rfl] at hanswer
  exact ⟨kept', hanswer⟩

section

variable {σ : Type} (br : BlockReceiver σ)

/-- Regenerating with the fragment reads nothing that is gone, no shard beyond its end, and
writes nothing beyond the buffer. -/
structure SafeToComplete (val : BlockRegenerateOptions) (f : EncodeBlockFragment)
    (piece : Nat → Piece) : Prop where
  alive : ∀ j, val.freed j = true → (val.storage j).cacheGuard = true →
    ∀ x ∈ (val.storage j).encodeFragment, x = []
  length : ∃ len, SameLength val.storage len ∧
    ∀ q, f.start * br.localFragmentConfig.instanceCount ≤ q →
      q < f.stop * br.localFragmentConfig.instanceCount →
      (piece q).fragment = [] ∨ (piece q).fragment.length = len
  size : ∀ i, i < br.localFragmentConfig.instanceCount →
    PartFits br.localFragmentConfig (fragmentLen br.localFragmentConfig (toInt32 f.size))
      (toInt32 f.size).toNat i

/-- What a fragment may be, in the state before it, without stopping the reconstruction. -/
inductive Harmless (message : Bytes) (enc : Encoded) (ranges : Nat → Nat → Prop)
    (r : Receiving σ) (f : EncodeBlockFragment) : Prop where
  /-- Its range makes no sense. -/
  | outOfRange (h : ¬ br.InRange f)
  /-- It has another root and does not break off, and can be regenerated from if need be. -/
  | foreign (hroot : f.root ≠ enc.mt.root) (piece : Nat → Piece)
      (hbytes : WellFormedBytes br.wire br.localFragmentConfig f piece)
      (hsafe : ¬ br.Completes (r.haveShard f.root) f ∨
        SafeToComplete br (r.haveShard f.root).prepared f piece)
  /-- It is a range of the encoder, with the right size if the block is complete with it. -/
  | encoded (hroot : f.root = enc.mt.root) (hrange : ranges f.start f.stop)
      (hbytes : enc.serializeFragments br.wire br.localFragmentConfig f.start f.stop =
        some f.encodeMessage)
      (hsize : toInt32 f.size = message.length ∨ ¬ br.Completes (r.haveShard enc.mt.root) f)
  /-- Its slots have been accepted before, and it does not break off. -/
  | repeated (hroot : f.root = enc.mt.root)
      (hmarked : ∀ j, f.start ≤ j → j < f.stop →
        (r.haveShard enc.mt.root).shardsValidated j = true) (piece : Nat → Piece)
      (hbytes : WellFormedBytes br.wire br.localFragmentConfig f piece)
  /-- It is turned down before any shard of the root has been accepted. -/
  | rejected (hroot : f.root = enc.mt.root) (hnone : (r.haveShard enc.mt.root).currentShardCnt = 0)
      (storage : Storage)
      (hreject : validateAndDeserializeFragments br.sha256 br.wire br.localFragmentConfig
        Storage.empty f.root f.encodeMessage f.start f.stop = .ok (false, storage))

/-- The condition on one round: the root has or gets a context, and the fragment is harmless. -/
def Meets (number : Nat) (message : Bytes) (enc : Encoded) (ranges : Nat → Nat → Prop)
    (r : Receiving σ) (f : EncodeBlockFragment) : Prop :=
  f.blockNumber = number → Ready r f.root ∧ Harmless br message enc ranges r f

/-- Every round of the run meets the condition. -/
def AllMeet (number : Nat) (message : Bytes) (enc : Encoded) (ranges : Nat → Nat → Prop) :
    Receiving σ → List EncodeBlockFragment → Prop
  | _, [] => True
  | r, f :: queue => Meets br number message enc ranges r f ∧
    ∀ r', br.round number r f = .waiting r' → AllMeet number message enc ranges r' queue

end

/-! ## One round -/

section

variable {σ : Type} {br : BlockReceiver σ} {message : Bytes} {enc : Encoded}
  {ranges : Nat → Nat → Prop} {f : EncodeBlockFragment} {r : Receiving σ} {piece : Nat → Piece}
  {number : Nat}

theorem completes_prepared {val : BlockRegenerateOptions} :
    br.Completes val.prepared f ↔ br.Completes val f := by
  rw [BlockRegenerateOptions.prepared]
  split_ifs
  · exact Iff.rfl
  · exact Iff.rfl

/-- Regenerating from a foreign root returns the message or leaves the honest root alone. -/
theorem regenerate_foreign (hcb : AcceptsExactly br.validateCallback message)
    (hroot : f.root ≠ enc.mt.root)
    (halive : br.dangling (r.haveShard f.root) = false) {msg : Option Bytes}
    (hmsg : regenerateMessage br.ec br.localFragmentConfig (r.haveShard f.root).storage
      (toInt32 f.size) [] = .ok msg) :
    (∃ kept, br.regenerate r f = .returned message kept) ∨
      ∃ r', br.regenerate r f = .waiting r' ∧
        r'.haveShard enc.mt.root = r.haveShard enc.mt.root := by
  obtain ⟨validate, hsome, hexact⟩ := hcb
  rw [BlockReceiver.regenerate, halive, hmsg, hsome]
  simp only [Bool.false_eq_true, if_false]
  cases msg with
  | none => exact .inr ⟨r, rfl, rfl⟩
  | some msg =>
    obtain ⟨kept, hanswer⟩ := hexact r.kept msg (r.blockMap f.root)
    by_cases hmsg' : msg = message
    · subst hmsg'
      rw [decide_eq_true rfl] at hanswer
      exact .inl ⟨kept, by simp only [hanswer]⟩
    · rw [decide_eq_false hmsg'] at hanswer
      refine .inr ⟨_, by simp only [hanswer]; rfl, ?_⟩
      exact update_of_ne (Ne.symm hroot) _ _

/-- The state after a fragment has been turned down. -/
def BlockReceiver.turnedDown (r : Receiving σ) (f : EncodeBlockFragment) (storage : Storage) :
    Receiving σ :=
  let val := r.haveShard f.root
  { r with
    haveShard := update r.haveShard f.root
      { val with
        storage := storage
        freed := fun j => val.freed j || ((storage j).cacheGuard && !(val.storage j).cacheGuard) } }

/-- What a fragment in range that does not fault comes to. -/
inductive Received (br : BlockReceiver σ) (r : Receiving σ) (f : EncodeBlockFragment) :
    Progress σ → Prop where
  | rejected (storage : Storage)
      (hval : validateAndDeserializeFragments br.sha256 br.wire br.localFragmentConfig
        (r.haveShard f.root).storage f.root f.encodeMessage f.start f.stop = .ok (false, storage)) :
      Received br r f (.waiting (turnedDown r f storage))
  | stored (storage : Storage)
      (hval : validateAndDeserializeFragments br.sha256 br.wire br.localFragmentConfig
        (r.haveShard f.root).storage f.root f.encodeMessage f.start f.stop = .ok (true, storage)) :
      Received br r f (.waiting (accept r f storage))
  | complete (storage : Storage) (msg : Option Bytes)
      (hval : validateAndDeserializeFragments br.sha256 br.wire br.localFragmentConfig
        (r.haveShard f.root).storage f.root f.encodeMessage f.start f.stop = .ok (true, storage))
      (halive : br.dangling ((accept r f storage).haveShard f.root) = false)
      (hmsg : regenerateMessage br.ec br.localFragmentConfig
        ((accept r f storage).haveShard f.root).storage (toInt32 f.size) [] = .ok msg) :
      Received br r f (br.regenerate (accept r f storage) f)

section

variable (hinst : 0 < br.localFragmentConfig.instanceCount)
  (hbytes : WellFormedBytes br.wire br.localFragmentConfig f piece)
  (hsafe : ¬ br.Completes (r.haveShard f.root) f ∨ SafeToComplete br (r.haveShard f.root) f piece)
include hinst hbytes hsafe

/-- **A fragment that does not break off does not fault**, if it can be regenerated from. -/
theorem receive_received (hrange : br.InRange f) : Received br r f (br.receive r f) := by
  obtain ⟨-, hle, hlt⟩ := id hrange
  obtain ⟨b, storage, hval, hkeep, hmem⟩ :=
    @WellFormedBytes.validate br.sha256 _ _ _ _ hbytes hinst hlt hle (r.haveShard f.root).storage
  rw [BlockReceiver.receive, if_neg (not_not.mpr hrange), hval]
  cases b with
  | false => exact .rejected storage hval
  | true =>
    dsimp only
    split_ifs with hdata
    · rw [accept_haveShard] at hdata
      have hsafe' := hsafe.resolve_left (not_not.mpr hdata)
      obtain ⟨len, hold, hnew⟩ := hsafe'.length
      have hsame : SameLength storage len := by
        intro j x hx
        rcases hmem j x hx with h | h | ⟨q, h1, h2, rfl⟩
        · exact hold j x h
        · exact .inl h
        · exact hnew q h1 h2
      obtain ⟨msg, hmsg⟩ := @regenerateMessage_ok br.ec _ _ _ hsame _ hsafe'.size
      refine .complete storage msg hval ?_ ?_
      · -- a view that is gone was empty before, and its slot is not written again
        rw [accept_haveShard, dangling, any_eq_false]
        rintro j - hbad
        simp only [BlockRegenerateOptions.accepted, Bool.and_eq_true, any_eq_true] at hbad
        obtain ⟨⟨hfreed, hguard⟩, x, hx, hne⟩ := hbad
        rw [hkeep j hguard] at hx
        rw [hsafe'.alive j hfreed hguard x hx] at hne
        cases hne
      · rw [accept_haveShard]
        exact hmsg
    · exact .stored storage hval

/-- **A foreign root leaves the honest one alone.** -/
theorem receive_foreign (hcb : AcceptsExactly br.validateCallback message)
    (hroot : f.root ≠ enc.mt.root) :
    (∃ kept, br.receive r f = .returned message kept) ∨
      ∃ r', br.receive r f = .waiting r' ∧ r'.haveShard enc.mt.root = r.haveShard enc.mt.root := by
  by_cases hrange : br.InRange f
  swap
  · exact .inr ⟨r, by rw [BlockReceiver.receive, if_pos hrange], rfl⟩
  have hreceived := receive_received hinst hbytes hsafe hrange
  generalize br.receive r f = p at hreceived ⊢
  cases hreceived with
  | rejected storage hval => exact .inr ⟨_, rfl, update_of_ne (Ne.symm hroot) _ _⟩
  | stored storage hval =>
    exact .inr ⟨_, rfl, accept_haveShard_of_ne r storage (Ne.symm hroot)⟩
  | complete storage msg hval halive hmsg =>
    rcases regenerate_foreign hcb hroot halive hmsg with h | ⟨r', hr', hsame⟩
    · exact .inl h
    · exact .inr ⟨r', hr', hsame.trans
        (accept_haveShard_of_ne r storage (Ne.symm hroot))⟩

end

/-- Accepting marked slots again changes nothing. -/
theorem accepted_repeated {o : BlockRegenerateOptions}
    (hval : Reconstructing br.localFragmentConfig enc ranges o)
    (hhold : Holding br.localFragmentConfig enc o) (hrange : br.InRange f)
    (hmarked : ∀ j, f.start ≤ j → j < f.stop → o.shardsValidated j = true) :
    o.accepted f o.storage = o := by
  obtain ⟨-, hle, hlt⟩ := id hrange
  obtain ⟨hcount, hmark⟩ := markShards_spec hlt hle hval.count
  have hsame : ∀ j, (markShards o.shardsValidated o.currentShardCnt f.start f.stop).1 j =
      o.shardsValidated j := by
    intro j
    rw [hmark j]
    by_cases hj : f.start ≤ j ∧ j < f.stop
    · rw [hmarked j hj.1 hj.2, Bool.true_or]
    · rw [decide_eq_false hj, Bool.or_false]
  have hfreed : (fun j => o.freed j && (o.storage j).cacheGuard) = o.freed := by
    funext j
    rw [hhold.alive j, Bool.false_and]
  rw [funext hsame, ← hval.count] at hcount
  rw [BlockRegenerateOptions.accepted, funext hsame, hcount, hfreed]

/-- Fewer slots need to be covered. -/
theorem Advances.mono {cfg : Config} {marked : Nat → Bool} {cover cover' : Nat → Prop}
    {p : Progress σ} (h : Advances cfg message enc ranges marked cover p)
    (hcover : ∀ j, cover' j → cover j) : Advances cfg message enc ranges marked cover' p := by
  rcases h with h | ⟨r, hwait, hval, hmarks⟩
  · exact .inl h
  · exact .inr ⟨r, hwait, hval, fun j hj => hmarks j (hj.imp_right (hcover j))⟩

variable (hs : HonestSetting br message enc ranges)
  (hcb : AcceptsExactly br.validateCallback message)
  (hval : Reconstructing br.localFragmentConfig enc ranges (r.haveShard enc.mt.root))
  (hhold : Holding br.localFragmentConfig enc (r.haveShard enc.mt.root))

include hval hhold in
/-- A fragment for slots that are filled already changes nothing. -/
theorem receive_repeated (hroot : f.root = enc.mt.root) (hrange : br.InRange f)
    (hmarked : ∀ j, f.start ≤ j → j < f.stop → (r.haveShard enc.mt.root).shardsValidated j = true)
    (hbytes : WellFormedBytes br.wire br.localFragmentConfig f piece) :
    Advances br.localFragmentConfig message enc ranges (r.haveShard enc.mt.root).shardsValidated
      (fun j => f.start ≤ j ∧ j < f.stop) (br.receive r f) := by
  obtain ⟨-, hle, hlt⟩ := id hrange
  have hvalid := @WellFormedBytes.validate_guarded br.sha256 _ _ _ _ hbytes hlt hle
    (r.haveShard enc.mt.root).storage (fun j h1 h2 => by rw [hhold.guard j, hmarked j h1 h2])
  have hacc := accepted_repeated hval hhold hrange hmarked
  have haccept := accept_haveShard r f (r.haveShard enc.mt.root).storage
  rw [hroot, hacc] at haccept
  rw [BlockReceiver.receive, if_neg (not_not.mpr hrange), hroot]
  rw [hroot] at hvalid
  rw [hvalid]
  dsimp only
  rw [haccept, if_neg (by have := hval.below; omega)]
  refine .inr ⟨_, rfl, by rw [haccept]; exact hval, fun j hj => ?_⟩
  rw [haccept]
  rcases hj with hj | hj
  · exact hj
  · exact hmarked j hj.1 hj.2

include hs in
theorem HonestSetting.inRange (hf : IsHonest br number message enc ranges f) : br.InRange f := by
  obtain ⟨hlt, hle⟩ := hs.ranges.bounds _ _ hf.range
  exact ⟨by omega, hle, hlt⟩

include hs hval in
/-- A fragment whose range makes no sense is passed over. -/
theorem HonestSetting.receive_outOfRange (hin : ¬ br.InRange f) :
    Advances br.localFragmentConfig message enc ranges (r.haveShard enc.mt.root).shardsValidated
      (fun j => IsHonest br number message enc ranges f ∧ f.start ≤ j ∧ j < f.stop)
      (br.receive r f) := by
  refine .inr ⟨r, by rw [BlockReceiver.receive, if_pos hin], hval, fun j hj => ?_⟩
  exact hj.resolve_right fun h => hin (hs.inRange h.1)

include hs hval hhold in
/-- A fragment that is turned down takes the context away, which held nothing. -/
theorem HonestSetting.receive_rejected (hnone : (r.haveShard enc.mt.root).currentShardCnt = 0)
    (hroot : f.root = enc.mt.root) {storage : Storage}
    (hreject : validateAndDeserializeFragments br.sha256 br.wire br.localFragmentConfig
      (r.haveShard enc.mt.root).storage enc.mt.root f.encodeMessage f.start f.stop =
        .ok (false, storage)) :
    Advances br.localFragmentConfig message enc ranges (r.haveShard enc.mt.root).shardsValidated
      (fun j => IsHonest br number message enc ranges f ∧ f.start ≤ j ∧ j < f.stop)
      (br.receive r f) := by
  by_cases hin : br.InRange f
  swap
  · exact hs.receive_outOfRange hval hin
  have hhonest : ¬ IsHonest br number message enc ranges f := by
    intro h
    obtain ⟨storage', hvalid, -, -⟩ := hs.validate hval hhold h.range h.bytes
    rw [hreject] at hvalid
    cases hvalid
  rw [BlockReceiver.receive, if_neg (not_not.mpr hin), hroot, hreject]
  refine .inr ⟨_, rfl, ?_, fun j hj => ?_⟩
  · simp only [update_self]
    exact ⟨hval.count, hval.below, hval.bounded, hval.whole, fun h => absurd hnone h⟩
  · simp only [update_self]
    exact hj.resolve_right fun h => hhonest h.1

include hs hcb in
/-- A harmless fragment of another root. -/
theorem HonestSetting.round_foreign (hroot : f.root ≠ enc.mt.root) (hready : Ready r f.root)
    (hharm : Harmless br message enc ranges r f) :
    ∃ r', prepare r f.root = some r' ∧
      ((∃ kept, br.receive r' f = .returned message kept) ∨
        ∃ r₂, br.receive r' f = .waiting r₂ ∧
          r₂.haveShard enc.mt.root = r.haveShard enc.mt.root) := by
  obtain ⟨r', hprep, hval', hother⟩ := prepare_ready hready
  refine ⟨r', hprep, ?_⟩
  rw [← hother enc.mt.root (Ne.symm hroot)]
  cases hharm with
  | outOfRange h => exact .inr ⟨r', by rw [BlockReceiver.receive, if_pos h], rfl⟩
  | foreign _ piece hbytes hsafe =>
    refine receive_foreign hs.inst_pos hbytes ?_ hcb hroot
    rw [hval', completes_prepared]
    exact hsafe
  | encoded h _ _ _ => exact absurd h hroot
  | repeated h _ _ _ => exact absurd h hroot
  | rejected h _ _ _ => exact absurd h hroot

include hs hcb hval in
/-- **A harmless fragment advances**, and marks its range if it is an honest one. -/
theorem HonestSetting.round_harmless (hmeets : Meets br number message enc ranges r f) :
    Advances br.localFragmentConfig message enc ranges (r.haveShard enc.mt.root).shardsValidated
      (fun j => IsHonest br number message enc ranges f ∧ f.start ≤ j ∧ j < f.stop)
      (br.round number r f) := by
  rw [BlockReceiver.round]
  split_ifs with hnumber
  · refine .inr ⟨r, rfl, hval, fun j hj => ?_⟩
    exact hj.resolve_right fun h => hnumber h.1.number
  obtain ⟨hready, hharm⟩ := hmeets (not_not.mp hnumber)
  by_cases hroot : f.root = enc.mt.root
  swap
  · obtain ⟨r', hprep, hrec⟩ := hs.round_foreign hcb hroot hready hharm
    rw [hprep]
    rcases hrec with h | ⟨r₂, hwait, hsame⟩
    · exact .inl h
    · refine .inr ⟨r₂, hwait, ?_, fun j hj => ?_⟩
      · rw [hsame]
        exact hval
      · rw [hsame]
        exact hj.resolve_right fun h => hroot h.1.root
  rw [hroot] at hready
  obtain ⟨r', hprep, hval', hhold', hmarks, hcnt⟩ := hval.prepare hready
  rw [hroot, hprep, ← hmarks]
  dsimp only
  cases hharm with
  | outOfRange h => exact hs.receive_outOfRange hval' h
  | foreign h _ _ _ => exact absurd hroot h
  | encoded _ hrange hbytes hsize =>
    refine (hs.receive hval' hhold' hroot hrange hbytes (hsize.imp_right fun h => ?_)).mono
      fun _ hj => hj.2
    rw [BlockReceiver.Completes, hmarks, hcnt]
    exact h
  | repeated _ hmarked piece hbytes =>
    by_cases hin : br.InRange f
    · refine (receive_repeated hval' hhold' hroot hin (fun j h1 h2 => ?_) hbytes).mono
        fun _ hj => hj.2
      rw [hmarks]
      exact hmarked j h1 h2
    · exact hs.receive_outOfRange hval' hin
  | rejected _ hnone storage hreject =>
    obtain ⟨r₂, hprep₂, hroot₂, -⟩ := prepare_ready hready
    obtain rfl : r' = r₂ := Option.some.inj (hprep.symm.trans hprep₂)
    have hempty : (r'.haveShard enc.mt.root).storage = Storage.empty := by
      rw [hroot₂, BlockRegenerateOptions.prepared, if_pos hnone]
      rfl
    rw [← hempty, hroot] at hreject
    exact hs.receive_rejected hval' hhold' (hcnt.trans hnone) hroot hreject

/-! ## A whole run -/

include hs hcb hval in
/-- In a run whose rounds all meet the condition, every honest range gets marked. -/
theorem HonestSetting.run_harmless
    {queue : List EncodeBlockFragment} (hall : AllMeet br number message enc ranges r queue) :
    Advances br.localFragmentConfig message enc ranges (r.haveShard enc.mt.root).shardsValidated
      (fun j => ∃ f ∈ queue, IsHonest br number message enc ranges f ∧ f.start ≤ j ∧ j < f.stop)
      (br.genBlockFromQueue number r queue) := by
  induction queue generalizing r with
  | nil =>
    refine .inr ⟨r, rfl, hval, fun j hj => ?_⟩
    rcases hj with hj | ⟨f, hf, -⟩
    · exact hj
    · cases hf
  | cons f queue ih =>
    rw [genBlockFromQueue]
    rcases hs.round_harmless hcb hval hall.1 with ⟨kept, hret⟩ | ⟨r', hwait, hval', hmarks⟩
    · rw [hret]
      exact .inl ⟨kept, rfl⟩
    · rw [hwait]
      rcases ih hval' (hall.2 r' hwait) with hret | ⟨r₂, hwait₂, hval₂, hmarks₂⟩
      · exact .inl hret
      · refine .inr ⟨r₂, hwait₂, hval₂, fun j hj => ?_⟩
        apply hmarks₂
        rcases hj with hj | ⟨g, hg, hgj⟩
        · exact .inl (hmarks j (.inl hj))
        · rcases mem_cons.mp hg with rfl | hg
          · exact .inl (hmarks j (.inr hgj))
          · exact .inr ⟨g, hg, hgj⟩

theorem IsHonest.meets (hf : IsHonest br number message enc ranges f)
    (hlen : message.length < 2 ^ 31) (hready : Ready r enc.mt.root) :
    Meets br number message enc ranges r f := by
  intro _
  rw [hf.root]
  exact ⟨hready, .encoded hf.root hf.range hf.bytes (.inl (by rw [hf.size, toInt32_natCast hlen]))⟩

include hs hval in
/-- A queue of honest fragments meets the condition. -/
theorem HonestSetting.allMeet (hlen : message.length < 2 ^ 31)
    (hready : Ready r enc.mt.root) {queue : List EncodeBlockFragment}
    (hqueue : ∀ f ∈ queue, IsHonest br number message enc ranges f) :
    AllMeet br number message enc ranges r queue := by
  induction queue generalizing r with
  | nil => trivial
  | cons f queue ih =>
    have hf := hqueue f mem_cons_self
    refine ⟨hf.meets hlen hready, fun r' hwait => ?_⟩
    rcases hs.round hlen hval hready hf with ⟨kept, hret⟩ | ⟨r₂, hwait₂, hval₂, hmarks⟩
    · rw [hret] at hwait
      cases hwait
    · obtain rfl : r₂ = r' := Progress.waiting.inj (hwait₂.symm.trans hwait)
      have hlt := (hs.ranges.bounds _ _ hf.range).1
      have hmarked := hmarks f.start (.inr ⟨le_refl _, hlt⟩)
      exact ih hval₂ (.inl (hval₂.count_ne_zero hmarked))
        fun g hg => hqueue g (mem_cons_of_mem f hg)

/-- **A fragment that breaks off ends the call**, whatever its root. -/
theorem round_breaks_off (hnumber : f.blockNumber = number)
    (hready : Ready r f.root) (hrange : br.InRange f)
    (hbytes : br.wire.getInt64 f.encodeMessage = none) :
    br.round number r f = .fault .thrown := by
  obtain ⟨r', hprep, -, -⟩ := prepare_ready hready
  obtain ⟨-, hle, hlt⟩ := id hrange
  rw [BlockReceiver.round, if_neg (not_not.mpr hnumber), hprep]
  dsimp only [BlockReceiver.receive]
  rw [if_neg (not_not.mpr hrange), validateAndDeserializeFragments, if_neg (by omega), hbytes]

/-- A fragment whose range makes no sense costs a context, at most. -/
theorem round_outOfRange {r r' : Receiving σ}
    (hnumber : f.blockNumber = number) (hrange : ¬ br.InRange f)
    (h : br.round number r f = .waiting r') : r.freeContexts ≤ r'.freeContexts + 1 := by
  rw [BlockReceiver.round, if_neg (not_not.mpr hnumber), prepare] at h
  dsimp only [BlockReceiver.receive] at h
  split_ifs at h
  · cases h
    exact Nat.le_succ _
  · cases h
    dsimp only
    omega
  · cases h
    exact Nat.le_succ _

end

/-! ## Two senders and one receiver, again -/

/-- The receiver of two senders without parity. -/
def receiverTwoOne (validate : Option (ValidateFunc Unit)) : BlockReceiver Unit :=
  ⟨lengthHash, littleEndian, splitCode 2, bfgConfig (FragmentUtil.plan 1 2) 2, validate⟩

/-- The two senders' fragments, which cover both slots. -/
theorem exists_honest_pair {message : Bytes} (hne : message ≠ []) (hlen : message.length < 2 ^ 32)
    {validate : Option (ValidateFunc Unit)} (hacc : AcceptsMessage validate message) :
    ∃ enc f₀ f₁, HonestSetting (receiverTwoOne validate) message enc (planned 2 1) ∧
      (∀ f ∈ [f₀, f₁], IsHonest (receiverTwoOne validate) 0 message enc (planned 2 1) f) ∧
      ∀ j ∈ Finset.range 2, ∃ f ∈ [f₀, f₁], f.start ≤ j ∧ j < f.stop := by
  obtain ⟨hzero, hone, hcfg⟩ := plan_two_one
  have hrestores := @splitCode_restores ⟨2, 0, 1, 1⟩ (by norm_num) rfl
  obtain ⟨enc, henc⟩ := @initWithMessage_single lengthHash _ _ hrestores rfl (by decide) message hne
  have henc' := initWithMessage_encodes henc
  rw [← hcfg] at hrestores henc
  have hs := honestSetting_regions (by norm_num) (by norm_num) hrestores henc
    (carried_two_one hlen henc') hacc
  obtain ⟨body₀, hbody₀⟩ := serialized_two_one enc Nat.two_pos
  obtain ⟨body₁, hbody₁⟩ := serialized_two_one enc Nat.one_lt_two
  refine ⟨enc, ⟨[], 0, enc.mt.root, message.length, 0, 1, body₀⟩,
    ⟨[], 0, enc.mt.root, message.length, 1, 2, body₁⟩, hs, ?_, ?_⟩
  · intro f hf
    rcases mem_pair.mp hf with rfl | rfl
    · exact ⟨rfl, rfl, rfl, ⟨0, by norm_num, ⟨0, 1, 0, 0⟩, by rw [hzero]; simp, rfl, rfl⟩, hbody₀⟩
    · exact ⟨rfl, rfl, rfl, ⟨1, by norm_num, ⟨1, 2, 1, 0⟩, by rw [hone]; simp, rfl, rfl⟩, hbody₁⟩
  · intro j hj
    rw [Finset.mem_range] at hj
    obtain rfl | rfl : j = 0 ∨ j = 1 := by omega
    · exact ⟨_, mem_cons_self, le_refl 0, Nat.one_pos⟩
    · exact ⟨_, mem_cons_of_mem _ mem_cons_self, le_refl 1, Nat.one_lt_two⟩

/-- The callback that takes one message only. -/
def takeOnly (message : Bytes) : ValidateFunc Unit :=
  fun kept raw _ => .ok (kept, raw, decide (raw = message))

theorem acceptsExactly_takeOnly (message : Bytes) :
    AcceptsExactly (some (takeOnly message)) message :=
  ⟨_, rfl, fun kept _ _ => ⟨kept, rfl⟩⟩

/-! ## The reconstruction -/

/-- **Harmless fragments cannot stop the reconstruction**: in every run whose rounds all meet
the condition, enough honest slots give the block. -/
theorem reconstructs_of_harmless {σ : Type} {br : BlockReceiver σ} {message : Bytes} {enc : Encoded}
    {ranges : Nat → Nat → Prop} {number : Nat} (hs : HonestSetting br message enc ranges)
    (hcb : AcceptsExactly br.validateCallback message) (contexts : Nat) (kept : σ)
    {queue : List EncodeBlockFragment} {slots : Finset Nat}
    (hcard : br.localFragmentConfig.dataShardCnt ≤ slots.card) (hcover : ∀ j ∈ slots, ∃ f ∈ queue,
      IsHonest br number message enc ranges f ∧ f.start ≤ j ∧ j < f.stop)
    (hall : AllMeet br number message enc ranges (.start contexts kept) queue) :
    ∃ kept', br.genBlockFromQueue number (.start contexts kept) queue = .returned message kept' :=
  (hs.run_harmless hcb (reconstructing_empty hs.data_pos) hall).returned hcard hcover

/-- A range that makes no sense in front of the two honest ones. -/
theorem reconstructs_outOfRange_first :
    ∃ (bad f₀ f₁ : EncodeBlockFragment) (kept : Unit), bad.stop < bad.start ∧
      (receiverTwoOne (some (takeOnly [7]))).genBlockFromQueue 0 (.start 2 ()) [bad, f₀, f₁] =
        .returned [7] kept := by
  have hexact := acceptsExactly_takeOnly [7]
  obtain ⟨enc, f₀, f₁, hs, hhonest, hcover⟩ := exists_honest_pair (by decide) (by decide)
    hexact.acceptsMessage
  have hempty := @reconstructing_empty enc (planned 2 1) _ hs.data_pos
  have hbad : ¬ (receiverTwoOne (some (takeOnly [7]))).InRange
      ⟨[], 0, enc.mt.root, 0, 2, 1, []⟩ := fun h => absurd h.2.2 (by norm_num)
  have hready : Ready (Receiving.start 2 ()) enc.mt.root := .inr (by norm_num [Receiving.start])
  have hmeets : Meets (receiverTwoOne (some (takeOnly [7]))) 0 [7] enc (planned 2 1)
      (Receiving.start 2 ()) ⟨[], 0, enc.mt.root, 0, 2, 1, []⟩ :=
    fun _ => ⟨hready, .outOfRange hbad⟩
  obtain ⟨kept, hret⟩ := @reconstructs_of_harmless _ _ _ _ _ _ hs hexact 2 ()
    [⟨[], 0, enc.mt.root, 0, 2, 1, []⟩, f₀, f₁] (Finset.range 2)
    (by rw [Finset.card_range]; decide)
    (fun j hj => by
      obtain ⟨f, hf, hfj⟩ := hcover j hj
      exact ⟨f, mem_cons_of_mem _ hf, hhonest f hf, hfj⟩)
    ⟨hmeets, fun r' hwait => by
      rcases hs.round_harmless hexact hempty hmeets with ⟨kept, hret⟩ | ⟨r₂, hwait₂, hval₂, -⟩
      · rw [hret] at hwait
        cases hwait
      · obtain rfl := Progress.waiting.inj (hwait₂.symm.trans hwait)
        have hleft := round_outOfRange rfl hbad hwait
        refine hs.allMeet hval₂ (by decide) (.inr ?_) hhonest
        change 2 ≤ _ at hleft
        omega⟩
  exact ⟨_, f₀, f₁, kept, by norm_num, hret⟩

/-- One fragment without bytes, of the honest root, in front of the honest ones. -/
theorem not_every_queue_reconstructs :
    ¬ ∀ (br : BlockReceiver Unit) (message : Bytes) (enc : Encoded) (nA nB number contexts : Nat)
      (queue : List EncodeBlockFragment) (slots : Finset Nat),
      HonestSetting br message enc (planned nA nB) → AcceptsExactly br.validateCallback message →
      queue.length ≤ contexts → br.localFragmentConfig.dataShardCnt ≤ slots.card →
      (∀ j ∈ slots, ∃ f ∈ queue, IsHonest br number message enc (planned nA nB) f ∧
        f.start ≤ j ∧ j < f.stop) →
      ∃ kept, br.genBlockFromQueue number (.start contexts ()) queue = .returned message kept := by
  intro hall
  have hexact := acceptsExactly_takeOnly [7]
  obtain ⟨enc, f₀, f₁, hs, hhonest, hcover⟩ := exists_honest_pair (by decide) (by decide)
    hexact.acceptsMessage
  obtain ⟨kept, hret⟩ := hall _ _ _ _ _ 0 3 [⟨[], 0, enc.mt.root, 0, 0, 1, []⟩, f₀, f₁]
    (Finset.range 2) hs hexact (le_refl 3) (by rw [Finset.card_range]; decide) (fun j hj => by
      obtain ⟨f, hf, hfj⟩ := hcover j hj
      exact ⟨f, mem_cons_of_mem _ hf, hhonest f hf, hfj⟩)
  have hcnt : 0 + 1 ≤ (bfgConfig (FragmentUtil.plan 1 2) 2).fragmentCnt := by decide
  have hbreak := @round_breaks_off Unit (receiverTwoOne (some (takeOnly [7])))
    ⟨[], 0, enc.mt.root, 0, 0, 1, []⟩ (.start 3 ()) 0 rfl (.inr (by norm_num [Receiving.start]))
    ⟨hcnt, hcnt, Nat.one_pos⟩ rfl
  rw [genBlockFromQueue, hbreak] at hret
  cases hret

end MassBFT.Replication
