import MassBFT.Replication.Instances

/-!
# A message over several encoder instances

The encoder cuts the message into parts of one length, rounded up, and gives each instance all of
the message from its part on, or the next parts of it; the decoder asks each instance for its
part, and the last one for the rest **of the buffer**.

The rounding can use the message up before the last instance: its part then starts at the end of
the message, which leaves nothing to encode, or behind it, which `substr` answers with an
exception. And a buffer that is longer than the message makes the last instance ask for more than
was encoded. **Apart from these two cases the split is lossless**, for every code that keeps its
promise (`lossless_iff`).
-/

set_option autoImplicit false

namespace MassBFT.Replication

open List

/-- The message is encoded, and any `dataShardCnt` of its slots give it back, in front of the
buffer. -/
def Lossless (sha256 : Bytes → HashString) (ec : ErasureCode) (cfg : Config)
    (message bufferOut : Bytes) : Prop :=
  ∃ enc, initWithMessage sha256 ec cfg message = .ok (some enc) ∧
    ∀ (filled : Nat → Bool) (storage : Storage), enc.Fills cfg filled storage →
      cfg.dataShardCnt ≤ (List.range cfg.fragmentCnt).countP filled →
      ∃ out, regenerateMessage ec cfg storage (toInt32 message.length) bufferOut = .ok (some out) ∧
        out.take message.length = message

/-! ## A code that keeps its promise and no more -/

/-- Every shard is the whole message. -/
def copyCode (cfg : Config) : ErasureCode where
  encode msg := if msg = [] then none else some (List.replicate cfg.fragmentCnt msg)
  decode pieces _ dataSize :=
    match pieces.find? Option.isSome with
    | some (some msg) => if dataSize ≤ msg.length then some (msg.take dataSize.toNat) else none
    | _ => none

variable {cfg : Config}

theorem copyCode_encode {msg : Bytes} {shards : List Bytes}
    (h : (copyCode cfg).encode msg = some shards) :
    msg ≠ [] ∧ shards = List.replicate cfg.fragmentCnt msg := by
  by_cases hne : msg = []
  · subst hne
    cases h
  · exact ⟨hne, (Option.some.inj ((if_neg hne).symm.trans h)).symm⟩

/-- The copies are found whatever is missing. -/
theorem copyCode_decode {pieces : List (Option Bytes)} {msg : Bytes}
    (hright : ∀ b, some b ∈ pieces → b = msg) (hsome : 0 < pieces.countP Option.isSome)
    (len : Nat) (k : Int) : (copyCode cfg).decode pieces len k =
      if k ≤ msg.length then some (msg.take k.toNat) else none := by
  obtain ⟨p, hp, hpsome⟩ := countP_pos_iff.mp hsome
  obtain ⟨q, hq⟩ := Option.isSome_iff_exists.mp (find?_isSome.mpr ⟨p, hp, hpsome⟩)
  obtain ⟨b, rfl⟩ := Option.isSome_iff_exists.mp (find?_some hq)
  have hb := hright b (mem_of_find?_eq_some hq)
  simp only [copyCode, hq, hb]

theorem copyCode_restores (hdata : 0 < cfg.dataShardCnt) :
    (copyCode cfg).Restores cfg where
  encodes msg hne := ⟨_, if_neg hne⟩
  restores msg shards h := by
    obtain ⟨hne, rfl⟩ := copyCode_encode h
    refine ⟨length_replicate, msg.length, length_pos_iff.mpr hne,
      fun s hs => by rw [eq_of_mem_replicate hs], ?_⟩
    intro pieces hlen hright hcount k hk
    rw [copyCode_decode (fun b hb => ?_) (by omega), if_pos (by exact_mod_cast hk),
      Int.toNat_natCast]
    obtain ⟨j, hj⟩ := mem_iff_getElem?.mp hb
    exact eq_of_mem_replicate (mem_of_getElem? (hright j b hj))

section

variable {sha256 : Bytes → HashString} {cfg : Config} {message : Bytes} {enc : Encoded}

/-- What is encoded is not empty. -/
theorem partsNonempty_of_copies (henc : Encodes sha256 (copyCode cfg) cfg message enc) :
    PartsNonempty cfg message.length := by
  intro idx hidx
  obtain ⟨shards, hshards, -⟩ := henc.shard idx hidx
  by_contra hge
  refine (copyCode_encode hshards).1 ?_
  rw [msgView, drop_eq_nil_of_le (not_lt.mp hge), take_nil]

/-- The shards of one instance are its view of the message. -/
theorem slot_copies (henc : Encodes sha256 (copyCode cfg) cfg message enc) {i : Nat}
    (hi : i < cfg.instanceCount) :
    msgView message (partLen cfg message.length) i ≠ [] ∧
      ∀ j < cfg.fragmentCnt, (enc.slot cfg j).getD i [] =
        msgView message (partLen cfg message.length) i := by
  obtain ⟨shards, hshards, hget⟩ := henc.shard i hi
  obtain ⟨hne, rfl⟩ := copyCode_encode hshards
  refine ⟨hne, fun j hj => ?_⟩
  rw [enc.getD_slot hi, hget j hj, getD_eq_getElem?_getD, getElem?_replicate, if_pos hj]
  rfl

/-- An instance that is asked for more than it has encoded fails. -/
theorem decode_copies_none (henc : Encodes sha256 (copyCode cfg) cfg message enc)
    (hcnt : 0 < cfg.fragmentCnt) {i : Nat} (hi : i < cfg.instanceCount) {k : Int}
    (hk : ((msgView message (partLen cfg message.length) i).length : Int) < k) :
    decodeWithBuffer (copyCode cfg)
      ((List.range cfg.fragmentCnt).map fun j => (enc.slot cfg j).getD i []) k = .ok none := by
  obtain ⟨hne, hslot⟩ := slot_copies henc hi
  generalize msgView message (partLen cfg message.length) i = view at hne hslot hk
  have hcopies : ((List.range cfg.fragmentCnt).map fun j => (enc.slot cfg j).getD i []) =
      List.replicate cfg.fragmentCnt view := by
    rw [eq_replicate_iff]
    refine ⟨by simp, fun b hb => ?_⟩
    obtain ⟨j, hj, rfl⟩ := mem_map.mp hb
    exact hslot j (mem_range.mp hj)
  have hview : view.isEmpty = false := isEmpty_eq_false_iff.mpr hne
  have hthere : ∀ {α : Type} (x : α), x ∈ List.replicate cfg.fragmentCnt x :=
    fun x => mem_replicate.mpr ⟨by omega, rfl⟩
  have hpieces : (List.replicate cfg.fragmentCnt view).map
      (fun b => if b.isEmpty then none else some b) =
      List.replicate cfg.fragmentCnt (some view) := by
    rw [map_replicate, hview]
    rfl
  have hdec := @copyCode_decode cfg (List.replicate cfg.fragmentCnt (some view)) view
    (fun b hb => Option.some.inj (eq_of_mem_replicate hb))
    (countP_pos_iff.mpr ⟨some view, hthere _, rfl⟩) view.length k
  rw [hcopies, @decodeWithBuffer_eq (copyCode cfg) _ view.length
    (fun b hb _ => by rw [eq_of_mem_replicate hb]) ⟨view, hthere view, hview⟩, hpieces, hdec,
    if_neg (not_le.mpr hk)]

end

/-- One part that fails makes the whole message fail. -/
theorem regenerateParts_failed {ec : ErasureCode} {storage : Storage} {len : Int}
    {i size : Nat} (hfail : decodeWithBuffer ec ((List.range cfg.fragmentCnt).map fun j =>
      (storage j).encodeFragment.getD i []) (dataSize cfg len size i) = .ok none)
    (parts : List Nat) (buffer : Option Bytes) (out : Bytes) :
    regenerateParts ec cfg storage len (parts ++ [i]) buffer size ≠ .ok (some out) := by
  induction parts generalizing buffer with
  | nil =>
    rw [nil_append, regenerateParts, hfail]
    intro h
    cases h
  | cons j parts ih =>
    rw [cons_append, regenerateParts]
    split
    · intro h
      cases h
    · exact ih none
    · split_ifs
      · exact ih _
      · intro h
        cases h

/-- The sizes are values of type `int`. -/
def SizesFit (message bufferOut : Bytes) : Prop :=
  message.length < 2 ^ 31 ∧ bufferOut.length < 2 ^ 31

/-- **Splitting a message over several instances is lossless for every code that keeps its promise,
exactly if every instance has something to encode and the buffer is not longer than the message.**
-/
theorem lossless_iff (cfg : Config) (hdata : 1 ≤ cfg.dataShardCnt) (htwo : 2 ≤ cfg.fragmentCnt)
    (hinst : 1 ≤ cfg.instanceCount) (message bufferOut : Bytes) (hne : message ≠ [])
    (hfit : SizesFit message bufferOut) :
    (∀ (sha256 : Bytes → HashString) (ec : ErasureCode), ec.Restores cfg →
      Lossless sha256 ec cfg message bufferOut) ↔
    PartsNonempty cfg message.length ∧ bufferOut.length ≤ message.length := by
  constructor
  · intro hall
    obtain ⟨enc, hinit, hregenerate⟩ := hall (fun _ => default) _ (copyCode_restores hdata)
    have henc := initWithMessage_encodes hinit
    refine ⟨partsNonempty_of_copies henc, ?_⟩
    by_contra hlong
    -- All slots are filled, and the last instance is asked for more than it has.
    obtain ⟨out, hout, -⟩ := hregenerate (fun _ => true) (fun j => ⟨true, enc.slot cfg j⟩)
      (fun j => rfl) (by simp [Config.fragmentCnt])
    rw [toInt32_natCast hfit.1, regenerateMessage, fragmentLen_natCast, Int.toNat_natCast,
      Nat.sub_eq_zero_of_le (by omega), replicate_zero, append_nil] at hout
    obtain ⟨last, hlast⟩ : ∃ last, cfg.instanceCount = last + 1 := ⟨cfg.instanceCount - 1, by omega⟩
    have hsize : dataSize cfg (partLen cfg message.length : Nat) bufferOut.length last =
        bufferOut.length - last * (partLen cfg message.length : Nat) :=
      if_pos (by omega)
    have hfail : decodeWithBuffer (copyCode cfg)
        ((List.range cfg.fragmentCnt).map fun j => (enc.slot cfg j).getD last [])
        (dataSize cfg (partLen cfg message.length : Nat) bufferOut.length last) = .ok none := by
      refine decode_copies_none henc (by omega) (by omega) ?_
      have hfits := henc.fits last (by omega)
      have hview : (msgView message (partLen cfg message.length) last).length ≤
          message.length - last * partLen cfg message.length := by
        rw [msgView, length_take, length_drop]
        omega
      rw [hsize]
      zify [hfits] at hview
      omega
    rw [hlast, range_succ] at hout
    exact regenerateParts_failed hfail _ _ out hout
  · rintro ⟨hparts, hshort⟩ sha256 ec hec
    obtain ⟨enc, hinit⟩ := @initWithMessage_of_parts ec cfg sha256 message hec hinst htwo hne hparts
    refine ⟨enc, hinit, fun filled storage hfill hcount => ⟨message, ?_, take_length⟩⟩
    rw [toInt32_natCast hfit.1]
    exact regenerate_encoded (initWithMessage_encodes hinit) hec hdata hfill hcount hinst hshort

/-- Three bytes over two instances, into a buffer that holds one byte already. -/
theorem lossless_three_bytes : (splitCode 2).Restores ⟨2, 0, 2, 1⟩ ∧
    Lossless lengthHash (splitCode 2) ⟨2, 0, 2, 1⟩ [1, 2, 3] [9] := by
  have hrestores := @splitCode_restores ⟨2, 0, 2, 1⟩ (by decide) rfl
  exact ⟨hrestores, (lossless_iff ⟨2, 0, 2, 1⟩ (by decide) (by decide) (by decide) [1, 2, 3] [9]
    (by decide) ⟨by decide, by decide⟩).mpr ⟨by decide, by decide⟩ lengthHash _ hrestores⟩

/-- Five bytes over four instances: the last part would start behind the message. And one byte over
one instance, which fills it up to two, into a buffer of three bytes: three bytes are asked for. -/
theorem not_always_lossless :
    ((splitCode 2).Restores ⟨2, 0, 4, 1⟩ ∧
      initWithMessage lengthHash (splitCode 2) ⟨2, 0, 4, 1⟩ [1, 2, 3, 4, 5] = .error .thrown) ∧
    (splitCode 2).Restores ⟨2, 0, 1, 1⟩ ∧
      ∃ enc, initWithMessage lengthHash (splitCode 2) ⟨2, 0, 1, 1⟩ [7] = .ok (some enc) ∧
        regenerateMessage (splitCode 2) ⟨2, 0, 1, 1⟩ (fun j => ⟨true, enc.slot ⟨2, 0, 1, 1⟩ j⟩) 1
          [0, 0, 0] = .ok none :=
  ⟨⟨@splitCode_restores ⟨2, 0, 4, 1⟩ (by decide) rfl, rfl⟩,
    @splitCode_restores ⟨2, 0, 1, 1⟩ (by decide) rfl, _, rfl, rfl⟩

end MassBFT.Replication
