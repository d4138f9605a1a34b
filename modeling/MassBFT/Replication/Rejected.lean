import MassBFT.Replication.Binding

/-!
# What a rejected range leaves behind

A slot is guarded before its shards are read, and the guard is not taken back when one of them
does not verify. **So a range that is turned down after its bounds have been checked takes away
the slot that failed**: from then on the slot counts as filled, with nothing verified in it, and
whatever is sent for it is skipped and accepted.

`outcomes` is what the calls on a context show. A rejected call is invisible in all of them
exactly if its bounds were wrong, and an accepted call leaves verified shards in its range
exactly if the slots it skipped had them (`rejected_traceless_iff`).
-/

set_option autoImplicit false

namespace MassBFT.Replication

open Function

/-! ## Calls on a context -/

/-- A call on a context that decodes. -/
inductive ContextCall where
  | validate (root : HashString) (raw : Bytes) (start stop : Int)
  | regenerate (actualMessageSize : Int) (bufferOut : Bytes)

/-- What a call returns. -/
inductive ContextAnswer where
  | validated (answer : Bool)
  | regenerated (message : Option Bytes)
  | fault (e : Fault)
  deriving DecidableEq

section

variable (sha256 : Bytes → HashString) (w : Wire) (ec : ErasureCode) (cfg : Config)

/-- The bounds are not those of a range of slots. -/
def OutOfRange (start stop : Int) : Prop := start < 0 ∨ stop ≤ start ∨ cfg.fragmentCnt < stop

instance (start stop : Int) : Decidable (OutOfRange cfg start stop) :=
  inferInstanceAs (Decidable (_ ∨ _ ∨ _))

/-- `validateAndDeserializeFragments`, for bounds of type `int`. -/
def validateRange (storage : Storage) (root : HashString) (raw : Bytes) (start stop : Int) :
    Except Fault (Bool × Storage) :=
  if OutOfRange cfg start stop then .ok (false, storage)
  else validateAndDeserializeFragments sha256 w cfg storage root raw start.toNat stop.toNat

/-- What a sequence of calls shows: the answers, each with what is stored after it. -/
def outcomes : Storage → List ContextCall → List (ContextAnswer × (Nat → List Bytes))
  | _, [] => []
  | storage, .validate root raw start stop :: later =>
    match validateRange sha256 w cfg storage root raw start stop with
    | .error e => [(.fault e, fun j => (storage j).encodeFragment)]
    | .ok (answer, storage) =>
      (.validated answer, fun j => (storage j).encodeFragment) :: outcomes storage later
  | storage, .regenerate actualMessageSize bufferOut :: later =>
    match regenerateMessage ec cfg storage actualMessageSize bufferOut with
    | .error e => [(.fault e, fun j => (storage j).encodeFragment)]
    | .ok message =>
      (.regenerated message, fun j => (storage j).encodeFragment) :: outcomes storage later

end

/-! ## What a call does to the slots -/

section

variable {sha256 : Bytes → HashString} {w : Wire} {root : HashString} {depth inst : Nat}

/-- The slot holds a shard for each instance, and each has been verified. -/
def DecodeStorage.Verified (sha256 : Bytes → HashString) (root : HashString) (inst : Nat)
    (slot : DecodeStorage) : Prop :=
  ∃ pieces, StoredAs sha256 root inst pieces slot.encodeFragment

theorem update_guarded {storage : Storage} {i : Nat} (hi : (storage i).cacheGuard = false)
    (slot : DecodeStorage) {j : Nat} (hj : (storage j).cacheGuard = true) :
    update storage i slot j = storage j := by
  refine update_of_ne ?_ _ _
  rintro rfl
  rw [hi] at hj
  cases hj

/-- **A rejected range takes a slot that was free.** -/
theorem guarded_of_rejected {n i : Nat} {c : Cursor} {storage storage' : Storage}
    (h : validateSlots sha256 w root depth inst n i c storage = .ok (false, storage')) :
    0 < inst ∧ ∃ j, i ≤ j ∧ j < i + n ∧ (storage j).cacheGuard = false ∧
      (storage' j).cacheGuard = true := by
  induction n generalizing i c storage with
  | zero => cases h
  | succ n ih =>
    rcases validateSlots_succ h with ⟨-, c', hrest⟩ | ⟨hfree, c', fragments, hread, hnext⟩
    · obtain ⟨hinst, j, hle, hlt, hnew, htaken⟩ := ih hrest
      exact ⟨hinst, j, by omega, by omega, hnew, htaken⟩
    · rcases hnext with ⟨rfl, -, rfl⟩ | ⟨c₁, -, hrest⟩
      · refine ⟨Nat.pos_of_ne_zero ?_, i, le_refl _, by omega, hfree, ?_⟩
        · rintro rfl
          cases hread
        · rw [update_self]
      · obtain ⟨hinst, j, hle, hlt, hnew, htaken⟩ := ih hrest
        rw [update_of_ne (by omega)] at hnew
        exact ⟨hinst, j, by omega, by omega, hnew, htaken⟩

/-- **An accepted range verifies the slots that were free and keeps the others.** -/
theorem verified_of_accepted {n i : Nat} {c : Cursor} {storage storage' : Storage}
    (h : validateSlots sha256 w root depth inst n i c storage = .ok (true, storage')) :
    (∀ j, (storage j).cacheGuard = true → storage' j = storage j) ∧
      ∀ j, i ≤ j → j < i + n → (storage j).cacheGuard = false →
        (storage' j).Verified sha256 root inst := by
  induction n generalizing i c storage with
  | zero =>
    cases h
    exact ⟨fun _ _ => rfl, fun j h1 h2 => by omega⟩
  | succ n ih =>
    rcases validateSlots_succ h with ⟨hguard, c', hrest⟩ | ⟨hfree, c', fragments, hread, hnext⟩
    · obtain ⟨hkeep, hverified⟩ := ih hrest
      refine ⟨hkeep, fun j h1 h2 hnew => hverified j ?_ (by omega) hnew⟩
      have hne : j ≠ i := by
        rintro rfl
        rw [hguard] at hnew
        cases hnew
      omega
    · rcases hnext with ⟨-, hfalse, -⟩ | ⟨c₁, rfl, hrest⟩
      · cases hfalse
      obtain ⟨hkeep, hverified⟩ := ih hrest
      obtain ⟨pieces, -, hstored⟩ := parseSlot_of_readPieces hread
      refine ⟨fun j hj => ?_, fun j h1 h2 hnew => ?_⟩
      · have hsame := update_guarded hfree ⟨true, fragments⟩ hj
        rw [hkeep j (by rw [hsame]; exact hj), hsame]
      · by_cases hj : j = i
        · subst hj
          rw [hkeep j (by rw [update_self]), update_self]
          exact ⟨pieces, hstored⟩
        · refine hverified j (by omega) (by omega) ?_
          rw [update_of_ne hj]
          exact hnew

end

/-! ## Asking whether a slot is free -/

/-- A shard without bytes, in a tree without levels. -/
def barePiece : Piece := ⟨0, [], []⟩

/-- The format carries such a shard, and a depth of zero. -/
structure CarriesBare (w : Wire) : Prop where
  depth : Carries w.putInt64 w.getInt64 ((0 : Nat) : Int)
  piece : barePiece.Carried w

/-- Bare shards for all instances of a slot. -/
def bareRange (w : Wire) (inst slot : Nat) : Bytes :=
  w.putInt64 ((0 : Nat) : Int) ++ piecesBytes w (fun _ => barePiece) (slot * inst) inst

section

variable {sha256 : Bytes → HashString} {w : Wire} {cfg : Config} {root : HashString}

theorem CarriesBare.wellFormed (hw : CarriesBare w) (first n : Nat) :
    WellFormed w (fun _ => barePiece) 0 first n :=
  ⟨fun _ _ _ => hw.piece, fun _ _ _ => le_refl 0⟩

/-- **Bare shards are accepted for a slot exactly if it is taken.** -/
theorem validateRange_bare (hw : CarriesBare w) (hinst : 0 < cfg.instanceCount) {j : Nat}
    (hj : j < cfg.fragmentCnt) (hroot : sha256 [] ≠ root) (storage : Storage) :
    ∃ storage', validateRange sha256 w cfg storage root (bareRange w cfg.instanceCount j)
      j ((j + 1 : Nat) : Int) = .ok ((storage j).cacheGuard, storage') := by
  have hrange : ¬ OutOfRange cfg j ((j + 1 : Nat) : Int) := by
    rw [OutOfRange]
    omega
  have hslots : validateRange sha256 w cfg storage root (bareRange w cfg.instanceCount j)
      j ((j + 1 : Nat) : Int) = validateSlots sha256 w root 0 cfg.instanceCount 1 j
        (Cursor.first 0 (piecesBytes w (fun _ => barePiece) (j * cfg.instanceCount)
          cfg.instanceCount)) storage := by
    rw [validateRange, if_neg hrange, Int.toNat_natCast, Int.toNat_natCast,
      validateAndDeserializeFragments, if_neg (by omega), bareRange, hw.depth]
    dsimp only
    rw [if_neg (by omega), Nat.add_sub_cancel_left]
    rfl
  rw [hslots]
  cases hguard : (storage j).cacheGuard with
  | true =>
    have hbytes : (Cursor.first 0 (piecesBytes w (fun _ => barePiece) (j * cfg.instanceCount)
        cfg.instanceCount)).rest = piecesBytes w (fun _ => barePiece) (j * cfg.instanceCount)
          (1 * cfg.instanceCount) ++ [] := by
      rw [Nat.one_mul, List.append_nil]
      rfl
    refine ⟨storage, validateSlots_guarded (hw.wellFormed _ _) (Cursor.reads_first 0 _) hbytes ?_⟩
    intro k h1 h2
    obtain rfl : k = j := by omega
    exact hguard
  | false =>
    have hverify : verify sha256 (some (sha256 [])) ⟨[], 0⟩ root ≠ some true := by
      simpa [verify, HashTree.climb] using hroot
    have hread := readPieces_refused hinst (hw.wellFormed (j * cfg.instanceCount) _)
      ((Cursor.reads_first 0 (piecesBytes w (fun _ => barePiece) (j * cfg.instanceCount)
        cfg.instanceCount)).newSlot cfg.instanceCount j) (le_refl _) (fun _ => rfl)
      (List.append_nil _).symm hverify
    rw [validateSlots, hguard, if_neg Bool.false_ne_true, hread]
    exact ⟨_, rfl⟩

end

/-! ## Rejected and accepted ranges -/

section

variable {sha256 : Bytes → HashString} {w : Wire} {cfg : Config} {storage storage' : Storage}
  {root : HashString} {raw : Bytes} {start stop : Int} {answer : Bool}

/-- Inside the bounds the call is the loop over the slots. -/
theorem exists_validateSlots (hrange : ¬ OutOfRange cfg start stop)
    (h : validateRange sha256 w cfg storage root raw start stop = .ok (answer, storage')) :
    ∃ depth rest, validateSlots sha256 w root depth cfg.instanceCount (stop.toNat - start.toNat)
      start.toNat (Cursor.first depth rest) storage = .ok (answer, storage') := by
  have hbounds : ¬ (stop.toNat ≤ start.toNat ∨ cfg.fragmentCnt < stop.toNat) := by
    rw [OutOfRange] at hrange
    omega
  rw [validateRange, if_neg hrange, validateAndDeserializeFragments, if_neg hbounds] at h
  cases hdepth : w.getInt64 raw with
  | none => rw [hdepth] at h; cases h
  | some t =>
    obtain ⟨depth, rest⟩ := t
    rw [hdepth] at h
    dsimp only at h
    split_ifs at h
    exact ⟨depth.toNat, rest, h⟩

theorem accepted_inRange
    (h : validateRange sha256 w cfg storage root raw start stop = .ok (true, storage')) :
    ¬ OutOfRange cfg start stop := by
  intro hrange
  rw [validateRange, if_pos hrange] at h
  cases h

theorem exists_ne_hash (h : HashString) : ∃ root : HashString, h ≠ root := by
  by_cases hzero : h = ⟨List.replicate 32 0, by simp⟩
  · refine ⟨⟨List.replicate 32 1, by simp⟩, ?_⟩
    rw [hzero]
    decide
  · exact ⟨_, hzero⟩

/-- A call that is rejected inside the bounds can be told from no call at all. -/
theorem outcomes_ne_of_rejected (hw : CarriesBare w) (ec : ErasureCode)
    (hrange : ¬ OutOfRange cfg start stop)
    (h : validateRange sha256 w cfg storage root raw start stop = .ok (false, storage')) :
    ∃ later, outcomes sha256 w ec cfg storage' later ≠ outcomes sha256 w ec cfg storage later := by
  obtain ⟨depth, rest, hslots⟩ := exists_validateSlots hrange h
  obtain ⟨hinst, j, hle, hlt, hfree, htaken⟩ := guarded_of_rejected hslots
  obtain ⟨root', hroot⟩ := exists_ne_hash (sha256 [])
  have hj : j < cfg.fragmentCnt := by
    rw [OutOfRange] at hrange
    omega
  obtain ⟨after, hafter⟩ := validateRange_bare hw hinst hj hroot storage
  obtain ⟨after', hafter'⟩ := validateRange_bare hw hinst hj hroot storage'
  refine ⟨[.validate root' (bareRange w cfg.instanceCount j) j ((j + 1 : Nat) : Int)],
    fun heq => ?_⟩
  rw [outcomes, outcomes, hafter, hafter', hfree, htaken] at heq
  simp at heq

theorem verified_of_validateRange
    (h : validateRange sha256 w cfg storage root raw start stop = .ok (true, storage')) :
    (∀ j, (storage j).cacheGuard = true → storage' j = storage j) ∧
      ∀ j : Nat, start ≤ j → (j : Int) < stop → (storage j).cacheGuard = false →
        (storage' j).Verified sha256 root cfg.instanceCount := by
  have hrange := accepted_inRange h
  obtain ⟨depth, rest, hslots⟩ := exists_validateSlots hrange h
  obtain ⟨hkeep, hverified⟩ := verified_of_accepted hslots
  refine ⟨hkeep, fun j h1 h2 => hverified j ?_ ?_⟩
  · omega
  · rw [OutOfRange] at hrange
    omega

end

/-- **A rejected call leaves no trace exactly if its bounds were wrong, and an accepted call leaves
verified shards in its range exactly if the slots that it skipped had them.** -/
theorem rejected_traceless_iff {sha256 : Bytes → HashString} {w : Wire} (hw : CarriesBare w)
    (ec : ErasureCode) (cfg : Config) (storage : Storage) (root : HashString) (raw : Bytes)
    (start stop : Int) :
    (∀ storage', validateRange sha256 w cfg storage root raw start stop = .ok (false, storage') →
      ((∀ later, outcomes sha256 w ec cfg storage' later = outcomes sha256 w ec cfg storage later) ↔
        OutOfRange cfg start stop)) ∧
    ∀ storage', validateRange sha256 w cfg storage root raw start stop = .ok (true, storage') →
      ((∀ i : Nat, start ≤ i → (i : Int) < stop →
          (storage' i).Verified sha256 root cfg.instanceCount) ↔
        ∀ i : Nat, start ≤ i → (i : Int) < stop → (storage i).cacheGuard = true →
          (storage i).Verified sha256 root cfg.instanceCount) := by
  constructor
  · intro storage' h
    constructor
    · intro hsame
      by_contra hrange
      obtain ⟨later, hne⟩ := outcomes_ne_of_rejected hw ec hrange h
      exact hne (hsame later)
    · intro hrange later
      rw [validateRange, if_pos hrange] at h
      cases h
      rfl
  · intro storage' h
    obtain ⟨hkeep, hverified⟩ := verified_of_validateRange h
    constructor
    · intro hall i h1 h2 hguard
      rw [← hkeep i hguard]
      exact hall i h1 h2
    · intro hall i h1 h2
      cases hguard : (storage i).cacheGuard with
      | true =>
        rw [hkeep i hguard]
        exact hall i h1 h2 hguard
      | false => exact hverified i h1 h2 hguard

theorem carriesBare_littleEndian : CarriesBare littleEndian where
  depth := littleEndian.carries_int64 (by norm_num)
  piece := ⟨littleEndian.carries_uint32 (by norm_num [barePiece]), length_putLE 4 0,
    littleEndian.carries_int64 (by norm_num [barePiece]),
    littleEndian.carries_string (by norm_num [barePiece])⟩

/-- The first shard of two, with wrong bounds and with right ones. -/
theorem rejected_traceless_two_shards :
    (∃ storage, validateRange lengthHash littleEndian ⟨2, 0, 1, 1⟩ Storage.empty twoShards.mt.root
        (slotBytes 0) (-1) 1 = .ok (false, storage) ∧
      ∀ later, outcomes lengthHash littleEndian (splitCode 2) ⟨2, 0, 1, 1⟩ storage later =
        outcomes lengthHash littleEndian (splitCode 2) ⟨2, 0, 1, 1⟩ Storage.empty later) ∧
    ∃ storage, validateRange lengthHash littleEndian ⟨2, 0, 1, 1⟩ Storage.empty twoShards.mt.root
        (slotBytes 0) 0 1 = .ok (true, storage) ∧
      (storage 0).Verified lengthHash twoShards.mt.root 1 := by
  have hiff := @rejected_traceless_iff lengthHash littleEndian carriesBare_littleEndian
    (splitCode 2) ⟨2, 0, 1, 1⟩ Storage.empty twoShards.mt.root (slotBytes 0)
  refine ⟨⟨_, rfl, ((hiff (-1) 1).1 _ rfl).mpr (by decide)⟩, _, rfl, ?_⟩
  refine ((hiff 0 1).2 _ rfl).mpr (fun i _ _ hguard => ?_) 0 (by decide) (by decide)
  cases hguard

/-- Nothing leads from the empty shard to the hash of a byte. -/
theorem not_verifies_empty (proof : Proof) :
    verify lengthHash (some (lengthHash [])) proof (lengthHash [1]) ≠ some true := by
  obtain ⟨siblings, path⟩ := proof
  simp only [verify, Option.map_some, ne_eq, Option.some.injEq, beq_iff_eq]
  rcases siblings.eq_nil_or_concat' with rfl | ⟨front, last, rfl⟩
  · rw [HashTree.climb]
    decide
  · -- the hash of a pair starts with the length of the pair
    have hpair : ∀ a b : HashString, hashFunc lengthHash a b ≠ lengthHash [1] := by
      intro a b heq
      have hhead := congrArg (fun h : HashString => h.bytes.head?) heq
      simp [hashFunc, lengthHash, a.size, b.size] at hhead
    rw [HashTree.climb_concat]
    split_ifs
    · exact hpair _ _
    · exact hpair _ _

set_option maxRecDepth 10000 in
/-- An empty shard is turned down, and is accepted when it is sent again. -/
theorem not_every_rejected_traceless :
    let root := lengthHash [1]
    let raw := bareRange littleEndian 1 0
    let cfg : Config := ⟨1, 1, 1, 1⟩
    let storage : Storage := update Storage.empty 0 ⟨true, [[]]⟩
    validateRange lengthHash littleEndian cfg Storage.empty root raw 0 1 = .ok (false, storage) ∧
      validateRange lengthHash littleEndian cfg storage root raw 0 1 = .ok (true, storage) ∧
      ¬ (storage 0).Verified lengthHash root 1 := by
  refine ⟨rfl, rfl, ?_⟩
  rintro ⟨pieces, hlen, hfragments, hall⟩
  obtain ⟨piece, rfl⟩ := List.length_eq_one_iff.mp hlen
  have hempty : piece.2 = [] := by simpa using hfragments.symm
  have hverify := hall piece List.mem_cons_self
  rw [hempty] at hverify
  exact not_verifies_empty piece.1 hverify

end MassBFT.Replication
