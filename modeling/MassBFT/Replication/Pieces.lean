import MassBFT.Replication.Legible

/-!
# What the validator does with a well-formed range

A range is well formed if it is a depth and then shards that write no more siblings than
the depth, the first one all of them (`Piece`, `WellFormed`). What is recalled on such bytes
is never short (`Whole`), so that every shard fits, and `parsePiece_bytes` is the one fact
about reading a shard that everything else uses.

**A well-formed range never faults**, whatever is stored already
(`validateSlots_wellFormed`). What it does to the slots is said for the two cases that
occur between honest parties: all slots are new (`validateSlots_fresh`), or none is
(`validateSlots_guarded`).
-/

set_option autoImplicit false

namespace MassBFT.Replication

open List

/-! ## Pieces -/

/-- A shard as it is written: the part of its proof that is not left out, and its bytes. -/
structure Piece where
  path : Nat
  own : List HashString
  fragment : Bytes

/-- The bytes of a piece. -/
def Piece.bytes (w : Wire) (p : Piece) : Bytes :=
  w.putUInt32 p.path ++ (w.putInt64 p.own.length ++
    (p.own.flatMap HashString.bytes ++ w.putString p.fragment))

/-- The format carries the scalars and the string of a piece, the path in four bytes. -/
structure Piece.Carried (w : Wire) (p : Piece) : Prop where
  path : Carries w.putUInt32 w.getUInt32 p.path
  width : (w.putUInt32 p.path).length = 4
  size : Carries w.putInt64 w.getInt64 (p.own.length : Int)
  fragment : Carries w.putString w.getString p.fragment

theorem length_completed {own : List HashString} {recalled : Option (List HashString)}
    {depth : Nat} (hown : own.length ≤ depth)
    (hrec : ∀ vec, recalled = some vec → vec.length = depth)
    (hfirst : recalled = none → own.length = depth) : (completed own recalled).length = depth := by
  cases recalled with
  | none => simp [completed, hfirst rfl]
  | some vec =>
    have hvec := hrec vec rfl
    simp only [completed, Option.getD_some, length_append, length_drop]
    omega

theorem carries_hash (h : HashString) : Carries HashString.bytes getHash h := by
  intro rest
  have hsize := h.size
  have htake : (h.bytes ++ rest).take 32 = h.bytes := by rw [← hsize, take_left]
  have hdrop : (h.bytes ++ rest).drop 32 = rest := by rw [← hsize, drop_left]
  have hlen : 32 ≤ (h.bytes ++ rest).length := by
    rw [length_append]
    omega
  rw [getHash, dif_pos hlen]
  simp only [htake, hdrop]

theorem Piece.Carried.isShard {w : Wire} {p : Piece} (hp : p.Carried w) (rest : Bytes) :
    ∃ bs, w.getUInt32 (p.bytes w ++ rest) = some (p.path, bs) ∧ 4 ≤ (p.bytes w ++ rest).length ∧
      (p.bytes w ++ rest).drop 4 = bs ∧ IsShard w bs p.own.length p.own p.fragment rest := by
  rw [Piece.bytes]
  simp only [append_assoc]
  refine ⟨_, hp.path _, ?_, ?_, _, _, hp.size _, ?_, hp.fragment rest⟩
  · rw [length_append, hp.width]
    omega
  · rw [← hp.width, drop_left]
  · exact getMany_flatMap (fun h _ => carries_hash h) _

/-! ## The cursor -/

/-- Nothing that is recalled is short. -/
structure Recall.Whole (depth : Nat) (r : Recall) : Prop where
  length_cache : r.cache.length = depth
  length_proof : ∀ proof, r.proof = some proof → proof.length = depth

section

variable {depth : Nat} {r : Recall}

theorem Recall.Whole.recalled_eq (hr : r.Whole depth) :
    r.recalled depth = if r.skipped then some r.cache else r.proof := by
  rw [recalled]
  cases hproof : r.proof with
  | none => rfl
  | some proof => rw [Option.map_some, take_of_length_le (hr.length_proof proof hproof).le]

theorem Recall.Whole.base_eq (hr : r.Whole depth) : r.base depth = r.proof.getD r.cache := by
  rw [base]
  cases hproof : r.proof with
  | none => rfl
  | some proof => rw [Option.map_some, take_of_length_le (hr.length_proof proof hproof).le]

theorem Recall.Whole.length_recalled (hr : r.Whole depth) {vec : List HashString}
    (h : r.recalled depth = some vec) : vec.length = depth := by
  rw [hr.recalled_eq] at h
  split_ifs at h
  · cases h
    exact hr.length_cache
  · exact hr.length_proof vec h

theorem Recall.Whole.length_base (hr : r.Whole depth) : (r.base depth).length = depth := by
  rw [hr.base_eq]
  cases hproof : r.proof with
  | none => exact hr.length_cache
  | some proof => exact hr.length_proof proof hproof

theorem Recall.Whole.after (hr : r.Whole depth) {own : List HashString} (hown : own.length ≤ depth)
    (hfirst : r.recalled depth = none → own.length = depth) : (r.after depth own).Whole depth := by
  refine ⟨hr.length_cache, ?_⟩
  rintro _ ⟨⟩
  exact length_completed hown (fun _ => hr.length_recalled) hfirst

end

/-- The cursor holds what is recalled, and that is not short. -/
structure Cursor.Reads (depth : Nat) (c : Cursor) (r : Recall) : Prop
    extends c.Mirrors r, r.Whole depth

/-- The same in a slot, `k` shards of which have been read. -/
structure SlotCursor.Reads (depth inst slot k : Nat) (s : SlotCursor) (r : Recall) : Prop
    extends r.Whole depth where
  mirrors : ∃ used, used ≤ k * depth ∧ s.Mirrors depth inst slot k r used

theorem Cursor.Reads.newSlot {depth : Nat} {c : Cursor} {r : Recall} (hc : c.Reads depth r)
    (inst i : Nat) : SlotCursor.Reads depth inst i 0 ⟨c, 0, inst * depth⟩ r :=
  ⟨hc.toWhole, 0, Nat.zero_le _, hc.toMirrors.newSlot depth inst i⟩

theorem SlotCursor.Reads.cursor {depth inst slot k : Nat} {s : SlotCursor} {r : Recall}
    (hs : s.Reads depth inst slot k r) : s.cursor.Reads depth r := by
  obtain ⟨used, -, hm⟩ := hs.mirrors
  exact ⟨hm.toMirrors, hs.toWhole⟩

/-- Reading a piece gives its path, the completed proof and the fragment, and the next
proof is completed from this one. -/
theorem parsePiece_bytes {w : Wire} {depth inst slot k : Nat} {s : SlotCursor} {r : Recall}
    (hs : s.Reads depth inst slot k r) (hk : k < inst) {p : Piece} (hp : p.Carried w)
    (hown : p.own.length ≤ depth) (hfirst : r.recalled depth = none → p.own.length = depth)
    {rest : Bytes} (hrest : s.cursor.rest = p.bytes w ++ rest) :
    ∃ t : SlotCursor, parsePiece w depth slot s =
        .ok (t, ⟨completed p.own (r.recalled depth), p.path⟩, p.fragment) ∧
      t.Reads depth inst slot (k + 1) (r.after depth p.own) ∧ t.cursor.rest = rest := by
  obtain ⟨used, hused, hm⟩ := hs.mirrors
  obtain ⟨bs, hpath, -, -, hshard⟩ := hp.isShard rest
  have hshare : (k + 1) * depth ≤ inst * depth := Nat.mul_le_mul_right depth hk
  have hsucc := Nat.add_one_mul k depth
  have hfits : r.Fits depth inst used p.own.length := by
    rw [Recall.Fits]
    split_ifs
    · rwa [hs.length_cache]
    · intro _ proof hproof
      exact ⟨(hs.length_proof proof hproof).ge, by omega⟩
  rw [← hrest] at hpath
  refine ⟨_, (hm.parsePiece_iff hk).mpr ⟨_, _, _, _, rest, hpath, hshard, Int.natCast_nonneg _,
    hfits, rfl, rfl⟩, ⟨hs.toWhole.after hown hfirst, _, ?_, hm.next p.own rest⟩, rfl⟩
  rw [Recall.used]
  split_ifs
  · omega
  · omega

/-! ## Ranges -/

/-- The bytes of `n` pieces, from index `first` on. -/
def piecesBytes (w : Wire) (f : Nat → Piece) (first n : Nat) : Bytes :=
  (List.range' first n).flatMap fun i => (f i).bytes w

theorem piecesBytes_succ (w : Wire) (f : Nat → Piece) (first n : Nat) :
    piecesBytes w f first (n + 1) = (f first).bytes w ++ piecesBytes w f (first + 1) n := by
  rw [piecesBytes, List.range'_succ, flatMap_cons, piecesBytes]

theorem piecesBytes_slot (w : Wire) (f : Nat → Piece) (inst i n : Nat) :
    piecesBytes w f (i * inst) ((n + 1) * inst) =
      piecesBytes w f (i * inst) inst ++ piecesBytes w f ((i + 1) * inst) (n * inst) := by
  rw [piecesBytes, piecesBytes, piecesBytes, ← flatMap_append, Nat.add_one_mul i,
    List.range'_append_1, Nat.add_one_mul n, Nat.add_comm inst]

/-- Pieces that write no more siblings than the depth. -/
structure WellFormed (w : Wire) (f : Nat → Piece) (depth first n : Nat) : Prop where
  carried : ∀ i, first ≤ i → i < first + n → (f i).Carried w
  own_le : ∀ i, first ≤ i → i < first + n → (f i).own.length ≤ depth

theorem WellFormed.mono {w : Wire} {f : Nat → Piece} {depth first n first' n' : Nat}
    (h : WellFormed w f depth first n) (hfirst : first ≤ first')
    (hlast : first' + n' ≤ first + n) : WellFormed w f depth first' n' where
  carried i h1 h2 := h.carried i (by omega) (by omega)
  own_le i h1 h2 := h.own_le i (by omega) (by omega)

section

variable {sha256 : Bytes → HashString} {w : Wire} {f : Nat → Piece} {root : HashString}
  {depth : Nat} {c : Cursor} {rest : Bytes} {r : Recall} {s : SlotCursor}

theorem WellFormed.slot {inst i n : Nat} (h : WellFormed w f depth (i * inst) ((n + 1) * inst)) :
    WellFormed w f depth (i * inst) inst ∧ WellFormed w f depth ((i + 1) * inst) (n * inst) := by
  have h1 := Nat.add_one_mul i inst
  have h2 := Nat.add_one_mul n inst
  exact ⟨h.mono (le_refl _) (by omega), h.mono (by omega) (by omega)⟩

/-- What is remembered once the siblings of `n` pieces have been written over `cache`. -/
def overwritten (f : Nat → Piece) : Nat → Nat → List HashString → List HashString
  | _, 0, cache => cache
  | first, n + 1, cache => overwritten f (first + 1) n (completed (f first).own (some cache))

theorem length_overwritten {n first : Nat} (hf : WellFormed w f depth first n)
    {cache : List HashString} (hcache : cache.length = depth) :
    (overwritten f first n cache).length = depth := by
  induction n generalizing first cache with
  | zero => exact hcache
  | succ n ih =>
    refine ih (hf.mono (by omega) (by omega)) ?_
    refine length_completed (hf.own_le first (le_refl _) (by omega)) ?_ (by simp)
    rintro _ ⟨⟩
    exact hcache

theorem skipPieces_bytes {n first : Nat} (hf : WellFormed w f depth first n)
    {cache : List HashString} (hcache : cache.length = depth) (rest : Bytes) :
    skipPieces w n cache (piecesBytes w f first n ++ rest) =
      .ok (overwritten f first n cache, rest) := by
  induction n generalizing first cache with
  | zero => rfl
  | succ n ih =>
    have ho := hf.own_le first (le_refl _) (by omega)
    have hlen : (completed (f first).own (some cache)).length = depth :=
      length_overwritten (hf.mono (le_refl _) (by omega) : WellFormed w f depth first 1) hcache
    obtain ⟨bs, -, hfour, hdrop, hshard⟩ := (hf.carried first (le_refl _) (by omega)).isShard
      (piecesBytes w f (first + 1) n ++ rest)
    rw [← hdrop] at hshard
    rw [piecesBytes_succ, append_assoc]
    exact skipPieces_succ.mpr ⟨hfour, _, _, _, _, hshard, by omega,
      ih (hf.mono (by omega) (by omega)) hlen⟩

/-- Skipping a guarded slot loses no pointer; its siblings are written over the base. -/
theorem skipSlot_bytes {inst first : Nat} (hf : WellFormed w f depth first inst)
    (hc : c.Reads depth r) (hrest : c.rest = piecesBytes w f first inst ++ rest) :
    ∃ c', skipSlot w depth inst c = .ok c' ∧ c'.rest = rest ∧
      c'.Reads depth ⟨r.proof, overwritten f first inst (r.base depth), true⟩ := by
  have hskip := skipPieces_bytes hf hc.length_base rest
  rw [← hrest] at hskip
  exact ⟨_, hc.skipSlot_ok_iff.mpr ⟨fun proof hproof => (hc.length_proof proof hproof).ge, _, _,
    hskip, rfl⟩, rfl, hc.skip _ _, length_overwritten hf hc.length_base, hc.length_proof⟩

theorem readPieces_wellFormed {inst slot k n first : Nat} (hf : WellFormed w f depth first n)
    (hs : s.Reads depth inst slot k r) (hk : k + n ≤ inst)
    (hfirst : r.recalled depth = none → 0 < n → (f first).own.length = depth)
    (hrest : s.cursor.rest = piecesBytes w f first n ++ rest) :
    ∃ c fragments, readPieces sha256 w root depth slot n s = .ok (c, fragments) ∧
      (∀ x ∈ fragments, x = [] ∨ ∃ i, first ≤ i ∧ i < first + n ∧ x = (f i).fragment) ∧
      ∀ c', c = some c' → c'.rest = rest ∧ ∃ r', c'.Reads depth r' ∧
        (r'.recalled depth = none → n = 0 ∧ r.recalled depth = none) := by
  induction n generalizing first s r k with
  | zero =>
    refine ⟨_, _, rfl, by simp, ?_⟩
    rintro _ ⟨⟩
    exact ⟨hrest, r, hs.cursor, fun h => ⟨rfl, h⟩⟩
  | succ n ih =>
    rw [piecesBytes_succ, append_assoc] at hrest
    obtain ⟨t, hparse, ht, htrest⟩ := parsePiece_bytes hs (by omega)
      (hf.carried first (le_refl _) (by omega)) (hf.own_le first (le_refl _) (by omega))
      (fun h => hfirst h (by omega)) hrest
    rw [readPieces, hparse]
    dsimp only
    split_ifs with hver
    · obtain ⟨c, fragments, hread, hmem, hc⟩ := ih (hf.mono (by omega) (by omega)) ht (by omega)
        (fun h => absurd h (by rw [ht.recalled_eq]; exact Option.some_ne_none _)) htrest
      refine ⟨c, (f first).fragment :: fragments, by rw [hread], ?_, ?_⟩
      · intro x hx
        rcases mem_cons.mp hx with rfl | hx
        · exact .inr ⟨first, le_refl _, by omega, rfl⟩
        · rcases hmem x hx with h | ⟨i, h1, h2, h3⟩
          · exact .inl h
          · exact .inr ⟨i, by omega, by omega, h3⟩
      · intro c' hc'
        obtain ⟨hrest', r', hr', hnone⟩ := hc c' hc'
        refine ⟨hrest', r', hr', fun h => ?_⟩
        have hafter := (hnone h).2
        rw [ht.recalled_eq] at hafter
        cases hafter
    · refine ⟨none, _, rfl, ?_, by simp⟩
      intro x hx
      exact .inl (eq_of_mem_replicate hx)

/-- What the loop over the slots can do with the first of them: skip it, turn it down, or store it
and go on. -/
theorem validateSlots_succ {inst n i : Nat} {storage storage' : Storage} {answer : Bool}
    (h : validateSlots sha256 w root depth inst (n + 1) i c storage = .ok (answer, storage')) :
    ((storage i).cacheGuard = true ∧ ∃ c',
      validateSlots sha256 w root depth inst n (i + 1) c' storage = .ok (answer, storage')) ∨
    (storage i).cacheGuard = false ∧ ∃ c' fragments,
      readPieces sha256 w root depth i inst ⟨c, 0, inst * depth⟩ = .ok (c', fragments) ∧
      ((c' = none ∧ answer = false ∧ storage' = Function.update storage i ⟨true, fragments⟩) ∨
        ∃ c₁, c' = some c₁ ∧ validateSlots sha256 w root depth inst n (i + 1) c₁
          (Function.update storage i ⟨true, fragments⟩) = .ok (answer, storage')) := by
  rw [validateSlots] at h
  split_ifs at h with hguard
  · refine .inl ⟨hguard, ?_⟩
    cases hskip : skipSlot w depth inst c with
    | error e => rw [hskip] at h; cases h
    | ok c' =>
      rw [hskip] at h
      exact ⟨c', h⟩
  · refine .inr ⟨by simpa using hguard, ?_⟩
    cases hread : readPieces sha256 w root depth i inst ⟨c, 0, inst * depth⟩ with
    | error e => rw [hread] at h; cases h
    | ok t =>
      obtain ⟨c', fragments⟩ := t
      rw [hread] at h
      cases c' with
      | none =>
        cases h
        exact ⟨none, fragments, rfl, .inl ⟨rfl, rfl, rfl⟩⟩
      | some c' => exact ⟨some c', fragments, rfl, .inr ⟨c', rfl, h⟩⟩

/-- What is stored was stored before, is empty, or is a fragment of the range. -/
def StoredFrom (f : Nat → Piece) (first stop : Nat) (storage storage' : Storage) : Prop :=
  ∀ j, ∀ x ∈ (storage' j).encodeFragment, x ∈ (storage j).encodeFragment ∨ x = [] ∨
    ∃ q, first ≤ q ∧ q < stop ∧ x = (f q).fragment

section

variable {P : Bytes → Prop} {storage storage' storage'' : Storage}

theorem stored_trans
    (h : ∀ j, ∀ x ∈ (storage' j).encodeFragment, x ∈ (storage j).encodeFragment ∨ P x)
    (h' : ∀ j, ∀ x ∈ (storage'' j).encodeFragment, x ∈ (storage' j).encodeFragment ∨ P x) :
    ∀ j, ∀ x ∈ (storage'' j).encodeFragment, x ∈ (storage j).encodeFragment ∨ P x := by
  intro j x hx
  rcases h' j x hx with hold | hnew
  · exact h j x hold
  · exact .inr hnew

theorem stored_update {i : Nat} {fragments : List Bytes} (h : ∀ x ∈ fragments, P x) (j : Nat) :
    ∀ x ∈ (Function.update storage i ⟨true, fragments⟩ j).encodeFragment,
      x ∈ (storage j).encodeFragment ∨ P x := by
  intro x hx
  by_cases hj : j = i
  · subst hj
    rw [Function.update_self] at hx
    exact .inr (h x hx)
  · rw [Function.update_of_ne hj] at hx
    exact .inl hx

end

theorem StoredFrom.mono {first stop first' stop' : Nat} {storage storage' : Storage}
    (h : StoredFrom f first stop storage storage') (hfirst : first' ≤ first)
    (hstop : stop ≤ stop') : StoredFrom f first' stop' storage storage' := by
  intro j x hx
  rcases h j x hx with hold | hempty | ⟨q, hge, hlt, heq⟩
  · exact .inl hold
  · exact .inr (.inl hempty)
  · exact .inr (.inr ⟨q, hfirst.trans hge, hlt.trans_le hstop, heq⟩)

theorem StoredFrom.trans {first stop : Nat} {storage storage' storage'' : Storage}
    (h : StoredFrom f first stop storage storage')
    (h' : StoredFrom f first stop storage' storage'') :
    StoredFrom f first stop storage storage'' :=
  stored_trans h h'

theorem storedFrom_update {first stop i : Nat} {storage : Storage} {fragments : List Bytes}
    (hfrag : ∀ x ∈ fragments, x = [] ∨ ∃ q, first ≤ q ∧ q < stop ∧ x = (f q).fragment) :
    StoredFrom f first stop storage (Function.update storage i ⟨true, fragments⟩) :=
  stored_update hfrag

/-- **A well-formed range never faults**, and what is stored afterwards was stored before or
comes from it. -/
theorem validateSlots_wellFormed {inst n i : Nat} (hinst : 0 < inst)
    (hf : WellFormed w f depth (i * inst) (n * inst)) (hc : c.Reads depth r)
    (hfirst : r.recalled depth = none → 0 < n → (f (i * inst)).own.length = depth)
    (hrest : c.rest = piecesBytes w f (i * inst) (n * inst) ++ rest) (storage : Storage) :
    ∃ b storage', validateSlots sha256 w root depth inst n i c storage = .ok (b, storage') ∧
      (∀ j, (storage j).cacheGuard = true → storage' j = storage j) ∧
      StoredFrom f (i * inst) (i * inst + n * inst) storage storage' := by
  induction n generalizing i c r storage with
  | zero => exact ⟨_, _, rfl, fun _ _ => rfl, fun _ _ hx => .inl hx⟩
  | succ n ih =>
    obtain ⟨hslot, hnext⟩ := hf.slot
    rw [piecesBytes_slot, append_assoc] at hrest
    have h1 := Nat.add_one_mul i inst
    have h2 := Nat.add_one_mul n inst
    rw [validateSlots]
    split_ifs with hguard
    · obtain ⟨c', hskip, hrest', hc'⟩ := skipSlot_bytes hslot hc hrest
      rw [hskip]
      obtain ⟨b, storage', hval, hkeep, hmem⟩ := ih hnext hc' (by rintro ⟨⟩) hrest' storage
      exact ⟨b, storage', hval, hkeep, hmem.mono (by omega) (by omega)⟩
    · obtain ⟨c', fragments, hread, hfrag, hc'⟩ := @readPieces_wellFormed sha256 w f root depth _ r
        _ inst i 0 inst (i * inst) hslot (hc.newSlot inst i) (Nat.zero_add inst).le
        (fun h _ => hfirst h (by omega)) hrest
      have hupd : StoredFrom f (i * inst) (i * inst + (n + 1) * inst) storage
          (Function.update storage i ⟨true, fragments⟩) :=
        (storedFrom_update hfrag).mono (le_refl _) (by omega)
      have hold : ∀ j, (storage j).cacheGuard = true →
          Function.update storage i ⟨true, fragments⟩ j = storage j := by
        intro j hj
        have hne : j ≠ i := by
          rintro rfl
          exact hguard hj
        exact Function.update_of_ne hne _ _
      rw [hread]
      cases c' with
      | none => exact ⟨_, _, rfl, hold, hupd⟩
      | some c' =>
        obtain ⟨hrest', r', hr', hnone⟩ := hc' c' rfl
        obtain ⟨b, storage', hval, hkeep, hmem⟩ := ih hnext hr'
          (fun h => absurd (hnone h).1 (by omega)) hrest'
          (Function.update storage i ⟨true, fragments⟩)
        refine ⟨b, storage', hval, fun j hj => ?_, ?_⟩
        · rw [hkeep j (by rw [hold j hj]; exact hj), hold j hj]
        · exact hupd.trans (hmem.mono (by omega) (by omega))

/-- If every slot of the range is guarded, nothing changes. -/
theorem validateSlots_guarded {inst n i : Nat} (hf : WellFormed w f depth (i * inst) (n * inst))
    (hc : c.Reads depth r)
    (hrest : c.rest = piecesBytes w f (i * inst) (n * inst) ++ rest) {storage : Storage}
    (hguard : ∀ j, i ≤ j → j < i + n → (storage j).cacheGuard = true) :
    validateSlots sha256 w root depth inst n i c storage = .ok (true, storage) := by
  induction n generalizing i c r with
  | zero => rfl
  | succ n ih =>
    obtain ⟨hslot, hnext⟩ := hf.slot
    rw [piecesBytes_slot, append_assoc] at hrest
    obtain ⟨c', hskip, hrest', hc'⟩ := skipSlot_bytes hslot hc hrest
    rw [validateSlots, if_pos (hguard i (le_refl _) (by omega)), hskip]
    exact ih hnext hc' hrest' (fun j h1 h2 => hguard j (by omega) (by omega))

/-- What piece `i` of a range that starts with piece `first` is completed from. -/
def recalledAt (proof : Nat → List HashString) (first i : Nat) : Option (List HashString) :=
  if i = first then none else some (proof (i - 1))

theorem recalledAt_succ (proof : Nat → List HashString) {first i : Nat} (h : first ≤ i) :
    recalledAt proof first (i + 1) = some (proof i) := by
  rw [recalledAt, if_neg (by omega), Nat.add_sub_cancel]

/-- The pieces complete to proofs that lead to the root. -/
structure Proven (sha256 : Bytes → HashString) (f : Nat → Piece) (root : HashString)
    (proof : Nat → List HashString) (first i : Nat) : Prop where
  completed_eq : completed (f i).own (recalledAt proof first i) = proof i
  verified : verify sha256 (some (sha256 (f i).fragment)) ⟨proof i, (f i).path⟩ root = some true

variable {proof : Nat → List HashString}

/-- The pieces of a slot are stored if the first one is completed right. -/
theorem readPieces_completed {inst slot k n p first : Nat} (hn : 0 < n) (hp : first ≤ p)
    (hf : WellFormed w f depth p n)
    (hproven : ∀ i, p ≤ i → i < p + n → Proven sha256 f root proof first i)
    (hs : s.Reads depth inst slot k r) (hk : k + n ≤ inst)
    (hright : completed (f p).own (r.recalled depth) = proof p)
    (hfull : r.recalled depth = none → (f p).own.length = depth)
    (hrest : s.cursor.rest = piecesBytes w f p n ++ rest) :
    ∃ c : Cursor, readPieces sha256 w root depth slot n s =
        .ok (some c, (List.range' p n).map fun i => (f i).fragment) ∧
      c.rest = rest ∧ c.Reads depth ⟨some (proof (p + n - 1)), r.cache, false⟩ := by
  induction n, hn using Nat.le_induction generalizing p s r k with
  | base =>
    rw [piecesBytes_succ, append_assoc] at hrest
    obtain ⟨t, hparse, ht, htrest⟩ := parsePiece_bytes hs (by omega)
      (hf.carried p (le_refl _) (by omega)) (hf.own_le p (le_refl _) (by omega)) hfull hrest
    rw [Recall.after, hright] at ht
    rw [hright] at hparse
    refine ⟨t.cursor, ?_, htrest, ht.cursor⟩
    rw [readPieces, hparse]
    dsimp only
    rw [if_pos (hproven p (le_refl _) (by omega)).verified]
    rfl
  | succ n hn ih =>
    rw [piecesBytes_succ, append_assoc] at hrest
    obtain ⟨t, hparse, ht, htrest⟩ := parsePiece_bytes hs (by omega)
      (hf.carried p (le_refl _) (by omega)) (hf.own_le p (le_refl _) (by omega)) hfull hrest
    rw [Recall.after, hright] at ht
    rw [hright] at hparse
    have hnext := (hproven (p + 1) (by omega) (by omega)).completed_eq
    rw [recalledAt_succ proof hp] at hnext
    obtain ⟨c, hread, hcrest, hc⟩ := ih (p := p + 1) (by omega) (hf.mono (by omega) (by omega))
      (fun i h1 h2 => hproven i (by omega) (by omega)) ht (by omega)
      (by rw [ht.recalled_eq]; exact hnext) (by rw [ht.recalled_eq]; rintro ⟨⟩) htrest
    refine ⟨c, ?_, hcrest, by rwa [Nat.add_right_comm] at hc⟩
    rw [readPieces, hparse]
    dsimp only
    rw [if_pos (hproven p (le_refl _) (by omega)).verified, hread, @List.range'_succ p, map_cons]

/-- A slot is turned down at its first piece if that does not verify. -/
theorem readPieces_refused {inst slot n p : Nat} (hn : 0 < n) (hf : WellFormed w f depth p n)
    (hs : s.Reads depth inst slot 0 r) (hk : n ≤ inst)
    (hfull : r.recalled depth = none → (f p).own.length = depth)
    (hrest : s.cursor.rest = piecesBytes w f p n ++ rest)
    (hverify : verify sha256 (some (sha256 (f p).fragment))
      ⟨completed (f p).own (r.recalled depth), (f p).path⟩ root ≠ some true) :
    readPieces sha256 w root depth slot n s = .ok (none, List.replicate n []) := by
  obtain ⟨n, rfl⟩ : ∃ k, n = k + 1 := ⟨n - 1, by omega⟩
  rw [piecesBytes_succ, append_assoc] at hrest
  obtain ⟨t, hparse, -⟩ := parsePiece_bytes hs (by omega)
    (hf.carried p (le_refl _) (by omega)) (hf.own_le p (le_refl _) (by omega)) hfull hrest
  rw [readPieces, hparse]
  exact if_neg hverify

theorem readPieces_proven {inst slot n p first : Nat} (hp : first ≤ p)
    (hf : WellFormed w f depth p n)
    (hproven : ∀ i, p ≤ i → i < p + n → Proven sha256 f root proof first i)
    (hfirst : (f first).own.length = depth) (hs : s.Reads depth inst slot 0 r) (hk : n ≤ inst)
    (hrec : r.recalled depth = recalledAt proof first p)
    (hrest : s.cursor.rest = piecesBytes w f p n ++ rest) :
    ∃ c r', readPieces sha256 w root depth slot n s =
        .ok (some c, (List.range' p n).map fun i => (f i).fragment) ∧
      c.rest = rest ∧ c.Reads depth r' ∧ r'.recalled depth = recalledAt proof first (p + n) := by
  rcases Nat.eq_zero_or_pos n with rfl | hn
  · exact ⟨s.cursor, r, rfl, hrest, hs.cursor, hrec⟩
  · have hright := (hproven p (le_refl _) (by omega)).completed_eq
    rw [← hrec] at hright
    have hfull : r.recalled depth = none → (f p).own.length = depth := by
      intro h
      by_cases hpf : p = first
      · rw [hpf, hfirst]
      · rw [hrec, recalledAt, if_neg hpf] at h
        cases h
    obtain ⟨c, hread, hcrest, hc⟩ :=
      readPieces_completed hn hp hf hproven hs (by omega) hright hfull hrest
    refine ⟨c, _, hread, hcrest, hc, ?_⟩
    rw [hc.recalled_eq, recalledAt, if_neg (by omega : p + n ≠ first)]
    rfl

/-- What slots `i` to `i + n - 1` hold once pieces `f` have been stored there. -/
def Storage.fill (storage : Storage) (f : Nat → Piece) (inst i n : Nat) : Storage := fun j =>
  if i ≤ j ∧ j < i + n then ⟨true, (List.range' (j * inst) inst).map fun q => (f q).fragment⟩
  else storage j

theorem Storage.fill_succ (storage : Storage) (f : Nat → Piece) (inst i n : Nat) :
    fill (Function.update storage i ⟨true, (List.range' (i * inst) inst).map
      fun q => (f q).fragment⟩) f inst (i + 1) n = fill storage f inst i (n + 1) := by
  funext j
  rw [fill, fill]
  by_cases hj : j = i
  · subst hj
    rw [if_neg (by omega), if_pos (by omega), Function.update_self]
  · rw [Function.update_of_ne hj]
    split_ifs with h1 h2 h2
    · rfl
    · omega
    · omega
    · rfl

/-- **If every slot of the range is new and every piece is proven, all pieces are stored.** -/
theorem validateSlots_fresh {inst n i first : Nat} (hi : first ≤ i * inst)
    (hf : WellFormed w f depth (i * inst) (n * inst))
    (hproven : ∀ q, i * inst ≤ q → q < i * inst + n * inst → Proven sha256 f root proof first q)
    (hfirst : (f first).own.length = depth) (hc : c.Reads depth r)
    (hrec : r.recalled depth = recalledAt proof first (i * inst))
    (hrest : c.rest = piecesBytes w f (i * inst) (n * inst) ++ rest) {storage : Storage}
    (hguard : ∀ j, i ≤ j → j < i + n → (storage j).cacheGuard = false) :
    validateSlots sha256 w root depth inst n i c storage = .ok (true, storage.fill f inst i n) := by
  induction n generalizing i c r storage with
  | zero =>
    have hnone : storage.fill f inst i 0 = storage := by
      funext j
      rw [Storage.fill, if_neg (by omega)]
    rw [validateSlots, hnone]
  | succ n ih =>
    obtain ⟨hslot, hnext⟩ := hf.slot
    rw [piecesBytes_slot, append_assoc] at hrest
    have h1 := Nat.add_one_mul i inst
    have h2 := Nat.add_one_mul n inst
    obtain ⟨c', r', hread, hrest', hc', hrec'⟩ := @readPieces_proven sha256 w f root depth _ r _
      proof inst i inst (i * inst) first hi hslot (fun q hq1 hq2 => hproven q hq1 (by omega)) hfirst
      (hc.newSlot inst i) (le_refl _) hrec hrest
    rw [validateSlots, if_neg (by rw [hguard i (le_refl _) (by omega)]; simp), hread]
    dsimp only
    rw [← h1] at hrec'
    rw [ih (by omega) hnext (fun q hq1 hq2 => hproven q (by omega) (by omega)) hc' hrec' hrest',
      Storage.fill_succ]
    intro j hj1 hj2
    rw [Function.update_of_ne (by omega)]
    exact hguard j (by omega) (by omega)

end

end MassBFT.Replication
