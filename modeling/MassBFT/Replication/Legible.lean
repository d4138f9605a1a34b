import MassBFT.Replication.Generator

/-!
# Which ranges can be read

The validator keeps a proof as a vector of pointers into caches that may move, and it trusts the
size fields that it is sent. **Whether it faults is still a matter of the bytes alone**, of the
slots that are filled, and of the shards that verify (`Legible`): every shard is whole, and one
that leaves siblings out follows a proof that has them. Nothing is asked of what stands behind
the first shard that does not verify, since it is never read.

`Mirrors` ties the cursor to what such a condition has to remember (`Recall`). From here on
nothing looks at a pointer: `parsePiece_iff` and `skipSlot_ok_iff` say exactly what is read, and
`validate_ok_iff` that the condition is exact.
-/

set_option autoImplicit false

namespace MassBFT.Replication

open List

/-! ## The condition -/

/-- A proof, from the siblings that were written and those that are recalled. -/
def completed (own : List HashString) (recalled : Option (List HashString)) : List HashString :=
  own ++ (recalled.getD []).drop own.length

/-- What the siblings that a shard leaves out are taken from. -/
structure Recall where
  /-- The proof of the last shard that was read. -/
  proof : Option (List HashString)
  /-- What the skipped slots have left. -/
  cache : List HashString
  /-- The slot in front was skipped. -/
  skipped : Bool

namespace Recall

/-- A shard may write `size` digests. Behind a skipped slot they are written over what that has
left. Elsewhere siblings may be left out only if the proof before has them, and if the `used`
digests of the slot need not move. -/
def Fits (depth inst used : Nat) (r : Recall) (size : Nat) : Prop :=
  if r.skipped then size ≤ r.cache.length
  else size < depth → ∀ proof, r.proof = some proof →
    depth ≤ proof.length ∧ (size = 0 ∨ used + size ≤ inst * depth)

/-- The digests that complete the next proof. -/
def recalled (depth : Nat) (r : Recall) : Option (List HashString) :=
  if r.skipped then some r.cache else r.proof.map (List.take depth)

/-- How many digests the slot keeps after such a shard. -/
def used (depth before : Nat) (r : Recall) (own : List HashString) : Nat :=
  if r.skipped then depth else before + own.length

/-- In front of a range. -/
def first (depth : Nat) : Recall := ⟨none, List.replicate depth default, false⟩

def after (depth : Nat) (r : Recall) (own : List HashString) : Recall :=
  ⟨some (completed own (r.recalled depth)), r.cache, false⟩

/-- What the digests of a skipped slot are written over. -/
def base (depth : Nat) (r : Recall) : List HashString :=
  (r.proof.map (List.take depth)).getD r.cache

end Recall

/-- The bytes are a size field, as many digests, the data of a shard, and `rest`. -/
def IsShard (w : Wire) (bs : Bytes) (size : Int) (own : List HashString) (fragment rest : Bytes) :
    Prop :=
  ∃ bs₁ bs₂, w.getInt64 bs = some (size, bs₁) ∧ getMany getHash size.toNat bs₁ = some (own, bs₂) ∧
    w.getString bs₂ = some (fragment, rest)

section

variable (sha256 : Bytes → HashString) (w : Wire) (root : HashString) (depth inst : Nat)

end

/-- The cursor holds what is recalled, and no pointer of the last proof is lost. -/
structure Cursor.Mirrors (c : Cursor) (r : Recall) : Prop where
  proof : c.previousProof.map (List.map Sibling.value) = r.proof.map (List.map some)
  cache : c.cacheWhenGuard = r.cache
  skipped : c.cacheWhenGuardFlag = r.skipped

/-- The same with the cache of the slot, `k` shards of which have been read. A slot that keeps
more than its share has had a shard with a whole proof, and all pointers since lead into it. -/
structure SlotCursor.Mirrors (depth inst slot k : Nat) (s : SlotCursor) (r : Recall) (used : Nat) :
    Prop extends s.cursor.Mirrors r where
  size : s.cacheSize = used
  capacity : s.capacity = max (inst * depth) used
  fresh : r.skipped = true → used = 0
  owned : k * depth < used → ∀ siblings, s.cursor.previousProof = some siblings →
    ∀ x ∈ siblings, x.owner = slot

section

variable {sha256 : Bytes → HashString} {w : Wire} {root : HashString} {depth inst slot k used : Nat}
  {c : Cursor} {s : SlotCursor} {r : Recall} {cache : List HashString}

theorem readInto_ok_iff {n j : Nat} {cache cache' : List HashString} {bs rest : Bytes}
    (hj : j ≤ cache.length) :
    readInto n j cache bs = .ok (cache', rest) ↔ j + n ≤ cache.length ∧
      ∃ own, getMany getHash n bs = some (own, rest) ∧
        cache' = cache.take j ++ (own ++ cache.drop (j + n)) := by
  induction n generalizing j cache bs with
  | zero => simp [readInto, getMany, hj, and_comm, eq_comm]
  | succ n ih =>
    rw [readInto, getMany]
    split_ifs with hlen
    · refine iff_of_false (by simp) fun h => ?_
      omega
    · cases getHash bs with
      | none => simp
      | some t =>
        obtain ⟨h, bs'⟩ := t
        have hlt := not_le.mp hlen
        have htake : (cache.set j h).take (j + 1) = cache.take j ++ [h] := by
          rw [take_add_one, take_set_of_le (Nat.le_refl j)]
          simp [hlt]
        dsimp only
        rw [ih (by rwa [length_set]), length_set, htake, drop_set_of_lt (by omega),
          Nat.add_assoc, Nat.add_comm 1 n]
        refine and_congr_right fun _ => ?_
        cases getMany getHash n bs' with
        | none => simp
        | some t =>
          obtain ⟨own, bs''⟩ := t
          simp [and_comm, and_assoc]

/-- The digests are written over the front of the cache. -/
theorem readInto_front_iff {n : Nat} {cache cache' : List HashString} {bs rest : Bytes} :
    readInto n 0 cache bs = .ok (cache', rest) ↔ ∃ own, getMany getHash n bs = some (own, rest) ∧
      own.length ≤ cache.length ∧ cache' = own ++ cache.drop own.length := by
  rw [readInto_ok_iff (Nat.zero_le _), Nat.zero_add, and_comm, ← exists_and_right]
  refine exists_congr fun own => ?_
  rw [and_assoc]
  refine and_congr_right fun hown => ?_
  rw [length_getMany hown, and_comm]
  rfl

theorem skipPieces_succ {n : Nat} {bs : Bytes} {out : List HashString × Bytes} :
    skipPieces w (n + 1) cache bs = .ok out ↔ 4 ≤ bs.length ∧ ∃ size own fragment rest,
      IsShard w (bs.drop 4) size own fragment rest ∧ own.length ≤ cache.length ∧
      skipPieces w n (own ++ cache.drop own.length) rest = .ok out := by
  rw [skipPieces]
  constructor
  · intro h
    split_ifs at h with hlen
    refine ⟨not_lt.mp hlen, ?_⟩
    split at h
    · cases h
    rename_i size bs₁ hsize
    split at h
    · cases h
    rename_i cache' bs₂ hread
    split at h
    · cases h
    rename_i fragment rest hfragment
    obtain ⟨own, hown, hle, rfl⟩ := readInto_front_iff.mp hread
    exact ⟨size, own, fragment, rest, ⟨bs₁, bs₂, hsize, hown, hfragment⟩, hle, h⟩
  · rintro ⟨hlen, size, own, fragment, rest, ⟨bs₁, bs₂, hsize, hown, hfragment⟩, hle, h⟩
    simp only [if_neg (not_lt.mpr hlen), hsize, readInto_front_iff.mpr ⟨own, hown, hle, rfl⟩,
      hfragment, h]

theorem mapM_value_iff {siblings : List Sibling} {vec : List HashString} :
    (siblings.map Sibling.value).mapM id = some vec ↔
      siblings.map Sibling.value = vec.map some := by
  rw [mapM_eq_some, map_id]

/-- The proof that is recalled, and the pointers to it. -/
theorem Cursor.Mirrors.previous (hm : c.Mirrors r) :
    (c.previousProof = none ∧ r.proof = none) ∨ ∃ siblings proof,
      c.previousProof = some siblings ∧ r.proof = some proof ∧
        siblings.map Sibling.value = proof.map some := by
  have h := hm.proof
  cases hprev : c.previousProof with
  | none =>
    rw [hprev] at h
    exact .inl ⟨rfl, Option.map_eq_none_iff.mp h.symm⟩
  | some siblings =>
    rw [hprev] at h
    obtain ⟨proof, hproof, heq⟩ := Option.map_eq_some_iff.mp h.symm
    exact .inr ⟨siblings, proof, rfl, hproof, heq.symm⟩

/-- A skipped slot starts from the last proof, which has to be long enough. -/
theorem Cursor.Mirrors.copy_iff (hm : c.Mirrors r) :
    c.previousProof.elim (.ok c.cacheWhenGuard) (copyProof depth) = .ok cache ↔
      (∀ proof, r.proof = some proof → depth ≤ proof.length) ∧ cache = r.base depth := by
  rcases hm.previous with ⟨hprev, hnone⟩ | ⟨siblings, proof, hprev, hproof, hvalue⟩
  · simp [hprev, hnone, Recall.base, hm.cache, eq_comm]
  · have hlen : siblings.length = proof.length := by simpa using congrArg List.length hvalue
    have htake : ((siblings.take depth).map Sibling.value).mapM id = some (proof.take depth) := by
      rw [mapM_value_iff, map_take, hvalue, map_take]
    rw [hprev, Option.elim_some, copyProof, htake, hlen]
    by_cases hle : depth ≤ proof.length
    · rw [if_neg (not_lt.mpr hle)]
      simp [hproof, Recall.base, hle, eq_comm]
    · simp [hproof, hle, not_le.mp hle]

/-- **A skipped slot.** -/
theorem Cursor.Mirrors.skipSlot_ok_iff (hm : c.Mirrors r) {c' : Cursor} :
    skipSlot w depth inst c = .ok c' ↔
      (∀ proof, r.proof = some proof → depth ≤ proof.length) ∧ ∃ cache rest,
        skipPieces w inst (r.base depth) c.rest = .ok (cache, rest) ∧
          c' = ⟨rest, c.previousProof, cache, true⟩ := by
  rw [skipSlot]
  constructor
  · intro h
    split at h
    · cases h
    rename_i cache hcopy
    obtain ⟨hlong, rfl⟩ := hm.copy_iff.mp hcopy
    split at h
    · cases h
    rename_i cache rest hskip
    cases h
    exact ⟨hlong, cache, rest, hskip, rfl⟩
  · rintro ⟨hlong, cache, rest, hskip, rfl⟩
    simp only [hm.copy_iff.mpr ⟨hlong, rfl⟩, hskip]

theorem Cursor.Mirrors.skip (hm : c.Mirrors r) (cache : List HashString) (rest : Bytes) :
    Cursor.Mirrors ⟨rest, c.previousProof, cache, true⟩ ⟨r.proof, cache, true⟩ :=
  ⟨hm.proof, rfl, rfl⟩

/-- The pointers of the proof before, once `n` more digests are in the cache of the slot. -/
def SlotCursor.moved (slot n : Nat) (s : SlotCursor) (siblings : List Sibling) : List Sibling :=
  if s.capacity < s.cacheSize + n then invalidate slot siblings else siblings

/-- Once all pointers lead into the slot, none survives that its cache moves. -/
theorem value_invalidate {siblings : List Sibling} (h : ∀ x ∈ siblings, x.owner = slot)
    {x : Sibling} (hx : x ∈ invalidate slot siblings) : x.value = none := by
  obtain ⟨y, hy, rfl⟩ := mem_map.mp hx
  rw [if_pos (h y hy)]

theorem omitted_invalidate {siblings more : List Sibling} (hown : ∀ x ∈ siblings, x.owner = slot)
    {n : Nat} (hn : ¬depth ≤ n)
    (h : omitted depth n (some (invalidate slot siblings)) = .ok more) (values : List HashString) :
    more.map Sibling.value ≠ values.map some := by
  intro halive
  rw [omitted, if_neg hn] at h
  split_ifs at h with hshort
  cases h
  obtain ⟨x, hx⟩ := exists_mem_of_length_pos (by rw [length_drop, length_take]; omega :
    0 < (((invalidate slot siblings).take depth).drop n).length)
  have hvalue := mem_map_of_mem (f := Sibling.value) hx
  rw [halive, value_invalidate hown (mem_of_mem_take (mem_of_mem_drop hx))] at hvalue
  simp at hvalue

section

variable {size : Int} {bs : Bytes} {out : List Sibling × Bytes × Nat × Nat}

/-- Behind a skipped slot the digests are written over what it has left. -/
theorem readProof_skipped_iff (hflag : s.cursor.cacheWhenGuardFlag = true) :
    readProof depth slot s size bs = .ok out ↔ 0 ≤ size ∧ ∃ own rest,
      getMany getHash size.toNat bs = some (own, rest) ∧
      own.length ≤ s.cursor.cacheWhenGuard.length ∧
      out = ((own ++ s.cursor.cacheWhenGuard.drop own.length).map fun h => ⟨slot, some h⟩, rest,
        depth, s.capacity) := by
  rw [readProof, if_pos hflag]
  split_ifs with hneg
  · simp [not_le.mpr hneg]
  constructor
  · intro h
    split at h
    · cases h
    rename_i cache rest hread
    cases h
    obtain ⟨own, hown, hle, rfl⟩ := readInto_front_iff.mp hread
    exact ⟨not_lt.mp hneg, own, rest, hown, hle, rfl⟩
  · rintro ⟨-, own, rest, hown, hle, rfl⟩
    simp only [readInto_front_iff.mpr ⟨own, hown, hle, rfl⟩]

/-- Elsewhere what is left out comes from the proof before. -/
theorem readProof_new_iff (hflag : s.cursor.cacheWhenGuardFlag = false) :
    readProof depth slot s size bs = .ok out ↔ 0 ≤ size ∧ ∃ own rest more,
      getMany getHash size.toNat bs = some (own, rest) ∧
      omitted depth own.length (s.cursor.previousProof.map (s.moved slot own.length)) = .ok more ∧
      out = (own.map (fun h => ⟨slot, some h⟩) ++ more, rest, s.cacheSize + own.length,
        max s.capacity (s.cacheSize + own.length)) := by
  have hmoved : ∀ n, s.cursor.previousProof.map (s.moved slot n) =
      if s.capacity < s.cacheSize + n then s.cursor.previousProof.map (invalidate slot)
      else s.cursor.previousProof := by
    intro n
    unfold SlotCursor.moved
    split_ifs
    · rfl
    · exact Option.map_id'
  simp only [readProof, hflag, Bool.false_eq_true, if_false, ← hmoved]
  split_ifs with hthrown hneg
  · exact iff_of_false (by simp) fun h => by omega
  · simp [not_le.mpr hneg]
  constructor
  · intro h
    split at h
    · cases h
    rename_i own rest hown
    split at h
    · cases h
    rename_i more hmore
    cases h
    refine ⟨not_lt.mp hneg, own, rest, more, hown, ?_, ?_⟩
    · rwa [length_getMany hown]
    · rw [length_getMany hown]
  · rintro ⟨-, own, rest, more, hown, hmore, rfl⟩
    rw [length_getMany hown] at hmore ⊢
    simp only [hown, hmore]

end

variable (hm : s.Mirrors depth inst slot k r used)

include hm in
/-- **Siblings that are left out are read only if they are those of the proof before.** A cache that
moves takes them along: all of them are in it. -/
theorem SlotCursor.Mirrors.omitted_iff (hk : k < inst)
    (hskip : r.skipped = false) {n : Nat} {more : List Sibling} :
    (omitted depth n (s.cursor.previousProof.map (s.moved slot n)) = .ok more ∧
        ∃ values, more.map Sibling.value = List.map some values) ↔
      r.Fits depth inst used n ∧ more = ((s.cursor.previousProof.getD []).take depth).drop n := by
  rw [Recall.Fits, hskip, if_neg Bool.false_ne_true]
  rcases hm.previous with ⟨hprev, hnone⟩ | ⟨siblings, proof, hprev, hproof, hvalue⟩
  · rw [hprev, Option.map_none, omitted, hnone]
    constructor
    · rintro ⟨⟨⟩, -⟩
      simp
    · rintro ⟨-, rfl⟩
      exact ⟨by simp, [], by simp⟩
  have hlen : siblings.length = proof.length := by simpa using congrArg List.length hvalue
  have hcapacity := hm.capacity
  have hsize := hm.size
  have hshare : (k + 1) * depth ≤ inst * depth := Nat.mul_le_mul_right depth hk
  have hsucc := Nat.add_one_mul k depth
  rw [hprev, Option.map_some, Option.getD_some, SlotCursor.moved, hproof]
  by_cases hn : depth ≤ n
  · rw [omitted, if_pos hn, drop_eq_nil_of_le ((length_take_le _ _).trans hn)]
    constructor
    · rintro ⟨⟨⟩, -⟩
      exact ⟨fun hlt => absurd hlt (not_lt.mpr hn), rfl⟩
    · rintro ⟨-, rfl⟩
      exact ⟨rfl, [], rfl⟩
  by_cases hmove : s.capacity < s.cacheSize + n
  · refine iff_of_false ?_ ?_
    · rintro ⟨h, values, halive⟩
      rw [if_pos hmove] at h
      exact omitted_invalidate (hm.owned (by omega) siblings hprev) hn h values halive
    · rintro ⟨hfits, -⟩
      have := (hfits (not_le.mp hn) proof rfl).2
      omega
  · rw [if_neg hmove, omitted, if_neg hn]
    by_cases hshort : siblings.length < depth
    · rw [if_pos hshort]
      refine iff_of_false (by simp) ?_
      rintro ⟨hfits, -⟩
      have := (hfits (not_le.mp hn) proof rfl).1
      omega
    · rw [if_neg hshort]
      constructor
      · rintro ⟨⟨⟩, -⟩
        refine ⟨?_, rfl⟩
        rintro - _ ⟨⟩
        omega
      · rintro ⟨-, rfl⟩
        refine ⟨rfl, (proof.take depth).drop n, ?_⟩
        rw [map_drop, map_take, hvalue, ← map_take, ← map_drop]

/-- The pointers of a proof that writes `own`. -/
def SlotCursor.siblings (depth slot : Nat) (s : SlotCursor) (own : List HashString) :
    List Sibling :=
  if s.cursor.cacheWhenGuardFlag then
    (own ++ s.cursor.cacheWhenGuard.drop own.length).map fun h => ⟨slot, some h⟩
  else
    own.map (fun h => ⟨slot, some h⟩) ++
      ((s.cursor.previousProof.getD []).take depth).drop own.length

@[simp] theorem value_own (slot : Nat) :
    (Sibling.value ∘ fun h => (⟨slot, some h⟩ : Sibling)) = some := rfl

include hm in
theorem SlotCursor.Mirrors.value_siblings (own : List HashString) :
    (s.siblings depth slot own).map Sibling.value =
      (completed own (r.recalled depth)).map some := by
  rw [siblings, hm.skipped, completed, Recall.recalled]
  split_ifs with hskip
  · rw [map_map, value_own, hm.cache, Option.getD_some]
  · rcases hm.previous with ⟨hprev, hnone⟩ | ⟨siblings, proof, hprev, hproof, hvalue⟩
    · simp [hprev, hnone]
    · simp [hprev, hproof, map_take, hvalue]

include hm in
/-- Reading a proof whose pointers are all good. -/
theorem SlotCursor.Mirrors.readProof_iff (hk : k < inst)
    {size : Int} {bs rest : Bytes} {siblings : List Sibling} {cacheSize capacity : Nat} :
    (readProof depth slot s size bs = .ok (siblings, rest, cacheSize, capacity) ∧
        ∃ hashes, siblings.map Sibling.value = List.map some hashes) ↔
      0 ≤ size ∧ ∃ own, getMany getHash size.toNat bs = some (own, rest) ∧
        r.Fits depth inst used own.length ∧ siblings = s.siblings depth slot own ∧
        cacheSize = r.used depth used own ∧ capacity = max (inst * depth) cacheSize := by
  have hcapacity := hm.capacity
  have hsize := hm.size
  have hflag := hm.skipped
  unfold SlotCursor.siblings
  rw [hflag]
  cases hskip : r.skipped with
  | true =>
    have hshare := Nat.le_mul_of_pos_left depth (by omega : 0 < inst)
    have hzero := hm.fresh hskip
    rw [hskip] at hflag
    simp only [readProof_skipped_iff hflag, if_true, Recall.Fits, Recall.used, hskip, hm.cache]
    constructor
    · rintro ⟨⟨hpos, own, rest, hown, hle, ⟨⟩⟩, -⟩
      exact ⟨hpos, own, hown, hle, rfl, rfl, by omega⟩
    · rintro ⟨hpos, own, hown, hle, rfl, rfl, rfl⟩
      refine ⟨⟨hpos, own, rest, hown, hle, ?_⟩, _, by rw [map_map, value_own]⟩
      rw [hcapacity, hzero, Nat.max_zero, Nat.max_eq_left hshare]
  | false =>
    rw [hskip] at hflag
    simp only [readProof_new_iff hflag, Bool.false_eq_true, if_false, Recall.used, hskip]
    constructor
    · rintro ⟨⟨hpos, own, rest, more, hown, hmore, ⟨⟩⟩, hashes, halive⟩
      rw [map_append] at halive
      obtain ⟨-, values, -, -, hvalues⟩ := map_eq_append_iff.mp halive.symm
      obtain ⟨hfits, rfl⟩ := (hm.omitted_iff hk hskip).mp ⟨hmore, values, hvalues.symm⟩
      exact ⟨hpos, own, hown, hfits, rfl, by omega, by omega⟩
    · rintro ⟨hpos, own, hown, hfits, rfl, rfl, rfl⟩
      obtain ⟨hmore, values, hvalues⟩ := (hm.omitted_iff hk hskip).mpr ⟨hfits, rfl⟩
      refine ⟨⟨hpos, own, rest, _, hown, hmore, ?_⟩, own ++ values, ?_⟩
      · rw [hsize, hcapacity, max_assoc, Nat.max_eq_right (Nat.le_add_right used own.length)]
      · rw [map_append, map_map, value_own, hvalues, map_append]

/-- The cursor behind a shard that writes `own`. -/
def SlotCursor.next (depth inst slot : Nat) (s : SlotCursor) (r : Recall) (used : Nat)
    (own : List HashString) (rest : Bytes) : SlotCursor where
  cursor := ⟨rest, some (s.siblings depth slot own), s.cursor.cacheWhenGuard, false⟩
  cacheSize := r.used depth used own
  capacity := max (inst * depth) (r.used depth used own)

include hm in
theorem SlotCursor.Mirrors.next (own : List HashString)
    (rest : Bytes) : (s.next depth inst slot r used own rest).Mirrors depth inst slot (k + 1)
      (r.after depth own) (r.used depth used own) := by
  refine ⟨⟨congrArg some (hm.value_siblings own), hm.cache, rfl⟩, rfl, rfl, by rintro ⟨⟩, ?_⟩
  rintro hlt _ ⟨⟩ x hx
  have hsucc := Nat.add_one_mul k depth
  rw [siblings, hm.skipped] at hx
  rw [Recall.used] at hlt
  split_ifs at hx hlt with hskip
  · omega
  rcases mem_append.mp hx with hx | hx
  · obtain ⟨y, -, rfl⟩ := mem_map.mp hx
    rfl
  · have hshort := length_pos_of_mem hx
    rw [length_drop, length_take] at hshort
    cases hprev : s.cursor.previousProof with
    | none => simp [hprev] at hx
    | some siblings =>
      rw [hprev] at hx
      exact hm.owned (by omega) siblings hprev x (mem_of_mem_take (mem_of_mem_drop hx))

include hm in
/-- **One shard**: it is read exactly if it is whole and fits. -/
theorem SlotCursor.Mirrors.parsePiece_iff (hk : k < inst)
    {t : SlotCursor} {proof : Proof} {fragment : Bytes} :
    parsePiece w depth slot s = .ok (t, proof, fragment) ↔ ∃ path bs size own rest,
      w.getUInt32 s.cursor.rest = some (path, bs) ∧ IsShard w bs size own fragment rest ∧
      0 ≤ size ∧ r.Fits depth inst used own.length ∧
      proof = ⟨completed own (r.recalled depth), path⟩ ∧
      t = s.next depth inst slot r used own rest := by
  rw [parsePiece]
  constructor
  · intro h
    split at h
    · cases h
    rename_i path bs hpath
    split at h
    · cases h
    rename_i size bs₁ hsize
    split at h
    · cases h
    rename_i siblings bs₂ cacheSize capacity hread
    split at h
    · cases h
    rename_i fragment' rest hfragment
    split at h
    · cases h
    rename_i hashes hhashes
    cases h
    rw [mapM_value_iff] at hhashes
    obtain ⟨hpos, own, hown, hfits, rfl, rfl, rfl⟩ := (hm.readProof_iff hk).mp ⟨hread, _, hhashes⟩
    rw [hm.value_siblings] at hhashes
    cases map_injective_iff.mpr (Option.some_injective HashString) hhashes
    exact ⟨path, bs, size, own, rest, hpath, ⟨bs₁, bs₂, hsize, hown, hfragment⟩, hpos, hfits,
      rfl, rfl⟩
  · rintro ⟨path, bs, size, own, rest, hpath, ⟨bs₁, bs₂, hsize, hown, hfragment⟩, hpos, hfits,
      rfl, rfl⟩
    obtain ⟨hread, -⟩ := (hm.readProof_iff hk).mpr ⟨hpos, own, hown, hfits, rfl, rfl, rfl⟩
    simp only [hpath, hsize, hread, hfragment, mapM_value_iff.mpr (hm.value_siblings own)]
    rfl

/-- The cursor at the first shard of a new slot. -/
theorem Cursor.Mirrors.newSlot (hm : c.Mirrors r) (depth inst i : Nat) :
    SlotCursor.Mirrors depth inst i 0 ⟨c, 0, inst * depth⟩ r 0 :=
  ⟨hm, rfl, (max_eq_left (Nat.zero_le _)).symm, fun _ => rfl, by simp⟩

end

end MassBFT.Replication
