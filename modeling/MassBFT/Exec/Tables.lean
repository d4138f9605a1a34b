import MassBFT.Exec.Batch

/-!
# Tables of a chaincode

SmallBank and TPC-C keep rows in tables. Both have the same `getValue` and `insertIntoTable`: a
row is found under the encoded key and is decoded, or the function gives up. `lookup` is what
`getValue` finds. **A row that is written is found again as long as its encoding is not empty**
(`lookup_put_self`), and the rows under other keys stay.

`committed` are the writes of a program that returns 0, so a program that is made of `getValue` and
`insertIntoTable` is read as a sequence of lookups and writes.
-/

set_option autoImplicit false

namespace MassBFT.Exec

open List

variable {β γ : Type}

/-- What `getValue` finds: the value under the key, decoded. -/
def lookup (db : Database) (key : Bytes) (c : Codec β) : Option β :=
  (ORM.found db key).bind fun raw => (c.get raw).map Prod.fst

/-- The value is read as it was written, and is not taken for a deleted one. -/
structure Stores (c : Codec β) (value : β) : Prop where
  carries : c.Carries value
  nonempty : c.put value ≠ []

namespace Program

/-- `getValue`; the caller gives up if there is no value. -/
def getValue (key : Bytes) (c : Codec β) (next : β → Program) : Program :=
  .get key fun
    | none => .ret (-1)
    | some raw =>
      match c.get raw with
      | none => .ret (-1)
      | some (value, _) => next value

/-- `insertIntoTable` -/
def insertIntoTable (key : Bytes) (c : Codec β) (value : β) (next : Program) : Program :=
  .put key (c.put value) next

end Program

/-! ## Reading -/

section

variable {db : Database} {key : Bytes} {c : Codec β}

@[simp] theorem ORM.get_writes (orm : ORM) : (orm.get db key).writes = orm.writes := by
  unfold ORM.get
  split <;> rfl

@[simp] theorem ORM.get_result (orm : ORM) : (orm.get db key).result = orm.result := by
  unfold ORM.get
  split <;> rfl

theorem Program.run_getValue_some {value : β} (h : lookup db key c = some value)
    (next : β → Program) (orm : ORM) :
    (getValue key c next).run db orm = (next value).run db (orm.get db key) := by
  obtain ⟨raw, hraw, hvalue⟩ := Option.bind_eq_some_iff.mp h
  obtain ⟨⟨value', rest⟩, hget, rfl⟩ := Option.map_eq_some_iff.mp hvalue
  rw [getValue, run, hraw]
  simp only [hget]

end

/-! ## Writing -/

section

variable {db : Database} {key key' : Bytes} {c : Codec β} {d : Codec γ} {writes : List KV}

theorem lookup_congr {db' : Database} (h : db' key = db key) :
    lookup db' key c = lookup db key c := by
  rw [lookup, lookup, ORM.found, ORM.found, h]

/-- A stored value is found. -/
theorem lookup_of_stored {value : β} (h : Stores c value) (hdb : db key = some (c.put value)) :
    lookup db key c = some value := by
  have hget : c.get (c.put value) = some (value, []) := by
    have hcarried := h.carries []
    rwa [append_nil] at hcarried
  have hempty : (c.put value).isEmpty = false := by simpa using h.nonempty
  rw [lookup, ORM.found, hdb]
  simp [hempty, hget]

theorem lookup_of_none (hdb : db key = none) : lookup db key c = none := by
  rw [lookup, ORM.found, hdb]
  rfl

theorem lookup_put_self {value : β} (h : Stores c value) :
    lookup (DbOp.apply db (.put key (c.put value))) key c = some value := by
  refine lookup_of_stored h ?_
  rw [DbOp.apply, Function.update_self]

theorem lookup_put_of_ne {raw : Bytes} (h : key ≠ key') :
    lookup (DbOp.apply db (.put key raw)) key' c = lookup db key' c :=
  lookup_congr (DbOp.apply_of_ne h)

/-- A write set without an empty value is a list of puts. -/
theorem updatesOf_of_nonempty (h : ∀ kv ∈ writes, kv.value ≠ []) :
    updatesOf writes = writes.map fun kv => .put kv.key kv.value := by
  have hputs : writes.filter (!·.value.isEmpty) = writes := by
    rw [filter_eq_self]
    intro kv hkv
    simpa using h kv hkv
  have hdeletes : writes.filter (·.value.isEmpty) = [] := by
    rw [filter_eq_nil_iff]
    intro kv hkv
    simpa using h kv hkv
  rw [updatesOf_eq, hputs, hdeletes, map_nil, append_nil]

@[simp] theorem KV.key_issued (kv : KV) : kv.issued.key = kv.key := by
  unfold KV.issued
  split_ifs <;> rfl

/-- A write set becomes one update for every entry. -/
theorem mem_updatesOf {op : DbOp} : op ∈ updatesOf writes ↔ ∃ kv ∈ writes, kv.issued = op := by
  rw [updatesOf_eq]
  simp only [mem_append, mem_map, mem_filter]
  constructor
  · rintro (⟨kv, ⟨hkv, hvalue⟩, rfl⟩ | ⟨kv, ⟨hkv, hvalue⟩, rfl⟩)
    · exact ⟨kv, hkv, by simp [KV.issued, Bool.not_eq_true' _ ▸ hvalue]⟩
    · exact ⟨kv, hkv, by simp [KV.issued, hvalue]⟩
  · rintro ⟨kv, hkv, rfl⟩
    cases hvalue : kv.value.isEmpty with
    | true => exact .inr ⟨kv, ⟨hkv, hvalue⟩, by simp [KV.issued, hvalue]⟩
    | false => exact .inl ⟨kv, ⟨hkv, by simp [hvalue]⟩, by simp [KV.issued, hvalue]⟩

/-- A key that is not written keeps what it holds. -/
theorem applyAll_of_not_mem_keys (h : key ∉ keys writes) :
    DbOp.applyAll db (updatesOf writes) key = db key := by
  rw [DbOp.applyAll_filter, updatesOf_filter, filter_key_eq_nil h]
  rfl

/-- A key that is written with one value holds it afterwards, or nothing if the value is empty. -/
theorem applyAll_of_mem_keys {value : Bytes} (hmem : ⟨key, value⟩ ∈ writes)
    (h : ∀ kv ∈ writes, kv.key = key → kv.value = value) :
    DbOp.applyAll db (updatesOf writes) key = if value.isEmpty then none else some value := by
  rw [DbOp.applyAll_last]
  cases hlast : ((updatesOf writes).filter (·.key = key)).getLast? with
  | none =>
    have hwritten : KV.issued ⟨key, value⟩ ∈ (updatesOf writes).filter (·.key = key) :=
      mem_filter.mpr ⟨mem_updatesOf.mpr ⟨_, hmem, rfl⟩, by simp⟩
    rw [getLast?_eq_none_iff.mp hlast] at hwritten
    cases hwritten
  | some op =>
    obtain ⟨hop, hkey⟩ := mem_filter.mp (mem_of_getLast? hlast)
    obtain ⟨kv, hkv, rfl⟩ := mem_updatesOf.mp hop
    have hvalue := h kv hkv (by simpa using hkey)
    rw [Option.elim_some, KV.issued, hvalue]
    split_ifs <;> rfl

end

/-! ## Programs that return 0 -/

namespace Program

variable {db : Database}

/-- What a program has written when it returns 0; `none` if it does not. -/
def committed (db : Database) : Program → Option (List KV)
  | ret code => if code = 0 then some [] else none
  | crash _ => none
  | get key next => committed db (next (ORM.found db key))
  | put key value next => (committed db next).map (⟨key, value⟩ :: ·)
  | del key next => (committed db next).map (⟨key, []⟩ :: ·)
  | setResult _ next => committed db next

theorem run_of_committed {p : Program} {writes : List KV} (h : p.committed db = some writes)
    (orm : ORM) : (p.run db orm).1 = .ok 0 ∧ (p.run db orm).2.writes = orm.writes ++ writes := by
  induction p generalizing writes orm with
  | ret code =>
    simp only [committed] at h
    split_ifs at h with hcode
    cases h
    rw [run, hcode]
    exact ⟨rfl, (append_nil _).symm⟩
  | crash what => cases h
  | get key next ih =>
    obtain ⟨hret, hwrites⟩ := ih _ h (orm.get db key)
    rw [ORM.get_writes] at hwrites
    exact ⟨hret, hwrites⟩
  | put key value next ih =>
    obtain ⟨later, hlater, rfl⟩ := Option.map_eq_some_iff.mp h
    obtain ⟨hret, hwrites⟩ := ih hlater (orm.put key value)
    refine ⟨hret, ?_⟩
    rw [run, hwrites, ORM.put, append_assoc]
    rfl
  | del key next ih =>
    obtain ⟨later, hlater, rfl⟩ := Option.map_eq_some_iff.mp h
    obtain ⟨hret, hwrites⟩ := ih hlater (orm.del key)
    refine ⟨hret, ?_⟩
    rw [run, hwrites, ORM.del, append_assoc]
    rfl
  | setResult result next ih => exact ih h (orm.setResult result)

theorem run_of_not_committed {p : Program} (h : p.committed db = none) (orm : ORM) :
    (p.run db orm).1 ≠ .ok 0 := by
  induction p generalizing orm with
  | ret code =>
    simp only [committed] at h
    split_ifs at h with hcode
    rw [run]
    exact fun hret => hcode (Except.ok.inj hret)
  | crash what =>
    intro hret
    cases hret
  | get key next ih => exact ih _ h (orm.get db key)
  | put key value next ih => exact ih (Option.map_eq_none_iff.mp h) (orm.put key value)
  | del key next ih => exact ih (Option.map_eq_none_iff.mp h) (orm.del key)
  | setResult result next ih => exact ih h (orm.setResult result)

/-- **An invocation returns 0 exactly with the committed writes.** -/
theorem committed_of_invoke {p : Program} {inv : Invocation} (h : p.invoke db = .ok inv) :
    p.committed db = if inv.ret = 0 then some inv.writes else none := by
  simp only [invoke] at h
  cases hrun : (p.run db .empty).1 with
  | error what =>
    rw [hrun] at h
    cases h
  | ok code =>
    rw [hrun] at h
    cases h
    cases hcommitted : p.committed db with
    | none =>
      have hne := run_of_not_committed hcommitted .empty
      rw [hrun] at hne
      exact (if_neg fun hcode => hne (congrArg Except.ok hcode)).symm
    | some writes =>
      obtain ⟨hret, hwrites⟩ := run_of_committed hcommitted .empty
      rw [hrun] at hret
      rw [if_pos (Except.ok.inj hret), hwrites]
      rfl

@[simp] theorem committed_getValue (key : Bytes) (c : Codec β) (next : β → Program) :
    (getValue key c next).committed db =
      (lookup db key c).bind fun value => (next value).committed db := by
  rw [getValue, committed, lookup]
  cases ORM.found db key with
  | none => rfl
  | some raw =>
    simp only [Option.bind_some]
    cases c.get raw with
    | none => rfl
    | some value => rfl

@[simp] theorem committed_insertIntoTable (key : Bytes) (c : Codec β) (value : β)
    (next : Program) : (insertIntoTable key c value next).committed db =
      (next.committed db).map (⟨key, c.put value⟩ :: ·) := rfl

end Program

end MassBFT.Exec
