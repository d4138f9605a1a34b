import MassBFT.Exec.Transaction
import MassBFT.Lib.Wire

/-!
# Chaincodes and what is recorded of them

A chaincode reaches the database through its `ORM` only. It is taken as the tree of its
calls: what it does next may depend on every answer so far. `ORM::get` records the key and
the value it has found, and **records nothing when it has found nothing**, although the
chaincode learns that the key is missing.

So the keys that a run has asked for decide it (`run_congr`), the recorded ones do only if
all of them were found. `recorded_reads_decide_iff` says that this is the exact limit:
whichever keys a chaincode may ask for, its recorded reads decide it exactly if the
database has all of them.
-/

set_option autoImplicit false

namespace MassBFT.Exec

open Function List

/-! ## The ORM -/

/-- `ORM`, apart from its database. -/
structure ORM where
  reads : List KV
  writes : List KV
  result : Bytes
  deriving DecidableEq, Repr

namespace ORM

def empty : ORM := ⟨[], [], []⟩

/-- What `get` answers; an empty value is marked deleted. -/
def found (db : Database) (key : Bytes) : Option Bytes :=
  match db key with
  | none => none
  | some value => if value.isEmpty then none else some value

/-- What `get` records. -/
def get (db : Database) (key : Bytes) (orm : ORM) : ORM :=
  match found db key with
  | none => orm
  | some value => { orm with reads := orm.reads ++ [⟨key, value⟩] }

def put (key value : Bytes) (orm : ORM) : ORM :=
  { orm with writes := orm.writes ++ [⟨key, value⟩] }

/-- `del`: a write without a value. -/
def del (key : Bytes) (orm : ORM) : ORM := { orm with writes := orm.writes ++ [⟨key, []⟩] }

def setResult (result : Bytes) (orm : ORM) : ORM := { orm with result := result }

end ORM

/-! ## Programs -/

/-- How a chaincode can end without returning. -/
inductive Crash where
  /-- A `CHECK` has failed. -/
  | check
  /-- An exception leaves the chaincode, and nobody catches it. -/
  | exception
  /-- A vector is read behind its end. -/
  | outOfRange
  deriving DecidableEq, Repr

/-- `InvokeChaincode` for one function and its arguments. -/
inductive Program where
  | ret (code : Int)
  | crash (what : Crash)
  | get (key : Bytes) (next : Option Bytes → Program)
  | put (key value : Bytes) (next : Program)
  | del (key : Bytes) (next : Program)
  | setResult (result : Bytes) (next : Program)

namespace Program

/-- The return code, and what the ORM has recorded. -/
def run (db : Database) : Program → ORM → Except Crash Int × ORM
  | ret code, orm => (.ok code, orm)
  | crash what, orm => (.error what, orm)
  | get key next, orm => run db (next (ORM.found db key)) (orm.get db key)
  | put key value next, orm => run db next (orm.put key value)
  | del key next, orm => run db next (orm.del key)
  | setResult result next, orm => run db next (orm.setResult result)

/-- `InvokeChaincode` and `ORM::reset`. -/
def invoke (db : Database) (p : Program) : Except Crash Invocation :=
  let out := p.run db .empty
  out.1.map fun code => ⟨code, out.2.reads, out.2.writes, out.2.result⟩

/-- The keys that a run asks for. -/
def asked (db : Database) : Program → List Bytes
  | ret _ => []
  | crash _ => []
  | get key next => key :: asked db (next (ORM.found db key))
  | put _ _ next => asked db next
  | del _ next => asked db next
  | setResult _ next => asked db next

/-- What a run has recorded as read. -/
def recorded (db : Database) (p : Program) : List KV := (p.run db .empty).2.reads

/-! ## What decides a run -/

variable {db db' : Database}

theorem found_congr {key : Bytes} (h : db key = db' key) :
    ORM.found db' key = ORM.found db key := by
  rw [ORM.found, ORM.found, h]

/-- **The keys that were asked for decide the run.** -/
theorem run_congr {p : Program} (h : ∀ k ∈ p.asked db, db k = db' k) (orm : ORM) :
    p.run db' orm = p.run db orm := by
  induction p generalizing orm with
  | ret code => rfl
  | crash what => rfl
  | get key next ih =>
    have hkey := found_congr (h key mem_cons_self)
    have hrest := ih (ORM.found db key) (fun k hk => h k (mem_cons_of_mem key hk))
    rw [run, run, ORM.get, ORM.get, hkey]
    exact hrest _
  | put key value next ih => exact ih h _
  | del key next ih => exact ih h _
  | setResult result next ih => exact ih h _

/-- Of the keys asked for, those that were found are recorded. -/
theorem keys_reads_run (p : Program) (orm : ORM) : keys (p.run db orm).2.reads =
    keys orm.reads ++ (p.asked db).filter fun k => (ORM.found db k).isSome := by
  induction p generalizing orm with
  | ret code => exact (append_nil _).symm
  | crash what => exact (append_nil _).symm
  | get key next ih =>
    rw [run, ih, asked, ORM.get]
    cases hfound : ORM.found db key with
    | none =>
      rw [filter_cons_of_neg (by rw [hfound]; exact Bool.false_ne_true)]
    | some value =>
      rw [filter_cons_of_pos (by rw [hfound]; rfl)]
      simp only [keys, map_append, map_cons, map_nil, append_assoc, singleton_append]
  | put key value next ih => exact ih _
  | del key next ih => exact ih _
  | setResult result next ih => exact ih _

theorem keys_recorded (p : Program) :
    keys (p.recorded db) = (p.asked db).filter fun k => (ORM.found db k).isSome :=
  keys_reads_run p .empty

end Program

/-! ## A chaincode that acts on a missing key -/

namespace YCSBRowLevel

/-- A row: its fields with their values. -/
def row (w : Wire) : Codec (List (Bytes × Bytes)) := .vector w (.pair w.string w.string)

/-- `unordered_map::insert`, for a list of fields; `none` if one of them is there already. -/
def insertAll (lhs : List (Bytes × Bytes)) : List (Bytes × Bytes) → Option (List (Bytes × Bytes))
  | [] => some lhs
  | field :: rhs =>
    if lhs.any (·.1 = field.1) then none else insertAll (lhs ++ [field]) rhs

/-- The row that is read from the database, without repeated fields. -/
def readRow (w : Wire) (raw : Bytes) : Option (List (Bytes × Bytes)) :=
  ((row w).get raw).map fun fields =>
    fields.1.foldl (fun lhs field => if lhs.any (·.1 = field.1) then lhs else lhs ++ [field]) []

/-- `insertValue`: fields are added to a row, and a missing row is an empty one. -/
def insertValue (w : Wire) (key : Bytes) (rhs : List (Bytes × Bytes)) : Program :=
  .get key fun raw =>
    match raw.elim (some []) (readRow w) with
    | none => .ret (-1)
    | some lhs =>
      match insertAll lhs rhs with
      | none => .ret (-1)
      | some fields => .put key ((row w).put fields) (.ret 0)

end YCSBRowLevel

namespace Program

/-- A chaincode that asks for one key and returns whether it was there. -/
def probe (key : Bytes) : Program := get key fun answer => ret (if answer.isSome then 0 else -1)

/-- **Recorded reads decide a run exactly as long as nothing is missing**: of a set of keys, every
program that asks for these only is decided by what it records if and only if the database has
all of them. -/
theorem recorded_reads_decide_iff (db : Database) (K : Set Bytes) :
    (∀ p : Program, (∀ k ∈ p.asked db, k ∈ K) → ∀ db' : Database,
        (∀ k ∈ keys (p.recorded db), db k = db' k) → p.run db' .empty = p.run db .empty) ↔
      ∀ k ∈ K, (ORM.found db k).isSome = true := by
  constructor
  · intro hdecide key hkey
    by_contra hmissing
    have hasked : ∀ k ∈ (probe key).asked db, k ∈ K := by
      intro k hk
      rwa [mem_singleton.mp hk]
    -- nothing is recorded, so any database agrees, also one that has the key
    have hnothing : keys ((probe key).recorded db) = [] := by
      rw [keys_recorded]
      exact filter_cons_of_neg hmissing
    have hsame := hdecide (probe key) hasked (update db key (some [0])) (by
      rw [hnothing]
      exact fun k hk => nomatch hk)
    have hthere : ORM.found (update db key (some [0])) key = some [0] := by
      rw [ORM.found, update_self]
      rfl
    rw [Bool.not_eq_true, Option.isSome_eq_false_iff, Option.isNone_iff_eq_none] at hmissing
    have hcode := congrArg Prod.fst hsame
    simp only [probe, run, hthere, hmissing] at hcode
    cases hcode
  · intro hall p hasked db' hagree
    refine run_congr (fun k hk => hagree k ?_) .empty
    rw [keys_recorded]
    exact mem_filter.mpr ⟨hk, hall k (hasked k hk)⟩

/-- A field is inserted into a missing row: nothing is recorded as read. -/
theorem recorded_reads_do_not_decide :
    ¬ ∀ (p : Program) (db db' : Database), (∀ k ∈ keys (p.recorded db), db k = db' k) →
      p.run db' .empty = p.run db .empty := by
  intro h
  let field : Bytes × Bytes := ([1], [2])
  let stored : Database := update (fun _ => none) [0]
    (some ((YCSBRowLevel.row littleEndian).put [field]))
  have hsame := h (YCSBRowLevel.insertValue littleEndian [0] [field]) (fun _ => none) stored
    (by decide)
  exact absurd (congrArg Prod.fst hsame) (by decide)

end Program

end MassBFT.Exec
