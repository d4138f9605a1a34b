import Mathlib.Data.List.Nodup
import MassBFT.TPCC.Schema

/-!
# Rows before they are written

The loader fills rows from a random stream, from the clock, and from storage that it has only partly
written. A row here has *tracked* characters, and the number of a clock reading for every timestamp.
What is written in an environment is the row read there (`Row.read`).

Which rows are the same in two environments is a matter of their unknown parts alone
(`Row.raw_read_eq_iff`). If no two rows have the same *stem*, the part of a key that does not depend
on the environment, **two environments have the same set of writes exactly if every single row is
the same in both** (`same_writes_iff`).
-/

set_option autoImplicit false

namespace MassBFT.TPCC

open List
open Build (TrackedByte)

/-- What a run finds: the readings of the clock, and what is in storage that was never written. -/
structure Env where
  clock : Nat → UInt64
  mem : Nat × Nat → UInt8

/-! ## Rows with other characters -/

section

variable {γ δ τ υ α : Type}

def Warehouse.map (f : γ → δ) (r : Warehouse γ α) : Warehouse δ α :=
  ⟨r.w_name.map f, r.w_street_1.map f, r.w_street_2.map f, r.w_city.map f, r.w_state.map f,
    r.w_zip.map f, r.w_tax, r.w_ytd⟩

def Warehouse.chars (r : Warehouse γ α) : List γ :=
  r.w_name.data ++ r.w_street_1.data ++ r.w_street_2.data ++ r.w_city.data ++ r.w_state.data ++
    r.w_zip.data

def District.map (f : γ → δ) (r : District γ α) : District δ α :=
  ⟨r.d_name.map f, r.d_street_1.map f, r.d_street_2.map f, r.d_city.map f, r.d_state.map f,
    r.d_zip.map f, r.d_tax, r.d_ytd, r.d_next_o_id⟩

def District.chars (r : District γ α) : List γ :=
  r.d_name.data ++ r.d_street_1.data ++ r.d_street_2.data ++ r.d_city.data ++ r.d_state.data ++
    r.d_zip.data

def Customer.map (f : γ → δ) (g : τ → υ) (r : Customer γ τ α) : Customer δ υ α :=
  ⟨r.c_first.map f, r.c_middle.map f, r.c_last.map f, r.c_street_1.map f, r.c_street_2.map f,
    r.c_city.map f, r.c_state.map f, r.c_zip.map f, r.c_phone.map f, g r.c_since, r.c_credit.map f,
    r.c_credit_lim, r.c_discount, r.c_balance, r.c_ytd_payment, r.c_payment_cnt, r.c_delivery_cnt,
    r.c_data.map f⟩

def Customer.chars (r : Customer γ τ α) : List γ :=
  r.c_first.data ++ r.c_middle.data ++ r.c_last.data ++ r.c_street_1.data ++ r.c_street_2.data ++
    r.c_city.data ++ r.c_state.data ++ r.c_zip.data ++ r.c_phone.data ++ r.c_credit.data ++
    r.c_data.data

def History.map (f : γ → δ) (r : History γ α) : History δ α := ⟨r.h_amount, r.h_data.map f⟩

def History.chars (r : History γ α) : List γ := r.h_data.data

def Order.map (g : τ → υ) (r : Order τ α) : Order υ α :=
  ⟨r.o_c_id, g r.o_entry_d, r.o_carrier_id, r.o_ol_cnt, r.o_all_local⟩

def Item.map (f : γ → δ) (r : Item γ α) : Item δ α :=
  ⟨r.i_im_id, r.i_name.map f, r.i_price, r.i_data.map f⟩

def Item.chars (r : Item γ α) : List γ := r.i_name.data ++ r.i_data.data

def Stock.map (f : γ → δ) (r : Stock γ α) : Stock δ α :=
  ⟨r.s_quantity, r.s_dist_01.map f, r.s_dist_02.map f, r.s_dist_03.map f, r.s_dist_04.map f,
    r.s_dist_05.map f, r.s_dist_06.map f, r.s_dist_07.map f, r.s_dist_08.map f, r.s_dist_09.map f,
    r.s_dist_10.map f, r.s_ytd, r.s_order_cnt, r.s_remote_cnt, r.s_data.map f⟩

def Stock.chars (r : Stock γ α) : List γ :=
  r.s_dist_01.data ++ r.s_dist_02.data ++ r.s_dist_03.data ++ r.s_dist_04.data ++
    r.s_dist_05.data ++ r.s_dist_06.data ++ r.s_dist_07.data ++ r.s_dist_08.data ++
    r.s_dist_09.data ++ r.s_dist_10.data ++ r.s_data.data

def Key.map (f : γ → δ) (g : τ → υ) : Key γ τ → Key δ υ
  | .WAREHOUSE w_id => .WAREHOUSE w_id
  | .DISTRICT d_w_id d_id => .DISTRICT d_w_id d_id
  | .CUSTOMER c_w_id c_d_id c_id => .CUSTOMER c_w_id c_d_id c_id
  | .CUSTOMER_WDL c_w_id c_d_id c_last => .CUSTOMER_WDL c_w_id c_d_id (c_last.map f)
  | .HISTORY h_c_id h_c_d_id h_c_w_id h_d_id h_w_id h_date =>
    .HISTORY h_c_id h_c_d_id h_c_w_id h_d_id h_w_id (g h_date)
  | .NEW_ORDER no_w_id no_d_id no_o_id => .NEW_ORDER no_w_id no_d_id no_o_id
  | .ORDER o_w_id o_d_id o_id => .ORDER o_w_id o_d_id o_id
  | .ORDER_WDC o_w_id o_d_id o_c_id o_id => .ORDER_WDC o_w_id o_d_id o_c_id o_id
  | .ORDER_LINE ol_w_id ol_d_id ol_o_id ol_number => .ORDER_LINE ol_w_id ol_d_id ol_o_id ol_number
  | .ITEM i_id => .ITEM i_id
  | .STOCK s_w_id s_i_id => .STOCK s_w_id s_i_id

def Key.chars : Key γ τ → List γ
  | .CUSTOMER_WDL _ _ c_last => c_last.data
  | _ => []

def Key.times : Key γ τ → List τ
  | .HISTORY _ _ _ _ _ h_date => [h_date]
  | _ => []

end

/-- The value of a row, by its table. The loader writes no order lines. -/
inductive Value (γ τ α : Type) where
  | WAREHOUSE (value : Warehouse γ α)
  | DISTRICT (value : District γ α)
  | CUSTOMER (value : Customer γ τ α)
  | CUSTOMER_WDL (c_id : Int32)
  | HISTORY (value : History γ α)
  | NEW_ORDER (no_dummy : Int32)
  | ORDER (value : Order τ α)
  | ORDER_WDC
  | ITEM (value : Item γ α)
  | STOCK (value : Stock γ α)

namespace Value

variable {γ δ τ υ α : Type}

def map (f : γ → δ) (g : τ → υ) : Value γ τ α → Value δ υ α
  | WAREHOUSE value => WAREHOUSE (value.map f)
  | DISTRICT value => DISTRICT (value.map f)
  | CUSTOMER value => CUSTOMER (value.map f g)
  | CUSTOMER_WDL c_id => CUSTOMER_WDL c_id
  | HISTORY value => HISTORY (value.map f)
  | NEW_ORDER no_dummy => NEW_ORDER no_dummy
  | ORDER value => ORDER (value.map g)
  | ORDER_WDC => ORDER_WDC
  | ITEM value => ITEM (value.map f)
  | STOCK value => STOCK (value.map f)

def chars : Value γ τ α → List γ
  | WAREHOUSE value => value.chars
  | DISTRICT value => value.chars
  | CUSTOMER value => value.chars
  | HISTORY value => value.chars
  | ITEM value => value.chars
  | STOCK value => value.chars
  | CUSTOMER_WDL _ | NEW_ORDER _ | ORDER _ | ORDER_WDC => []

def times : Value γ τ α → List τ
  | CUSTOMER value => [value.c_since]
  | ORDER value => [value.o_entry_d]
  | _ => []

/-- What `insertIntoTable` makes of a value. -/
def raw (w : Wire) (numeric : Codec α) : Value UInt8 UInt64 α → Bytes
  | WAREHOUSE value => (Warehouse.codec w numeric).put value
  | DISTRICT value => (District.codec w numeric).put value
  | CUSTOMER value => (Customer.codec w numeric).put value
  | CUSTOMER_WDL c_id => w.ofInt32.put c_id
  | HISTORY value => (History.codec w numeric).put value
  | NEW_ORDER no_dummy => w.ofInt32.put no_dummy
  | ORDER value => (Order.codec w numeric).put value
  | ORDER_WDC => Codec.unit.put ()
  | ITEM value => (Item.codec w numeric).put value
  | STOCK value => (Stock.codec w numeric).put value

end Value

structure Row (γ τ α : Type) where
  key : Key γ τ
  value : Value γ τ α

namespace Row

variable {γ δ τ υ α : Type}

def map (f : γ → δ) (g : τ → υ) (r : Row γ τ α) : Row δ υ α := ⟨r.key.map f g, r.value.map f g⟩

def chars (r : Row γ τ α) : List γ := r.key.chars ++ r.value.chars

def times (r : Row γ τ α) : List τ := r.key.times ++ r.value.times

/-- The key and the value, as they are written. -/
def raw (w : Wire) (numeric : Codec α) (r : Row UInt8 UInt64 α) : Bytes × Bytes :=
  (r.key.raw w, r.value.raw w numeric)

/-- The row in an environment. -/
def read (env : Env) (r : Row TrackedByte Nat α) : Row UInt8 UInt64 α :=
  r.map (Tracked.read env.mem) env.clock

/-- The places whose contents are written although nobody has assigned them. -/
def unassigned (r : Row TrackedByte Nat α) : List (Nat × Nat) :=
  r.chars.filterMap fun
    | .assigned _ => none
    | .found place => some place

end Row

/-! ## The same row in two environments -/

section

variable {γ δ τ υ α : Type} {f f' : γ → δ} {g g' : τ → υ}

theorem Key.map_eq_map_iff {key : Key γ τ} : key.map f g = key.map f' g' ↔
    (∀ c ∈ key.chars, f c = f' c) ∧ ∀ t ∈ key.times, g t = g' t := by
  cases key <;> simp [map, chars, times, Varchar.map_eq_map_iff]

theorem Value.map_eq_map_iff {value : Value γ τ α} : value.map f g = value.map f' g' ↔
    (∀ c ∈ value.chars, f c = f' c) ∧ ∀ t ∈ value.times, g t = g' t := by
  -- field by field, in the order of `chars`
  cases value with
  | WAREHOUSE value =>
    simp [map, chars, times, Warehouse.map, Warehouse.chars,
      Varchar.map_eq_map_iff, or_imp, forall_and]
  | DISTRICT value =>
    simp [map, chars, times, District.map, District.chars,
      Varchar.map_eq_map_iff, or_imp, forall_and]
  | CUSTOMER value =>
    simp only [map, chars, times, Customer.map, Customer.chars,
      Value.CUSTOMER.injEq, Customer.mk.injEq, Varchar.map_eq_map_iff, forall_mem_append,
      forall_mem_singleton, true_and, and_assoc]
    tauto
  | HISTORY value =>
    simp [map, chars, times, History.map, History.chars, Varchar.map_eq_map_iff]
  | ORDER value => simp [map, chars, times, Order.map]
  | ITEM value =>
    simp [map, chars, times, Item.map, Item.chars, Varchar.map_eq_map_iff,
      or_imp, forall_and]
  | STOCK value =>
    simp [map, chars, times, Stock.map, Stock.chars, Varchar.map_eq_map_iff,
      or_imp, forall_and]
  | CUSTOMER_WDL c_id => simp [map, chars, times]
  | NEW_ORDER no_dummy => simp [map, chars, times]
  | ORDER_WDC => simp [map, chars, times]

/-- The bytes tell the value, if it is of one table. -/
theorem Value.raw_map_eq_iff {w : Wire} {numeric : Codec α} (hw : w.Inverts) (hn : numeric.Total)
    {f f' : γ → UInt8} {g g' : τ → UInt64} {value : Value γ τ α} :
    (value.map f g).raw w numeric = (value.map f' g').raw w numeric ↔
      value.map f g = value.map f' g' := by
  cases value with
  | WAREHOUSE value => simp [map, raw, (Warehouse.codec_total hw hn).put_inj]
  | DISTRICT value => simp [map, raw, (District.codec_total hw hn).put_inj]
  | CUSTOMER value => simp [map, raw, (Customer.codec_total hw hn).put_inj]
  | HISTORY value => simp [map, raw, (History.codec_total hw hn).put_inj]
  | ORDER value => simp [map, raw, (Order.codec_total hw hn).put_inj]
  | ITEM value => simp [map, raw, (Item.codec_total hw hn).put_inj]
  | STOCK value => simp [map, raw, (Stock.codec_total hw hn).put_inj]
  | CUSTOMER_WDL c_id => simp [map]
  | NEW_ORDER no_dummy => simp [map]
  | ORDER_WDC => simp [map]

/-- The environments agree on what is unknown of a row. -/
def Row.Agrees (env env' : Env) (r : Row TrackedByte Nat α) : Prop :=
  (∀ place ∈ r.unassigned, env.mem place = env'.mem place) ∧
    ∀ i ∈ r.times, env.clock i = env'.clock i

theorem Row.chars_agree_iff {r : Row TrackedByte Nat α} {mem mem' : Nat × Nat → UInt8} :
    (∀ c ∈ r.chars, c.read mem = c.read mem') ↔ ∀ place ∈ r.unassigned, mem place = mem' place := by
  constructor
  · intro h place hplace
    obtain ⟨c, hc, heq⟩ := mem_filterMap.mp hplace
    cases c with
    | assigned a => cases heq
    | found p =>
      cases heq
      exact h _ hc
  · intro h c hc
    cases c with
    | assigned a => rfl
    | found place => exact h place (mem_filterMap.mpr ⟨_, hc, rfl⟩)

/-- **A row is written the same in two environments if they agree on what is unknown of it.** -/
theorem Row.raw_read_eq_iff {w : Wire} {numeric : Codec α} (hw : w.Inverts) (hn : numeric.Total)
    {env env' : Env} {r : Row TrackedByte Nat α} :
    (r.read env).raw w numeric = (r.read env').raw w numeric ↔ r.Agrees env env' := by
  have hraw : (r.read env).raw w numeric = (r.read env').raw w numeric ↔
      r.key.map (Tracked.read env.mem) env.clock = r.key.map (Tracked.read env'.mem) env'.clock ∧
        r.value.map (Tracked.read env.mem) env.clock =
          r.value.map (Tracked.read env'.mem) env'.clock := by
    rw [← Value.raw_map_eq_iff hw hn, ← Key.raw_inj hw]
    exact Prod.mk.injEq .. ▸ Iff.rfl
  rw [hraw, Key.map_eq_map_iff, Value.map_eq_map_iff, Row.Agrees, ← chars_agree_iff]
  simp only [chars, times, forall_mem_append]
  tauto

/-- All rows agree if all readings and all stored places do. -/
theorem agrees_iff {rows : List (Row TrackedByte Nat α)} {n : Nat}
    (htimes : rows.flatMap Row.times = List.range n) (env env' : Env) :
    (∀ r ∈ rows, r.Agrees env env') ↔ (∀ i, i < n → env.clock i = env'.clock i) ∧
      ∀ place ∈ rows.flatMap Row.unassigned, env.mem place = env'.mem place := by
  have hclock : (∀ i, i < n → env.clock i = env'.clock i) ↔
      ∀ r ∈ rows, ∀ i ∈ r.times, env.clock i = env'.clock i := by
    simp only [← mem_range, ← htimes, mem_flatMap]
    exact ⟨fun h r hr i hi => h i ⟨r, hr, hi⟩, fun h i ⟨r, hr, hi⟩ => h r hr i hi⟩
  have hmem : (∀ place ∈ rows.flatMap Row.unassigned, env.mem place = env'.mem place) ↔
      ∀ r ∈ rows, ∀ place ∈ r.unassigned, env.mem place = env'.mem place := by
    simp only [mem_flatMap]
    exact ⟨fun h r hr p hp => h p ⟨r, hr, hp⟩, fun h p ⟨r, hr, hp⟩ => h r hr p hp⟩
  rw [hclock, hmem]
  exact ⟨fun h => ⟨fun r hr => (h r hr).2, fun r hr => (h r hr).1⟩,
    fun h r hr => ⟨h.2 r hr, h.1 r hr⟩⟩

end

/-! ## Stems -/

/-- The characters of the used part, if all of them were assigned. -/
def Varchar.known {n : Nat} (v : Varchar TrackedByte n) : Option Bytes :=
  let used : Bytes := (v.data.take v.size).filterMap fun
    | .assigned a => some a
    | .found _ => none
  if v.toString = some (used.map .assigned) then some used else none

theorem Varchar.known_iff {n : Nat} {v : Varchar TrackedByte n} {str : Bytes} :
    v.known = some str ↔ v.toString = some (str.map .assigned) := by
  unfold known
  constructor
  · intro h
    obtain ⟨hstr, heq⟩ := Option.ite_none_right_eq_some.mp h
    rw [hstr, ← Option.some.inj heq]
  · intro h
    have htake : v.data.take v.size = str.map .assigned := by
      unfold toString at h
      exact (Option.ite_none_right_eq_some.mp h).2 |> Option.some.inj
    simp [htake, h, filterMap_map]

/-- What is known is read in every memory. -/
theorem Varchar.toString_of_known {n : Nat} {v : Varchar TrackedByte n} {str : Bytes}
    (h : v.known = some str) (mem : Nat × Nat → UInt8) :
    (v.map (Tracked.read mem)).toString = some str := by
  rw [map_toString, known_iff.mp h]
  simp [Function.comp_def]

/-- The part of a key that tells the rows of a load apart: the table and some of the ids, or the
last name. -/
structure Stem where
  table : Table
  w_id : Int32
  d_id : Int32
  id : Int32
  c_last : Bytes
  deriving DecidableEq

def Key.stem {γ τ : Type} (name : Varchar γ 16 → Option Bytes) : Key γ τ → Option Stem
  | .WAREHOUSE w_id => some ⟨.WAREHOUSE, w_id, 0, 0, []⟩
  | .DISTRICT d_w_id d_id => some ⟨.DISTRICT, d_w_id, d_id, 0, []⟩
  | .CUSTOMER c_w_id c_d_id c_id => some ⟨.CUSTOMER, c_w_id, c_d_id, c_id, []⟩
  | .CUSTOMER_WDL c_w_id c_d_id c_last => (name c_last).map (⟨.CUSTOMER_WDL, c_w_id, c_d_id, 0, ·⟩)
  | .HISTORY h_c_id h_c_d_id h_c_w_id _ _ _ => some ⟨.HISTORY, h_c_w_id, h_c_d_id, h_c_id, []⟩
  | .NEW_ORDER no_w_id no_d_id no_o_id => some ⟨.NEW_ORDER, no_w_id, no_d_id, no_o_id, []⟩
  | .ORDER o_w_id o_d_id o_id => some ⟨.ORDER, o_w_id, o_d_id, o_id, []⟩
  | .ORDER_WDC o_w_id o_d_id _ o_id => some ⟨.ORDER_WDC, o_w_id, o_d_id, o_id, []⟩
  | .ORDER_LINE ol_w_id ol_d_id ol_o_id _ => some ⟨.ORDER_LINE, ol_w_id, ol_d_id, ol_o_id, []⟩
  | .ITEM i_id => some ⟨.ITEM, 0, 0, i_id, []⟩
  | .STOCK s_w_id s_i_id => some ⟨.STOCK, s_w_id, 0, s_i_id, []⟩

/-- The stem of a row that is not yet written. -/
def Row.stem {α : Type} (r : Row TrackedByte Nat α) : Option Stem := r.key.stem Varchar.known

section

variable {α : Type}

/-- The stem does not depend on the environment. -/
theorem Row.stem_read {r : Row TrackedByte Nat α} {x : Stem} (h : r.stem = some x) (env : Env) :
    (r.read env).key.stem Varchar.toString = some x := by
  obtain ⟨key, value⟩ := r
  cases key with
  | CUSTOMER_WDL c_w_id c_d_id c_last =>
    obtain ⟨name, hname, heq⟩ := Option.map_eq_some_iff.mp h
    subst heq
    simp only [read, map, Key.map, Key.stem, Varchar.toString_of_known hname,
      Option.map_some]
  | _ => exact h

/-- Rows of different stems are stored in different places, whatever the environments are. -/
theorem Row.stem_eq_of_raw_eq {w : Wire} {numeric : Codec α} (hw : w.Inverts) {env env' : Env}
    {r r' : Row TrackedByte Nat α} {x y : Stem} (hx : r.stem = some x) (hy : r'.stem = some y)
    (h : (r.read env).raw w numeric = (r'.read env').raw w numeric) : x = y := by
  have hkey : (r.read env).key = (r'.read env').key := (Key.raw_inj hw).mp (congrArg Prod.fst h)
  have hstem := stem_read hx env
  rw [hkey, stem_read hy env'] at hstem
  exact (Option.some.inj hstem).symm

/-- **Rows of different stems are the same set of writes in two environments exactly if each of them
is the same in both.** -/
theorem same_writes_iff {w : Wire} {numeric : Codec α} (hw : w.Inverts) (hn : numeric.Total)
    {rows : List (Row TrackedByte Nat α)} (hstem : ∀ r ∈ rows, ∃ x, r.stem = some x)
    (hnodup : (rows.map Row.stem).Nodup) (env env' : Env) :
    (∀ kv, kv ∈ rows.map (fun r => (r.read env).raw w numeric) ↔
        kv ∈ rows.map (fun r => (r.read env').raw w numeric)) ↔
      ∀ r ∈ rows, r.Agrees env env' := by
  constructor
  · intro hsame r hr
    obtain ⟨r', hr', heq⟩ := mem_map.mp ((hsame _).mp (mem_map_of_mem hr))
    obtain ⟨x, hx⟩ := hstem r hr
    obtain ⟨y, hy⟩ := hstem r' hr'
    -- the row that is written at this place in the other environment has the same stem
    have hxy : x = y := (Row.stem_eq_of_raw_eq hw hy hx heq).symm
    have hrr : r' = r := inj_on_of_nodup_map hnodup hr' hr (by rw [hx, hy, hxy])
    subst hrr
    exact (Row.raw_read_eq_iff hw hn).mp heq.symm
  · intro hagree kv
    have heq : rows.map (fun r => (r.read env).raw w numeric) =
        rows.map (fun r => (r.read env').raw w numeric) :=
      map_congr_left fun r hr => (Row.raw_read_eq_iff hw hn).mpr (hagree r hr)
    rw [heq]

end

end MassBFT.TPCC
