import MassBFT.TPCC.Varchar

/-!
# The tables of TPC-C

The rows of the eleven tables and their keys. A row is stored under the prefix of its table and its
key; `Key.raw` is what `getValue` and `insertIntoTable` make of the two. **Different keys, of one
table or of two, are stored in different places** (`Key.raw_inj`): no prefix is the beginning of
another, and every key is read back.

Characters, timestamps and amounts are of any type, so that the same rows stand for what is in the
database and for what is about to be written there. Rows of the database are made of bytes.
-/

set_option autoImplicit false

namespace MassBFT.TPCC

/-! ## Keys -/

/-- `TableNamesPrefix` -/
inductive Table where
  | WAREHOUSE | DISTRICT | CUSTOMER | CUSTOMER_WDL | HISTORY | NEW_ORDER | ORDER | ORDER_WDC
  | ORDER_LINE | ITEM | STOCK
  deriving DecidableEq, Repr

/-- The prefixes w_, d_, c_, c-wdl_, h_, n_, o_, o-wdc_, ol_, i_ and s_. -/
def Table.tablePrefix : Table → Bytes
  | WAREHOUSE => [119, 95]
  | DISTRICT => [100, 95]
  | CUSTOMER => [99, 95]
  | CUSTOMER_WDL => [99, 45, 119, 100, 108, 95]
  | HISTORY => [104, 95]
  | NEW_ORDER => [110, 95]
  | ORDER => [111, 95]
  | ORDER_WDC => [111, 45, 119, 100, 99, 95]
  | ORDER_LINE => [111, 108, 95]
  | ITEM => [105, 95]
  | STOCK => [115, 95]

/-- The `key_t` of every table; characters are in `γ` and timestamps in `τ`. -/
inductive Key (γ τ : Type) where
  | WAREHOUSE (w_id : Int32)
  | DISTRICT (d_w_id d_id : Int32)
  | CUSTOMER (c_w_id c_d_id c_id : Int32)
  | CUSTOMER_WDL (c_w_id c_d_id : Int32) (c_last : Varchar γ 16)
  | HISTORY (h_c_id h_c_d_id h_c_w_id h_d_id h_w_id : Int32) (h_date : τ)
  | NEW_ORDER (no_w_id no_d_id no_o_id : Int32)
  | ORDER (o_w_id o_d_id o_id : Int32)
  | ORDER_WDC (o_w_id o_d_id o_c_id o_id : Int32)
  | ORDER_LINE (ol_w_id ol_d_id ol_o_id ol_number : Int32)
  | ITEM (i_id : Int32)
  | STOCK (s_w_id s_i_id : Int32)
  deriving DecidableEq

/-- A key of the database. -/
abbrev DbKey := Key UInt8 UInt64

namespace Key

def table {γ τ : Type} : Key γ τ → Table
  | WAREHOUSE .. => .WAREHOUSE
  | DISTRICT .. => .DISTRICT
  | CUSTOMER .. => .CUSTOMER
  | CUSTOMER_WDL .. => .CUSTOMER_WDL
  | HISTORY .. => .HISTORY
  | NEW_ORDER .. => .NEW_ORDER
  | ORDER .. => .ORDER
  | ORDER_WDC .. => .ORDER_WDC
  | ORDER_LINE .. => .ORDER_LINE
  | ITEM .. => .ITEM
  | STOCK .. => .STOCK

/-- Several integers in a row. -/
def ids2 (w : Wire) : Codec (Int32 × Int32) := w.ofInt32.pair w.ofInt32

def ids3 (w : Wire) : Codec (Int32 × Int32 × Int32) := w.ofInt32.pair (ids2 w)

def ids4 (w : Wire) : Codec (Int32 × Int32 × Int32 × Int32) := w.ofInt32.pair (ids3 w)

def ids5 (w : Wire) : Codec (Int32 × Int32 × Int32 × Int32 × Int32) := w.ofInt32.pair (ids4 w)

/-- A key without its prefix. -/
def body (w : Wire) : DbKey → Bytes
  | WAREHOUSE w_id => w.ofInt32.put w_id
  | DISTRICT d_w_id d_id => (ids2 w).put (d_w_id, d_id)
  | CUSTOMER c_w_id c_d_id c_id => (ids3 w).put (c_w_id, c_d_id, c_id)
  | CUSTOMER_WDL c_w_id c_d_id c_last =>
    ((ids2 w).pair (Varchar.codec w 16)).put ((c_w_id, c_d_id), c_last)
  | HISTORY h_c_id h_c_d_id h_c_w_id h_d_id h_w_id h_date =>
    ((ids5 w).pair w.ofUInt64).put ((h_c_id, h_c_d_id, h_c_w_id, h_d_id, h_w_id), h_date)
  | NEW_ORDER no_w_id no_d_id no_o_id => (ids3 w).put (no_w_id, no_d_id, no_o_id)
  | ORDER o_w_id o_d_id o_id => (ids3 w).put (o_w_id, o_d_id, o_id)
  | ORDER_WDC o_w_id o_d_id o_c_id o_id => (ids4 w).put (o_w_id, o_d_id, o_c_id, o_id)
  | ORDER_LINE ol_w_id ol_d_id ol_o_id ol_number =>
    (ids4 w).put (ol_w_id, ol_d_id, ol_o_id, ol_number)
  | ITEM i_id => w.ofInt32.put i_id
  | STOCK s_w_id s_i_id => (ids2 w).put (s_w_id, s_i_id)

/-- Where a row is stored. -/
def raw (w : Wire) (key : DbKey) : Bytes := key.table.tablePrefix ++ key.body w

section

variable {w : Wire}

theorem ids2_total (hw : w.Inverts) : (ids2 w).Total := hw.ofInt32.pair hw.ofInt32

theorem ids3_total (hw : w.Inverts) : (ids3 w).Total := hw.ofInt32.pair (ids2_total hw)

theorem ids4_total (hw : w.Inverts) : (ids4 w).Total := hw.ofInt32.pair (ids3_total hw)

theorem ids5_total (hw : w.Inverts) : (ids5 w).Total := hw.ofInt32.pair (ids4_total hw)

/-- The prefix tells the table. -/
theorem table_of_append {t u : Table} {rest rest' : Bytes}
    (h : t.tablePrefix ++ rest = u.tablePrefix ++ rest') : t = u := by
  cases t <;> cases u <;> first | rfl | simp [Table.tablePrefix] at h

/-- Of one table, the body tells the key. -/
theorem eq_of_body (hw : w.Inverts) {key key' : DbKey} (htable : key.table = key'.table)
    (h : key.body w = key'.body w) : key = key' := by
  -- keys of two tables are ruled out, eleven pairs are left
  cases key <;> cases key' <;> cases htable
  case WAREHOUSE.WAREHOUSE => rw [hw.ofInt32.put_inj.mp h]
  case DISTRICT.DISTRICT => cases (ids2_total hw).put_inj.mp h; rfl
  case CUSTOMER.CUSTOMER => cases (ids3_total hw).put_inj.mp h; rfl
  case CUSTOMER_WDL.CUSTOMER_WDL =>
    cases ((ids2_total hw).pair (Varchar.codec_total hw 16)).put_inj.mp h; rfl
  case HISTORY.HISTORY => cases ((ids5_total hw).pair hw.ofUInt64).put_inj.mp h; rfl
  case NEW_ORDER.NEW_ORDER => cases (ids3_total hw).put_inj.mp h; rfl
  case ORDER.ORDER => cases (ids3_total hw).put_inj.mp h; rfl
  case ORDER_WDC.ORDER_WDC => cases (ids4_total hw).put_inj.mp h; rfl
  case ORDER_LINE.ORDER_LINE => cases (ids4_total hw).put_inj.mp h; rfl
  case ITEM.ITEM => rw [hw.ofInt32.put_inj.mp h]
  case STOCK.STOCK => cases (ids2_total hw).put_inj.mp h; rfl

/-- **A key has a place of its own.** -/
theorem raw_inj (hw : w.Inverts) {key key' : DbKey} : key.raw w = key'.raw w ↔ key = key' := by
  constructor
  · intro h
    have htable : key.table = key'.table := table_of_append h
    unfold raw at h
    rw [htable, List.append_cancel_left_eq] at h
    exact eq_of_body hw htable h
  · rintro rfl
    rfl

end

end Key

/-! ## Rows -/

structure Warehouse (γ α : Type) where
  w_name : Varchar γ 10
  w_street_1 : Varchar γ 20
  w_street_2 : Varchar γ 20
  w_city : Varchar γ 20
  w_state : Varchar γ 2
  w_zip : Varchar γ 9
  w_tax : α
  w_ytd : α
  deriving DecidableEq

structure District (γ α : Type) where
  d_name : Varchar γ 10
  d_street_1 : Varchar γ 20
  d_street_2 : Varchar γ 20
  d_city : Varchar γ 20
  d_state : Varchar γ 2
  d_zip : Varchar γ 9
  d_tax : α
  d_ytd : α
  d_next_o_id : Int32
  deriving DecidableEq

structure Customer (γ τ α : Type) where
  c_first : Varchar γ 16
  c_middle : Varchar γ 2
  c_last : Varchar γ 16
  c_street_1 : Varchar γ 20
  c_street_2 : Varchar γ 20
  c_city : Varchar γ 20
  c_state : Varchar γ 2
  c_zip : Varchar γ 9
  c_phone : Varchar γ 16
  c_since : τ
  c_credit : Varchar γ 2
  c_credit_lim : α
  c_discount : α
  c_balance : α
  c_ytd_payment : α
  c_payment_cnt : α
  c_delivery_cnt : α
  c_data : Varchar γ 500
  deriving DecidableEq

structure History (γ α : Type) where
  h_amount : α
  h_data : Varchar γ 24
  deriving DecidableEq

structure Order (τ α : Type) where
  o_c_id : Int32
  o_entry_d : τ
  o_carrier_id : Int32
  o_ol_cnt : α
  o_all_local : α
  deriving DecidableEq

structure OrderLine (γ α : Type) where
  ol_i_id : Int32
  ol_supply_w_id : Int32
  ol_delivery_d : UInt64
  ol_quantity : α
  ol_amount : α
  ol_dist_info : Varchar γ 24
  deriving DecidableEq

structure Item (γ α : Type) where
  i_im_id : Int32
  i_name : Varchar γ 24
  i_price : α
  i_data : Varchar γ 50
  deriving DecidableEq

structure Stock (γ α : Type) where
  s_quantity : α
  s_dist_01 : Varchar γ 24
  s_dist_02 : Varchar γ 24
  s_dist_03 : Varchar γ 24
  s_dist_04 : Varchar γ 24
  s_dist_05 : Varchar γ 24
  s_dist_06 : Varchar γ 24
  s_dist_07 : Varchar γ 24
  s_dist_08 : Varchar γ 24
  s_dist_09 : Varchar γ 24
  s_dist_10 : Varchar γ 24
  s_ytd : α
  s_order_cnt : α
  s_remote_cnt : α
  s_data : Varchar γ 50
  deriving DecidableEq

/-! ## What is stored -/

section

variable {α : Type}

def Warehouse.codec (w : Wire) (numeric : Codec α) : Codec (Warehouse UInt8 α) :=
  ((Varchar.codec w 10).pair <| (Varchar.codec w 20).pair <| (Varchar.codec w 20).pair <|
    (Varchar.codec w 20).pair <| (Varchar.codec w 2).pair <| (Varchar.codec w 9).pair <|
    numeric.pair numeric).conv
    (fun (w_name, w_street_1, w_street_2, w_city, w_state, w_zip, w_tax, w_ytd) =>
      ⟨w_name, w_street_1, w_street_2, w_city, w_state, w_zip, w_tax, w_ytd⟩)
    (fun r => (r.w_name, r.w_street_1, r.w_street_2, r.w_city, r.w_state, r.w_zip, r.w_tax,
      r.w_ytd))

def District.codec (w : Wire) (numeric : Codec α) : Codec (District UInt8 α) :=
  ((Varchar.codec w 10).pair <| (Varchar.codec w 20).pair <| (Varchar.codec w 20).pair <|
    (Varchar.codec w 20).pair <| (Varchar.codec w 2).pair <| (Varchar.codec w 9).pair <|
    numeric.pair <| numeric.pair w.ofInt32).conv
    (fun (d_name, d_street_1, d_street_2, d_city, d_state, d_zip, d_tax, d_ytd, d_next_o_id) =>
      ⟨d_name, d_street_1, d_street_2, d_city, d_state, d_zip, d_tax, d_ytd, d_next_o_id⟩)
    (fun r => (r.d_name, r.d_street_1, r.d_street_2, r.d_city, r.d_state, r.d_zip, r.d_tax, r.d_ytd,
      r.d_next_o_id))

def Customer.codec (w : Wire) (numeric : Codec α) : Codec (Customer UInt8 UInt64 α) :=
  ((Varchar.codec w 16).pair <| (Varchar.codec w 2).pair <| (Varchar.codec w 16).pair <|
    (Varchar.codec w 20).pair <| (Varchar.codec w 20).pair <| (Varchar.codec w 20).pair <|
    (Varchar.codec w 2).pair <| (Varchar.codec w 9).pair <| (Varchar.codec w 16).pair <|
    w.ofUInt64.pair <| (Varchar.codec w 2).pair <| numeric.pair <| numeric.pair <| numeric.pair <|
    numeric.pair <| numeric.pair <| numeric.pair (Varchar.codec w 500)).conv
    (fun (c_first, c_middle, c_last, c_street_1, c_street_2, c_city, c_state, c_zip, c_phone,
      c_since, c_credit, c_credit_lim, c_discount, c_balance, c_ytd_payment, c_payment_cnt,
      c_delivery_cnt, c_data) =>
      ⟨c_first, c_middle, c_last, c_street_1, c_street_2, c_city, c_state, c_zip, c_phone, c_since,
        c_credit, c_credit_lim, c_discount, c_balance, c_ytd_payment, c_payment_cnt, c_delivery_cnt,
        c_data⟩)
    (fun r => (r.c_first, r.c_middle, r.c_last, r.c_street_1, r.c_street_2, r.c_city, r.c_state,
      r.c_zip, r.c_phone, r.c_since, r.c_credit, r.c_credit_lim, r.c_discount, r.c_balance,
      r.c_ytd_payment, r.c_payment_cnt, r.c_delivery_cnt, r.c_data))

def History.codec (w : Wire) (numeric : Codec α) : Codec (History UInt8 α) :=
  (numeric.pair (Varchar.codec w 24)).conv
    (fun (h_amount, h_data) => ⟨h_amount, h_data⟩)
    (fun r => (r.h_amount, r.h_data))

def Order.codec (w : Wire) (numeric : Codec α) : Codec (Order UInt64 α) :=
  (w.ofInt32.pair <| w.ofUInt64.pair <| w.ofInt32.pair <| numeric.pair numeric).conv
    (fun (o_c_id, o_entry_d, o_carrier_id, o_ol_cnt, o_all_local) =>
      ⟨o_c_id, o_entry_d, o_carrier_id, o_ol_cnt, o_all_local⟩)
    (fun r => (r.o_c_id, r.o_entry_d, r.o_carrier_id, r.o_ol_cnt, r.o_all_local))

def OrderLine.codec (w : Wire) (numeric : Codec α) : Codec (OrderLine UInt8 α) :=
  (w.ofInt32.pair <| w.ofInt32.pair <| w.ofUInt64.pair <| numeric.pair <|
    numeric.pair (Varchar.codec w 24)).conv
    (fun (ol_i_id, ol_supply_w_id, ol_delivery_d, ol_quantity, ol_amount, ol_dist_info) =>
      ⟨ol_i_id, ol_supply_w_id, ol_delivery_d, ol_quantity, ol_amount, ol_dist_info⟩)
    (fun r => (r.ol_i_id, r.ol_supply_w_id, r.ol_delivery_d, r.ol_quantity, r.ol_amount,
      r.ol_dist_info))

def Item.codec (w : Wire) (numeric : Codec α) : Codec (Item UInt8 α) :=
  (w.ofInt32.pair <| (Varchar.codec w 24).pair <| numeric.pair (Varchar.codec w 50)).conv
    (fun (i_im_id, i_name, i_price, i_data) => ⟨i_im_id, i_name, i_price, i_data⟩)
    (fun r => (r.i_im_id, r.i_name, r.i_price, r.i_data))

def Stock.codec (w : Wire) (numeric : Codec α) : Codec (Stock UInt8 α) :=
  (numeric.pair <| (Varchar.codec w 24).pair <| (Varchar.codec w 24).pair <|
    (Varchar.codec w 24).pair <| (Varchar.codec w 24).pair <| (Varchar.codec w 24).pair <|
    (Varchar.codec w 24).pair <| (Varchar.codec w 24).pair <| (Varchar.codec w 24).pair <|
    (Varchar.codec w 24).pair <| (Varchar.codec w 24).pair <| numeric.pair <| numeric.pair <|
    numeric.pair (Varchar.codec w 50)).conv
    (fun (s_quantity, s_dist_01, s_dist_02, s_dist_03, s_dist_04, s_dist_05, s_dist_06, s_dist_07,
      s_dist_08, s_dist_09, s_dist_10, s_ytd, s_order_cnt, s_remote_cnt, s_data) =>
      ⟨s_quantity, s_dist_01, s_dist_02, s_dist_03, s_dist_04, s_dist_05, s_dist_06, s_dist_07,
        s_dist_08, s_dist_09, s_dist_10, s_ytd, s_order_cnt, s_remote_cnt, s_data⟩)
    (fun r => (r.s_quantity, r.s_dist_01, r.s_dist_02, r.s_dist_03, r.s_dist_04, r.s_dist_05,
      r.s_dist_06, r.s_dist_07, r.s_dist_08, r.s_dist_09, r.s_dist_10, r.s_ytd, r.s_order_cnt,
      r.s_remote_cnt, r.s_data))

variable {w : Wire} {numeric : Codec α} (hw : w.Inverts) (hn : numeric.Total)

include hw hn

theorem Warehouse.codec_total : (Warehouse.codec w numeric).Total := by
  have hv := Varchar.codec_total hw
  exact .conv ((hv 10).pair <| (hv 20).pair <| (hv 20).pair <| (hv 20).pair <| (hv 2).pair <|
    (hv 9).pair <| hn.pair hn) fun _ => rfl

theorem District.codec_total : (District.codec w numeric).Total := by
  have hv := Varchar.codec_total hw
  exact .conv ((hv 10).pair <| (hv 20).pair <| (hv 20).pair <| (hv 20).pair <| (hv 2).pair <|
    (hv 9).pair <| hn.pair <| hn.pair hw.ofInt32) fun _ => rfl

theorem Customer.codec_total : (Customer.codec w numeric).Total := by
  have hv := Varchar.codec_total hw
  exact .conv ((hv 16).pair <| (hv 2).pair <| (hv 16).pair <| (hv 20).pair <| (hv 20).pair <|
    (hv 20).pair <| (hv 2).pair <| (hv 9).pair <| (hv 16).pair <| hw.ofUInt64.pair <| (hv 2).pair <|
    hn.pair <| hn.pair <| hn.pair <| hn.pair <| hn.pair <| hn.pair (hv 500)) fun _ => rfl

theorem History.codec_total : (History.codec w numeric).Total := by
  have hv := Varchar.codec_total hw
  exact .conv (hn.pair (hv 24)) fun _ => rfl

theorem Order.codec_total : (Order.codec w numeric).Total :=
  .conv (hw.ofInt32.pair <| hw.ofUInt64.pair <| hw.ofInt32.pair <| hn.pair hn) fun _ => rfl

theorem OrderLine.codec_total : (OrderLine.codec w numeric).Total := by
  have hv := Varchar.codec_total hw
  exact .conv (hw.ofInt32.pair <| hw.ofInt32.pair <| hw.ofUInt64.pair <| hn.pair <| hn.pair (hv 24))
    fun _ => rfl

theorem Item.codec_total : (Item.codec w numeric).Total := by
  have hv := Varchar.codec_total hw
  exact .conv (hw.ofInt32.pair <| (hv 24).pair <| hn.pair (hv 50)) fun _ => rfl

theorem Stock.codec_total : (Stock.codec w numeric).Total := by
  have hv := Varchar.codec_total hw
  exact .conv (hn.pair <| (hv 24).pair <| (hv 24).pair <| (hv 24).pair <| (hv 24).pair <|
    (hv 24).pair <| (hv 24).pair <| (hv 24).pair <| (hv 24).pair <| (hv 24).pair <| (hv 24).pair <|
    hn.pair <| hn.pair <| hn.pair (hv 50)) fun _ => rfl

end

end MassBFT.TPCC
