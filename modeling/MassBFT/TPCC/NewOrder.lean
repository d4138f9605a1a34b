import MassBFT.TPCC.Payment

/-!
# New orders

`executeNewOrder` takes the next order number of a district, inserts the order into three tables
and then goes through its lines: for each it finds the item and the stock, writes the stock back and
inserts an order line.

`place` says for a database whether a request is accepted, and what order then comes of it. **A
request commits exactly if it is accepted, and its writes are those of the order**
(`committed_executeNewOrder`); what follows about orders never looks at the code again.
-/

set_option autoImplicit false

namespace MassBFT.TPCC

open Option
open Exec (Database DbOp Program ORM KV Stores lookup)

/-! ## The request -/

/-- `proto::NewOrder` -/
structure NewOrder where
  warehouseId : Int32
  districtId : Int32
  customerId : Int32
  orderLineCount : Int32
  orderLineNumbers : List Int32
  supplierWarehouse : List Int32
  itemIds : List Int32
  quantities : List Int32
  timestamp : UInt64
  deriving DecidableEq

def NewOrder.codec (w : Wire) : Codec NewOrder :=
  (w.ofInt32.pair <| w.ofInt32.pair <| w.ofInt32.pair <| w.ofInt32.pair <|
    (Codec.vector w w.ofInt32).pair <| (Codec.vector w w.ofInt32).pair <|
    (Codec.vector w w.ofInt32).pair <| (Codec.vector w w.ofInt32).pair w.ofUInt64).conv
    (fun (warehouseId, districtId, customerId, orderLineCount, orderLineNumbers, supplierWarehouse,
      itemIds, quantities, timestamp) =>
      ⟨warehouseId, districtId, customerId, orderLineCount, orderLineNumbers, supplierWarehouse,
        itemIds, quantities, timestamp⟩)
    (fun r => (r.warehouseId, r.districtId, r.customerId, r.orderLineCount, r.orderLineNumbers,
      r.supplierWarehouse, r.itemIds, r.quantities, r.timestamp))

/-! ## Rows of an order -/

section

variable {α : Type}

/-- An `Integer` as a `Numeric`. -/
def numericOf [IntCast α] (z : Int32) : α := (z.toInt : α)

/-- The stock after an order of some quantity. -/
def Stock.ordered [Add α] [Sub α] [IntCast α] [LE α] [DecidableLE α] (stock : Stock UInt8 α)
    (ol_quantity : Int32) (remote : Bool) : Stock UInt8 α :=
  { stock with
    s_quantity :=
      if numericOf (ol_quantity + 10) ≤ stock.s_quantity then
        stock.s_quantity - numericOf ol_quantity
      else stock.s_quantity + numericOf (91 - ol_quantity)
    s_remote_cnt := if remote then stock.s_remote_cnt + numericOf 1 else stock.s_remote_cnt
    s_order_cnt := stock.s_order_cnt + numericOf 1
    s_ytd := stock.s_ytd + numericOf ol_quantity }

/-- What the stock says for a district; there are ten. -/
def Stock.s_dist (stock : Stock UInt8 α) (districtId : Int32) : Option (Varchar UInt8 24) :=
  match districtId.toInt with
  | 1 => some stock.s_dist_01
  | 2 => some stock.s_dist_02
  | 3 => some stock.s_dist_03
  | 4 => some stock.s_dist_04
  | 5 => some stock.s_dist_05
  | 6 => some stock.s_dist_06
  | 7 => some stock.s_dist_07
  | 8 => some stock.s_dist_08
  | 9 => some stock.s_dist_09
  | 10 => some stock.s_dist_10
  | _ => none

/-- The rates that an order has read. -/
structure Rates (α : Type) where
  w_tax : α
  d_tax : α
  c_discount : α

/-- What a line costs. -/
def Rates.ol_amount [Add α] [Sub α] [Mul α] [IntCast α] (rates : Rates α) (ol_quantity : Int32)
    (i_price : α) : α :=
  numericOf ol_quantity * i_price * (numericOf 1 + rates.w_tax + rates.d_tax) *
    (numericOf 1 - rates.c_discount)

/-- `O_ALL_LOCAL` -/
def NewOrder.all_local [IntCast α] (newOrder : NewOrder) : α :=
  newOrder.supplierWarehouse.foldl
    (fun all_local sw => if sw ≠ newOrder.warehouseId then numericOf 0 else all_local) (numericOf 1)

end

/-! ## The chaincode -/

section

variable {α : Type} [Add α] [Sub α] [Mul α] [IntCast α] [LE α] [DecidableLE α]
  (w : Wire) (numeric : Codec α)

/-- One line of an order: line `i` of the four lists. -/
def orderLine (newOrder : NewOrder) (rates : Rates α) (i : Nat) (next : Program) : Program :=
  match newOrder.itemIds[i]?, newOrder.quantities[i]?, newOrder.supplierWarehouse[i]?,
    newOrder.orderLineNumbers[i]? with
  | some ol_i_id, some ol_quantity, some ol_supply_w_id, some line_number =>
    .getValue ((Key.ITEM ol_i_id).raw w) (Item.codec w numeric) fun itemValue =>
    .getValue ((Key.STOCK ol_supply_w_id ol_i_id).raw w) (Stock.codec w numeric) fun stockValue =>
    let stockValue := stockValue.ordered ol_quantity (ol_supply_w_id ≠ newOrder.warehouseId)
    .insertIntoTable ((Key.STOCK ol_supply_w_id ol_i_id).raw w) (Stock.codec w numeric)
      stockValue <|
    let insertLine := fun stockValue : Stock UInt8 α =>
      match stockValue.s_dist newOrder.districtId with
      | none => .crash .check
      | some s_dist =>
        -- the key has the district where the order number belongs
        .insertIntoTable ((Key.ORDER_LINE newOrder.warehouseId newOrder.districtId
            newOrder.districtId line_number).raw w) (OrderLine.codec w numeric)
          ⟨ol_i_id, ol_supply_w_id, 0, numericOf ol_quantity,
            rates.ol_amount ol_quantity itemValue.i_price, s_dist⟩ next
    if ol_supply_w_id ≠ newOrder.warehouseId then
      .getValue ((Key.STOCK newOrder.warehouseId ol_i_id).raw w) (Stock.codec w numeric) insertLine
    else insertLine stockValue
  | _, _, _, _ => .crash .outOfRange

/-- The loop over the lines. -/
def orderLines (newOrder : NewOrder) (rates : Rates α) : List Nat → Program
  | [] => .ret 0
  | i :: rest => orderLine w numeric newOrder rates i (orderLines newOrder rates rest)

def executeNewOrder (args : Bytes) : Program :=
  match (NewOrder.codec w).get args with
  | none => .ret (-1)
  | some (newOrder, _) =>
    let dKey := (Key.DISTRICT newOrder.warehouseId newOrder.districtId).raw w
    .getValue ((Key.WAREHOUSE newOrder.warehouseId).raw w) (Warehouse.codec w numeric) fun wValue =>
    .getValue dKey (District.codec w numeric) fun dValue =>
    let o_id := dValue.d_next_o_id
    .insertIntoTable dKey (District.codec w numeric) { dValue with d_next_o_id := o_id + 1 } <|
    .getValue ((Key.CUSTOMER newOrder.warehouseId newOrder.districtId newOrder.customerId).raw w)
      (Customer.codec w numeric) fun cValue =>
    .insertIntoTable ((Key.ORDER newOrder.warehouseId newOrder.districtId o_id).raw w)
      (Order.codec w numeric) ⟨newOrder.customerId, newOrder.timestamp, 0,
        numericOf newOrder.orderLineCount, newOrder.all_local⟩ <|
    .insertIntoTable ((Key.ORDER_WDC newOrder.warehouseId newOrder.districtId newOrder.customerId
      o_id).raw w) .unit () <|
    .insertIntoTable ((Key.NEW_ORDER newOrder.warehouseId newOrder.districtId o_id).raw w)
      w.ofInt32 0 <|
    orderLines w numeric newOrder ⟨wValue.w_tax, dValue.d_tax, cValue.c_discount⟩
      (List.range newOrder.orderLineCount.toInt.toNat)

/-- `InvokeChaincode`; the functions are called n and p. -/
def invokeChaincode (mem : Nat → Nat → UInt8) (funcName args : Bytes) : Program :=
  if funcName = [110] then executeNewOrder w numeric args
  else if funcName = [112] then executePayment w numeric mem args
  else .ret (-1)

end

/-! ## What a request comes to -/

section

variable {α : Type} [Add α] [Sub α] [Mul α] [IntCast α] [LE α] [DecidableLE α]
  (w : Wire) (numeric : Codec α)

/-- A line of an order that has been accepted. -/
structure Line (α : Type) where
  supply_w_id : Int32
  i_id : Int32
  stock : Stock UInt8 α
  number : Int32
  value : OrderLine UInt8 α

/-- Line `i` on a database, if its rows are there. -/
def NewOrder.line (db : Database) (newOrder : NewOrder) (rates : Rates α) (i : Nat) :
    Option (Line α) := do
  let ol_i_id ← newOrder.itemIds[i]?
  let ol_quantity ← newOrder.quantities[i]?
  let ol_supply_w_id ← newOrder.supplierWarehouse[i]?
  let line_number ← newOrder.orderLineNumbers[i]?
  let itemValue ← lookup db ((Key.ITEM ol_i_id).raw w) (Item.codec w numeric)
  let stockValue ← lookup db ((Key.STOCK ol_supply_w_id ol_i_id).raw w) (Stock.codec w numeric)
  let stock := stockValue.ordered ol_quantity (ol_supply_w_id ≠ newOrder.warehouseId)
  let home ←
    if ol_supply_w_id ≠ newOrder.warehouseId then
      lookup db ((Key.STOCK newOrder.warehouseId ol_i_id).raw w) (Stock.codec w numeric)
    else some stock
  let s_dist ← home.s_dist newOrder.districtId
  return ⟨ol_supply_w_id, ol_i_id, stock, line_number, ol_i_id, ol_supply_w_id, 0,
    numericOf ol_quantity, rates.ol_amount ol_quantity itemValue.i_price, s_dist⟩

/-- An order that has been accepted: the request, the district as it was found, and the lines. -/
structure Placed (α : Type) where
  newOrder : NewOrder
  district : District UInt8 α
  lines : List (Line α)

/-- The order that comes of a request, if it is accepted. -/
def place (db : Database) (args : Bytes) : Option (Placed α) := do
  let (newOrder, _) ← (NewOrder.codec w).get args
  let wValue ← lookup db ((Key.WAREHOUSE newOrder.warehouseId).raw w) (Warehouse.codec w numeric)
  let dValue ← lookup db ((Key.DISTRICT newOrder.warehouseId newOrder.districtId).raw w)
    (District.codec w numeric)
  let cValue ← lookup db ((Key.CUSTOMER newOrder.warehouseId newOrder.districtId
    newOrder.customerId).raw w) (Customer.codec w numeric)
  let lines ← (List.range newOrder.orderLineCount.toInt.toNat).mapM
    (newOrder.line w numeric db ⟨wValue.w_tax, dValue.d_tax, cValue.c_discount⟩)
  return ⟨newOrder, dValue, lines⟩

end

/-! ## The writes of an order -/

section

variable {α : Type} (w : Wire) (numeric : Codec α)

/-- The key under which a line is written: it has the district for the order. -/
def NewOrder.lineKey (newOrder : NewOrder) (line : Line α) : DbKey :=
  .ORDER_LINE newOrder.warehouseId newOrder.districtId newOrder.districtId line.number

/-- What a line writes. -/
def NewOrder.lineWrites (newOrder : NewOrder) (line : Line α) : List KV :=
  [⟨(Key.STOCK line.supply_w_id line.i_id).raw w, (Stock.codec w numeric).put line.stock⟩,
    ⟨(newOrder.lineKey line).raw w, (OrderLine.codec w numeric).put line.value⟩]

namespace Placed

/-- The number of the order. -/
def o_id (p : Placed α) : Int32 := p.district.d_next_o_id

/-- The row of the order. -/
def row [IntCast α] (p : Placed α) : Order UInt64 α :=
  ⟨p.newOrder.customerId, p.newOrder.timestamp, 0, numericOf p.newOrder.orderLineCount,
    p.newOrder.all_local⟩

/-- The district afterwards. -/
def nextDistrict (p : Placed α) : District UInt8 α := { p.district with d_next_o_id := p.o_id + 1 }

def districtKey (p : Placed α) : DbKey := .DISTRICT p.newOrder.warehouseId p.newOrder.districtId

def orderKey (p : Placed α) : DbKey := .ORDER p.newOrder.warehouseId p.newOrder.districtId p.o_id

def orderWdcKey (p : Placed α) : DbKey :=
  .ORDER_WDC p.newOrder.warehouseId p.newOrder.districtId p.newOrder.customerId p.o_id

def newOrderKey (p : Placed α) : DbKey :=
  .NEW_ORDER p.newOrder.warehouseId p.newOrder.districtId p.o_id

/-- What an order writes in front of its lines. -/
def header [IntCast α] (p : Placed α) : List KV :=
  [⟨p.districtKey.raw w, (District.codec w numeric).put p.nextDistrict⟩,
    ⟨p.orderKey.raw w, (Order.codec w numeric).put p.row⟩,
    ⟨p.orderWdcKey.raw w, []⟩,
    ⟨p.newOrderKey.raw w, w.ofInt32.put 0⟩]

/-- What an order writes. -/
def writes [IntCast α] (p : Placed α) : List KV :=
  p.header w numeric ++ p.lines.flatMap (p.newOrder.lineWrites w numeric)

end Placed

end

section

variable {α : Type} [Add α] [Sub α] [Mul α] [IntCast α] [LE α] [DecidableLE α]
  {w : Wire} {numeric : Codec α} {db : Database}

/-- A line commits if its rows are there. -/
theorem committed_orderLine (newOrder : NewOrder) (rates : Rates α) (i : Nat) (next : Program) :
    (orderLine w numeric newOrder rates i next).committed db =
      (newOrder.line w numeric db rates i).bind fun line =>
        (next.committed db).map (newOrder.lineWrites w numeric line ++ ·) := by
  unfold orderLine NewOrder.line
  cases newOrder.itemIds[i]? with
  | none => rfl
  | some ol_i_id =>
  cases newOrder.quantities[i]? with
  | none => rfl
  | some ol_quantity =>
  cases newOrder.supplierWarehouse[i]? with
  | none => rfl
  | some ol_supply_w_id =>
  cases newOrder.orderLineNumbers[i]? with
  | none => rfl
  | some line_number =>
  simp only [Program.committed_getValue, bind_eq_bind, bind_some]
  cases lookup db ((Key.ITEM ol_i_id).raw w) (Item.codec w numeric) with
  | none => rfl
  | some itemValue =>
  cases lookup db ((Key.STOCK ol_supply_w_id ol_i_id).raw w) (Stock.codec w numeric) with
  | none => rfl
  | some stockValue =>
  simp only [bind_some, Program.committed_insertIntoTable]
  by_cases hremote : ol_supply_w_id ≠ newOrder.warehouseId
  · rw [if_pos hremote, if_pos hremote, Program.committed_getValue]
    cases lookup db ((Key.STOCK newOrder.warehouseId ol_i_id).raw w) (Stock.codec w numeric) with
    | none => rfl
    | some home =>
    simp only [bind_some]
    cases home.s_dist newOrder.districtId with
    | none => rfl
    | some s_dist =>
      rw [Program.committed_insertIntoTable, map_map]
      rfl
  · rw [if_neg hremote, if_neg hremote]
    cases (stockValue.ordered ol_quantity (decide (ol_supply_w_id ≠ newOrder.warehouseId))).s_dist
      newOrder.districtId with
    | none => rfl
    | some s_dist =>
      rw [Program.committed_insertIntoTable, map_map]
      rfl

theorem committed_orderLines (newOrder : NewOrder) (rates : Rates α) (is : List Nat) :
    (orderLines w numeric newOrder rates is).committed db =
      (is.mapM (newOrder.line w numeric db rates)).map
        (List.flatMap (newOrder.lineWrites w numeric)) := by
  induction is with
  | nil => rfl
  | cons i is ih =>
    rw [orderLines, committed_orderLine, ih, List.mapM_cons]
    cases newOrder.line w numeric db rates i with
    | none => rfl
    | some line =>
      simp only [bind_some, bind_eq_bind]
      cases is.mapM (newOrder.line w numeric db rates) with
      | none => rfl
      | some lines => rfl

/-- **A request commits exactly if it is accepted, with the writes of its order.** -/
theorem committed_executeNewOrder (args : Bytes) :
    (executeNewOrder w numeric args).committed db =
      (place w numeric db args).map (Placed.writes w numeric) := by
  unfold executeNewOrder place
  cases (NewOrder.codec w).get args with
  | none => rfl
  | some decoded =>
  obtain ⟨newOrder, rest⟩ := decoded
  simp only [Program.committed_getValue, bind_eq_bind, bind_some]
  cases lookup db ((Key.WAREHOUSE newOrder.warehouseId).raw w) (Warehouse.codec w numeric) with
  | none => rfl
  | some wValue =>
  cases lookup db ((Key.DISTRICT newOrder.warehouseId newOrder.districtId).raw w)
      (District.codec w numeric) with
  | none => rfl
  | some dValue =>
  simp only [bind_some, Program.committed_insertIntoTable, Program.committed_getValue]
  cases lookup db ((Key.CUSTOMER newOrder.warehouseId newOrder.districtId
      newOrder.customerId).raw w) (Customer.codec w numeric) with
  | none => rfl
  | some cValue =>
  simp only [bind_some, committed_orderLines]
  cases (List.range newOrder.orderLineCount.toInt.toNat).mapM
      (newOrder.line w numeric db ⟨wValue.w_tax, dValue.d_tax, cValue.c_discount⟩) with
  | none => rfl
  | some lines => rfl

end

end MassBFT.TPCC
