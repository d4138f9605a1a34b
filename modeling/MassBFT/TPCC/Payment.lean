import MassBFT.Exec.Tables
import MassBFT.TPCC.Schema

/-!
# Payments

`executePayment` adds an amount to the year-to-date balances of a warehouse and a district and takes
it from a customer, who is given by their id or by their last name. A last name is looked up in
`CUSTOMER_WDL`, whose key has the name as it is serialized.

So the index finds a customer by the *bytes* of a name. The loader has built these from a string,
the request brings its own. **An equal name finds the entry, whatever the memory was, exactly if
the two have the same behind their used parts** (`equal_names_iff`).
-/

set_option autoImplicit false

namespace MassBFT.TPCC

open Exec (Database DbOp Program Stores lookup)

/-! ## The request -/

/-- `proto::Payment` -/
structure Payment (α : Type) where
  warehouseId : Int32
  districtId : Int32
  customerWarehouseId : Int32
  customerDistrictId : Int32
  homeOrderTotalAmount : α
  homeOrderTotalDate : UInt64
  timestamp : UInt64
  isPaymentById : Bool
  customerLastName : Varchar UInt8 16
  customerId : Int32

def Payment.codec {α : Type} (w : Wire) (numeric : Codec α) : Codec (Payment α) :=
  (w.ofInt32.pair <| w.ofInt32.pair <| w.ofInt32.pair <| w.ofInt32.pair <| numeric.pair <|
    w.ofUInt64.pair <| w.ofUInt64.pair <| Codec.bool.pair <| (Varchar.codec w 16).pair
    w.ofInt32).conv
    (fun (warehouseId, districtId, customerWarehouseId, customerDistrictId, homeOrderTotalAmount,
      homeOrderTotalDate, timestamp, isPaymentById, customerLastName, customerId) =>
      ⟨warehouseId, districtId, customerWarehouseId, customerDistrictId, homeOrderTotalAmount,
        homeOrderTotalDate, timestamp, isPaymentById, customerLastName, customerId⟩)
    (fun r => (r.warehouseId, r.districtId, r.customerWarehouseId, r.customerDistrictId,
      r.homeOrderTotalAmount, r.homeOrderTotalDate, r.timestamp, r.isPaymentById,
      r.customerLastName, r.customerId))

/-! ## The chaincode -/

section

variable {α : Type} [Add α] [Sub α] [IntCast α] (w : Wire) (numeric : Codec α)

/-- The customer who pays, by id or by last name. -/
def Payment.customer (payment : Payment α) (next : Int32 → Program) : Program :=
  if payment.isPaymentById then next payment.customerId
  else
    .getValue ((Key.CUSTOMER_WDL payment.customerWarehouseId payment.customerDistrictId
      payment.customerLastName).raw w) w.ofInt32 next

/-- `std::string::resize` -/
def resizeString (str : Bytes) (size : Nat) : Bytes :=
  str.take size ++ List.replicate (size - str.length) 0

/-- `C_DATA` of a customer with bad credit: what is known of the payment, cut at 500 bytes. -/
def badCreditData (c_id : Int32) (payment : Payment α) (wValue : Warehouse UInt8 α)
    (dValue : District UInt8 α) (c_data : Varchar UInt8 500) : Bytes :=
  resizeString (w.ofInt32.put c_id ++ (Payment.codec w numeric).put payment ++
    (Varchar.codec w 10).put wValue.w_name ++ (Varchar.codec w 10).put dValue.d_name ++
    (Varchar.codec w 500).put c_data) 500

/-- The customer with the new `C_DATA`, if their credit is bad. -/
def Customer.withData (c_id : Int32) (payment : Payment α) (wValue : Warehouse UInt8 α)
    (dValue : District UInt8 α) (blank : Nat → UInt8) (cValue : Customer UInt8 UInt64 α) :
    Option (Customer UInt8 UInt64 α) :=
  if cValue.c_credit.data[0]? = some 66 ∧ cValue.c_credit.data[1]? = some 67 then
    (Varchar.ofContainer blank (badCreditData w numeric c_id payment wValue dValue
      cValue.c_data)).map fun c_data => { cValue with c_data := c_data }
  else some cValue

/-- `executePayment`; `mem` is what the storages of its new strings hold. -/
def executePayment (mem : Nat → Nat → UInt8) (args : Bytes) : Program :=
  match (Payment.codec w numeric).get args with
  | none => .ret (-1)
  | some (payment, _) =>
    let wKey := (Key.WAREHOUSE payment.warehouseId).raw w
    let dKey := (Key.DISTRICT payment.warehouseId payment.districtId).raw w
    .getValue wKey (Warehouse.codec w numeric) fun wValue =>
    .insertIntoTable wKey (Warehouse.codec w numeric)
      { wValue with w_ytd := wValue.w_ytd + payment.homeOrderTotalAmount } <|
    .getValue dKey (District.codec w numeric) fun dValue =>
    .insertIntoTable dKey (District.codec w numeric)
      { dValue with d_ytd := dValue.d_ytd + payment.homeOrderTotalAmount } <|
    payment.customer w fun c_id =>
    let cKey := (Key.CUSTOMER payment.customerWarehouseId payment.customerDistrictId c_id).raw w
    .getValue cKey (Customer.codec w numeric) fun cValue =>
    match cValue.withData w numeric c_id payment wValue dValue (mem 0) with
    | none => .crash .check
    | some cValue =>
      .insertIntoTable cKey (Customer.codec w numeric)
        { cValue with
          c_balance := cValue.c_balance - payment.homeOrderTotalAmount
          c_ytd_payment := cValue.c_ytd_payment + payment.homeOrderTotalAmount
          c_payment_cnt := cValue.c_payment_cnt + ((1 : Int) : α) } <|
      match wValue.w_name.toString, dValue.d_name.toString with
      | some w_name, some d_name =>
        match Varchar.ofContainer (mem 1) ((w_name ++ [32, 32, 32, 32] ++ d_name).take 24) with
        | none => .crash .check
        | some h_data =>
          .insertIntoTable ((Key.HISTORY c_id payment.customerDistrictId
              payment.customerWarehouseId payment.districtId payment.warehouseId
              payment.timestamp).raw w) (History.codec w numeric)
            ⟨payment.homeOrderTotalAmount, h_data⟩ (.ret 0)
      | _, _ => .crash .outOfRange

end

/-! ## Finding a customer by name -/

section

variable {α : Type} {w : Wire} {db : Database} {payment : Payment α}

/-- The customer that a payment finds. -/
def Payment.customerIn (w : Wire) (db : Database) (payment : Payment α) : Option Int32 :=
  if payment.isPaymentById then some payment.customerId
  else
    lookup db ((Key.CUSTOMER_WDL payment.customerWarehouseId payment.customerDistrictId
      payment.customerLastName).raw w) w.ofInt32

/-- The entry that `initCustomer` stores for a last name. -/
def withEntry (w : Wire) (db : Database) (c_w_id c_d_id : Int32) (c_last : Varchar UInt8 16)
    (c_id : Int32) : Database :=
  DbOp.apply db (.put ((Key.CUSTOMER_WDL c_w_id c_d_id c_last).raw w) (w.ofInt32.put c_id))

/-- No entry has been stored for the district. -/
def NoEntries (w : Wire) (db : Database) (c_w_id c_d_id : Int32) : Prop :=
  ∀ c_last, db ((Key.CUSTOMER_WDL c_w_id c_d_id c_last).raw w) = none

theorem raw_customerWdl_eq_iff {c_w_id c_d_id : Int32} {x y : Varchar UInt8 16} :
    (Key.CUSTOMER_WDL c_w_id c_d_id x).raw w = (Key.CUSTOMER_WDL c_w_id c_d_id y).raw w ↔
      (Varchar.codec w 16).put x = (Varchar.codec w 16).put y := by
  simp [Key.raw, Key.body, Key.table, Codec.pair]

theorem stores_int32 (hw : w.Inverts) (z : Int32) : Stores w.ofInt32 z where
  carries := hw.ofInt32 z
  nonempty := hw.ofInt32.put_ne_nil (b := z + 1) (by simp)

/-- The entry of one name is found for another if the bytes are the same. -/
theorem lookup_entry_iff (hw : w.Inverts) {c_w_id c_d_id c_id : Int32} {x y : Varchar UInt8 16}
    (hnone : NoEntries w db c_w_id c_d_id) :
    lookup (withEntry w db c_w_id c_d_id x c_id) ((Key.CUSTOMER_WDL c_w_id c_d_id y).raw w)
        w.ofInt32 = some c_id ↔
      (Varchar.codec w 16).put x = (Varchar.codec w 16).put y := by
  rw [← @raw_customerWdl_eq_iff w c_w_id c_d_id x y]
  constructor
  · intro h
    by_contra hne
    rw [withEntry, Exec.lookup_put_of_ne hne, lookup, Exec.ORM.found, hnone] at h
    cases h
  · intro h
    rw [withEntry, h]
    exact Exec.lookup_put_self (stores_int32 hw c_id)

open Build (TrackedByte) in
/-- **Equal names and their bytes.** Values that are built in any two ways have the same bytes
whenever they are equal, whatever the memory holds, if and only if the two ways leave the same
behind the used part. A payment finds the entry of an equal last name in exactly that case. -/
theorem equal_names_iff (hw : w.Inverts) :
    (∀ (n : Nat) (A B : Build n) (a b : Varchar TrackedByte n),
      A.tracked w = some a → B.tracked w = some b →
      ((∀ mem x y, A.value w mem = some x → B.value w mem = some y → x.equals y = some true →
          (Varchar.codec w n).put x = (Varchar.codec w n).put y) ↔
        a.SameBehind b)) ∧
    ∀ (A B : Build 16) (a b : Varchar TrackedByte 16),
      A.tracked w = some a → B.tracked w = some b →
      ∀ (db : Database) (payment : Payment α) (c_id : Int32), payment.isPaymentById = false →
      NoEntries w db payment.customerWarehouseId payment.customerDistrictId →
      ((∀ mem x y, A.value w mem = some x → B.value w mem = some y → x.equals y = some true →
          { payment with customerLastName := y }.customerIn w (withEntry w db
            payment.customerWarehouseId payment.customerDistrictId x c_id) = some c_id) ↔
        a.SameBehind b) := by
  have hbytes : ∀ (n : Nat) (A B : Build n) (a b : Varchar TrackedByte n),
      A.tracked w = some a → B.tracked w = some b →
      ((∀ mem x y, A.value w mem = some x → B.value w mem = some y → x.equals y = some true →
          (Varchar.codec w n).put x = (Varchar.codec w n).put y) ↔ a.SameBehind b) := by
    intro n A B a b ha hb
    rw [← Varchar.same_bytes_iff (w := w)]
    refine forall_congr' fun mem => ?_
    rw [Build.value_eq, Build.value_eq, ha, hb]
    simp
  refine ⟨hbytes, fun A B a b ha hb db payment c_id hname hnone => ?_⟩
  rw [← hbytes 16 A B a b ha hb]
  refine forall_congr' fun mem => forall_congr' fun x => forall_congr' fun y => ?_
  have hfound : { payment with customerLastName := y }.customerIn w (withEntry w db
      payment.customerWarehouseId payment.customerDistrictId x c_id) = some c_id ↔
        (Varchar.codec w 16).put x = (Varchar.codec w 16).put y := by
    rw [← @lookup_entry_iff w db hw _ _ c_id x y hnone, Payment.customerIn]
    simp only [hname, Bool.false_eq_true, if_false]
  rw [hfound]

end

/-- Sixteen letters leave nothing behind: however the name was built, its bytes are the same. -/
theorem equal_names_sixteen_letters :
    ((Build.ofString 0 (List.replicate 16 65) : Build 16).tracked littleEndian).isSome = true ∧
    ∀ mem x y,
      (Build.ofString 0 (List.replicate 16 65) : Build 16).value littleEndian mem = some x →
      (Build.append (.ofString 1 (List.replicate 15 65)) 65 : Build 16).value littleEndian mem =
        some y → x.equals y = some true →
      (Varchar.codec littleEndian 16).put x = (Varchar.codec littleEndian 16).put y := by
  have hiff := (@equal_names_iff Int32 littleEndian littleEndian.inverts).1
  refine ⟨rfl, (hiff 16 _ _ _ _ rfl rfl).mpr ?_⟩
  intro _ _ _ i u v hi hu _
  rw [List.getElem?_eq_none (Nat.le_trans (by decide) hi)] at hu
  cases hu

/-! ## Two payments by one name -/

/-- BARBARBAR, the last name of the first customer. -/
def barbarbar : Bytes := [66, 65, 82, 66, 65, 82, 66, 65, 82]

/-- The name as a client sends it, with zeros behind the used part. -/
def sentName : Bytes := littleEndian.putUInt32 9 ++ barbarbar ++ List.replicate 7 0

/-- A string that fills its array. -/
def filled (n : Nat) (c : UInt8) : Varchar UInt8 n := ⟨UInt32.ofNat n, List.replicate n c, by simp⟩

/-- Warehouse 1 with one district and one customer, who is in the index under `name`; amounts are
integers here. -/
def oneCustomer (name : Varchar UInt8 16) : Database :=
  let numeric := littleEndian.ofInt32
  DbOp.applyAll (fun _ => none)
    [.put ((Key.WAREHOUSE 1).raw littleEndian) ((Warehouse.codec littleEndian numeric).put
        ⟨filled 10 65, filled 20 65, filled 20 65, filled 20 65, filled 2 65, filled 9 49, 0, 0⟩),
      .put ((Key.DISTRICT 1 1).raw littleEndian) ((District.codec littleEndian numeric).put
        ⟨filled 10 66, filled 20 66, filled 20 66, filled 20 66, filled 2 66, filled 9 49, 0, 0,
          3001⟩),
      .put ((Key.CUSTOMER 1 1 1).raw littleEndian) ((Customer.codec littleEndian numeric).put
        ⟨filled 16 67, filled 2 67, name, filled 20 67, filled 20 67, filled 20 67, filled 2 67,
          filled 9 49, filled 16 48, 0, ⟨2, [71, 67], rfl⟩, 0, 0, 0, 0, 0, 0, filled 500 67⟩),
      .put ((Key.CUSTOMER_WDL 1 1 name).raw littleEndian) (littleEndian.ofInt32.put 1)]

/-- What `executePayment` returns for a payment of 5 by last name. -/
def paidByName (db : Database) (name : Varchar UInt8 16) : Except Exec.Crash Int :=
  let payment : Payment Int32 := ⟨1, 1, 1, 1, 5, 0, 0, false, name, 0⟩
  ((executePayment littleEndian littleEndian.ofInt32 (fun _ _ => 0)
    ((Payment.codec littleEndian littleEndian.ofInt32).put payment)).run db .empty).1

/-- The loader has built a name from a string, in a memory full of ones, and a client sends the same
name with zeros: the two are equal, their bytes are not, and the payment does not find the customer.
-/
theorem equal_name_not_found : ∃ x y : Varchar UInt8 16,
    (Build.ofString 0 barbarbar).value littleEndian (fun _ => 255) = some x ∧
    (Build.decode sentName).value littleEndian (fun _ => 255) = some y ∧
    x.equals y = some true ∧
    (Varchar.codec littleEndian 16).put x ≠ (Varchar.codec littleEndian 16).put y ∧
    paidByName (oneCustomer x) x = .ok 0 ∧ paidByName (oneCustomer x) y = .ok (-1) := by
  refine ⟨_, _, rfl, rfl, ?_, ?_, ?_, ?_⟩
  · decide +kernel
  · decide +kernel
  · decide +kernel
  · decide +kernel

end MassBFT.TPCC
