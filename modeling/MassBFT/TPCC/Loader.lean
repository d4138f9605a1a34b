import MassBFT.Lib.Ends
import MassBFT.Lib.Groups
import MassBFT.TPCC.Rows

/-!
# The loader of TPC-C

`InitDatabase` seeds the random generator, fills the tables for the configured number of warehouses
and puts every row into the write set. The rows are kept as they are made, with tracked characters
and numbered clock readings; they are read in an environment when they are written.

Only two places of the loader look at characters: the last name of a customer is the key of a map,
and the customers of one name are sorted by first name. These are read in the environment, as the
code reads them.

`Library` is what the standard library and the hash map do: any random engine, any order of the map.
-/

set_option autoImplicit false

namespace MassBFT.TPCC

open Build (TrackedByte)

/-! ## The library -/

/-- `customerMap`: the customers of every last name, with their first names and ids. -/
abbrev CustomerMap := List (Bytes × List (Varchar TrackedByte 16 × Int32))

/-- The random engine with the distributions and `std::shuffle`, and the order in which a loop goes
through `customerMap`. -/
structure Library (σ α : Type) where
  uniform : Nat → Nat → σ → Nat × σ
  uniform_mem : ∀ lb ub rand, lb ≤ ub → lb ≤ (uniform lb ub rand).1 ∧ (uniform lb ub rand).1 ≤ ub
  real : Rat → Rat → σ → α × σ
  shuffle : List Int32 → σ → List Int32 × σ
  shuffle_perm : ∀ ids rand, (shuffle ids rand).1.Perm ids
  order : CustomerMap → CustomerMap
  order_perm : ∀ customerMap, (order customerMap).Perm customerMap

/-- The random engine, the clock readings and the objects so far, and the rows of the write set. -/
structure Load (σ α : Type) where
  rand : σ
  ticks : Nat
  objects : Nat
  rows : List (Row TrackedByte Nat α)

abbrev Loader (σ α : Type) := StateT (Load σ α) Option

section

variable {σ α : Type} (lib : Library σ α)

/-- `nextValue` of a `UniformLongGenerator`. -/
def uniform (lb ub : Nat) : Loader σ α Nat := fun s =>
  let (n, rand) := lib.uniform lb ub s.rand
  some (n, { s with rand := rand })

/-- `nextValue` of a `RandomDouble`. -/
def randomDouble (lb ub : Rat) : Loader σ α α := fun s =>
  let (x, rand) := lib.real lb ub s.rand
  some (x, { s with rand := rand })

def shuffle (ids : List Int32) : Loader σ α (List Int32) := fun s =>
  let (ids', rand) := lib.shuffle ids s.rand
  some (ids', { s with rand := rand })

/-- `Timer::time_now_ns`: the number of the reading. -/
def time_now_ns : Loader σ α Nat := fun s => some (s.ticks, { s with ticks := s.ticks + 1 })

/-- The storage of a new object. -/
def storage : Loader σ α (Nat → TrackedByte) := fun s =>
  some (fun i => .found (s.objects, i), { s with objects := s.objects + 1 })

/-- Writing to a string that grows does not fail. -/
def insertIntoTable (key : Key TrackedByte Nat) (value : Value TrackedByte Nat α) :
    Loader σ α Unit := fun s => some ((), { s with rows := s.rows ++ [⟨key, value⟩] })

/-! ## Strings -/

def newVarchar (n : Nat) : Loader σ α (Varchar TrackedByte n) := do
  return Varchar.new (← storage)

/-- The digits, the small and the capital letters, and the zero byte behind them. -/
def alpha : Bytes :=
  (List.range 10).map (fun i => UInt8.ofNat (48 + i)) ++
    (List.range 26).map (fun i => UInt8.ofNat (97 + i)) ++
    (List.range 26).map (fun i => UInt8.ofNat (65 + i)) ++ [0]

/-- `RandomString` -/
def randomString {n : Nat} (container : Varchar TrackedByte n) (length : Nat) :
    Loader σ α (Varchar TrackedByte n) := do
  let length := if n < length then n else length
  let container ← StateT.lift (container.resize length)
  (List.range length).foldlM (fun container i => do
    let x ← StateT.lift alpha[← uniform lib 0 62]?
    StateT.lift (container.assign i (.assigned x))) container

/-- A new string with a random length. -/
def randomOf (n lb ub : Nat) : Loader σ α (Varchar TrackedByte n) := do
  randomString lib (← newVarchar n) (← uniform lib lb ub)

def digit (n : Nat) : TrackedByte := .assigned (UInt8.ofNat (48 + n))

def randomZipCode : Loader σ α (Varchar TrackedByte 9) := do
  let id ← uniform lib 0 9999
  let result ← newVarchar 9
  let result ← StateT.lift (result.append (digit (id / 1000)))
  let result ← StateT.lift (result.append (digit (id / 100 % 10)))
  let result ← StateT.lift (result.append (digit (id / 10 % 10)))
  let result ← StateT.lift (result.append (digit (id % 10)))
  StateT.lift (Varchar.plus (← storage) result (List.replicate 5 (.assigned 49)))

/-- Two characters, one after the other. -/
def twoChars (x y : UInt8) : Loader σ α (Varchar TrackedByte 2) := do
  let v ← StateT.lift ((← newVarchar 2).append (.assigned x))
  StateT.lift (v.append (.assigned y))

/-- ORIGINAL -/
def ORIGINAL_STR : List TrackedByte := [79, 82, 73, 71, 73, 78, 65, 76].map .assigned

/-- For one row in ten the string is cut at a random position, and ORIGINAL stands there. -/
def originalString (lb ub : Nat) : Loader σ α (Varchar TrackedByte 50) := do
  let dataLen ← uniform lib lb ub
  let data ← randomString lib (← newVarchar 50) dataLen
  if (← uniform lib 1 10) = 1 then
    let data ← StateT.lift (data.resize (← uniform lib 0 (dataLen - ORIGINAL_STR.length)))
    StateT.lift (Varchar.plus (← storage) data ORIGINAL_STR)
  else return data

/-! ## Last names -/

/-- BAR, OUGHT, ABLE, PRI, PRES, ESE, ANTI, CALLY, ATION and EING. -/
def lastNames : List Bytes :=
  [[66, 65, 82], [79, 85, 71, 72, 84], [65, 66, 76, 69], [80, 82, 73], [80, 82, 69, 83],
    [69, 83, 69], [65, 78, 84, 73], [67, 65, 76, 76, 89], [65, 84, 73, 79, 78], [69, 73, 78, 71]]

/-- The three syllables of a number, cut at 16 characters. -/
def lastName (n : Nat) : Option Bytes := do
  let s1 ← lastNames[n / 100]?
  let s2 ← lastNames[n / 10 % 10]?
  let s3 ← lastNames[n % 10]?
  return (s1 ++ s2 ++ s3).take 16

/-- `GenerateLastName` -/
def generateLastName (n : Nat) : Loader σ α (Varchar TrackedByte 16) := do
  let name ← StateT.lift (lastName n)
  StateT.lift (Varchar.ofContainer (← storage) (name.map .assigned))

/-- `NURand(255, 0, 999)` with `C_LAST_LOAD_C`. -/
def getNonUniformRandomLastNameForLoad : Loader σ α Nat := do
  let a ← uniform lib 0 255
  let b ← uniform lib 0 999
  return ((a ||| b) + 157) % 1000

/-! ## Items, warehouses, stock and districts -/

section

variable [IntCast α]

def ITEMS_COUNT : Nat := 100000

def DISTRICT_COUNT : Int32 := 10

/-- One row of `initItem`. -/
def item (i : Nat) : Loader σ α Unit := do
  let i_im_id ← uniform lib 1 10000
  let i_name ← randomOf lib 24 14 24
  let i_price ← randomDouble lib 1 100
  let i_data ← originalString lib 25 50
  insertIntoTable (.ITEM (Int32.ofNat i)) (.ITEM
    { i_im_id := Int32.ofNat i_im_id, i_name := i_name, i_price := i_price, i_data := i_data })

def initItem : Loader σ α Bool := do
  (List.range' 1 ITEMS_COUNT).forM (item lib)
  return true

/-- One row of `initWarehouse`. -/
def warehouse (i : Int32) : Loader σ α Unit := do
  let w_name ← randomOf lib 10 6 10
  let w_street_1 ← randomOf lib 20 10 20
  let w_street_2 ← randomOf lib 20 10 20
  let w_city ← randomOf lib 20 10 20
  let w_state ← randomString lib (← newVarchar 2) 2
  let w_zip ← randomZipCode lib
  let w_tax ← randomDouble lib (1 / 10) (1 / 5)
  insertIntoTable (.WAREHOUSE (i + 1)) (.WAREHOUSE
    { w_name := w_name, w_street_1 := w_street_1, w_street_2 := w_street_2, w_city := w_city,
      w_state := w_state, w_zip := w_zip, w_tax := w_tax, w_ytd := ((3000000 : Int) : α) })

/-- The integers from `lo` up to `hi`, without `hi`. -/
def between (lo hi : Int32) : List Int32 :=
  (List.range (hi.toInt - lo.toInt).toNat).map fun k => lo + Int32.ofNat k

def initWarehouse (fromWhId toWhId : Int32) : Loader σ α Bool := do
  (between fromWhId toWhId).forM (warehouse lib)
  return true

/-- One row of `initStock`. -/
def stock (partitionID : Int32) (i : Nat) : Loader σ α Unit := do
  let s_quantity ← uniform lib 10 100
  let s_dist_01 ← randomString lib (← newVarchar 24) 24
  let s_dist_02 ← randomString lib (← newVarchar 24) 24
  let s_dist_03 ← randomString lib (← newVarchar 24) 24
  let s_dist_04 ← randomString lib (← newVarchar 24) 24
  let s_dist_05 ← randomString lib (← newVarchar 24) 24
  let s_dist_06 ← randomString lib (← newVarchar 24) 24
  let s_dist_07 ← randomString lib (← newVarchar 24) 24
  let s_dist_08 ← randomString lib (← newVarchar 24) 24
  let s_dist_09 ← randomString lib (← newVarchar 24) 24
  let s_dist_10 ← randomString lib (← newVarchar 24) 24
  let s_data ← originalString lib 26 50
  insertIntoTable (.STOCK (partitionID + 1) (Int32.ofNat (i + 1))) (.STOCK
    { s_quantity := ((s_quantity : Int) : α), s_dist_01 := s_dist_01, s_dist_02 := s_dist_02,
      s_dist_03 := s_dist_03, s_dist_04 := s_dist_04, s_dist_05 := s_dist_05,
      s_dist_06 := s_dist_06, s_dist_07 := s_dist_07, s_dist_08 := s_dist_08,
      s_dist_09 := s_dist_09, s_dist_10 := s_dist_10, s_ytd := ((0 : Int) : α),
      s_order_cnt := ((0 : Int) : α), s_remote_cnt := ((0 : Int) : α), s_data := s_data })

def initStock (partitionID : Int32) : Loader σ α Bool := do
  if partitionID < 0 then return false
  (List.range ITEMS_COUNT).forM (stock lib partitionID)
  return true

/-- One row of `initDistrict`. -/
def district (partitionID : Int32) (i : Nat) : Loader σ α Unit := do
  let d_name ← randomOf lib 10 6 10
  let d_street_1 ← randomOf lib 20 10 20
  let d_street_2 ← randomOf lib 20 10 20
  let d_city ← randomOf lib 20 10 20
  let d_state ← randomString lib (← newVarchar 2) 2
  let d_zip ← randomZipCode lib
  let d_tax ← randomDouble lib 0 (1 / 5)
  insertIntoTable (.DISTRICT (partitionID + 1) (Int32.ofNat i)) (.DISTRICT
    { d_name := d_name, d_street_1 := d_street_1, d_street_2 := d_street_2, d_city := d_city,
      d_state := d_state, d_zip := d_zip, d_tax := d_tax, d_ytd := ((3000000 : Int) : α),
      d_next_o_id := 3001 })

/-- The districts of a warehouse. -/
def districts (nDistrict : Int32) : List Nat := List.range' 1 nDistrict.toNatClampNeg

def initDistrict (nDistrict partitionID : Int32) : Loader σ α Bool := do
  if partitionID < 0 ∨ nDistrict ≤ 0 then return false
  (districts nDistrict).forM (district lib partitionID)
  return true

/-! ## Customers -/

/-- The number of a last name: the first customers have the names one by one. -/
def lastNameNumber (j : Nat) : Loader σ α Nat :=
  if j < 1000 then return j - 1 else getNonUniformRandomLastNameForLoad lib

/-- For one row in ten BC, and GC for the others. -/
def credit : Loader σ α (Varchar TrackedByte 2) := do
  if (← uniform lib 1 10) = 1 then twoChars 66 67 else twoChars 71 67

/-- A customer with their history; the map gets the customer. -/
def customer (env : Env) (partitionID : Int32) (i : Nat) (customerMap : CustomerMap) (j : Nat) :
    Loader σ α CustomerMap := do
  let c_middle ← twoChars 79 69
  let c_first ← randomOf lib 16 8 16
  let c_street_1 ← randomOf lib 20 10 20
  let c_street_2 ← randomOf lib 20 10 20
  let c_city ← randomOf lib 20 10 20
  let c_state ← randomString lib (← newVarchar 2) 2
  let c_zip ← randomZipCode lib
  let c_phone ← randomString lib (← newVarchar 16) 16
  let c_since ← time_now_ns
  let c_discount ← randomDouble lib 0 (1 / 2)
  let c_data ← randomOf lib 500 300 500
  let c_last ← generateLastName (← lastNameNumber lib j)
  let c_credit ← credit lib
  insertIntoTable (.CUSTOMER (partitionID + 1) (Int32.ofNat i) (Int32.ofNat j)) (.CUSTOMER
    { c_first := c_first, c_middle := c_middle, c_last := c_last, c_street_1 := c_street_1,
      c_street_2 := c_street_2, c_city := c_city, c_state := c_state, c_zip := c_zip,
      c_phone := c_phone, c_since := c_since, c_credit := c_credit,
      c_credit_lim := ((50000 : Int) : α), c_discount := c_discount,
      c_balance := ((-10 : Int) : α), c_ytd_payment := ((1 : Int) : α),
      c_payment_cnt := ((0 : Int) : α), c_delivery_cnt := ((0 : Int) : α), c_data := c_data })
  let name ← StateT.lift (c_last.map (Tracked.read env.mem)).toString
  let h_date ← time_now_ns
  let h_data ← randomOf lib 24 12 24
  insertIntoTable (.HISTORY (Int32.ofNat j) (Int32.ofNat i) (partitionID + 1) (Int32.ofNat i)
    (partitionID + 1) h_date) (.HISTORY { h_amount := ((10 : Int) : α), h_data := h_data })
  return pushBack name (c_first, Int32.ofNat j) customerMap

/-- `operator<` on a first name with an id. -/
def customerLess (env : Env) (a b : Varchar TrackedByte 16 × Int32) : Bool :=
  let x := a.1.map (Tracked.read env.mem)
  let y := b.1.map (Tracked.read env.mem)
  x.less y || (!y.less x && a.2 < b.2)

/-- `std::sort` on the lists of the map, if the comparisons stay in the arrays. Which of two equal
elements comes first makes no difference to what is read. -/
def sortLists (env : Env) (customerMap : CustomerMap) : Option CustomerMap :=
  if ∀ it ∈ customerMap, ∀ c ∈ it.2, c.1.size ≤ 16 then
    some (customerMap.map fun it => (it.1, it.2.mergeSort fun a b => !customerLess env b a))
  else none

/-- The entry of a last name; the list is sorted. -/
def lastNameEntry (partitionID : Int32) (i : Nat)
    (it : Bytes × List (Varchar TrackedByte 16 × Int32)) : Loader σ α Unit := do
  let c_last ← StateT.lift (Varchar.ofContainer (← storage) (it.1.map .assigned))
  let (_, c_id) ← StateT.lift it.2[(it.2.length - 1) / 2]?
  -- the id is checked to be valid
  let c_id ← StateT.lift (if 0 < c_id then some c_id else none)
  insertIntoTable (.CUSTOMER_WDL (partitionID + 1) (Int32.ofNat i) c_last) (.CUSTOMER_WDL c_id)

/-- The customers of a district, and the entries for the names in the map. The loop sorts each list
when it comes to it; the map is the one of all districts. -/
def districtCustomers (env : Env) (partitionID : Int32) (customerMap : CustomerMap) (i : Nat) :
    Loader σ α CustomerMap := do
  let customerMap ← (List.range' 1 3000).foldlM (customer lib env partitionID i) customerMap
  let customerMap ← StateT.lift (sortLists env customerMap)
  (lib.order customerMap).forM (lastNameEntry partitionID i)
  return customerMap

def initCustomer (env : Env) (nDistrict partitionID : Int32) : Loader σ α Bool := do
  if partitionID < 0 ∨ nDistrict ≤ 0 then return false
  let _ ← (districts nDistrict).foldlM (districtCustomers lib env partitionID) []
  return true

/-! ## Orders -/

/-- The first orders have been delivered. -/
def carrierId (j : Nat) : Loader σ α Nat := if j < 2101 then uniform lib 1 10 else return 0

/-- An order of `initOrder`. -/
def order (partitionID : Int32) (i : Nat) (c_ids : List Int32) (j : Nat) : Loader σ α Unit := do
  let o_c_id ← StateT.lift c_ids[j - 1]?
  let o_entry_d ← time_now_ns
  let o_carrier_id ← carrierId lib j
  let o_ol_cnt ← uniform lib 5 14
  insertIntoTable (.ORDER (partitionID + 1) (Int32.ofNat i) (Int32.ofNat j)) (.ORDER
    { o_c_id := o_c_id, o_entry_d := o_entry_d, o_carrier_id := Int32.ofNat o_carrier_id,
      o_ol_cnt := ((o_ol_cnt : Int) : α), o_all_local := ((1 : Int) : α) })
  insertIntoTable (.ORDER_WDC (partitionID + 1) (Int32.ofNat i) o_c_id (Int32.ofNat j)) .ORDER_WDC

/-- An order that is not yet delivered. -/
def newOrder (partitionID : Int32) (i j : Nat) : Loader σ α Unit :=
  insertIntoTable (.NEW_ORDER (partitionID + 1) (Int32.ofNat i) (Int32.ofNat j)) (.NEW_ORDER 0)

/-- The orders of a district; the customers are shuffled once more. -/
def districtOrders (partitionID : Int32) (c_ids : List Int32) (i : Nat) :
    Loader σ α (List Int32) := do
  let c_ids ← shuffle lib c_ids
  (List.range' 1 3000).forM (order lib partitionID i c_ids)
  (List.range' 2100 901).forM (newOrder partitionID i)
  return c_ids

def initOrder (nDistrict partitionID : Int32) : Loader σ α Bool := do
  if partitionID < 0 ∨ nDistrict ≤ 0 then return false
  let _ ← (districts nDistrict).foldlM (districtOrders lib partitionID)
    ((List.range' 1 3000).map Int32.ofNat)
  return true

/-! ## The whole database -/

/-- `CalculatePartition`: the partitions from the first up to the second. The products are
unsigned. -/
def calculatePartition (myId nodesCount warehouseCount : Int32) : Int32 × Int32 :=
  let blockSize := (warehouseCount / nodesCount).toInt64.toUInt64
  let begin := myId.toInt64.toUInt64 * blockSize
  let end_ := if myId = nodesCount - 1 then warehouseCount.toInt64.toUInt64 else begin + blockSize
  (begin.toUInt32.toInt32, end_.toUInt32.toInt32)

/-- One partition of `InitDatabase`, if the others before it have succeeded. -/
def initPartition (env : Env) (ok : Bool) (partition : Int32) : Loader σ α Bool := do
  if !ok then return false
  if !(← initStock lib partition) then return false
  if !(← initDistrict lib DISTRICT_COUNT partition) then return false
  if !(← initCustomer lib env DISTRICT_COUNT partition) then return false
  initOrder lib DISTRICT_COUNT partition

/-- The generator has been seeded: any state of it is that of a seed. -/
def initDatabase (env : Env) (warehouseCount : Int32) : Loader σ α Int32 := do
  if !(← initItem lib) then return -1
  let (beginPartition, endPartition) := calculatePartition 0 1 warehouseCount
  if !(← initWarehouse lib beginPartition endPartition) then return -1
  let ok ← (between beginPartition endPartition).foldlM (initPartition lib env) true
  return if ok then 0 else -1

end

end

end MassBFT.TPCC
