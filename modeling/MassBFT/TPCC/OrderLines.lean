import MassBFT.TPCC.Orders

/-!
# Order lines

The key of an order line has the warehouse, the district, the order and the line number. Where the
order belongs, `executeNewOrder` writes the district once more. So the orders of a district share
their keys, and an order's lines are not under its number.

**The lines are kept exactly if every order with lines happens to have the number of its district**
(`order_lines_kept`): then a district has one such order, and its key is right by chance.
-/

set_option autoImplicit false

namespace MassBFT.TPCC

open Exec (Database lookup Chaincodes)
open Placed

variable {α : Type}

/-- The key that a line of the order belongs under. -/
def Placed.rightKey (p : Placed α) (line : Line α) : DbKey :=
  .ORDER_LINE p.newOrder.warehouseId p.newOrder.districtId p.o_id line.number

/-- Different orders write their lines under different keys, and every order has its own lines. -/
structure LinesKept (w : Wire) (numeric : Codec α) (orders : List (Placed α)) (db' : Database) :
    Prop where
  keys : orders.Pairwise fun p q =>
    ∀ line ∈ p.lines, ∀ line' ∈ q.lines, p.newOrder.lineKey line ≠ q.newOrder.lineKey line'
  lines : ∀ p ∈ orders, ∀ line ∈ p.lines,
    lookup db' ((p.rightKey line).raw w) (OrderLine.codec w numeric) = some line.value

/-- The order has no lines, or its number is that of its district. -/
def Placed.OwnNumber (p : Placed α) : Prop := p.lines = [] ∨ p.o_id = p.newOrder.districtId

instance (p : Placed α) : Decidable p.OwnNumber :=
  inferInstanceAs (Decidable (p.lines = [] ∨ p.o_id = p.newOrder.districtId))

section

variable [Add α] [Sub α] [Mul α] [IntCast α] [LE α] [DecidableLE α] {w : Wire} {numeric : Codec α}
  {db db' : Database} {orders : List (Placed α)} {p q : Placed α} {line : Line α}

omit [Add α] [Sub α] [Mul α] [IntCast α] [LE α] [DecidableLE α] in
/-- An order writes the lines of its district, under the number of the district. -/
theorem mem_keys_line {w_id d_id o_id number : Int32} :
    Key.ORDER_LINE w_id d_id o_id number ∈ p.keys ↔
      ∃ line ∈ p.lines, p.newOrder.lineKey line = .ORDER_LINE w_id d_id o_id number := by
  simp [keys, districtKey, orderKey, orderWdcKey, newOrderKey, eq_comm]

omit [Add α] [Sub α] [Mul α] [IntCast α] [LE α] [DecidableLE α] in
theorem Placed.OwnNumber.rightKey_eq (h : p.OwnNumber) (hline : line ∈ p.lines) :
    p.rightKey line = p.newOrder.lineKey line ∧ p.o_id = p.newOrder.districtId := by
  rcases h with hnil | hid
  · rw [hnil] at hline
    cases hline
  · exact ⟨by rw [rightKey, NewOrder.lineKey, hid], hid⟩

/-- A later order with lines is of another district. -/
theorem lineKey_ne (hw : w.Inverts) (hnumeric : numeric.Total)
    (h : Trades w numeric (p.after w numeric db) orders db') (hp : p.Fits)
    (hfits : ∀ q ∈ orders, q.Fits) (hown : p.OwnNumber) (hq : q ∈ orders) (hown' : q.OwnNumber)
    (hline : line ∈ p.lines) {line' : Line α} (hline' : line' ∈ q.lines) :
    p.newOrder.lineKey line ≠ q.newOrder.lineKey line' := by
  intro hkey
  simp only [NewOrder.lineKey, Key.ORDER_LINE.injEq] at hkey
  obtain ⟨hwarehouse, hdistrict, -, -⟩ := hkey
  refine h.number_ne hw hnumeric hp hfits hq ?_ ?_
  · rw [districtKey, districtKey, hwarehouse, hdistrict]
  · rw [(hown'.rightKey_eq hline').2, (hown.rightKey_eq hline).2, hdistrict]

/-- **Lines are kept if every order with lines has the number of its district.** -/
theorem Trades.linesKept (hw : w.Inverts) (hnumeric : numeric.Total)
    (h : Trades w numeric db orders db') (hnumbers : ∀ p ∈ orders, (p.lines.map Line.number).Nodup)
    (hown : ∀ p ∈ orders, p.OwnNumber ∧ p.Fits) : LinesKept w numeric orders db' := by
  induction h with
  | nil db => exact ⟨.nil, fun p hp => nomatch hp⟩
  | @cons db db' p later args now rest ih =>
    obtain ⟨hp, hlater⟩ := List.forall_mem_cons.mp hown
    obtain ⟨hpnumbers, hlaterNumbers⟩ := List.forall_mem_cons.mp hnumbers
    obtain ⟨hkeys, hlines⟩ := ih hlaterNumbers hlater
    have hne : ∀ q ∈ later, ∀ line ∈ p.lines, ∀ line' ∈ q.lines,
        p.newOrder.lineKey line ≠ q.newOrder.lineKey line' :=
      fun q hq line hline line' hline' => lineKey_ne hw hnumeric rest hp.2
        (fun r hr => (hlater r hr).2) hp.1 hq (hlater q hq).1 hline hline'
    refine ⟨.cons hne hkeys, List.forall_mem_cons.mpr ⟨fun line hline => ?_, hlines⟩⟩
    rw [(hp.1.rightKey_eq hline).1, ← lookup_line hw hnumeric hpnumbers hline]
    refine Exec.lookup_congr (rest.frame hw fun q hq hkey => ?_)
    obtain ⟨line', hline', hsame⟩ := mem_keys_line.mp hkey
    exact hne q hq line hline line' hline' hsame.symm

/-- Of an order with lines under its own number, that is the number of its district. -/
theorem Trades.ownNumber (hw : w.Inverts) (h : Trades w numeric db orders db')
    (hkept : LinesKept w numeric orders db')
    (hfresh : ∀ p ∈ orders, ∀ line ∈ p.lines, db ((p.rightKey line).raw w) = none) :
    ∀ p ∈ orders, p.OwnNumber := by
  intro p hp
  by_contra hother
  obtain ⟨hnonempty, hid⟩ := not_or.mp hother
  obtain ⟨line, hline⟩ := List.exists_mem_of_ne_nil _ hnonempty
  -- nobody writes under a number that is not a district's
  have hframe : db' ((p.rightKey line).raw w) = db ((p.rightKey line).raw w) := by
    refine h.frame hw fun q hq hkey => ?_
    obtain ⟨line', -, hsame⟩ := mem_keys_line.mp hkey
    simp only [NewOrder.lineKey, Key.ORDER_LINE.injEq] at hsame
    exact hid (hsame.2.2.1.symm.trans hsame.2.1)
  have hfound := hkept.lines p hp line hline
  rw [Exec.lookup_of_none (hframe.trans (hfresh p hp line hline))] at hfound
  cases hfound

/-- **Order lines are kept as long as every order with lines has the number of its district.**
Requests for new orders are executed one after another, and no counter overflows. If the lines are
kept, and the database had no lines for these orders before, then it was so. -/
theorem order_lines_kept (hw : w.Inverts) (hnumeric : numeric.Total) {cc : Chaincodes}
    {mem : Nat → Nat → UInt8} {n : Nat} (hn : 1 ≤ n) {requests : List Replication.Envelop}
    {args : List Bytes} (hasks : List.Forall₂ (AsksNewOrder w cc numeric mem) requests args)
    {left : List Mix.Processed} (hrun : Mix.OneByOne w cc n db requests left db')
    (hnumbers : ∀ p ∈ ordersOf w numeric db args, (p.lines.map Line.number).Nodup) :
    let orders := ordersOf w numeric db args
    left.map Mix.Processed.retResults =
        (placements w numeric db args).map (fun p => [p.isSome]) ∧
      ((∀ p ∈ orders, p.OwnNumber ∧ p.Fits) → LinesKept w numeric orders db') ∧
      ((∀ p ∈ orders, ∀ line ∈ p.lines, db ((p.rightKey line).raw w) = none) →
        LinesKept w numeric orders db' → ∀ p ∈ orders, p.OwnNumber) := by
  obtain ⟨hresults, htrades⟩ := oneByOne_newOrders hn hasks hrun
  exact ⟨hresults, htrades.linesKept hw hnumeric hnumbers,
    fun hfresh hkept => htrades.ownNumber hw hkept hfresh⟩

end

/-- The shop with a second district, of which the counter is at 2. -/
def twoDistricts : Database :=
  Exec.DbOp.applyAll (shop 1)
    [.put ((Key.DISTRICT 1 2).raw littleEndian)
        ((shop 2 ((Key.DISTRICT 1 1).raw littleEndian)).getD []),
      .put ((Key.CUSTOMER 1 2 1).raw littleEndian)
        ((shop 1 ((Key.CUSTOMER 1 1 1).raw littleEndian)).getD [])]

/-- An order of two pieces there. -/
def piecesInSecond : Bytes := (NewOrder.codec littleEndian).put ⟨1, 2, 1, 1, [1], [1], [1], [2], 0⟩

/-- One order in each district, and both counters are at the number of their district: both lines
are found. -/
theorem order_lines_kept_two_districts : ∃ left db',
    Mix.OneByOne littleEndian shopChaincodes 1 twoDistricts
      [piecesRequest 1 1, Mix.request 2 [116, 112, 99, 99] [110] piecesInSecond] left db' ∧
    left.map Mix.Processed.retResults = [[true], [true]] ∧
    LinesKept littleEndian littleEndian.ofInt32
      (ordersOf littleEndian littleEndian.ofInt32 twoDistricts [pieces 1, piecesInSecond])
      db' := by
  have hasks := List.Forall₂.cons asks_one_piece (.cons (⟨_, rfl, rfl, rfl, rfl⟩ :
    AsksNewOrder littleEndian shopChaincodes littleEndian.ofInt32 (fun _ _ => 0)
      (Mix.request 2 [116, 112, 99, 99] [110] piecesInSecond) piecesInSecond) .nil)
  obtain ⟨left, hrun⟩ := exists_two twoDistricts hasks ⟨0, by decide +kernel⟩ ⟨0, by decide +kernel⟩
  obtain ⟨hresults, hkept, -⟩ := order_lines_kept littleEndian.inverts
    littleEndian.inverts.ofInt32 (le_refl 1) hasks hrun (by decide +kernel)
  refine ⟨left, _, hrun, ?_, hkept (by decide +kernel)⟩
  rw [hresults]
  decide +kernel

/-- Two orders of one district, with the numbers 3001 and 3002: neither has its line, and the line
of the second has replaced that of the first. -/
theorem order_line_replaced : ∃ left db',
    Mix.OneByOne littleEndian shopChaincodes 1 (shop 3001) [piecesRequest 1 1, piecesRequest 2 2]
      left db' ∧
    left.map Mix.Processed.retResults = [[true], [true]] ∧
    lookup db' ((Key.ORDER_LINE 1 1 3001 1).raw littleEndian)
      (OrderLine.codec littleEndian littleEndian.ofInt32) = none ∧
    lookup db' ((Key.ORDER_LINE 1 1 3002 1).raw littleEndian)
      (OrderLine.codec littleEndian littleEndian.ofInt32) = none ∧
    (lookup db' ((Key.ORDER_LINE 1 1 1 1).raw littleEndian)
      (OrderLine.codec littleEndian littleEndian.ofInt32)).map OrderLine.ol_quantity = some 2 := by
  have hasks := List.Forall₂.cons asks_one_piece (.cons asks_two_pieces .nil)
  obtain ⟨left, hrun⟩ := exists_two (shop 3001) hasks ⟨0, by decide +kernel⟩ ⟨0, by decide +kernel⟩
  refine ⟨left, _, hrun, ?_, ?_, ?_, ?_⟩
  · rw [(oneByOne_newOrders (le_refl 1) hasks hrun).1]
    decide +kernel
  · decide +kernel
  · decide +kernel
  · decide +kernel

end MassBFT.TPCC
