import MassBFT.Mix.Alone
import MassBFT.TPCC.NewOrder

/-!
# Orders, one after another

What an order leaves in the database is said once, key by key; every result about a sequence of
orders follows from that by induction over the sequence (`Trades`).

The numbers of a district's orders are consecutive, and the `ORDER` and `NEW_ORDER` rows are found
afterwards. **The `ORDER_WDC` row never is**: it has no fields, its encoding is empty, and an empty
value is committed as a delete.
-/

set_option autoImplicit false

namespace MassBFT.TPCC

open Exec (Database DbOp Program ORM KV Stores lookup Chaincodes)
open Placed

/-! ## What an order leaves in the database -/

namespace Placed

variable {α : Type} [IntCast α] {w : Wire} {numeric : Codec α} {db : Database} {p : Placed α}
  {key : DbKey}

/-- The database after the order. -/
def after (w : Wire) (numeric : Codec α) (db : Database) (p : Placed α) : Database :=
  DbOp.applyAll db (Exec.updatesOf (p.writes w numeric))

omit [IntCast α] in
/-- The keys that an order writes. -/
def keys (p : Placed α) : List DbKey :=
  [p.districtKey, p.orderKey, p.orderWdcKey, p.newOrderKey] ++
    p.lines.flatMap fun line => [.STOCK line.supply_w_id line.i_id, p.newOrder.lineKey line]

theorem keys_writes : Exec.keys (p.writes w numeric) = p.keys.map (Key.raw w) := by
  simp [Exec.keys, writes, header, keys, NewOrder.lineWrites, List.map_flatMap]

/-- What is not written stays. -/
theorem after_of_not_mem (hw : w.Inverts) (h : key ∉ p.keys) :
    p.after w numeric db (key.raw w) = db (key.raw w) := by
  refine Exec.applyAll_of_not_mem_keys ?_
  rw [keys_writes, List.mem_map]
  rintro ⟨key', hkey', hraw⟩
  rw [(Key.raw_inj hw).mp hraw] at hkey'
  exact h hkey'

theorem mem_writes {kv : KV} : kv ∈ p.writes w numeric ↔
    kv ∈ p.header w numeric ∨ ∃ line ∈ p.lines,
      kv = ⟨(Key.STOCK line.supply_w_id line.i_id).raw w, (Stock.codec w numeric).put line.stock⟩ ∨
      kv = ⟨(p.newOrder.lineKey line).raw w, (OrderLine.codec w numeric).put line.value⟩ := by
  simp [writes, NewOrder.lineWrites]

/-- The rows in front of the lines have different keys. -/
theorem nodup_header (hw : w.Inverts) : (Exec.keys (p.header w numeric)).Nodup := by
  simp [Exec.keys, header, Key.raw_inj hw, districtKey, orderKey, orderWdcKey, newOrderKey]

/-- The row of a table that the lines do not touch is one of them. -/
theorem mem_header (hw : w.Inverts) {value : Bytes} (hstock : key.table ≠ .STOCK)
    (hline : key.table ≠ .ORDER_LINE) (h : ⟨key.raw w, value⟩ ∈ p.writes w numeric) :
    ⟨key.raw w, value⟩ ∈ p.header w numeric := by
  rcases mem_writes.mp h with h | ⟨line, -, h | h⟩
  · exact h
  · rw [KV.mk.injEq, Key.raw_inj hw] at h
    exact absurd (congrArg Key.table h.1) hstock
  · rw [KV.mk.injEq, Key.raw_inj hw] at h
    exact absurd (congrArg Key.table h.1) hline

/-- So it is what was written, or nothing if that was empty. -/
theorem after_header (hw : w.Inverts) {value : Bytes}
    (hstock : key.table ≠ .STOCK) (hline : key.table ≠ .ORDER_LINE)
    (h : ⟨key.raw w, value⟩ ∈ p.header w numeric) :
    p.after w numeric db (key.raw w) = if value.isEmpty then none else some value := by
  refine Exec.applyAll_of_mem_keys (mem_writes.mpr (.inl h)) fun kv hkv hkey => ?_
  obtain ⟨k, v⟩ := kv
  cases hkey
  have hkv' := mem_header hw hstock hline hkv
  exact congrArg KV.value (List.inj_on_of_nodup_map (nodup_header hw) hkv' h rfl)

/-- A row in front of the lines is found. -/
theorem lookup_header (hw : w.Inverts) {β : Type} {c : Codec β} {value : β}
    (hvalue : Stores c value) (hstock : key.table ≠ .STOCK) (hline : key.table ≠ .ORDER_LINE)
    (h : ⟨key.raw w, c.put value⟩ ∈ p.header w numeric) :
    lookup (p.after w numeric db) (key.raw w) c = some value := by
  refine Exec.lookup_of_stored hvalue ?_
  rw [after_header hw hstock hline h, if_neg]
  simpa using hvalue.nonempty

theorem lookup_district (hw : w.Inverts) (hnumeric : numeric.Total) :
    lookup (p.after w numeric db) (p.districtKey.raw w) (District.codec w numeric) =
      some p.nextDistrict := by
  have hother : { p.nextDistrict with d_next_o_id := p.o_id } ≠ p.nextDistrict := by
    intro h
    have hid := congrArg District.d_next_o_id h
    simp [nextDistrict] at hid
  have htotal := District.codec_total hw hnumeric
  exact lookup_header hw ⟨htotal _, htotal.put_ne_nil hother⟩ nofun nofun (by simp [header])

theorem lookup_order (hw : w.Inverts) (hnumeric : numeric.Total) :
    lookup (p.after w numeric db) (p.orderKey.raw w) (Order.codec w numeric) = some p.row := by
  have hother : { p.row with o_carrier_id := 1 } ≠ p.row := by
    intro h
    have hid := congrArg Order.o_carrier_id h
    simp [row] at hid
  have htotal := Order.codec_total hw hnumeric
  exact lookup_header hw ⟨htotal _, htotal.put_ne_nil hother⟩ nofun nofun (by simp [header])

theorem lookup_newOrder (hw : w.Inverts) :
    lookup (p.after w numeric db) (p.newOrderKey.raw w) w.ofInt32 = some 0 :=
  lookup_header hw (stores_int32 hw 0) nofun nofun (by simp [header])

/-- Without fields, the row is an empty value, and an empty value is a delete. -/
theorem after_orderWdc (hw : w.Inverts) : p.after w numeric db (p.orderWdcKey.raw w) = none := by
  have hwritten : (⟨p.orderWdcKey.raw w, []⟩ : KV) ∈ p.header w numeric := by simp [header]
  have hstock : p.orderWdcKey.table ≠ .STOCK := nofun
  have hline : p.orderWdcKey.table ≠ .ORDER_LINE := nofun
  exact after_header hw hstock hline hwritten

/-- A line is found under the key that it was written with, if no other has its number. -/
theorem lookup_line (hw : w.Inverts) (hnumeric : numeric.Total)
    (hnumbers : (p.lines.map Line.number).Nodup) {line : Line α} (hline : line ∈ p.lines) :
    lookup (p.after w numeric db) ((p.newOrder.lineKey line).raw w) (OrderLine.codec w numeric) =
      some line.value := by
  have hother : { line.value with ol_i_id := line.value.ol_i_id + 1 } ≠ line.value := by
    intro h
    have hid := congrArg OrderLine.ol_i_id h
    simp at hid
  have htotal := OrderLine.codec_total hw hnumeric
  have hstores : Stores (OrderLine.codec w numeric) line.value :=
    ⟨htotal _, htotal.put_ne_nil hother⟩
  refine Exec.lookup_of_stored hstores ?_
  have hunique : ∀ kv ∈ p.writes w numeric, kv.key = (p.newOrder.lineKey line).raw w →
      kv.value = (OrderLine.codec w numeric).put line.value := by
    intro kv hkv hkey
    rcases mem_writes.mp hkv with h | ⟨line', hline', rfl | rfl⟩
    · simp only [header, List.mem_cons, List.not_mem_nil, or_false] at h
      rcases h with rfl | rfl | rfl | rfl
      all_goals exact nomatch (Key.raw_inj hw).mp hkey
    · exact nomatch (Key.raw_inj hw).mp hkey
    · have hnumber : line'.number = line.number := by
        simpa [NewOrder.lineKey] using (Key.raw_inj hw).mp hkey
      rw [List.inj_on_of_nodup_map hnumbers hline' hline hnumber]
  rw [after, Exec.applyAll_of_mem_keys (mem_writes.mpr (.inr ⟨line, hline, .inr rfl⟩)) hunique,
    if_neg]
  simpa using hstores.nonempty

end Placed

/-! ## A sequence of orders -/

section

variable {α : Type} [Add α] [Sub α] [Mul α] [IntCast α] [LE α] [DecidableLE α]

/-- The database after a request. -/
def afterRequest (w : Wire) (numeric : Codec α) (db : Database) (args : Bytes) : Database :=
  match place w numeric db args with
  | none => db
  | some p => p.after w numeric db

/-- What becomes of requests that are executed one after another. -/
def placements (w : Wire) (numeric : Codec α) (db : Database) :
    List Bytes → List (Option (Placed α))
  | [] => []
  | args :: rest =>
    place w numeric db args :: placements w numeric (afterRequest w numeric db args) rest

/-- The orders among them. -/
def ordersOf (w : Wire) (numeric : Codec α) (db : Database) (args : List Bytes) : List (Placed α) :=
  (placements w numeric db args).filterMap id

/-- Orders one after another, each on what the earlier ones have left. -/
inductive Trades (w : Wire) (numeric : Codec α) : Database → List (Placed α) → Database → Prop
  | nil (db : Database) : Trades w numeric db [] db
  | cons {db db' : Database} {p : Placed α} {later : List (Placed α)} {args : Bytes}
      (now : place w numeric db args = some p)
      (rest : Trades w numeric (p.after w numeric db) later db') :
      Trades w numeric db (p :: later) db'

variable {w : Wire} {numeric : Codec α} {db db' : Database} {p : Placed α}
  {orders : List (Placed α)}

theorem trades_ordersOf (args : List Bytes) (db : Database) :
    Trades w numeric db (ordersOf w numeric db args) (args.foldl (afterRequest w numeric) db) := by
  induction args generalizing db with
  | nil => exact .nil db
  | cons a rest ih =>
    have hrest := ih (afterRequest w numeric db a)
    rw [List.foldl_cons]
    cases hplace : place w numeric db a with
    | none =>
      have horders : ordersOf w numeric db (a :: rest) =
          ordersOf w numeric (afterRequest w numeric db a) rest := by
        simp [ordersOf, placements, hplace]
      rw [horders]
      have hsame : afterRequest w numeric db a = db := by rw [afterRequest, hplace]
      rw [hsame] at hrest ⊢
      exact hrest
    | some p =>
      have hafter : afterRequest w numeric db a = p.after w numeric db := by
        rw [afterRequest, hplace]
      have horders : ordersOf w numeric db (a :: rest) =
          p :: ordersOf w numeric (afterRequest w numeric db a) rest := by
        simp [ordersOf, placements, hplace]
      rw [horders]
      rw [hafter] at hrest ⊢
      exact .cons hplace hrest

/-- An order has found its district. -/
theorem lookup_of_place {args : Bytes} (h : place w numeric db args = some p) :
    lookup db (p.districtKey.raw w) (District.codec w numeric) = some p.district := by
  simp only [place, Option.bind_eq_bind, Option.bind_eq_some_iff] at h
  obtain ⟨⟨newOrder, rest⟩, -, wValue, -, dValue, hdistrict, cValue, -, lines, -, hp⟩ := h
  cases hp
  exact hdistrict

variable (h : Trades w numeric db orders db')

include h in
/-- What no order writes stays. -/
theorem Trades.frame (hw : w.Inverts) {key : DbKey}
    (hkey : ∀ p ∈ orders, key ∉ p.keys) : db' (key.raw w) = db (key.raw w) := by
  induction h with
  | nil db => rfl
  | cons now rest ih =>
    rw [ih fun q hq => hkey q (List.mem_cons_of_mem _ hq)]
    exact after_of_not_mem hw (hkey _ List.mem_cons_self)

/-! ### Order numbers -/

/-- The orders of a district. -/
def ordersIn (w_id d_id : Int32) (orders : List (Placed α)) : List (Placed α) :=
  orders.filter fun p => p.newOrder.warehouseId = w_id ∧ p.newOrder.districtId = d_id

/-- The counter of the district does not overflow. -/
def Placed.Fits (p : Placed α) : Prop := p.o_id ≠ Int32.maxValue

instance (p : Placed α) : Decidable p.Fits := inferInstanceAs (Decidable (p.o_id ≠ Int32.maxValue))

theorem toInt_succ {z : Int32} (h : z ≠ Int32.maxValue) : (z + 1).toInt = z.toInt + 1 := by
  have hne : z.toInt ≠ 2 ^ 31 - 1 := fun hz => h (Int32.toInt_inj.mp hz)
  have hlt := z.toInt_lt
  have hle := z.le_toInt
  rw [Int32.toInt_add, Int32.toInt_one]
  exact Int.bmod_eq_of_le (by omega) (by omega)

omit [Add α] [Sub α] [Mul α] [IntCast α] [LE α] [DecidableLE α] in
theorem mem_keys_district {w_id d_id : Int32} : Key.DISTRICT w_id d_id ∈ p.keys ↔
    p.newOrder.warehouseId = w_id ∧ p.newOrder.districtId = d_id := by
  simp [keys, districtKey, orderKey, orderWdcKey, newOrderKey, NewOrder.lineKey, eq_comm]

include h in
/-- **The numbers of a district are consecutive**, and its counter goes on behind them. -/
theorem Trades.numbers (hw : w.Inverts) (hnumeric : numeric.Total) (hfits : ∀ p ∈ orders, p.Fits)
    {w_id d_id : Int32} {district : District UInt8 α}
    (hdistrict : lookup db ((Key.DISTRICT w_id d_id).raw w) (District.codec w numeric) =
      some district) :
    (ordersIn w_id d_id orders).map (·.o_id.toInt) =
        (List.range (ordersIn w_id d_id orders).length).map
          (fun k : Nat => district.d_next_o_id.toInt + (k : Int)) ∧
      ∃ district', lookup db' ((Key.DISTRICT w_id d_id).raw w) (District.codec w numeric) =
          some district' ∧
        district'.d_next_o_id.toInt =
          district.d_next_o_id.toInt + (ordersIn w_id d_id orders).length := by
  induction h generalizing district with
  | nil db => exact ⟨rfl, district, hdistrict, (Int.add_zero _).symm⟩
  | @cons db db' p later args now rest ih =>
    have hlater := fun q hq => hfits q (List.mem_cons_of_mem p hq)
    by_cases hin : p.newOrder.warehouseId = w_id ∧ p.newOrder.districtId = d_id
    · -- the order takes the next number
      have hkey : Key.DISTRICT w_id d_id = p.districtKey := by rw [districtKey, hin.1, hin.2]
      rw [hkey, lookup_of_place now] at hdistrict
      cases hdistrict
      have hnext : p.nextDistrict.d_next_o_id.toInt = p.district.d_next_o_id.toInt + 1 :=
        toInt_succ (hfits p List.mem_cons_self)
      have hfound := @lookup_district α _ w numeric db p hw hnumeric
      rw [← hkey] at hfound
      obtain ⟨hnumbers, district', hdistrict', hcount⟩ := ih hlater hfound
      have horders : ordersIn w_id d_id (p :: later) = p :: ordersIn w_id d_id later :=
        List.filter_cons_of_pos (decide_eq_true hin)
      rw [horders, List.length_cons, List.map_cons, hnumbers, List.range_succ_eq_map, List.map_cons,
        List.map_map, hnext]
      refine ⟨?_, district', hdistrict', ?_⟩
      · congr 1
        · exact (Int.add_zero _).symm
        · refine List.map_congr_left fun k _ => ?_
          simp only [Function.comp_apply, Nat.succ_eq_add_one]
          omega
      · rw [hcount, hnext]
        omega
    · -- the order is of another district
      have horders : ordersIn w_id d_id (p :: later) = ordersIn w_id d_id later :=
        List.filter_cons_of_neg (by simpa using hin)
      rw [horders]
      refine ih hlater ?_
      rw [← hdistrict]
      exact Exec.lookup_congr (after_of_not_mem hw (mt mem_keys_district.mp hin))

/-- A later order of the district has another number. -/
theorem Trades.number_ne (hw : w.Inverts) (hnumeric : numeric.Total)
    (h : Trades w numeric (p.after w numeric db) orders db') (hp : p.Fits)
    (hfits : ∀ q ∈ orders, q.Fits) {q : Placed α} (hq : q ∈ orders)
    (hsame : q.districtKey = p.districtKey) : q.o_id ≠ p.o_id := by
  intro hid
  obtain ⟨hnumbers, -⟩ := h.numbers hw hnumeric hfits (lookup_district hw hnumeric)
  have hnext : p.nextDistrict.d_next_o_id.toInt = p.o_id.toInt + 1 := toInt_succ hp
  have hmem : q ∈ ordersIn p.newOrder.warehouseId p.newOrder.districtId orders := by
    simp only [districtKey, Key.DISTRICT.injEq] at hsame
    exact List.mem_filter.mpr ⟨hq, decide_eq_true hsame⟩
  have hnumber := List.mem_map_of_mem (f := fun q : Placed α => q.o_id.toInt) hmem
  rw [hnumbers] at hnumber
  obtain ⟨k, -, hk⟩ := List.mem_map.mp hnumber
  rw [hnext, hid] at hk
  omega

/-! ### Rows of an order -/

include h in
/-- The rows of an order in the tables `ORDER` and `NEW_ORDER` are found at the end. -/
theorem Trades.found (hw : w.Inverts) (hnumeric : numeric.Total) (hfits : ∀ p ∈ orders, p.Fits) :
    ∀ p ∈ orders, lookup db' (p.orderKey.raw w) (Order.codec w numeric) = some p.row ∧
      lookup db' (p.newOrderKey.raw w) w.ofInt32 = some 0 := by
  induction h with
  | nil db => exact fun p hp => nomatch hp
  | @cons db db' p later args now rest ih =>
    have hlater := fun q hq => hfits q (List.mem_cons_of_mem p hq)
    intro q hq
    rcases List.mem_cons.mp hq with rfl | hq
    · -- no later order has this number, so none writes these rows
      have hne : ∀ r ∈ later, q.orderKey ∉ r.keys ∧ q.newOrderKey ∉ r.keys := by
        intro r hr
        have hnumber := rest.number_ne hw hnumeric (hfits q List.mem_cons_self) hlater hr
        simp only [districtKey, Key.DISTRICT.injEq] at hnumber
        simp only [keys, districtKey, orderKey, orderWdcKey,
          newOrderKey, NewOrder.lineKey, List.mem_append, List.mem_cons, List.mem_flatMap]
        grind
      have horder := @lookup_order α _ w numeric db q hw hnumeric
      have hnewOrder := @lookup_newOrder α _ w numeric db q hw
      rw [← horder, ← hnewOrder]
      exact ⟨Exec.lookup_congr (rest.frame hw fun r hr => (hne r hr).1),
        Exec.lookup_congr (rest.frame hw fun r hr => (hne r hr).2)⟩
    · exact ih hlater q hq

include h in
/-- A row that is missing in `ORDER_WDC` stays so. -/
theorem Trades.orderWdc_none (hw : w.Inverts)
    {w_id d_id c_id o_id : Int32} (hnone : db ((Key.ORDER_WDC w_id d_id c_id o_id).raw w) = none) :
    db' ((Key.ORDER_WDC w_id d_id c_id o_id).raw w) = none := by
  induction h with
  | nil db => exact hnone
  | @cons db db' p later args now rest ih =>
    refine ih ?_
    by_cases hkey : Key.ORDER_WDC w_id d_id c_id o_id = p.orderWdcKey
    · rw [hkey]
      exact after_orderWdc hw
    · rw [after_of_not_mem hw, hnone]
      simpa [keys, districtKey, orderKey, newOrderKey, NewOrder.lineKey] using hkey

include h in
/-- **No order is ever found in `ORDER_WDC`.** -/
theorem Trades.orderWdc_missing (hw : w.Inverts) :
    ∀ p ∈ orders, lookup db' (p.orderWdcKey.raw w) .unit = none := by
  induction h with
  | nil db => exact fun p hp => nomatch hp
  | @cons db db' p later args now rest ih =>
    intro q hq
    rcases List.mem_cons.mp hq with rfl | hq
    · exact Exec.lookup_of_none (rest.orderWdc_none hw (after_orderWdc hw))
    · exact ih q hq

/-! ### Through the engine -/

/-- The request asks TPC-C for a new order. -/
def AsksNewOrder (w : Wire) (cc : Chaincodes) (numeric : Codec α) (mem : Nat → Nat → UInt8)
    (e : Replication.Envelop) (args : Bytes) : Prop :=
  ∃ txn, Mix.newTransactionFromEnvelop w e = some txn ∧
    cc txn.userRequest.ccName = some (invokeChaincode w numeric mem) ∧
    txn.userRequest.funcName = [110] ∧ txn.userRequest.args = args

variable {cc : Chaincodes} {mem : Nat → Nat → UInt8} {n : Nat}

/-- A request in a block of its own commits if it is accepted, and leaves its order. -/
theorem alone_newOrder (hn : 1 ≤ n) {e : Replication.Envelop} {args : Bytes}
    (hasks : AsksNewOrder w cc numeric mem e args) {left : Mix.Processed}
    (h : Mix.ProcessValidatedRequests w cc false n db [e] (.ok (left, db'))) :
    left.retResults = [(place w numeric db args).isSome] ∧
      db' = afterRequest w numeric db args := by
  obtain ⟨txn, hmade, hcc, hfunc, hargs⟩ := hasks
  obtain ⟨txn', inv, hmade', hinv, rfl, rfl⟩ := Mix.alone_inv hn h
  cases hmade.symm.trans hmade'
  have hinvoke : (executeNewOrder w numeric args).invoke db = .ok inv := by
    rw [Mix.invokeChaincode, hcc, hfunc, hargs] at hinv
    exact hinv
  have hcommitted := Program.committed_of_invoke hinvoke
  rw [committed_executeNewOrder] at hcommitted
  rw [afterRequest, Mix.processedAlone, Exec.Invocation.database]
  by_cases hret : inv.ret = 0
  · rw [if_pos hret] at hcommitted ⊢
    obtain ⟨p, hp, hwrites⟩ := Option.map_eq_some_iff.mp hcommitted
    simp [hp, hret, after, hwrites]
  · rw [if_neg hret] at hcommitted ⊢
    simp [Option.map_eq_none_iff.mp hcommitted, hret]

/-- A request that does not crash can be executed. -/
theorem exists_alone (hn : 1 ≤ n) {e : Replication.Envelop} {args : Bytes}
    (hasks : AsksNewOrder w cc numeric mem e args)
    (hreturns : (executeNewOrder w numeric args).Returns db) :
    ∃ left, Mix.ProcessValidatedRequests w cc false n db [e]
      (.ok (left, afterRequest w numeric db args)) := by
  obtain ⟨inv, hinv⟩ := Program.returns_iff_invoke.mp hreturns
  obtain ⟨txn, hmade, hcc, hfunc, hargs⟩ := id hasks
  have hinvoke : Mix.invokeChaincode cc db txn = .ok inv := by
    rw [Mix.invokeChaincode, hcc, hfunc, hargs]
    exact hinv
  have hrun := (Mix.processed_alone_iff hn hmade hinvoke).mpr rfl
  rw [(alone_newOrder hn hasks hrun).2] at hrun
  exact ⟨_, hrun⟩

/-- Two requests that do not crash can be executed one after another. -/
theorem exists_two (db : Database) {e e' : Replication.Envelop} {args args' : Bytes}
    (hasks : List.Forall₂ (AsksNewOrder w cc numeric mem) [e, e'] [args, args'])
    (h : (executeNewOrder w numeric args).Returns db)
    (h' : (executeNewOrder w numeric args').Returns (afterRequest w numeric db args)) :
    ∃ left, Mix.OneByOne w cc 1 db [e, e'] left
      (afterRequest w numeric (afterRequest w numeric db args) args') := by
  cases hasks with
  | cons hfirst hrest =>
    cases hrest with
    | cons hsecond =>
      obtain ⟨left, hrun⟩ := exists_alone (le_refl 1) hfirst h
      obtain ⟨left', hrun'⟩ := exists_alone (le_refl 1) hsecond h'
      exact ⟨[left, left'], .cons hrun (.cons hrun' (.nil _))⟩

/-- **Requests one after another are a sequence of orders.** -/
theorem oneByOne_newOrders (hn : 1 ≤ n) {requests : List Replication.Envelop}
    {args : List Bytes} (hasks : List.Forall₂ (AsksNewOrder w cc numeric mem) requests args)
    {left : List Mix.Processed} (h : Mix.OneByOne w cc n db requests left db') :
    left.map Mix.Processed.retResults =
        (placements w numeric db args).map (fun p => [p.isSome]) ∧
      Trades w numeric db (ordersOf w numeric db args) db' := by
  have hfold : left.map Mix.Processed.retResults =
        (placements w numeric db args).map (fun p => [p.isSome]) ∧
      db' = args.foldl (afterRequest w numeric) db := by
    induction h generalizing args with
    | nil db =>
      cases hasks
      exact ⟨rfl, rfl⟩
    | cons now rest ih =>
      cases hasks with
      | cons hnow hlater =>
        obtain ⟨hresult, rfl⟩ := alone_newOrder hn hnow now
        obtain ⟨hresults, rfl⟩ := ih hlater
        rw [List.map_cons, hresult, hresults]
        exact ⟨rfl, rfl⟩
  rw [hfold.2]
  exact ⟨hfold.1, trades_ordersOf args db⟩

end

/-! ## A shop -/

/-- Warehouse 1 with one district, whose counter is `next`, one customer and one item. -/
def shop (next : Int32) : Database :=
  let numeric := littleEndian.ofInt32
  let info := filled 24 68
  DbOp.applyAll (oneCustomer (filled 16 67))
    [.put ((Key.DISTRICT 1 1).raw littleEndian) ((District.codec littleEndian numeric).put
        ⟨filled 10 66, filled 20 66, filled 20 66, filled 20 66, filled 2 66, filled 9 49, 0, 0,
          next⟩),
      .put ((Key.ITEM 1).raw littleEndian) ((Item.codec littleEndian numeric).put
        ⟨1, filled 24 73, 7, filled 50 73⟩),
      .put ((Key.STOCK 1 1).raw littleEndian) ((Stock.codec littleEndian numeric).put
        ⟨50, info, info, info, info, info, info, info, info, info, info, 0, 0, 0, filled 50 83⟩)]

/-- TPC-C among the chaincodes. -/
def shopChaincodes : Chaincodes :=
  let closed := fun _ _ => .ret (-1)
  Exec.newChaincodeByName littleEndian closed
    (invokeChaincode littleEndian littleEndian.ofInt32 fun _ _ => 0) closed closed

/-- An order of some pieces of item 1, in one line. -/
def pieces (quantity : Int32) : Bytes :=
  (NewOrder.codec littleEndian).put ⟨1, 1, 1, 1, [1], [1], [1], [quantity], 0⟩

/-- The request for it. -/
def piecesRequest (id : UInt8) (quantity : Int32) : Replication.Envelop :=
  Mix.request id [116, 112, 99, 99] [110] (pieces quantity)

theorem asks_one_piece : AsksNewOrder littleEndian shopChaincodes littleEndian.ofInt32
    (fun _ _ => 0) (piecesRequest 1 1) (pieces 1) :=
  ⟨_, rfl, rfl, rfl, rfl⟩

theorem asks_two_pieces : AsksNewOrder littleEndian shopChaincodes littleEndian.ofInt32
    (fun _ _ => 0) (piecesRequest 2 2) (pieces 2) :=
  ⟨_, rfl, rfl, rfl, rfl⟩

/-! ## Consistent orders -/

section

variable {α : Type} [Add α] [Sub α] [Mul α] [IntCast α] [LE α] [DecidableLE α]

/-- In every district the numbers of the orders start at its counter and are consecutive, and the
counter has grown by as many. -/
def Numbered (w : Wire) (numeric : Codec α) (db : Database) (orders : List (Placed α))
    (db' : Database) : Prop :=
  ∀ (w_id d_id : Int32) (district : District UInt8 α),
    lookup db ((Key.DISTRICT w_id d_id).raw w) (District.codec w numeric) = some district →
    (ordersIn w_id d_id orders).map (·.o_id.toInt) =
        (List.range (ordersIn w_id d_id orders).length).map
          (fun k : Nat => district.d_next_o_id.toInt + (k : Int)) ∧
      ∃ district', lookup db' ((Key.DISTRICT w_id d_id).raw w) (District.codec w numeric) =
          some district' ∧
        district'.d_next_o_id.toInt =
          district.d_next_o_id.toInt + (ordersIn w_id d_id orders).length

/-- Every order is found in `ORDER` and in `NEW_ORDER`. -/
def Listed (w : Wire) (numeric : Codec α) (orders : List (Placed α)) (db' : Database) : Prop :=
  ∀ p ∈ orders, lookup db' (p.orderKey.raw w) (Order.codec w numeric) = some p.row ∧
    lookup db' (p.newOrderKey.raw w) w.ofInt32 = some 0

/-- Every order is found in `ORDER_WDC`. -/
def ListedWdc (w : Wire) (orders : List (Placed α)) (db' : Database) : Prop :=
  ∀ p ∈ orders, lookup db' (p.orderWdcKey.raw w) .unit = some ()

variable {w : Wire} {numeric : Codec α} {cc : Chaincodes} {mem : Nat → Nat → UInt8} {n : Nat}
  {db db' : Database}

/-- A refused request leaves everything as it is, so there is no order if the first database refuses
all of them. -/
theorem ordersOf_eq_nil_iff {args : List Bytes} :
    ordersOf w numeric db args = [] ↔ ∀ a ∈ args, place w numeric db a = none := by
  induction args with
  | nil => simp [ordersOf, placements]
  | cons a rest ih =>
    rw [List.forall_mem_cons, ← ih]
    cases hplace : place w numeric db a with
    | none =>
      have hsame : afterRequest w numeric db a = db := by rw [afterRequest, hplace]
      simp [ordersOf, placements, hplace, hsame]
    | some p => simp [ordersOf, placements, hplace]

/-- **Orders are consistent exactly as long as there is none.** Requests for new orders are executed
one after another. As long as no counter overflows, the numbers of each district are consecutive,
its counter grows with them and every order is found in `ORDER` and `NEW_ORDER`; but no order is
found in `ORDER_WDC`. -/
theorem orders_consistent_iff (hw : w.Inverts) (hnumeric : numeric.Total) (hn : 1 ≤ n)
    {requests : List Replication.Envelop} {args : List Bytes}
    (hasks : List.Forall₂ (AsksNewOrder w cc numeric mem) requests args)
    {left : List Mix.Processed} (hrun : Mix.OneByOne w cc n db requests left db') :
    let orders := ordersOf w numeric db args
    left.map Mix.Processed.retResults =
        (placements w numeric db args).map (fun p => [p.isSome]) ∧
      (Numbered w numeric db orders db' ∧ Listed w numeric orders db' ∧ ListedWdc w orders db' ↔
        ∀ a ∈ args, place w numeric db a = none) ∧
      ((∀ p ∈ orders, p.Fits) → Numbered w numeric db orders db' ∧ Listed w numeric orders db') ∧
      ∀ p ∈ orders, lookup db' (p.orderWdcKey.raw w) .unit = none := by
  obtain ⟨hresults, htrades⟩ := oneByOne_newOrders hn hasks hrun
  have hrest : (∀ p ∈ ordersOf w numeric db args, p.Fits) →
      Numbered w numeric db (ordersOf w numeric db args) db' ∧
        Listed w numeric (ordersOf w numeric db args) db' := fun hfits =>
    ⟨fun _ _ _ hdistrict => htrades.numbers hw hnumeric hfits hdistrict,
      htrades.found hw hnumeric hfits⟩
  have hmissing := htrades.orderWdc_missing hw
  refine ⟨hresults, ?_, hrest, hmissing⟩
  rw [← ordersOf_eq_nil_iff]
  constructor
  · rintro ⟨-, -, hwdc⟩
    -- the first order would have to be found
    refine List.eq_nil_iff_forall_not_mem.mpr fun p hp => ?_
    have hfound := hwdc p hp
    rw [hmissing p hp] at hfound
    cases hfound
  · intro hnone
    obtain ⟨hnumbered, hlisted⟩ := hrest (by simp [hnone])
    exact ⟨hnumbered, hlisted, by simp [ListedWdc, hnone]⟩

end

/-- Two orders of one district: they get the numbers 3001 and 3002, and both are listed. -/
theorem orders_consistent_two_orders : ∃ left db',
    Mix.OneByOne littleEndian shopChaincodes 1 (shop 3001) [piecesRequest 1 1, piecesRequest 2 2]
      left db' ∧
    left.map Mix.Processed.retResults = [[true], [true]] ∧
    (ordersOf littleEndian littleEndian.ofInt32 (shop 3001) [pieces 1, pieces 2]).map o_id =
      [3001, 3002] ∧
    Listed littleEndian littleEndian.ofInt32
      (ordersOf littleEndian littleEndian.ofInt32 (shop 3001) [pieces 1, pieces 2]) db' := by
  have hasks := List.Forall₂.cons asks_one_piece (.cons asks_two_pieces .nil)
  obtain ⟨left, hrun⟩ := exists_two (shop 3001) hasks ⟨0, by decide +kernel⟩ ⟨0, by decide +kernel⟩
  obtain ⟨hresults, -, hfits, -⟩ := orders_consistent_iff littleEndian.inverts
    littleEndian.inverts.ofInt32 (le_refl 1) hasks hrun
  refine ⟨left, _, hrun, ?_, by decide +kernel, (hfits (by decide +kernel)).2⟩
  rw [hresults]
  decide +kernel

/-- The order 3001 is committed and stands in `ORDER`, but `ORDER_WDC` does not have it. -/
theorem order_wdc_not_found : ∃ left db',
    Mix.OneByOne littleEndian shopChaincodes 1 (shop 3001) [piecesRequest 1 1] left db' ∧
    left.map Mix.Processed.retResults = [[true]] ∧
    (lookup db' ((Key.ORDER 1 1 3001).raw littleEndian)
      (Order.codec littleEndian littleEndian.ofInt32)).isSome = true ∧
    lookup db' ((Key.ORDER_WDC 1 1 1 3001).raw littleEndian) .unit = none := by
  have hreturns : (executeNewOrder littleEndian littleEndian.ofInt32 (pieces 1)).Returns
      (shop 3001) := ⟨0, by decide +kernel⟩
  obtain ⟨left, halone⟩ := exists_alone (le_refl 1) asks_one_piece hreturns
  have hrun := Mix.OneByOne.cons halone (.nil _)
  refine ⟨[left], _, hrun, ?_, ?_, ?_⟩
  · rw [(oneByOne_newOrders (le_refl 1) (.cons asks_one_piece .nil) hrun).1]
    decide +kernel
  · decide +kernel
  · decide +kernel

end MassBFT.TPCC
