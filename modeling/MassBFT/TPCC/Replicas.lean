import MassBFT.TPCC.DistrictIndex

/-!
# Replicas after the load

`InitDatabase` seeds the random generator with a fixed value, so that every replica draws the same.
The rows are the same then, up to what the environment gives: the clock, which is read for every
customer, history and order, and the storage behind the used part of a string, which is serialized
with it.

No two rows have the same stem, and the rows do not depend on the environment before they are
written (`exists_rows`). So **two replicas have the same writes exactly if their clocks agree on
every reading and their memories on every byte that is stored without having been assigned**
(`same_start_iff`).
-/

set_option autoImplicit false

namespace MassBFT.TPCC

open List
open Build (TrackedByte)

section

variable {σ α : Type} (lib : Library σ α)

/-! ## Items, warehouses, stock and districts -/

theorem fills_item (i : Nat) : Fills (fun _ => item lib i) (fun _ => True) 0
    (· = ⟨.ITEM, 0, 0, Int32.ofNat i, []⟩) := by
  refine .after (yields_uniform (by decide)) fun i_im_id _ => ?_
  refine .after (yields_randomOf (by decide)) fun i_name _ => ?_
  refine .after (yields_randomDouble 1 100) fun i_price _ => ?_
  refine .after (yields_originalString (by decide)) fun i_data _ => ?_
  exact .insert _ _ rfl rfl

theorem fills_initItem : Fills (fun _ => initItem lib) (· = true) 0 (·.table = .ITEM) := by
  refine .returning (.table nodup_range' (fun i hi j hj h => ?_) (fun i _ => fills_item lib i)
    fun _ _ => rfl) rfl
  have hbound : ∀ {k}, k ∈ List.range' 1 ITEMS_COUNT → k < 2 ^ 31 := fun hk =>
    lt_of_lt_of_le (mem_range'_1.mp hk).2 (by decide)
  exact ofNat_inj (hbound hi) (hbound hj) (Stem.mk.inj h).2.2.2.1

variable [IntCast α]

theorem fills_warehouse (i : Int32) : Fills (fun _ => warehouse lib i) (fun _ => True) 0
    (· = ⟨.WAREHOUSE, i + 1, 0, 0, []⟩) := by
  -- the name, the two lines of the street and the city
  iterate 4
    refine .after (yields_randomOf (by decide)) fun _ _ => ?_
  refine .after (yields_newVarchar lib 2) fun v _ => ?_
  refine .after (yields_randomString v 2 (by decide)) fun w_state _ => ?_
  refine .after yields_randomZipCode fun w_zip _ => ?_
  refine .after (yields_randomDouble _ _) fun w_tax _ => ?_
  exact .insert _ _ rfl rfl

/-- The warehouses from zero on. -/
theorem between_zero (hi : Int32) :
    between 0 hi = (List.range hi.toNatClampNeg).map Int32.ofNat := by
  simp [between]

theorem nodup_between (hi : Int32) : (between 0 hi).Nodup := by
  rw [between_zero]
  refine nodup_range.map_on fun i hi' j hj h => ?_
  have hbound := hi.toNatClampNeg_lt
  exact ofNat_inj ((mem_range.mp hi').trans hbound) ((mem_range.mp hj).trans hbound) h

theorem fills_initWarehouse (toWhId : Int32) :
    Fills (fun _ => initWarehouse lib 0 toWhId) (· = true) 0 (·.table = .WAREHOUSE) := by
  refine .returning (.table (nodup_between toWhId) (fun i _ j _ h => ?_)
    (fun i _ => fills_warehouse lib i) fun _ _ => rfl) rfl
  exact (Int32.add_left_inj 1).mp (Stem.mk.inj h).2.1

theorem fills_stock (partitionID : Int32) (i : Nat) :
    Fills (fun _ => stock lib partitionID i) (fun _ => True) 0
      (· = ⟨.STOCK, partitionID + 1, 0, Int32.ofNat (i + 1), []⟩) := by
  refine .after (yields_uniform (by decide)) fun s_quantity _ => ?_
  -- the ten strings of the districts
  iterate 10
    refine .after (yields_newVarchar lib 24) fun v _ => ?_
    refine .after (yields_randomString v 24 (by decide)) fun s_dist _ => ?_
  refine .after (yields_originalString (by decide)) fun s_data _ => ?_
  exact .insert _ _ rfl rfl

theorem fills_initStock {partitionID : Int32} (hp : 0 ≤ partitionID) :
    Fills (fun _ => initStock lib partitionID) (· = true) 0
      fun x => x.table = .STOCK ∧ x.w_id = partitionID + 1 := by
  simp only [initStock, if_neg (Int32.not_lt.mpr hp)]
  refine .returning (.table nodup_range (fun i hi j hj h => ?_)
    (fun i _ => fills_stock lib partitionID i) fun _ _ => ⟨rfl, rfl⟩) rfl
  have hbound : ∀ {k}, k ∈ List.range ITEMS_COUNT → k + 1 < 2 ^ 31 := fun hk =>
    lt_of_le_of_lt (Nat.succ_le_of_lt (mem_range.mp hk)) (by decide)
  exact Nat.succ_injective (ofNat_inj (hbound hi) (hbound hj) (Stem.mk.inj h).2.2.2.1)

theorem fills_district (partitionID : Int32) (i : Nat) :
    Fills (fun _ => district lib partitionID i) (fun _ => True) 0
      (· = ⟨.DISTRICT, partitionID + 1, Int32.ofNat i, 0, []⟩) := by
  -- the name, the two lines of the street and the city
  iterate 4
    refine .after (yields_randomOf (by decide)) fun _ _ => ?_
  refine .after (yields_newVarchar lib 2) fun v _ => ?_
  refine .after (yields_randomString v 2 (by decide)) fun d_state _ => ?_
  refine .after yields_randomZipCode fun d_zip _ => ?_
  refine .after (yields_randomDouble _ _) fun d_tax _ => ?_
  exact .insert _ _ rfl rfl

theorem fills_initDistrict {nDistrict partitionID : Int32} (hn : 0 < nDistrict)
    (hp : 0 ≤ partitionID) :
    Fills (fun _ => initDistrict lib nDistrict partitionID) (· = true) 0
      fun x => x.table = .DISTRICT ∧ x.w_id = partitionID + 1 := by
  simp only [initDistrict, if_neg (valid_arguments hn hp)]
  refine .returning (.table nodup_range' (fun i hi j hj h => ?_)
    (fun i _ => fills_district lib partitionID i) fun _ _ => ⟨rfl, rfl⟩) rfl
  exact ofNat_inj (mem_districts_lt hi) (mem_districts_lt hj) (Stem.mk.inj h).2.2.1

end

/-! ## Customers and orders -/

section

variable {σ α : Type} [IntCast α] (lib : Library σ α) {c_ids : List Int32}

omit [IntCast α] in
theorem length_customersIn (ds : List Nat) : (customersIn ds).length = ds.length * 3000 := by
  induction ds with
  | nil => rfl
  | cons d ds ih =>
    rw [customersIn, flatMap_cons, length_append, length_map, length_range']
    rw [customersIn] at ih
    rw [ih, length_cons]
    omega

theorem fills_initCustomer {nDistrict partitionID : Int32} (hn : 0 < nDistrict)
    (hp : 0 ≤ partitionID) :
    Fills (fun env => initCustomer lib env nDistrict partitionID) (· = true)
      ((districts nDistrict).length * 6000) fun x => x.w_id = partitionID + 1 ∧
        (x.table = .CUSTOMER ∨ x.table = .HISTORY ∨ x.table = .CUSTOMER_WDL) := by
  intro s
  refine (ends_initCustomer lib hn hp s).mono fun ok s' ⟨hok, _, _, _, h⟩ => ⟨hok, ?_⟩
  obtain ⟨added, hloads, -⟩ := h.loads
  have hlen : 2 * (customersIn (districts nDistrict)).length =
      (districts nDistrict).length * 6000 := by
    rw [length_customersIn]
    omega
  rw [hlen] at hloads
  refine ⟨added, hloads.mono ?_⟩
  rintro x (⟨t, -, hw, -, -, htable⟩ | ⟨htable, hw, -⟩)
  · exact ⟨hw, htable.imp_right .inl⟩
  · exact ⟨hw, .inr (.inr htable)⟩

/-- The stems of an order. -/
def OfOrder (w_id d_id : Int32) (j : Nat) (x : Stem) : Prop :=
  x.w_id = w_id ∧ x.d_id = d_id ∧ x.id = Int32.ofNat j ∧ (x.table = .ORDER ∨ x.table = .ORDER_WDC)

theorem fills_order (partitionID : Int32) (i : Nat) {j : Nat} (hj : j - 1 < c_ids.length) :
    Fills (fun _ => order lib partitionID i c_ids j) (fun _ => True) 1
      (OfOrder (partitionID + 1) (Int32.ofNat i) j) := by
  intro s
  refine .bind (.lift (fun _ => getElem?_eq_getElem hj) ?_)
  refine ends_now ?_
  refine (yields_carrierId j).andThen fun o_carrier_id s₁ _ q₁ => ?_
  refine (yields_uniform (by decide)).andThen fun o_ol_cnt s₂ _ q₂ => ?_
  refine ends_insert ?_
  have hrows : s₂.rows = s.rows := q₂.rows.trans q₁.rows
  have hticks : s₂.ticks = s.ticks + 1 := q₂.ticks.trans q₁.ticks
  refine ⟨_, _, fun _ => rfl, trivial, _, ((Loads.insert hrows hticks rfl rfl).append
    (Loads.insert (k := 0) rfl rfl rfl rfl) ?_).mono ?_⟩
  · rintro x rfl
    exact nofun
  · rintro x (rfl | rfl)
    · exact ⟨rfl, rfl, rfl, .inl rfl⟩
    · exact ⟨rfl, rfl, rfl, .inr rfl⟩

theorem fills_orders (partitionID : Int32) (i : Nat) {n : Nat}
    (hn : n + 1 < 2 ^ 31) (hlen : c_ids.length = n) :
    Fills (fun _ => (List.range' 1 n).forM (order lib partitionID i c_ids)) (fun _ => True) n
      fun x => ∃ j ∈ List.range' 1 n, OfOrder (partitionID + 1) (Int32.ofNat i) j x := by
  have hbound : ∀ {j}, j ∈ List.range' 1 n → 1 ≤ j ∧ j < 1 + n := mem_range'_1.mp
  have hrows := Fills.forM (l := List.range' 1 n) nodup_range'
    (fun j hj j' hj' x (hx : OfOrder (partitionID + 1) (Int32.ofNat i) j x)
      (hx' : OfOrder (partitionID + 1) (Int32.ofNat i) j' x) => ?_)
    fun j hj => @fills_order _ _ _ lib c_ids partitionID i j ?_
  · rwa [length_range', Nat.mul_one] at hrows
  · have hlt := hbound hj
    have hlt' := hbound hj'
    exact ofNat_inj (by omega) (by omega) (hx.2.2.1.symm.trans hx'.2.2.1)
  · have hlt := hbound hj
    omega

omit [IntCast α] in
theorem fills_newOrders (partitionID : Int32) (i : Nat) {lo n : Nat} (hn : lo + n < 2 ^ 31) :
    Fills (fun _ => (List.range' lo n).forM (newOrder partitionID i) : Env → Loader σ α PUnit)
      (fun _ => True) 0 fun x => x.table = .NEW_ORDER ∧ x.w_id = partitionID + 1 ∧
        x.d_id = Int32.ofNat i := by
  refine .table nodup_range' (fun j hj j' hj' h => ?_) (fun j _ => .insert _ _ rfl rfl)
    fun _ _ => ⟨rfl, rfl, rfl⟩
  have hlt := (mem_range'_1.mp hj).2
  have hlt' := (mem_range'_1.mp hj').2
  exact ofNat_inj (by omega) (by omega) (Stem.mk.inj h).2.2.2.1

/-- The stems of the orders of a district. -/
def OfOrders (w_id d_id : Int32) (x : Stem) : Prop :=
  x.w_id = w_id ∧ x.d_id = d_id ∧ (x.table = .ORDER ∨ x.table = .ORDER_WDC ∨ x.table = .NEW_ORDER)

theorem fills_districtOrders (partitionID : Int32) (i : Nat) (hlen : c_ids.length = 3000) :
    Fills (fun _ => districtOrders lib partitionID c_ids i) (fun c_ids' => c_ids'.length = 3000)
      3000 (OfOrders (partitionID + 1) (Int32.ofNat i)) := by
  refine .after (yields_shuffle c_ids) fun c_ids' hperm => ?_
  have hlen' : c_ids'.length = 3000 := hperm.length_eq.trans hlen
  have horders := fills_orders lib partitionID i (by decide) hlen'
  have hnew : Fills (fun _ => (List.range' 2100 901).forM (newOrder partitionID i) >>= fun _ =>
      Pure.pure c_ids' : Env → Loader σ α (List Int32)) (fun c_ids' => c_ids'.length = 3000) 0 _ :=
    (fills_newOrders partitionID i (by decide)).returning hlen'
  refine (horders.seq (fun _ _ => hnew) ?_).mono ?_
  · rintro x ⟨j, -, -, -, -, hx⟩ ⟨htable, -, -⟩
    rw [htable] at hx
    rcases hx with hx | hx <;> cases hx
  · rintro x (⟨j, -, hw, hd, -, hx⟩ | ⟨htable, hw, hd⟩)
    · exact ⟨hw, hd, hx.imp_right .inl⟩
    · exact ⟨hw, hd, .inr (.inr htable)⟩

theorem fills_initOrder {nDistrict partitionID : Int32} (hn : 0 < nDistrict)
    (hp : 0 ≤ partitionID) :
    Fills (fun _ => initOrder lib nDistrict partitionID) (· = true)
      ((districts nDistrict).length * 3000) fun x => x.w_id = partitionID + 1 ∧
        (x.table = .ORDER ∨ x.table = .ORDER_WDC ∨ x.table = .NEW_ORDER) := by
  simp only [initOrder, if_neg (valid_arguments hn hp)]
  refine .returning (.mono (.foldlM nodup_range' (fun i hi j hj x hx hx' => ?_) (by simp)
    fun i _ c_ids hlen => fills_districtOrders lib partitionID i hlen) ?_) rfl
  · exact ofNat_inj (mem_districts_lt hi) (mem_districts_lt hj) (hx.2.1.symm.trans hx'.2.1)
  · rintro x ⟨i, -, hw, -, htable⟩
    exact ⟨hw, htable⟩

/-! ## The whole database -/

/-- The stems of a partition: all tables but those that are not divided. -/
def OfPartition (partitionID : Int32) (x : Stem) : Prop :=
  x.w_id = partitionID + 1 ∧ x.table ≠ .ITEM ∧ x.table ≠ .WAREHOUSE

theorem fills_initPartition {partition : Int32} (hp : 0 ≤ partition) {ok : Bool} (hok : ok = true) :
    Fills (fun env => initPartition lib env ok partition) (· = true) 90000
      (OfPartition partition) := by
  have hten : (0 : Int32) < DISTRICT_COUNT := by decide
  have hreadings : (districts DISTRICT_COUNT).length * 6000 +
    (districts DISTRICT_COUNT).length * 3000 = 90000 := by decide
  subst hok
  have horders := (fills_initCustomer lib hten hp).checked false (fills_initOrder lib hten hp) ?_
  have hdistricts := (fills_initDistrict lib hten hp).checked false horders ?_
  have hall := (fills_initStock lib hp).checked false hdistricts ?_
  · rw [hreadings, Nat.zero_add, Nat.zero_add] at hall
    refine hall.mono ?_
    rintro x (⟨ht, hw⟩ | ⟨ht, hw⟩ | ⟨hw, ht | ht | ht⟩ | ⟨hw, ht | ht | ht⟩) <;>
      exact ⟨hw, by simp [ht], by simp [ht]⟩
  · rintro x ⟨ht, -⟩ hx
    simp [ht] at hx
  · rintro x ⟨ht, -⟩ hx
    simp [ht] at hx
  · rintro x ⟨-, ht | ht | ht⟩ hx <;> simp [ht] at hx

/-- What `CalculatePartition` gives a single node: all warehouses. -/
theorem calculatePartition_single (warehouseCount : Int32) :
    calculatePartition 0 1 warehouseCount = (0, warehouseCount) := by
  have hzero : (Int64.toUInt64 0).toUInt32.toInt32 = 0 := by decide
  have hcount : warehouseCount.toInt64.toUInt64.toUInt32.toInt32 = warehouseCount := by
    apply Int32.toBitVec_inj.mp
    show (warehouseCount.toBitVec.signExtend 64).setWidth 32 = warehouseCount.toBitVec
    ext i hi
    have hi' : i < 64 := Nat.lt_trans hi (by decide)
    rw [BitVec.getElem_setWidth, BitVec.getLsbD_eq_getElem hi', BitVec.getElem_signExtend hi',
      dif_pos hi]
  simp [calculatePartition, hzero, hcount]

/-- **The load succeeds, and no two of its rows have the same stem.** -/
theorem fills_initDatabase (warehouseCount : Int32) :
    Fills (fun env => initDatabase lib env warehouseCount) (· = 0)
      (warehouseCount.toNatClampNeg * 90000) fun _ => True := by
  have hpartitions : Fills
      (fun env => (between 0 warehouseCount).foldlM (initPartition lib env) true) (· = true)
      ((between 0 warehouseCount).length * 90000)
      fun x => ∃ p ∈ between 0 warehouseCount, OfPartition p x := by
    refine .foldlM (nodup_between warehouseCount) (fun i _ j _ x hx hx' => ?_) rfl
      fun p hp ok hok => ?_
    · exact (Int32.add_left_inj 1).mp (hx.1.symm.trans hx'.1)
    · rw [between_zero] at hp
      obtain ⟨k, hk, rfl⟩ := mem_map.mp hp
      refine fills_initPartition lib ?_ hok
      have hbound := (mem_range.mp hk).trans warehouseCount.toNatClampNeg_lt
      exact (ofNat_le_iff (a := 0) (by decide) hbound).mpr (Nat.zero_le k)
  have hlen : (between 0 warehouseCount).length = warehouseCount.toNatClampNeg := by
    rw [between_zero, length_map, length_range]
  -- the code that is returned says that all partitions have succeeded
  have hreturn : Fills
      (fun env => (between 0 warehouseCount).foldlM (initPartition lib env) true >>= fun ok =>
        Pure.pure (if ok then 0 else -1)) (fun code : Int32 => code = 0)
      ((between 0 warehouseCount).length * 90000)
      fun x => ∃ p ∈ between 0 warehouseCount, OfPartition p x := fun s =>
    .bind ((hpartitions s).mono fun ok s' ⟨hok, hadded⟩ => .pure ⟨by rw [hok]; rfl, hadded⟩)
  have hwarehouses := (fills_initWarehouse lib warehouseCount).checked (-1) hreturn ?_
  have hall := (fills_initItem lib).checked (-1) hwarehouses ?_
  · rw [Nat.zero_add, Nat.zero_add, hlen] at hall
    simp only [initDatabase, calculatePartition_single]
    exact hall.mono fun _ _ => trivial
  · rintro x ht (ht' | ⟨p, -, -, hne, -⟩)
    · rw [ht] at ht'
      cases ht'
    · exact hne ht
  · rintro x ht ⟨p, -, -, -, hne⟩
    exact hne ht

end

/-! ## Two replicas -/

section

variable {σ α : Type} [IntCast α] (lib : Library σ α) (rand : σ) (warehouseCount : Int32)

/-- What `InitDatabase` writes, from a seeded generator. -/
def writes (w : Wire) (numeric : Codec α) (env : Env) : Option (List (Bytes × Bytes)) := do
  let (code, s) ← initDatabase lib env warehouseCount ⟨rand, 0, 0, []⟩
  if code = 0 then some (s.rows.map fun r => (r.read env).raw w numeric) else none

/-- The bytes that `InitDatabase` stores without having assigned them. The random stream says which
these are, the environment has no part in it. -/
def unassigned : List (Nat × Nat) :=
  match initDatabase lib ⟨fun _ => 0, fun _ => 0⟩ warehouseCount ⟨rand, 0, 0, []⟩ with
  | some (_, s) => s.rows.flatMap Row.unassigned
  | none => []

/-- **Every environment writes the same rows**, of different stems, with one clock reading after
another. -/
theorem exists_rows : ∃ rows : List (Row TrackedByte Nat α),
    (∀ w numeric env, writes lib rand warehouseCount w numeric env =
      some (rows.map fun r => (r.read env).raw w numeric)) ∧
    unassigned lib rand warehouseCount = rows.flatMap Row.unassigned ∧
    (∀ r ∈ rows, ∃ x, r.stem = some x) ∧ (rows.map Row.stem).Nodup ∧
    rows.flatMap Row.times = List.range (warehouseCount.toNatClampNeg * 90000) := by
  obtain ⟨code, s, hrun, hcode, added, hloads⟩ :=
    fills_initDatabase lib warehouseCount ⟨rand, 0, 0, []⟩
  have hrun : ∀ env, initDatabase lib env warehouseCount ⟨rand, 0, 0, []⟩ = some (code, s) := hrun
  have hrows : s.rows = added := hloads.rows
  refine ⟨added, fun w numeric env => ?_, ?_, fun r hr => ?_, hloads.nodup, ?_⟩
  · simp only [writes, hrun env, Option.bind_eq_bind, Option.bind_some, hcode, if_true, hrows]
  · rw [unassigned, hrun, ← hrows]
  · exact (hloads.stems r hr).imp fun x hx => hx.1
  · rw [hloads.times, ← range_eq_range']

/-- **Two replicas write the same exactly if their clocks have given the same readings, and the same
was found wherever bytes are stored that were never assigned.** -/
theorem same_start_iff {w : Wire} {numeric : Codec α} (hw : w.Inverts) (hn : numeric.Total)
    (env env' : Env) :
    ∃ run run', writes lib rand warehouseCount w numeric env = some run ∧
      writes lib rand warehouseCount w numeric env' = some run' ∧
      ((∀ kv, kv ∈ run ↔ kv ∈ run') ↔
        (∀ i, i < warehouseCount.toNatClampNeg * 90000 → env.clock i = env'.clock i) ∧
        ∀ place ∈ unassigned lib rand warehouseCount, env.mem place = env'.mem place) := by
  obtain ⟨rows, hwrites, hunassigned, hstem, hnodup, htimes⟩ := exists_rows lib rand warehouseCount
  refine ⟨_, _, hwrites w numeric env, hwrites w numeric env', ?_⟩
  rw [same_writes_iff hw hn hstem hnodup, agrees_iff htimes, hunassigned]

end

/-- Clocks that differ after the last reading make no difference. -/
theorem same_start_same_readings :
    let env : Env := ⟨fun _ => 0, fun _ => 0⟩
    let env' : Env := ⟨fun i => if i < 90000 then 0 else 1, fun _ => 0⟩
    littleEndian.Inverts ∧ ∃ run run',
      writes (late : Library Bool Int32) true 1 littleEndian littleEndian.ofInt32 env = some run ∧
      writes (late : Library Bool Int32) true 1 littleEndian littleEndian.ofInt32 env' = some run' ∧
      ∀ kv, kv ∈ run ↔ kv ∈ run' := by
  intro env env'
  obtain ⟨run, run', hrun, hrun', hiff⟩ := same_start_iff (late : Library Bool Int32) true 1
    littleEndian.inverts littleEndian.inverts.ofInt32 env env'
  refine ⟨littleEndian.inverts, run, run', hrun, hrun', hiff.mpr ⟨fun i hi => ?_, fun _ _ => rfl⟩⟩
  exact (if_pos hi).symm

/-- Two replicas whose clocks are a nanosecond apart. -/
theorem different_history_keys :
    let env : Env := ⟨fun _ => 0, fun _ => 0⟩
    let env' : Env := ⟨fun _ => 1, fun _ => 0⟩
    ∃ run run',
      writes (late : Library Bool Int32) true 1 littleEndian littleEndian.ofInt32 env = some run ∧
      writes (late : Library Bool Int32) true 1 littleEndian littleEndian.ofInt32 env' = some run' ∧
      ¬ ∀ kv, kv ∈ run ↔ kv ∈ run' := by
  intro env env'
  obtain ⟨rows, hwrites, -, hstem, hnodup, htimes⟩ := exists_rows (late : Library Bool Int32) true 1
  refine ⟨_, _, hwrites _ _ env, hwrites _ _ env', ?_⟩
  rw [same_writes_iff littleEndian.inverts littleEndian.inverts.ofInt32 hstem hnodup,
    agrees_iff htimes]
  rintro ⟨hclock, -⟩
  exact absurd (hclock 0 (by decide)) (by decide)

end MassBFT.TPCC
