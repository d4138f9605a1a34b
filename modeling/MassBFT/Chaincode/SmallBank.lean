import Mathlib.Algebra.BigOperators.Group.Finset.Basic
import Mathlib.Tactic.Abel
import MassBFT.Exec.Tables
import MassBFT.Mix.Alone
import MassBFT.Mix.KeySpace

/-!
# SmallBank

Every account has a name, a savings balance and a checking balance, in three tables. The
functions read balances and write new ones; amounts are taken as exact numbers, of any type in
which one can add, subtract and compare.

`amalgamate` moves all funds of one account to the checking balance of another. It sets the two
balances of the first to zero and then adds to the checking balance of the second, as it finds
it *in the database*. If both are one account, the database does not have the zero yet, so **the
old checking balance is added once more**: money is conserved exactly if the accounts differ or
that balance is zero (`amalgamate_conserves_iff`).
-/

set_option autoImplicit false

namespace MassBFT.SmallBank

open Exec (Database DbOp Program Chaincodes ORM KV Stores lookup)
open Mix (SmallBankTable smallBankKey)

/-! ## The chaincode -/

section

variable {α : Type} [AddCommGroup α] [One α] [LT α] [DecidableLT α] (w : Wire) (amounts : Codec α)

def balance (args : Bytes) : Program :=
  match w.int32.get args with
  | none => .ret (-1)
  | some (acctId, _) =>
    .getValue (smallBankKey w .ACCOUNTS acctId) w.string fun _ =>
    .getValue (smallBankKey w .SAVINGS acctId) amounts fun savingsBalance =>
    .getValue (smallBankKey w .CHECKING acctId) amounts fun checkingBalance =>
    .setResult ((w.int32.pair amounts).put (acctId, savingsBalance + checkingBalance)) (.ret 0)

def depositChecking (args : Bytes) : Program :=
  match (w.int32.pair amounts).get args with
  | none => .ret (-1)
  | some ((acctId, amount), _) =>
    if amount < 0 then .ret (-1)
    else
      .getValue (smallBankKey w .ACCOUNTS acctId) w.string fun _ =>
      .getValue (smallBankKey w .CHECKING acctId) amounts fun balance =>
      .insertIntoTable (smallBankKey w .CHECKING acctId) amounts (balance + amount) (.ret 0)

def transactSavings (args : Bytes) : Program :=
  match (w.int32.pair amounts).get args with
  | none => .ret (-1)
  | some ((acctId, amount), _) =>
    .getValue (smallBankKey w .ACCOUNTS acctId) w.string fun _ =>
    .getValue (smallBankKey w .SAVINGS acctId) amounts fun balance =>
    if balance + amount < 0 then .ret (-1)
    else .insertIntoTable (smallBankKey w .SAVINGS acctId) amounts (balance + amount) (.ret 0)

def amalgamate (args : Bytes) : Program :=
  match (w.int32.pair w.int32).get args with
  | none => .ret (-1)
  | some ((accId0, accId1), _) =>
    .getValue (smallBankKey w .ACCOUNTS accId0) w.string fun _ =>
    .getValue (smallBankKey w .ACCOUNTS accId1) w.string fun _ =>
    .getValue (smallBankKey w .SAVINGS accId0) amounts fun savings0 =>
    .getValue (smallBankKey w .CHECKING accId0) amounts fun checking0 =>
    .insertIntoTable (smallBankKey w .SAVINGS accId0) amounts 0 <|
    .insertIntoTable (smallBankKey w .CHECKING accId0) amounts 0 <|
    -- the ORM answers from the database, whatever has been inserted
    .getValue (smallBankKey w .CHECKING accId1) amounts fun checking1 =>
    .insertIntoTable (smallBankKey w .CHECKING accId1) amounts (checking1 + (savings0 + checking0))
      (.ret 0)

def writeCheck (args : Bytes) : Program :=
  match (w.int32.pair amounts).get args with
  | none => .ret (-1)
  | some ((acctId, amount), _) =>
    .getValue (smallBankKey w .ACCOUNTS acctId) w.string fun _ =>
    .getValue (smallBankKey w .SAVINGS acctId) amounts fun savings =>
    .getValue (smallBankKey w .CHECKING acctId) amounts fun checking =>
    .insertIntoTable (smallBankKey w .CHECKING acctId) amounts
      (if checking + savings < amount then checking - (amount + 1) else checking - amount) (.ret 0)

/-- `InvokeChaincode`; the functions are called bal, dc, ts, amg and wc. -/
def invokeChaincode (funcName args : Bytes) : Program :=
  if funcName = [98, 97, 108] then balance w amounts args
  else if funcName = [100, 99] then depositChecking w amounts args
  else if funcName = [116, 115] then transactSavings w amounts args
  else if funcName = [97, 109, 103] then amalgamate w amounts args
  else if funcName = [119, 99] then writeCheck w amounts args
  else .ret (-1)

end

/-! ## The keys -/

section

variable {w : Wire} {a b : Int} {t u : SmallBankTable}

theorem putInt32_inj (hw : w.FixedInt32) (ha : IsInt32 a) (hb : IsInt32 b)
    (h : w.putInt32 a = w.putInt32 b) : a = b := by
  have hread := hw.carries a ha []
  rw [h, hw.carries b hb []] at hread
  cases hread
  rfl

/-- A key belongs to one table and one account. -/
theorem smallBankKey_inj (hw : w.FixedInt32) (ha : IsInt32 a) (hb : IsInt32 b) :
    smallBankKey w t a = smallBankKey w u b ↔ t = u ∧ a = b := by
  constructor
  · intro h
    have hlen : t.tablePrefix.length = u.tablePrefix.length := by
      cases t <;> cases u <;> rfl
    obtain ⟨htables, hid⟩ := List.append_inj h hlen
    refine ⟨?_, putInt32_inj hw ha hb hid⟩
    cases t <;> cases u <;> first | rfl | cases htables
  · rintro ⟨rfl, rfl⟩
    rfl

end

/-! ## Balances -/

section

variable {α : Type}

/-- The balance of an account in a table, as `getValue` finds it. -/
def balanceOf (w : Wire) (amounts : Codec α) (db : Database) (table : SmallBankTable)
    (acctId : Int) : Option α :=
  lookup db (smallBankKey w table acctId) amounts

/-- The account exists, with its name and its balances. -/
structure HasAccount (w : Wire) (amounts : Codec α) (db : Database) (acctId : Int)
    (savings checking : α) : Prop where
  name : ∃ name, lookup db (smallBankKey w .ACCOUNTS acctId) w.string = some name
  savings : balanceOf w amounts db .SAVINGS acctId = some savings
  checking : balanceOf w amounts db .CHECKING acctId = some checking

variable {w : Wire} {amounts : Codec α} {db : Database} {a : Int} {value : α}

/-- One balance is written: the others stay. -/
theorem balanceOf_put (hw : w.FixedInt32) (ha : IsInt32 a) (hvalue : Stores amounts value)
    {t u : SmallBankTable} {i : Int} (hi : IsInt32 i) :
    balanceOf w amounts (DbOp.apply db (.put (smallBankKey w t a) (amounts.put value))) u i =
      if t = u ∧ a = i then some value else balanceOf w amounts db u i := by
  unfold balanceOf
  split_ifs with h
  · obtain ⟨rfl, rfl⟩ := h
    exact Exec.lookup_put_self hvalue
  · exact Exec.lookup_put_of_ne (mt (smallBankKey_inj hw ha hi).mp h)

variable [AddCommGroup α]

/-- An account id from the number of its place among all of them. -/
def accountAt (i : Nat) : Int := i - 2 ^ 31

theorem isInt32_accountAt {i : Nat} (hi : i < 2 ^ 32) : IsInt32 (accountAt i) := by
  unfold IsInt32 accountAt
  omega

/-- Every account id has one place. -/
theorem accountAt_eq_iff (ha : IsInt32 a) {i : Nat} : a = accountAt i ↔ i = (a + 2 ^ 31).toNat := by
  unfold IsInt32 at ha
  unfold accountAt
  omega

/-- The savings and checking balances of all accounts together. -/
def total (w : Wire) (amounts : Codec α) (db : Database) : α :=
  ∑ i ∈ Finset.range (2 ^ 32),
    ((balanceOf w amounts db .SAVINGS (accountAt i)).getD 0 +
      (balanceOf w amounts db .CHECKING (accountAt i)).getD 0)

/-- A sum in which one summand is replaced. -/
theorem sum_replaced {s : Finset Nat} {f g : Nat → α} {i : Nat} (hi : i ∈ s)
    (h : ∀ j ∈ s, j ≠ i → g j = f j) : ∑ j ∈ s, g j = ∑ j ∈ s, f j + (g i - f i) := by
  have hrest : ∑ j ∈ s.erase i, g j = ∑ j ∈ s.erase i, f j :=
    Finset.sum_congr rfl fun j hj => h j (Finset.mem_of_mem_erase hj) (Finset.ne_of_mem_erase hj)
  rw [← Finset.add_sum_erase s g hi, ← Finset.add_sum_erase s f hi, hrest]
  abel

/-- One balance is written: the total changes by the difference. -/
theorem total_put (hw : w.FixedInt32) (ha : IsInt32 a) (hvalue : Stores amounts value)
    {t : SmallBankTable} (ht : t ≠ .ACCOUNTS) :
    total w amounts (DbOp.apply db (.put (smallBankKey w t a) (amounts.put value))) =
      total w amounts db + (value - (balanceOf w amounts db t a).getD 0) := by
  have hput : ∀ (u : SmallBankTable) (i : Nat), i ∈ Finset.range (2 ^ 32) →
      balanceOf w amounts (DbOp.apply db (.put (smallBankKey w t a) (amounts.put value))) u
          (accountAt i) =
        if t = u ∧ a = accountAt i then some value
        else balanceOf w amounts db u (accountAt i) :=
    fun u i hi => balanceOf_put hw ha hvalue (isInt32_accountAt (Finset.mem_range.mp hi))
  -- the place of the account
  obtain ⟨i, hi, rfl⟩ : ∃ i, i ∈ Finset.range (2 ^ 32) ∧ a = accountAt i := by
    refine ⟨_, ?_, (accountAt_eq_iff ha).mpr rfl⟩
    unfold IsInt32 at ha
    rw [Finset.mem_range]
    omega
  have hother : ∀ j ∈ Finset.range (2 ^ 32), j ≠ i → ∀ u,
      balanceOf w amounts
        (DbOp.apply db (.put (smallBankKey w t (accountAt i)) (amounts.put value))) u
          (accountAt j) =
        balanceOf w amounts db u (accountAt j) := by
    intro j hj hne u
    have hdiffer : accountAt i ≠ accountAt j := fun h =>
      hne (((accountAt_eq_iff ha).mp h).trans ((accountAt_eq_iff ha).mp rfl).symm)
    rw [hput u j hj, if_neg fun h => hdiffer h.2]
  unfold total
  rw [sum_replaced hi fun j hj hne => by rw [hother j hj hne, hother j hj hne]]
  congr 1
  rw [hput _ i hi, hput _ i hi]
  cases t with
  | ACCOUNTS => exact absurd rfl ht
  | SAVINGS => simp
  | CHECKING => simp

end

/-! ## Amalgamate -/

section

variable {α : Type} [AddCommGroup α] {w : Wire} {amounts : Codec α} {db : Database}
  {a b : Int} {savingsA checkingA savingsB checkingB : α}

/-- What `amalgamate` writes. -/
def amalgamateWrites (w : Wire) (amounts : Codec α) (a b : Int) (sum : α) : List KV :=
  [⟨smallBankKey w .SAVINGS a, amounts.put 0⟩, ⟨smallBankKey w .CHECKING a, amounts.put 0⟩,
    ⟨smallBankKey w .CHECKING b, amounts.put sum⟩]

/-- Two accounts that exist are amalgamated. -/
theorem invoke_amalgamate {args rest : Bytes}
    (hargs : (w.int32.pair w.int32).get args = some ((a, b), rest))
    (ha : HasAccount w amounts db a savingsA checkingA)
    (hb : HasAccount w amounts db b savingsB checkingB) :
    ∃ inv, (amalgamate w amounts args).invoke db = .ok inv ∧ inv.ret = 0 ∧
      inv.writes = amalgamateWrites w amounts a b (checkingB + (savingsA + checkingA)) := by
  obtain ⟨nameA, hnameA⟩ := ha.name
  obtain ⟨nameB, hnameB⟩ := hb.name
  unfold amalgamate Program.invoke
  rw [hargs]
  simp only [Program.run_getValue_some hnameA, Program.run_getValue_some hnameB,
    Program.run_getValue_some ha.savings, Program.run_getValue_some ha.checking,
    Program.run_getValue_some hb.checking, Program.insertIntoTable, Program.run]
  refine ⟨_, rfl, rfl, ?_⟩
  simp [ORM.put, ORM.empty, amalgamateWrites]

/-- The database after `amalgamate`: three puts. -/
def amalgamated (w : Wire) (amounts : Codec α) (db : Database) (a b : Int) (sum : α) : Database :=
  DbOp.apply (DbOp.apply (DbOp.apply db (.put (smallBankKey w .SAVINGS a) (amounts.put 0)))
    (.put (smallBankKey w .CHECKING a) (amounts.put 0)))
    (.put (smallBankKey w .CHECKING b) (amounts.put sum))

variable {sum : α}

theorem applyAll_amalgamateWrites (hzero : Stores amounts 0) (hsum : Stores amounts sum) :
    DbOp.applyAll db (Exec.updatesOf (amalgamateWrites w amounts a b sum)) =
      amalgamated w amounts db a b sum := by
  rw [Exec.updatesOf_of_nonempty]
  · rfl
  · intro kv hkv
    simp only [amalgamateWrites, List.mem_cons, List.not_mem_nil, or_false] at hkv
    rcases hkv with rfl | rfl | rfl
    · exact hzero.nonempty
    · exact hzero.nonempty
    · exact hsum.nonempty

/-- All balances afterwards. -/
theorem balanceOf_amalgamated (hw : w.FixedInt32) (ha : IsInt32 a) (hb : IsInt32 b)
    (hzero : Stores amounts 0) (hsum : Stores amounts sum) {t : SmallBankTable} {i : Int}
    (hi : IsInt32 i) : balanceOf w amounts (amalgamated w amounts db a b sum) t i =
      if .CHECKING = t ∧ b = i then some sum
      else if .CHECKING = t ∧ a = i then some 0
      else if .SAVINGS = t ∧ a = i then some 0
      else balanceOf w amounts db t i := by
  rw [amalgamated, balanceOf_put hw hb hsum hi, balanceOf_put hw ha hzero hi,
    balanceOf_put hw ha hzero hi]

/-- The total afterwards. -/
theorem total_amalgamated (hw : w.FixedInt32) (hint : IsInt32 a) (hint' : IsInt32 b)
    (hzero : Stores amounts 0) (hsum : Stores amounts (checkingB + (savingsA + checkingA)))
    (ha : HasAccount w amounts db a savingsA checkingA)
    (hb : HasAccount w amounts db b savingsB checkingB) :
    total w amounts (amalgamated w amounts db a b (checkingB + (savingsA + checkingA))) =
      total w amounts db + if a = b then checkingA else 0 := by
  have hcheckingB : balanceOf w amounts (DbOp.apply (DbOp.apply db
      (.put (smallBankKey w .SAVINGS a) (amounts.put 0)))
      (.put (smallBankKey w .CHECKING a) (amounts.put 0))) .CHECKING b =
        if a = b then some 0 else some checkingB := by
    rw [balanceOf_put hw hint hzero hint', balanceOf_put hw hint hzero hint', hb.checking]
    simp
  have hcheckingA : balanceOf w amounts (DbOp.apply db
      (.put (smallBankKey w .SAVINGS a) (amounts.put 0))) .CHECKING a = some checkingA := by
    rw [balanceOf_put hw hint hzero hint, ha.checking]
    simp
  rw [amalgamated, total_put hw hint' hsum (by decide), total_put hw hint hzero (by decide),
    total_put hw hint hzero (by decide), hcheckingB, hcheckingA, ha.savings]
  split_ifs with hab
  · subst hab
    have hsame : checkingB = checkingA := Option.some.inj (hb.checking.symm.trans ha.checking)
    rw [hsame]
    simp only [Option.getD_some]
    abel
  · simp only [Option.getD_some]
    abel

end

section

variable {α : Type} [AddCommGroup α] [One α] [LT α] [DecidableLT α]

/-- The request asks SmallBank to amalgamate the accounts. -/
def Amalgamates (w : Wire) (cc : Chaincodes) (amounts : Codec α) (e : Replication.Envelop)
    (a b : Int) : Prop :=
  ∃ txn rest, Mix.newTransactionFromEnvelop w e = some txn ∧
    cc txn.userRequest.ccName = some (invokeChaincode w amounts) ∧
    txn.userRequest.funcName = [97, 109, 103] ∧
    (w.int32.pair w.int32).get txn.userRequest.args = some ((a, b), rest)

/-- What is read as two ids fits. -/
theorem isInt32_of_get {w : Wire} (hw : w.FixedInt32) {args rest : Bytes} {a b : Int}
    (h : (w.int32.pair w.int32).get args = some ((a, b), rest)) : IsInt32 a ∧ IsInt32 b := by
  simp only [Codec.pair, Wire.int32] at h
  split at h
  · cases h
  · rename_i a' rest' hfirst
    split at h
    · cases h
    · rename_i b' rest'' hsecond
      cases h
      exact ⟨(hw.canonical _ _ _ hfirst).1, (hw.canonical _ _ _ hsecond).1⟩

section

variable {w : Wire} {cc : Chaincodes} {n : Nat} {amounts : Codec α} {db : Database}
  {e : Replication.Envelop} {a b : Int} {savingsA checkingA savingsB checkingB : α}

/-- The request commits, and the three balances are in the database. -/
theorem processed_amalgamate (hn : 1 ≤ n) (he : Amalgamates w cc amounts e a b)
    (ha : HasAccount w amounts db a savingsA checkingA)
    (hb : HasAccount w amounts db b savingsB checkingB) (hzero : Stores amounts 0)
    (hsum : Stores amounts (checkingB + (savingsA + checkingA))) :
    ∃ left : Mix.Processed, left.retResults = [true] ∧
      ∀ r, Mix.ProcessValidatedRequests w cc false n db [e] r ↔
        r = .ok (left, amalgamated w amounts db a b (checkingB + (savingsA + checkingA))) := by
  obtain ⟨txn, rest, hmade, hcc, hfunc, hargs⟩ := he
  obtain ⟨inv, hinv, hret, hwrites⟩ := invoke_amalgamate hargs ha hb
  have hinvoke : Mix.invokeChaincode cc db txn = .ok inv := by
    rw [Mix.invokeChaincode, hcc, hfunc]
    exact hinv
  refine ⟨Mix.processedAlone e inv, by simp [Mix.processedAlone, hret], fun r => ?_⟩
  rw [Mix.processed_alone_iff hn hmade hinvoke, Exec.Invocation.database, if_pos hret, hwrites,
    applyAll_amalgamateWrites hzero hsum]

end

/-! Amounts of eight bytes, and a bank of two accounts. -/

/-- SmallBank with 64-bit amounts among the chaincodes. -/
def bankChaincodes : Chaincodes :=
  let closed := fun _ _ => .ret (-1)
  Exec.newChaincodeByName littleEndian closed closed
    (invokeChaincode littleEndian littleEndian.int64) closed

/-- The accounts 1 and 2, with savings of 10 and 30 and checking balances of 20 and 40. -/
def twoAccounts : Database :=
  DbOp.applyAll (fun _ => none)
    [.put (smallBankKey littleEndian .ACCOUNTS 1) (littleEndian.putString [65]),
      .put (smallBankKey littleEndian .SAVINGS 1) (littleEndian.putInt64 10),
      .put (smallBankKey littleEndian .CHECKING 1) (littleEndian.putInt64 20),
      .put (smallBankKey littleEndian .ACCOUNTS 2) (littleEndian.putString [66]),
      .put (smallBankKey littleEndian .SAVINGS 2) (littleEndian.putInt64 30),
      .put (smallBankKey littleEndian .CHECKING 2) (littleEndian.putInt64 40)]

/-- A request to amalgamate two accounts. -/
def amalgamateRequest (a b : Int) : Replication.Envelop :=
  Mix.request 1 [115, 98] [97, 109, 103] ((littleEndian.int32.pair littleEndian.int32).put (a, b))

theorem stores_int64 {n : Nat} (h : n < 2 ^ 63) : Stores littleEndian.int64 (n : Int) where
  carries := littleEndian.carries_int64 h
  nonempty := by
    refine List.ne_nil_of_length_pos ?_
    rw [Wire.int64]
    exact (length_putLE 8 _).symm ▸ by decide

theorem hasAccount_one : HasAccount littleEndian littleEndian.int64 twoAccounts 1 10 20 :=
  ⟨⟨[65], by decide +kernel⟩, by decide +kernel, by decide +kernel⟩

theorem hasAccount_two : HasAccount littleEndian littleEndian.int64 twoAccounts 2 30 40 :=
  ⟨⟨[66], by decide +kernel⟩, by decide +kernel, by decide +kernel⟩

theorem amalgamates_two :
    Amalgamates littleEndian bankChaincodes littleEndian.int64 (amalgamateRequest 1 2) 1 2 :=
  ⟨_, [], rfl, rfl, rfl, rfl⟩

theorem amalgamates_itself :
    Amalgamates littleEndian bankChaincodes littleEndian.int64 (amalgamateRequest 1 1) 1 1 :=
  ⟨_, [], rfl, rfl, rfl, rfl⟩

/-- **Amalgamating conserves money exactly if the accounts differ or the checking balance is
zero.** The request always commits, on accounts that exist; the total is then unchanged, the
savings of the first account are zero and no third account is touched, if and only if the accounts
are two, or one without a checking balance. -/
theorem amalgamate_conserves_iff {w : Wire} (hw : w.FixedInt32) {cc : Chaincodes} {n : Nat}
    (hn : 1 ≤ n) {amounts : Codec α} {db : Database} {e : Replication.Envelop} {a b : Int}
    (he : Amalgamates w cc amounts e a b) {savingsA checkingA savingsB checkingB : α}
    (ha : HasAccount w amounts db a savingsA checkingA)
    (hb : HasAccount w amounts db b savingsB checkingB) (hzero : Stores amounts 0)
    (hsum : Stores amounts (checkingB + (savingsA + checkingA))) :
    ∃ left db', (∀ r, Mix.ProcessValidatedRequests w cc false n db [e] r ↔ r = .ok (left, db')) ∧
      left.retResults = [true] ∧
      ((total w amounts db' = total w amounts db ∧
          balanceOf w amounts db' .SAVINGS a = some 0 ∧
          ∀ i, IsInt32 i → i ≠ a → i ≠ b → ∀ t,
            balanceOf w amounts db' t i = balanceOf w amounts db t i) ↔
        a ≠ b ∨ checkingA = 0) := by
  obtain ⟨left, hleft, hrun⟩ := processed_amalgamate hn he ha hb hzero hsum
  obtain ⟨txn, rest, -, -, -, hargs⟩ := he
  obtain ⟨hint, hint'⟩ := isInt32_of_get hw hargs
  refine ⟨left, _, hrun, hleft, ?_⟩
  rw [total_amalgamated hw hint hint' hzero hsum ha hb]
  constructor
  · rintro ⟨htotal, -, -⟩
    by_cases hab : a = b
    · right
      simpa [hab] using htotal
    · exact .inl hab
  · intro h
    refine ⟨?_, ?_, ?_⟩
    · rcases h with hne | hchecking
      · simp [hne]
      · simp [hchecking]
    · rw [balanceOf_amalgamated hw hint hint' hzero hsum hint]
      simp
    · intro i hi hia hib t
      rw [balanceOf_amalgamated hw hint hint' hzero hsum hi]
      simp [Ne.symm hia, Ne.symm hib]

/-- Account 1 is amalgamated with account 2: nothing is lost. -/
theorem amalgamate_conserves_two : ∃ left db',
    Mix.ProcessValidatedRequests littleEndian bankChaincodes false 1 twoAccounts
      [amalgamateRequest 1 2] (.ok (left, db')) ∧ left.retResults = [true] ∧
    total littleEndian littleEndian.int64 db' =
      total littleEndian littleEndian.int64 twoAccounts := by
  obtain ⟨left, db', hrun, hleft, hiff⟩ := amalgamate_conserves_iff littleEndian.fixedInt32
    (le_refl 1) amalgamates_two hasAccount_one hasAccount_two (stores_int64 (n := 0) (by decide))
    (stores_int64 (n := 70) (by decide))
  exact ⟨left, db', (hrun _).mpr rfl, hleft, (hiff.mpr (.inl (by decide))).1⟩

/-- Account 1 is amalgamated with itself: its checking balance of 20 is there once more. -/
theorem amalgamate_with_itself_creates_money : ∃ left db',
    Mix.ProcessValidatedRequests littleEndian bankChaincodes false 1 twoAccounts
      [amalgamateRequest 1 1] (.ok (left, db')) ∧ left.retResults = [true] ∧
    total littleEndian littleEndian.int64 db' =
      total littleEndian littleEndian.int64 twoAccounts + 20 := by
  have hint : IsInt32 1 := ⟨by decide, by decide⟩
  have hzero : Stores littleEndian.int64 0 := stores_int64 (n := 0) (by decide)
  have hsum : Stores littleEndian.int64 (20 + (10 + 20)) := stores_int64 (n := 50) (by decide)
  obtain ⟨left, hleft, hrun⟩ := @processed_amalgamate Int _ _ _ _ littleEndian bankChaincodes 1 _
    twoAccounts _ 1 1 10 20 10 20 (le_refl 1) amalgamates_itself hasAccount_one hasAccount_one hzero
    hsum
  refine ⟨left, _, (hrun _).mpr rfl, hleft, ?_⟩
  rw [total_amalgamated littleEndian.fixedInt32 hint hint hzero hsum hasAccount_one hasAccount_one]
  rfl

end

end MassBFT.SmallBank
