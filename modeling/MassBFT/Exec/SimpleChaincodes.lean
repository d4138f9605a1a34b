import MassBFT.Exec.Chaincode

/-!
# The simple chaincodes and their names

`HashChaincode`, `SimpleVote` and `SimpleTransfer` as programs, and `newChaincodeByName`, which
finds a chaincode by its name. The benchmarks (YCSB, TPC-C, SmallBank) and the session store
are left open there.

A chaincode answers a request it does not understand with a negative code. `SimpleTransfer` has
one way around that: the argument of `init` goes to `std::stoi`, and **an argument that is not
a number ends in an exception** (`SimpleTransfer.returns_iff`).
-/

set_option autoImplicit false

namespace MassBFT.Exec

/-! ## Numbers in text -/

/-- `std::isspace` -/
def isSpace (c : UInt8) : Bool := c == 32 || (9 ≤ c && c ≤ 13)

/-- `std::isdigit` -/
def isDigit (c : UInt8) : Bool := 48 ≤ c && c ≤ 57

/-- The number that some digits spell. -/
def decimal (digits : Bytes) : Nat := digits.foldl (fun n c => 10 * n + (c.toNat - 48)) 0

/-- `strtol` in base 10: blanks, a sign, and as many digits as there are. -/
def strtol (text : Bytes) : Option Int :=
  let number (digits : Bytes) : Option Nat := if digits.isEmpty then none else some (decimal digits)
  match text.dropWhile isSpace with
  | 45 :: rest => (number (rest.takeWhile isDigit)).map fun n => -(n : Int)
  | 43 :: rest => (number (rest.takeWhile isDigit)).map Int.ofNat
  | rest => (number (rest.takeWhile isDigit)).map Int.ofNat

/-- `std::stoi`; `none` is `std::invalid_argument` or `std::out_of_range`. -/
def stoi (text : Bytes) : Option Int :=
  match strtol text with
  | none => none
  | some z => if -2 ^ 31 ≤ z ∧ z < 2 ^ 31 then some z else none

/-- `std::atoi`; outside of `int` its result is undefined, and here the one of a cast. -/
def atoi (text : Bytes) : Int := wrap32 ((strtol text).getD 0)

/-- `std::to_string` -/
def toDecimal (z : Int) : Bytes :=
  let digits := (Nat.toDigits 10 z.natAbs).map fun c => UInt8.ofNat c.toNat
  if z < 0 then 45 :: digits else digits

/-! ## The hash chaincode -/

namespace HashChaincode

/-- `Get` -/
def get (key : Bytes) : Program :=
  .get key fun
    | some value => .setResult value (.ret 0)
    | none => .ret (-1)

/-- `Set` -/
def set (key value : Bytes) : Program := .put key value (.ret 0)

/-- `InvokeChaincode`; the functions are called Get and Set. -/
def invokeChaincode (w : Wire) (funcName args : Bytes) : Program :=
  if funcName = [71, 101, 116] then
    match w.string.get args with
    | none => .ret (-1)
    | some (key, _) => get key
  else if funcName = [83, 101, 116] then
    match (w.string.pair w.string).get args with
    | none => .ret (-1)
    | some ((key, value), _) => set key value
  else
    .ret (-1)

end HashChaincode

/-! ## The vote chaincode without CRDTs -/

namespace SimpleVote

/-- `Vote` -/
def vote (w : Wire) (candidate : Bytes) (count : Int) : Program :=
  .get candidate fun
    | none => .ret (-2)
    | some rawValue =>
      match w.getInt32 rawValue with
      | none => .ret (-3)
      | some (oldCount, _) => .put candidate (w.putInt32 (wrap32 (oldCount + count))) (.ret 0)

/-- `InvokeChaincode`; the functions are called get and vote. -/
def invokeChaincode (w : Wire) (funcName args : Bytes) : Program :=
  if funcName = [103, 101, 116] then
    HashChaincode.get args
  else if funcName = [118, 111, 116, 101] then
    match (w.string.pair w.int32).get args with
    | none => .ret (-1)
    | some ((candidate, count), _) => vote w candidate count
  else
    .ret (-1)

end SimpleVote

/-! ## Transfers -/

namespace SimpleTransfer

/-- `initDatabase`: accounts `0` to `recordCount - 1`, all of them empty. -/
def initDatabase (recordCount : Int) : Program :=
  (List.range recordCount.toNat).foldr (fun (i : Nat) next => .put (toDecimal i) [48] next) (.ret 0)

/-- A transfer of 100 from one account to another. -/
def transfer (src dst : Bytes) : Program :=
  if src = dst then
    .ret 0
  else
    .get src fun
      | none => .ret (-1)
      | some fromBalance => .get dst fun
        | none => .ret (-1)
        | some toBalance =>
          .put src (toDecimal (wrap32 (atoi fromBalance - 100)))
            (.put dst (toDecimal (wrap32 (atoi toBalance + 100))) (.ret 0))

/-- `InvokeChaincode`; the function with one argument is called init. -/
def invokeChaincode (w : Wire) (funcName args : Bytes) : Program :=
  match (Codec.vector w w.string).get args with
  | none => .ret (-1)
  | some ([src, dst], _) => transfer src dst
  | some ([recordCount], _) =>
    if funcName = [105, 110, 105, 116] then
      match stoi recordCount with
      | none => .crash .exception
      | some recordCount => initDatabase recordCount
    else
      .ret (-1)
  | some (_, _) => .ret (-1)

end SimpleTransfer

/-! ## Names -/

/-- From a name to the chaincode's `InvokeChaincode`. -/
abbrev Chaincodes := Bytes → Option (Bytes → Bytes → Program)

/-- `NewChaincodeByName`. The names are ycsb, tpcc, sb, vote, transfer, session_store and
hash_chaincode. -/
def newChaincodeByName (w : Wire) (ycsb tpcc smallBank sessionStore : Bytes → Bytes → Program) :
    Chaincodes := fun ccName =>
  if ccName = [121, 99, 115, 98] then some ycsb
  else if ccName = [116, 112, 99, 99] then some tpcc
  else if ccName = [115, 98] then some smallBank
  else if ccName = [118, 111, 116, 101] then some (SimpleVote.invokeChaincode w)
  else if ccName = [116, 114, 97, 110, 115, 102, 101, 114] then
    some (SimpleTransfer.invokeChaincode w)
  else if ccName = [115, 101, 115, 115, 105, 111, 110, 95, 115, 116, 111, 114, 101] then
    some sessionStore
  else if ccName = [104, 97, 115, 104, 95, 99, 104, 97, 105, 110, 99, 111, 100, 101] then
    some (HashChaincode.invokeChaincode w)
  else none

/-! ## Which of them can crash -/

section

variable {w : Wire} {db : Database} {funcName args : Bytes}

namespace Program

/-- A run that reaches a return. -/
def Returns (db : Database) (p : Program) : Prop := ∃ code, (p.run db .empty).1 = .ok code

theorem returns_iff_invoke {p : Program} : p.Returns db ↔ ∃ inv, p.invoke db = .ok inv := by
  unfold Returns invoke
  cases hrun : (p.run db .empty).1 with
  | error what => simp [Except.map, hrun]
  | ok code => simp [Except.map, hrun]

end Program

theorem HashChaincode.returns_get (key : Bytes) : (HashChaincode.get key).Returns db := by
  unfold get Program.Returns
  cases hfound : ORM.found db key with
  | none => exact ⟨-1, by rw [Program.run, hfound]; rfl⟩
  | some value => exact ⟨0, by rw [Program.run, hfound]; rfl⟩

theorem HashChaincode.returns : (HashChaincode.invokeChaincode w funcName args).Returns db := by
  unfold invokeChaincode
  split_ifs
  · split
    · exact ⟨-1, rfl⟩
    · exact returns_get _
  · split
    · exact ⟨-1, rfl⟩
    · exact ⟨0, rfl⟩
  · exact ⟨-1, rfl⟩

theorem SimpleVote.returns : (SimpleVote.invokeChaincode w funcName args).Returns db := by
  unfold invokeChaincode
  split_ifs
  · exact HashChaincode.returns_get _
  · split
    · exact ⟨-1, rfl⟩
    · rename_i candidate count _ _
      unfold vote Program.Returns
      cases hfound : ORM.found db candidate with
      | none => exact ⟨-2, by rw [Program.run, hfound]; rfl⟩
      | some rawValue =>
        cases hcount : w.getInt32 rawValue with
        | none => exact ⟨-3, by rw [Program.run, hfound]; simp only [hcount]; rfl⟩
        | some old => exact ⟨0, by rw [Program.run, hfound]; simp only [hcount]; rfl⟩
  · exact ⟨-1, rfl⟩

theorem SimpleTransfer.run_initDatabase (recordCount : Int) (orm : ORM) :
    ∃ orm', (SimpleTransfer.initDatabase recordCount).run db orm = (.ok 0, orm') := by
  unfold initDatabase
  induction List.range recordCount.toNat generalizing orm with
  | nil => exact ⟨orm, rfl⟩
  | cons i rest ih => exact ih _

theorem SimpleTransfer.returns_transfer (src dst : Bytes) :
    (SimpleTransfer.transfer src dst).Returns db := by
  unfold transfer Program.Returns
  split_ifs
  · exact ⟨0, rfl⟩
  · cases hsrc : ORM.found db src with
    | none => exact ⟨-1, by rw [Program.run, hsrc]; rfl⟩
    | some fromBalance =>
      cases hdst : ORM.found db dst with
      | none => exact ⟨-1, by rw [Program.run, hsrc, Program.run, hdst]; rfl⟩
      | some toBalance => exact ⟨0, by rw [Program.run, hsrc, Program.run, hdst]; rfl⟩

/-- **A transfer crashes exactly with an `init` whose argument is not a number of an `int`.** -/
theorem SimpleTransfer.returns_iff :
    (SimpleTransfer.invokeChaincode w funcName args).Returns db ↔
      ∀ recordCount rest, (Codec.vector w w.string).get args = some ([recordCount], rest) →
        funcName = [105, 110, 105, 116] → (stoi recordCount).isSome = true := by
  unfold invokeChaincode
  split
  · rename_i hargs
    simp only [hargs, reduceCtorEq, false_imp_iff, implies_true, iff_true]
    exact ⟨-1, rfl⟩
  · rename_i hargs
    simp only [hargs, Option.some.injEq, Prod.mk.injEq, List.cons.injEq, reduceCtorEq, and_false,
      false_and, false_imp_iff, implies_true, iff_true]
    exact returns_transfer _ _
  · rename_i recordCount rest hargs
    simp only [hargs, Option.some.injEq, Prod.mk.injEq, List.cons.injEq, and_true, and_imp]
    split_ifs with hinit
    · cases hcount : stoi recordCount with
      | none =>
        constructor
        · rintro ⟨code, hcode⟩
          cases hcode
        · intro h
          have hsome := h recordCount rest rfl rfl hinit
          rw [hcount] at hsome
          cases hsome
      | some count =>
        constructor
        · rintro - _ _ rfl rfl -
          rw [hcount]
          rfl
        · intro _
          obtain ⟨orm, hrun⟩ := @SimpleTransfer.run_initDatabase db count .empty
          exact ⟨0, by rw [hrun]⟩
    · exact ⟨fun _ _ _ _ _ h => absurd h hinit, fun _ => ⟨-1, rfl⟩⟩
  · rename_i l rest hpair hsingle hargs
    constructor
    · intro _ recordCount rest' h
      rw [hargs] at h
      cases h
      exact absurd rfl (hsingle recordCount)
    · exact fun _ => ⟨-1, rfl⟩

/-- The requests that reach a return: those for the hash chaincode and for votes, transfers with the
limit above, and those of the other chaincodes that do. -/
def Answers (w : Wire) (ycsb tpcc smallBank sessionStore : Bytes → Bytes → Program) (db : Database)
    (ccName funcName args : Bytes) : Prop :=
  (ccName = [121, 99, 115, 98] ∧ (ycsb funcName args).Returns db) ∨
  (ccName = [116, 112, 99, 99] ∧ (tpcc funcName args).Returns db) ∨
  (ccName = [115, 98] ∧ (smallBank funcName args).Returns db) ∨
  ccName = [118, 111, 116, 101] ∨
  (ccName = [116, 114, 97, 110, 115, 102, 101, 114] ∧
    ∀ recordCount rest, (Codec.vector w w.string).get args = some ([recordCount], rest) →
      funcName = [105, 110, 105, 116] → (stoi recordCount).isSome = true) ∨
  (ccName = [115, 101, 115, 115, 105, 111, 110, 95, 115, 116, 111, 114, 101] ∧
    (sessionStore funcName args).Returns db) ∨
  ccName = [104, 97, 115, 104, 95, 99, 104, 97, 105, 110, 99, 111, 100, 101]

theorem newChaincodeByName_answers {ycsb tpcc smallBank sessionStore : Bytes → Bytes → Program}
    {ccName : Bytes} :
    (∃ invoke, newChaincodeByName w ycsb tpcc smallBank sessionStore ccName = some invoke ∧
        (invoke funcName args).Returns db) ↔
      Answers w ycsb tpcc smallBank sessionStore db ccName funcName args := by
  unfold newChaincodeByName Answers
  split_ifs with hycsb htpcc hbank hvote htransfer hstore hhash
  · simp [hycsb]
  · simp [htpcc]
  · simp [hbank]
  · simp [hvote, SimpleVote.returns]
  · simp [htransfer, SimpleTransfer.returns_iff]
  · simp [hstore]
  · simp [hhash, HashChaincode.returns]
  · simp [hycsb, htpcc, hbank, hvote, htransfer, hstore, hhash]

end

end MassBFT.Exec
