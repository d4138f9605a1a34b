import MassBFT.Mix.Crdt
import MassBFT.Mix.Deterministic

/-!
# The mixed engine

`MixCoordinator` sorts the requests of a block into two lists, runs the CRDT engine on the one
and the deterministic engine on the other, and merges the lists again by the positions it has
noted. **Every request comes back to its position with its own outcome** (`mixed_block`): the
merge takes the two lists apart exactly as the sorting did, since no engine changes what a
transaction was sorted by.
-/

set_option autoImplicit false

namespace MassBFT.Mix

open List
open Exec (Database TxReadWriteSet Crash Chaincodes)
open Transaction
open RoundRobin

/-! ## Sorting and merging -/

/-- `NewTransactionFromEnvelop` and the `CHECK` behind it. -/
def checkedTransaction (w : Wire) (envelop : Replication.Envelop) : Except Crash Transaction :=
  match newTransactionFromEnvelop w envelop with
  | none => .error .check
  | some txn => .ok txn

/-- What the sorting looks at. -/
def Transaction.isCrdt (txn : Transaction) : Bool := isCrdtChainCode txn.userRequest.ccName

/-- `crdtTxn`, `deterministicTxn` and `isCrdtTxn`. -/
structure Classified where
  crdtTxn : List Transaction
  deterministicTxn : List Transaction
  isCrdtTxn : List Bool

/-- The first loop of `MixCoordinator::processValidatedRequests`. -/
def classify (w : Wire) : List Replication.Envelop → Except Crash Classified
  | [] => .ok ⟨[], [], []⟩
  | req :: rest =>
    match checkedTransaction w req with
    | .error what => .error what
    | .ok txn =>
      match classify w rest with
      | .error what => .error what
      | .ok c =>
        if isCrdtChainCode txn.userRequest.ccName then
          .ok { c with crdtTxn := txn :: c.crdtTxn, isCrdtTxn := true :: c.isCrdtTxn }
        else
          .ok { c with
            deterministicTxn := txn :: c.deterministicTxn
            isCrdtTxn := false :: c.isCrdtTxn }

/-- The last loop, up to `DestroyTransaction`: position by position `crdtTxn[c++]` or
`deterministicTxn[d++]`. -/
def merge : List Bool → List Transaction → List Transaction → Except Crash (List Transaction)
  | [], _, _ => .ok []
  | true :: flags, txn :: crdtTxn, deterministicTxn =>
    (merge flags crdtTxn deterministicTxn).map (txn :: ·)
  | true :: _, [], _ => .error .outOfRange
  | false :: flags, crdtTxn, txn :: deterministicTxn =>
    (merge flags crdtTxn deterministicTxn).map (txn :: ·)
  | false :: _, _, [] => .error .outOfRange

/-- What a block leaves: `requests`, `retRWSets` and `retResults`. -/
structure Processed where
  requests : List Replication.Envelop
  retRWSets : List TxReadWriteSet
  retResults : List Bool
  deriving DecidableEq

/-- `DestroyTransaction` and the flags, for the transactions in the order of the block. -/
def processed (transactions : List Transaction) : Processed where
  requests := transactions.map fun txn => (destroyTransaction txn).1
  retRWSets := transactions.map fun txn => (destroyTransaction txn).2
  retResults := transactions.map fun txn => decide (txn.rwSet.retCode = .COMMIT)

/-! ## The coordinator -/

/-- `MixCoordinator::processValidatedRequests` with `n` workers: what it can leave. Without
`enableMix` the block is one of the deterministic engine. -/
inductive ProcessValidatedRequests (w : Wire) (cc : Chaincodes) (enableMix : Bool) (n : Nat)
    (db : Database) (requests : List Replication.Envelop) :
    Except Crash (Processed × Database) → Prop
  | plain {txns : List Transaction} {r : Except Crash (List Transaction × Database)}
      (henable : enableMix = false) (hstart : requests.mapM (checkedTransaction w) = .ok txns)
      (hrun : DeterministicSync cc n db txns r) :
      ProcessValidatedRequests w cc enableMix n db requests
        (r.map fun left => (processed left.1, left.2))
  | plainCheck {what : Crash}
      (henable : enableMix = false) (hstart : requests.mapM (checkedTransaction w) = .error what) :
      ProcessValidatedRequests w cc enableMix n db requests (.error what)
  | mixed {c : Classified} {crdtTxn : List Transaction} {db' : Database}
      {r : Except Crash (List Transaction × Database)}
      (henable : enableMix = true) (hsort : classify w requests = .ok c)
      (hcrdt : CrdtSync w n db c.crdtTxn crdtTxn db')
      (hrun : DeterministicSync cc n db' c.deterministicTxn r) :
      ProcessValidatedRequests w cc enableMix n db requests
        (r.bind fun left => (merge c.isCrdtTxn crdtTxn left.1).map fun out =>
          (processed out, left.2))
  | mixedCheck {what : Crash}
      (henable : enableMix = true) (hsort : classify w requests = .error what) :
      ProcessValidatedRequests w cc enableMix n db requests (.error what)

/-! ## Every request at its position -/

section

variable {w : Wire} {cc : Chaincodes} {n : Nat} {db : Database} {txns out : List Transaction}
  {R : Transaction → Transaction → Prop} {requests : List Replication.Envelop}

theorem classify_eq (w : Wire) (requests : List Replication.Envelop) :
    classify w requests = (requests.mapM (checkedTransaction w)).map fun txns =>
      ⟨txns.filter isCrdt, txns.filter (!·.isCrdt), txns.map isCrdt⟩ := by
  induction requests with
  | nil => rfl
  | cons req rest ih =>
    rw [classify, mapM_cons, ih]
    cases checkedTransaction w req with
    | error what => rfl
    | ok txn =>
      cases rest.mapM (checkedTransaction w) with
      | error what => rfl
      | ok txns =>
        change (if txn.isCrdt = true then _ else _) = _
        by_cases hcrdt : txn.isCrdt = true
        · rw [if_pos hcrdt]
          simp [Except.map, hcrdt, bind, Except.bind, pure, Except.pure]
        · rw [if_neg hcrdt]
          simp [Except.map, hcrdt, bind, Except.bind, pure, Except.pure]

theorem checkedTransaction_eq_ok {envelop : Replication.Envelop} {txn : Transaction} :
    checkedTransaction w envelop = .ok txn ↔ newTransactionFromEnvelop w envelop = some txn := by
  unfold checkedTransaction
  cases newTransactionFromEnvelop w envelop with
  | none => simp
  | some t => simp

/-- A new transaction carries its envelope, the id of it twice, and a request; nothing has been
done with it. -/
theorem newTransactionFromEnvelop_eq_some {envelop : Replication.Envelop} {txn : Transaction}
    (h : newTransactionFromEnvelop w envelop = some txn) :
    txn = ⟨envelopTid envelop, envelop, txn.userRequest,
      ⟨envelopTid envelop, [], .PENDING, [], []⟩⟩ := by
  unfold newTransactionFromEnvelop at h
  split at h
  · cases h
  · cases h
    rfl

/-- A block passes its checks exactly if a transaction can be made from each of its requests. -/
theorem mapM_checked_iff :
    requests.mapM (checkedTransaction w) = .ok txns ↔
      List.Forall₂ (fun e t => newTransactionFromEnvelop w e = some t) requests txns := by
  induction requests generalizing txns with
  | nil =>
    rw [List.forall₂_nil_left_iff, eq_comm]
    exact ⟨fun h => (Except.ok.inj h), fun h => congrArg _ h⟩
  | cons req rest ih =>
    rw [mapM_cons, List.forall₂_cons_left_iff]
    simp only [← ih]
    simp only [← checkedTransaction_eq_ok]
    cases checkedTransaction w req with
    | error what => simp [bind, Except.bind]
    | ok txn =>
      cases rest.mapM (checkedTransaction w) with
      | error what => simp [bind, Except.bind]
      | ok later => simp [bind, Except.bind, pure, Except.pure, eq_comm]

/-- The transactions of a block are made from its requests. -/
theorem origin_mapM
    (h : requests.mapM (checkedTransaction w) = .ok txns) :
    txns.map envelop = requests ∧
      txns.map (fun t => t.rwSet.requestDigest) = requests.map envelopTid := by
  rw [mapM_checked_iff] at h
  induction h with
  | nil => exact ⟨rfl, rfl⟩
  | cons hnew _ ih =>
    rw [map_cons, map_cons, map_cons, ih.1, ih.2, newTransactionFromEnvelop_eq_some hnew]
    exact ⟨rfl, rfl⟩

theorem isCrdt_of_origin {t t' : Transaction} (h : t'.origin = t.origin) :
    t'.isCrdt = t.isCrdt := by
  have hrequest : t'.userRequest = t.userRequest := congrArg (fun o => o.2.2.1) h
  rw [isCrdt, isCrdt, hrequest]

theorem map_origin_of_forall₂ (h : List.Forall₂ (fun t t' => t'.origin = t.origin) txns out) :
    out.map origin = txns.map origin := by
  induction h with
  | nil => rfl
  | cons hfirst _ ih => rw [map_cons, map_cons, hfirst, ih]

/-- What is handed back names the requests of the block, one by one. -/
theorem processed_origin (htxns : requests.mapM (checkedTransaction w) = .ok txns)
    (horigin : out.map origin = txns.map origin) :
    (processed out).requests = requests ∧
      (processed out).retRWSets.map TxReadWriteSet.requestDigest = requests.map envelopTid := by
  obtain ⟨henvelops, hdigests⟩ := origin_mapM htxns
  constructor
  · have h := congrArg (List.map fun o => o.2.1) horigin
    rw [map_map, map_map] at h
    exact h.trans henvelops
  · have h := congrArg (List.map fun o => o.2.2.2) horigin
    rw [map_map, map_map] at h
    rw [← hdigests]
    exact (map_map).trans h

/-- **The merge undoes the sorting**: what holds between the two lists and what the engines make
of them holds at every position afterwards. -/
theorem merge_sorted
    (hR : ∀ t t', R t t' → t'.origin = t.origin) {txns crdtTxn deterministicTxn : List Transaction}
    (hcrdt : List.Forall₂ R (txns.filter isCrdt) crdtTxn)
    (hdet : List.Forall₂ R (txns.filter (!·.isCrdt)) deterministicTxn) :
    ∃ out, merge (txns.map isCrdt) crdtTxn deterministicTxn = .ok out ∧
      List.Forall₂ R txns out ∧
      out.filter isCrdt = crdtTxn ∧ out.filter (!·.isCrdt) = deterministicTxn := by
  induction txns generalizing crdtTxn deterministicTxn with
  | nil =>
    cases hcrdt
    cases hdet
    exact ⟨[], rfl, .nil, rfl, rfl⟩
  | cons t txns ih =>
    -- the list that `t` was sorted into starts with what has become of it
    cases ht : t.isCrdt with
    | true =>
      rw [filter_cons_of_pos ht] at hcrdt
      rw [filter_cons_of_neg (by simp [ht])] at hdet
      obtain @⟨⟩ | @⟨_, t', _, later, hfirst, hlater⟩ := hcrdt
      obtain ⟨out, hout, hall, hfilter, hrest⟩ := ih hlater hdet
      have ht' : t'.isCrdt = true := (isCrdt_of_origin (hR t t' hfirst)).trans ht
      refine ⟨t' :: out, ?_, .cons hfirst hall, ?_, ?_⟩
      · rw [map_cons, ht, merge, hout]
        rfl
      · rw [filter_cons_of_pos ht', hfilter]
      · rw [filter_cons_of_neg (by simp [ht']), hrest]
    | false =>
      rw [filter_cons_of_neg (by simp [ht])] at hcrdt
      rw [filter_cons_of_pos (by simp [ht])] at hdet
      obtain @⟨⟩ | @⟨_, t', _, later, hfirst, hlater⟩ := hdet
      obtain ⟨out, hout, hall, hfilter, hrest⟩ := ih hcrdt hlater
      have ht' : t'.isCrdt = false := (isCrdt_of_origin (hR t t' hfirst)).trans ht
      refine ⟨t' :: out, ?_, .cons hfirst hall, ?_, ?_⟩
      · rw [map_cons, ht, merge, hout]
        rfl
      · rw [filter_cons_of_neg (by simp [ht']), hfilter]
      · rw [filter_cons_of_pos (by simp [ht']), hrest]

/-- The CRDT engine, position by position. -/
theorem crdtSync_forall₂ (hn : 1 ≤ n) {db' : Database}
    (h : CrdtSync w n db txns out db') {I : Database → Prop} (hstart : I db)
    (hjob : ∀ t ∈ txns, ∀ s, I s → R t (execute w s t).1 ∧ I (execute w s t).2) :
    List.Forall₂ R txns out := by
  obtain ⟨hrun⟩ := h
  refine forall₂_collect hn (hrun.forall₂_outs hstart fun i t ht s hs => ?_).1
  exact hjob t ((mem_scatter hn).mp ⟨i, ht⟩) s hs

/-- The deterministic engine, position by position. -/
theorem deterministicSync_forall₂ (hn : 1 ≤ n) {db' : Database}
    (h : DeterministicSync cc n db txns (.ok (out, db')))
    (hjob : ∀ t ∈ txns, ∀ table, R t (settle cc db table t)) : List.Forall₂ R txns out := by
  obtain ⟨-, ⟨table, rfl⟩, -⟩ := deterministicSync_refines hn h
  rw [List.forall₂_map_right_iff, List.forall₂_same]
  exact fun t ht => hjob t ht table

/-- What a mixed block is made of. -/
theorem mixed_inv {r : Except Crash (Processed × Database)}
    (h : ProcessValidatedRequests w cc true n db requests r) :
    (∃ what, requests.mapM (checkedTransaction w) = .error what ∧ r = .error what) ∨
      ∃ (txns crdtTxn : List Transaction) (db₁ : Database) (r' : _),
        requests.mapM (checkedTransaction w) = .ok txns ∧
        CrdtSync w n db (txns.filter isCrdt) crdtTxn db₁ ∧
        DeterministicSync cc n db₁ (txns.filter (!·.isCrdt)) r' ∧
        r = r'.bind fun left => (merge (txns.map isCrdt) crdtTxn left.1).map
          fun out => (processed out, left.2) := by
  cases h with
  | plain henable _ _ => cases henable
  | plainCheck henable _ => cases henable
  | @mixed c crdtTxn db₁ r' _ hsort hcrdt hrun =>
    rw [classify_eq] at hsort
    cases htxns : requests.mapM (checkedTransaction w) with
    | error what =>
      rw [htxns] at hsort
      cases hsort
    | ok txns =>
      rw [htxns] at hsort
      cases hsort
      exact Or.inr ⟨txns, crdtTxn, db₁, r', rfl, hcrdt, hrun, rfl⟩
  | mixedCheck _ hsort =>
    rw [classify_eq] at hsort
    cases htxns : requests.mapM (checkedTransaction w) with
    | error what =>
      rw [htxns] at hsort
      cases hsort
      exact Or.inl ⟨_, rfl, rfl⟩
    | ok txns =>
      rw [htxns] at hsort
      cases hsort

theorem exists_crdtSync (w : Wire) (n : Nat) (db : Database) (txns : List Transaction) :
    ∃ out db', CrdtSync w n db txns out db' := by
  obtain ⟨outs, db', hrun⟩ := Schedule.exists_run (execute w) (fun i : Fin n => scatter n i txns) db
  exact ⟨_, _, .run hrun⟩

/-- The engines leave lists that merge. -/
theorem merge_left (hn : 1 ≤ n) {txns crdtTxn deterministicTxn : List Transaction}
    {db₁ db₂ : Database} (hcrdt : CrdtSync w n db (txns.filter isCrdt) crdtTxn db₁)
    (hdet : DeterministicSync cc n db₁ (txns.filter (!·.isCrdt)) (.ok (deterministicTxn, db₂))) :
    ∃ out, merge (txns.map isCrdt) crdtTxn deterministicTxn = .ok out ∧
      List.Forall₂ (fun t t' => t'.origin = t.origin) txns out ∧
      out.filter isCrdt = crdtTxn ∧ out.filter (!·.isCrdt) = deterministicTxn := by
  have hsame : ∀ t ∈ txns.filter isCrdt, ∀ s, True →
      (execute w s t).1.origin = t.origin ∧ True := fun t _ s _ => ⟨rfl, trivial⟩
  exact merge_sorted (fun t t' h => h) (crdtSync_forall₂ hn hcrdt trivial hsame)
    (deterministicSync_forall₂ hn hdet fun t _ table => rfl)

/-- A mixed block returns, if no chaincode crashes on what the CRDT engine leaves. -/
theorem exists_mixed (hn : 1 ≤ n) (htxns : requests.mapM (checkedTransaction w) = .ok txns)
    (h : ∀ out db₁, CrdtSync w n db (txns.filter isCrdt) out db₁ →
      ∀ t ∈ txns.filter (!·.isCrdt), ∃ inv, invokeChaincode cc db₁ t = .ok inv) :
    ∃ left db', ProcessValidatedRequests w cc true n db requests (.ok (left, db')) := by
  obtain ⟨crdtTxn, db₁, hcrdt⟩ := exists_crdtSync w n db (txns.filter isCrdt)
  obtain ⟨deterministicTxn, db₂, hdet⟩ := exists_deterministicSync hn (h crdtTxn db₁ hcrdt)
  obtain ⟨out, hmerge, -⟩ := merge_left hn hcrdt hdet
  have hsort : classify w requests = .ok ⟨txns.filter isCrdt,
      txns.filter (!·.isCrdt), txns.map isCrdt⟩ := by
    rw [classify_eq, htxns]
    rfl
  have hrun := ProcessValidatedRequests.mixed rfl hsort hcrdt hdet
  dsimp only [Except.bind] at hrun
  rw [hmerge] at hrun
  exact ⟨_, _, hrun⟩

end

/-- **The mixed engine loses and mixes up nothing.** When a block returns, its requests stand
where they stood, every read-write set carries the digest of its request, the flags say which
transactions have committed, and the transactions that were sorted out are what the CRDT engine,
and on its database the deterministic engine, leave of them. -/
theorem mixed_block {w : Wire} {cc : Chaincodes} {n : Nat} (hn : 1 ≤ n) {db db' : Database}
    {requests : List Replication.Envelop} {left : Processed}
    (h : ProcessValidatedRequests w cc true n db requests (.ok (left, db'))) :
    ∃ (txns out : List Transaction) (db₁ : Database),
      requests.mapM (checkedTransaction w) = .ok txns ∧
      out.map origin = txns.map origin ∧
      CrdtSync w n db (txns.filter isCrdt) (out.filter isCrdt) db₁ ∧
      DeterministicSync cc n db₁ (txns.filter (!·.isCrdt)) (.ok (out.filter (!·.isCrdt), db')) ∧
      left.requests = requests ∧
      left.retRWSets = out.map rwSet ∧
      left.retRWSets.map TxReadWriteSet.requestDigest = requests.map envelopTid ∧
      left.retResults = out.map fun t => decide (t.rwSet.retCode = .COMMIT) := by
  obtain ⟨what, -, hr⟩ | ⟨txns, crdtTxn, db₁, r', htxns, hcrdt, hrun, hr⟩ := mixed_inv h
  · cases hr
  cases r' with
  | error what => cases hr
  | ok leftDet =>
    obtain ⟨deterministicTxn, db₂⟩ := leftDet
    obtain ⟨out, hmerge, hall, rfl, rfl⟩ := merge_left hn hcrdt hrun
    have horigin : out.map origin = txns.map origin := map_origin_of_forall₂ hall
    obtain ⟨hrequests, hdigests⟩ := processed_origin htxns horigin
    dsimp only [Except.bind] at hr
    rw [hmerge] at hr
    cases hr
    exact ⟨txns, out, db₁, htxns, horigin, hcrdt, hrun, hrequests, rfl, hdigests, rfl⟩

/-- A request on the little-endian wire. -/
def request (id : UInt8) (ccName funcName args : Bytes) : Replication.Envelop where
  payload := (UserRequest.codec littleEndian).put ⟨ccName, funcName, args, 0⟩
  signature := ⟨[], ⟨List.replicate 63 0 ++ [id], length_zeros_concat id⟩⟩

/-- The simple chaincodes; the others turn every request down. -/
def simpleChaincodes : Chaincodes :=
  let closed := fun _ _ => .ret (-1)
  Exec.newChaincodeByName littleEndian closed closed closed closed

/-- The name of the hash chaincode. -/
def hashName : Bytes := [104, 97, 115, 104, 95, 99, 104, 97, 105, 110, 99, 111, 100, 101]

/-- Two settings, with a vote between them. -/
def mixedRequests : List Replication.Envelop :=
  [request 1 hashName [83, 101, 116]
      ((littleEndian.string.pair littleEndian.string).put ([1], [2])),
    request 2 votingChaincodeName votingVote
      ((littleEndian.string.pair littleEndian.int32).put ([7], 3)),
    request 3 hashName [83, 101, 116]
      ((littleEndian.string.pair littleEndian.string).put ([4], [5]))]

theorem mixed_block_settings : ∃ left db',
    ProcessValidatedRequests littleEndian simpleChaincodes true 2 fiveVotes mixedRequests
      (.ok (left, db')) ∧ left.requests = mixedRequests ∧
      left.retRWSets.map TxReadWriteSet.requestDigest = mixedRequests.map envelopTid := by
  obtain ⟨txns, htxns, hname⟩ : ∃ txns,
      mixedRequests.mapM (checkedTransaction littleEndian) = .ok txns ∧
      ∀ t ∈ txns.filter (!·.isCrdt), t.userRequest.ccName = hashName := ⟨_, rfl, by decide +kernel⟩
  obtain ⟨left, db', hrun⟩ := @exists_mixed littleEndian simpleChaincodes 2 fiveVotes txns
    mixedRequests (by decide) htxns fun out s _ t ht => by
      rw [invokeChaincode, hname t ht]
      exact Exec.Program.returns_iff_invoke.mp Exec.HashChaincode.returns
  obtain ⟨-, -, -, -, -, -, -, hrequests, -, hdigests, -⟩ := mixed_block (by decide : 1 ≤ 2) hrun
  exact ⟨left, db', hrun, hrequests, hdigests⟩

end MassBFT.Mix
