import MassBFT.Exec.Coordinator
import MassBFT.Exec.Overtaken

/-!
# The deterministic engine as threads

`ProcessSync` takes the phases of the engine apart and lets only the operations of one phase
interleave. Here the engine is what it is in the source: handlers that the threads of `Workers` run,
on the database, the tables, the vector of the caller and the lists of the workers.

**Every clean run of the threads is a `ProcessSync`** (`threads_processSync`): the rounds are the
phases, and in a round nobody else changes what a worker looks at.
-/

set_option autoImplicit false

namespace MassBFT.Exec

open Function List

/-! ## What the threads share -/

/-- What only one worker touches: its list, and the entries `w`, `w + n`, … of the vector of the
caller. -/
structure Own where
  txnList : List Transaction
  transactions : List Transaction

/-- What the workers read and write. -/
structure Engine (n : Nat) where
  db : Database
  table : ReserveTable
  own : Fin n → Own

/-- `afterStart`: the entries of the vector are moved into the list. -/
def Own.afterStart (own : Own) : Own := ⟨own.transactions, []⟩

/-- The transactions in the list are written to. -/
def Own.store (txnList : List Transaction) (own : Own) : Own := { own with txnList := txnList }

/-- `afterCommit`: the entries of the list are moved back. -/
def Own.afterCommit (own : Own) : Own := ⟨[], own.txnList⟩

/-- One access to what the threads share. -/
inductive EngineOp (n : Nat) where
  /-- An operation on the tables. -/
  | reserve (r : Reservation)
  /-- `syncPut` or `syncDelete` -/
  | save (op : DbOp)
  /-- Worker `w` changes what is its own. -/
  | own (w : Fin n) (f : Own → Own)

namespace EngineOp

variable {n : Nat}

def apply (s : Engine n) : EngineOp n → Engine n
  | reserve r => { s with table := s.table.reserve r }
  | save op => { s with db := op.apply s.db }
  | own w f => { s with own := update s.own w (f (s.own w)) }

def reservation : EngineOp n → Option Reservation
  | reserve r => some r
  | save _ | own _ _ => none

def saved : EngineOp n → Option DbOp
  | save op => some op
  | reserve _ | own _ _ => none

/-- The access is one of worker `w`. -/
def Of (w : Fin n) : EngineOp n → Prop
  | own w' _ => w' = w
  | reserve _ | save _ => True

/-- What an access of a worker does to its own. -/
def onOwn (o : Own) : EngineOp n → Own
  | own _ f => f o
  | reserve _ | save _ => o

variable {w : Fin n} {op : EngineOp n} {s : Engine n} {out : List (EngineOp n)}

theorem own_apply (h : op.Of w) : (op.apply s).own w = onOwn (s.own w) op := by
  cases op with
  | reserve r => rfl
  | save op => rfl
  | own w' f =>
    cases h
    exact update_self _ _ _

/-- The other workers leave it alone. -/
theorem own_apply_of_ne {w' : Fin n} (h : op.Of w') (hne : w' ≠ w) :
    (op.apply s).own w = s.own w := by
  cases op with
  | reserve r => rfl
  | save op => rfl
  | own w'' f =>
    cases h
    exact update_of_ne (Ne.symm hne) _ _

theorem foldl_db : (out.foldl apply s).db = DbOp.applyAll s.db (out.filterMap saved) := by
  induction out generalizing s with
  | nil => rfl
  | cons op out ih =>
    rw [foldl_cons, ih]
    cases op <;> rfl

theorem foldl_table :
    (out.foldl apply s).table = (out.filterMap reservation).foldl ReserveTable.reserve s.table := by
  induction out generalizing s with
  | nil => rfl
  | cons op out ih =>
    rw [foldl_cons, ih]
    cases op <;> rfl

/-- **A round** in which nobody changes what the workers look at: the updates of the database
interleave, the reservations interleave, and what a worker owns is what it makes of it. -/
theorem round {γ : Type} (part : Engine n → γ) {tasks : Fin n → Task (Engine n)}
    {ls : Fin n → List (EngineOp n)} {s' : Engine n}
    (hkeep : ∀ w, ∀ op ∈ ls w, op.Of w ∧ ∀ s, part (op.apply s) = part s)
    (hfollows : ∀ w, Follows apply (fun s' => part s' = part s ∧ s'.own w = s.own w) (tasks w)
      (ls w))
    (h : Parallel tasks s s') :
    (∃ updates, Interleave (fun w => (ls w).filterMap saved) updates ∧
      s'.db = DbOp.applyAll s.db updates) ∧
    (∃ ops, Interleave (fun w => (ls w).filterMap reservation) ops ∧
      s'.table = ops.foldl ReserveTable.reserve s.table) ∧
    ∀ w, s'.own w = (ls w).foldl onOwn (s.own w) := by
  obtain ⟨out, hout, rfl⟩ := h.interleave (fun _ => ⟨rfl, rfl⟩) hfollows
    fun w w' hne op hop s₁ hs₁ => ⟨((hkeep w' op hop).2 s₁).trans hs₁.1,
      (own_apply_of_ne (hkeep w' op hop).1 hne).trans hs₁.2⟩
  refine ⟨⟨_, hout.filterMap saved, foldl_db⟩, ⟨_, hout.filterMap reservation, foldl_table⟩,
    fun w => ?_⟩
  exact @Interleave.foldl_proj _ _ _ _ _ _ apply (fun s => s.own w) onOwn w hout
    (fun op hop s => own_apply (hkeep w op hop).1)
    (fun j hj op hop s => own_apply_of_ne (hkeep j op hop).1 hj) s

/-- Reservations and updates of the database are not about a worker's own. -/
theorem foldl_onOwn_map {α : Type} {f : α → EngineOp n} (hf : ∀ x o, onOwn o (f x) = o)
    (xs : List α) (o : Own) : (xs.map f).foldl onOwn o = o := by
  induction xs with
  | nil => rfl
  | cons x xs ih => rw [map_cons, foldl_cons, hf, ih]

end EngineOp

/-! ## The deterministic coordinator -/

namespace DeterministicFSM

open EngineOp ReserveTable

variable {n : Nat}

/-- The loop of `OnExecuteTransaction` over the transactions that are left. The worker alone reads
its transactions, so they are written to at the end. -/
def executeLoop (w : Fin n) : List Transaction → List Transaction → Task (Engine n)
  | executed, [] => .ofList apply [.own w (.store executed)]
  | executed, txn :: rest => .act id fun s =>
    let now := executeTransaction s.db txn
    .issue apply (now.2.map .reserve) (executeLoop w (executed ++ [now.1]) rest)

/-- The loop in `saveToDB` over the transactions that are left, and the writes of the batch. -/
def commitLoop (w : Fin n) : WriteBatch → List Transaction → List Transaction → Task (Engine n)
  | batch, decided, [] => .ofList apply (.own w (.store decided) :: batch.ops.map .save)
  | batch, decided, txn :: rest => .act id fun s =>
    let now := commitTransaction s.table batch txn
    commitLoop w now.2 (decided ++ [now.1]) rest

def fsm (n : Nat) : WorkerFSM (Engine n) n where
  onCreate _ := ⟨.done, .READY⟩
  onDestroy _ := ⟨.done, .EXITED⟩
  onExecuteTransaction w := ⟨.act id fun s => executeLoop w [] (s.own w).txnList, .FINISH_EXEC⟩
  onCommitTransaction w :=
    ⟨.act id fun s => commitLoop w .empty [] (s.own w).txnList, .FINISH_COMMIT⟩

/-- The calls in `processSync`. -/
def processSync (n : Nat) : List (Call (Engine n) n) :=
  [.start fun w => .ofList apply [.own w .afterStart], .exec,
    .commit (some fun w => .ofList apply [.own w .afterCommit])]

/-- `processValidatedRequests` begins: the tables are reset, and the vector is the caller's. -/
def begun (s : Engine n) (txns : List Transaction) : Engine n :=
  { s with table := reset, own := fun w => ⟨(s.own w).txnList, afterStart n w txns⟩ }

/-- What worker `w` does in the round of `EXEC`, if the database stays. -/
def execOps (db : Database) (w : Fin n) (l : List Transaction) : List (EngineOp n) :=
  (onExecuteTransaction db l).2.map .reserve ++ [.own w (.store (onExecuteTransaction db l).1)]

theorem mem_execOps {db : Database} {w : Fin n} {l : List Transaction} {op : EngineOp n}
    (h : op ∈ execOps db w l) : op.Of w ∧ ∀ s, (op.apply s).db = s.db := by
  rcases mem_append.mp h with h | h
  · obtain ⟨r, -, rfl⟩ := mem_map.mp h
    exact ⟨trivial, fun _ => rfl⟩
  · rw [mem_singleton.mp h]
    exact ⟨rfl, fun _ => rfl⟩

theorem executeLoop_follows (w : Fin n) {db : Database} {S : Engine n → Prop}
    (hdb : ∀ s, S s → s.db = db) (hkeep : ∀ r s, S s → S (apply s (.reserve r)))
    (executed l : List Transaction) :
    Follows apply S (executeLoop w executed l) ((onExecuteTransaction db l).2.map .reserve ++
      [.own w (.store (executed ++ (onExecuteTransaction db l).1))]) := by
  induction l generalizing executed with
  | nil =>
    simp only [onExecuteTransaction, flatMap_nil, map_nil, nil_append, append_nil]
    exact .closed _
  | cons txn rest ih =>
    refine .look fun s hs => ?_
    have hrest := ih (executed ++ [(executeTransaction db txn).1])
    rw [append_assoc] at hrest
    have hops : (onExecuteTransaction db (txn :: rest)).2 =
        (executeTransaction db txn).2 ++ (onExecuteTransaction db rest).2 := rfl
    rw [hops, map_append, append_assoc, hdb s hs]
    refine .issue (fun x hx s' hs' => ?_) hrest
    obtain ⟨r, -, rfl⟩ := mem_map.mp hx
    exact hkeep r s' hs'

/-- What worker `w` does in the round of `COMMIT`, if the tables stay. -/
def commitOps (table : ReserveTable) (w : Fin n) (l : List Transaction) : List (EngineOp n) :=
  (.own w (.store (onCommitTransaction table .empty l).1) ::
    (onCommitTransaction table .empty l).2.ops.map .save) ++ [.own w .afterCommit]

theorem mem_commitOps {table : ReserveTable} {w : Fin n} {l : List Transaction} {op : EngineOp n}
    (h : op ∈ commitOps table w l) : op.Of w ∧ ∀ s, (op.apply s).table = s.table := by
  rcases mem_append.mp h with h | h
  · rcases mem_cons.mp h with rfl | h
    · exact ⟨rfl, fun _ => rfl⟩
    · obtain ⟨u, -, rfl⟩ := mem_map.mp h
      exact ⟨trivial, fun _ => rfl⟩
  · rw [mem_singleton.mp h]
    exact ⟨rfl, fun _ => rfl⟩

theorem commitLoop_follows (w : Fin n) {table : ReserveTable} {S : Engine n → Prop}
    (htable : ∀ s, S s → s.table = table) (after : List (EngineOp n))
    (batch : WriteBatch) (decided l : List Transaction) :
    Follows apply S ((commitLoop w batch decided l).andThen (.ofList apply after))
      ((.own w (.store (decided ++ (onCommitTransaction table batch l).1)) ::
        (onCommitTransaction table batch l).2.ops.map .save) ++ after) := by
  induction l generalizing batch decided with
  | nil =>
    rw [commitLoop, Task.ofList_andThen, onCommitTransaction, append_nil]
    exact .closed _
  | cons txn rest ih =>
    refine .look fun s hs => ?_
    have hrest := ih (commitTransaction table batch txn).2
      (decided ++ [(commitTransaction table batch txn).1])
    rw [append_assoc] at hrest
    obtain rfl := htable s hs
    exact hrest

/-! ## The three rounds -/

variable {s s' : Engine n} {l : Fin n → List Transaction}

theorem start_round (h : Parallel (Call.task (fsm n)
      (.start fun w => .ofList apply [.own w .afterStart])) s s') :
    s'.db = s.db ∧ s'.table = s.table ∧ ∀ w, s'.own w = (s.own w).afterStart := by
  obtain ⟨⟨updates, hupdates, hdb⟩, ⟨ops, hops, htable⟩, hown⟩ := round (fun _ => ())
    (fun w op hop => ⟨by rw [mem_singleton.mp hop]; rfl, fun _ => rfl⟩)
    (fun w => .closed [.own w .afterStart]) h
  rw [hupdates.eq_nil fun _ => rfl] at hdb
  rw [hops.eq_nil fun _ => rfl] at htable
  exact ⟨hdb, htable, hown⟩

/-- In the round of `EXEC` the database stays. -/
theorem exec_round (hl : ∀ w, (s.own w).txnList = l w)
    (h : Parallel (Call.task (fsm n) .exec) s s') :
    s'.db = s.db ∧
      (∃ ops, Interleave (fun w => (onExecuteTransaction s.db (l w)).2) ops ∧
        s'.table = ops.foldl reserve s.table) ∧
      ∀ w, (s'.own w).txnList = (onExecuteTransaction s.db (l w)).1 := by
  have hfollows : ∀ w, Follows apply (fun s' => s'.db = s.db ∧ s'.own w = s.own w)
      (Call.task (fsm n) .exec w) (execOps s.db w (l w)) := by
    intro w
    have htask : Call.task (fsm n) .exec w =
        .act id fun s => executeLoop w [] (s.own w).txnList := Task.andThen_done _
    rw [htask]
    refine .look fun s₁ hs₁ => ?_
    rw [hs₁.2, hl w]
    exact executeLoop_follows w (fun s₂ hs₂ => hs₂.1) (fun r s₂ hs₂ => hs₂) [] (l w)
  obtain ⟨⟨updates, hupdates, hdb⟩, ⟨ops, hops, htable⟩, hown⟩ :=
    round Engine.db (fun _ _ => mem_execOps) hfollows h
  rw [hupdates.eq_nil fun w => by simp [execOps, saved, filterMap_map]] at hdb
  refine ⟨hdb, ⟨ops, ?_, htable⟩, fun w => ?_⟩
  · have hls : (fun w => (execOps s.db w (l w)).filterMap reservation) =
        fun w => (onExecuteTransaction s.db (l w)).2 := by
      funext w
      rw [execOps, filterMap_append, filterMap_map]
      simp [reservation, comp_def]
    rwa [hls] at hops
  · rw [hown, execOps, foldl_append, foldl_onOwn_map fun _ _ => rfl]
    rfl

/-- In the round of `COMMIT` the tables stay. -/
theorem commit_round (hl : ∀ w, (s.own w).txnList = l w) (h : Parallel (Call.task (fsm n)
      (.commit (some fun w => .ofList apply [.own w .afterCommit]))) s s') :
    (∃ updates, Interleave (fun w => (onCommitTransaction s.table .empty (l w)).2.ops) updates ∧
      s'.db = DbOp.applyAll s.db updates) ∧
      ∀ w, (s'.own w).transactions = (onCommitTransaction s.table .empty (l w)).1 := by
  have hfollows : ∀ w, Follows apply (fun s' => s'.table = s.table ∧ s'.own w = s.own w)
      (Call.task (fsm n) (.commit (some fun w => .ofList apply [.own w .afterCommit])) w)
      (commitOps s.table w (l w)) := by
    refine fun w => .look fun s₁ hs₁ => ?_
    show Follows _ _ ((commitLoop w .empty [] (s₁.own w).txnList).andThen
      (.ofList apply [.own w .afterCommit])) _
    rw [hs₁.2, hl w]
    exact commitLoop_follows w (fun s₂ hs₂ => hs₂.1) _ .empty [] (l w)
  obtain ⟨⟨updates, hupdates, hdb⟩, -, hown⟩ :=
    round Engine.table (fun _ _ => mem_commitOps) hfollows h
  refine ⟨⟨updates, ?_, hdb⟩, fun w => ?_⟩
  · have hls : (fun w => (commitOps s.table w (l w)).filterMap saved) =
        fun w => (onCommitTransaction s.table .empty (l w)).2.ops := by
      funext w
      rw [commitOps, cons_append, filterMap_cons_none rfl, filterMap_append, filterMap_map]
      simp [saved, comp_def]
    rwa [hls] at hupdates
  · rw [hown, commitOps, cons_append, foldl_cons, foldl_append,
      foldl_onOwn_map fun _ _ => rfl]
    rfl

theorem not_unexpected {call : Call (Engine n) n} (hcall : call ∈ processSync n) :
    ¬ System.Unexpected (fsm n) call := by
  rintro ⟨i, hi⟩
  simp only [processSync, mem_cons, not_mem_nil, or_false] at hcall
  rcases hcall with rfl | rfl | rfl <;> exact hi rfl

/-- **Every clean run of the threads is a `ProcessSync`.** The coordinator returns `true`, and what
the run leaves in the database and in the vector is what `ProcessSync` says. -/
theorem threads_processSync (s₀ : Engine n) (txns : List Transaction) {s : System (Engine n) n}
    (hrun : System.Clean (fsm n) (.initial (processSync n) (begun s₀ txns)) s)
    {ret : Bool} (hend : s.place = .finished ret) :
    ret = true ∧ ∃ txnList : Nat → List Transaction,
      (∀ w : Fin n, (s.shared.own w).transactions = txnList w) ∧
      ProcessSync n s₀.db txns (afterCommit n txns.length txnList) s.shared.db := by
  have hended := hrun.ended hend
  cases ret with
  | false =>
    obtain ⟨before, call, rest, hcalls, -, hunexpected⟩ := hended
    refine absurd hunexpected (not_unexpected ?_)
    rw [hcalls]
    simp
  | true =>
    obtain ⟨s₁, hstart, hlater⟩ := Phases.cons_inv hended
    obtain ⟨s₂, hexec, hlater⟩ := hlater.cons_inv
    obtain ⟨s₃, hcommit, hnil⟩ := hlater.cons_inv
    obtain ⟨hdb₁, htable₁, hown₁⟩ := start_round hstart
    obtain ⟨hdb₂, ⟨ops, hops, htable₂⟩, hlist₂⟩ :=
      exec_round (fun w => congrArg Own.txnList (hown₁ w)) hexec
    obtain ⟨⟨updates, hupdates, hdb₃⟩, hback⟩ := commit_round hlist₂ hcommit
    rw [hdb₁] at hdb₂ hops hupdates hback
    rw [htable₁] at htable₂
    rw [htable₂] at hupdates hback
    rw [hnil.nil_inv, hdb₃, hdb₂]
    exact ⟨rfl, fun w => (workerCommit n s₀.db txns ops w).1, hback, .run hops hupdates⟩

/-- Two transactions that write one key. -/
def twoWriters : List Transaction :=
  [newTransactionFromEnvelop (setRequest 1 [0] [1]),
    newTransactionFromEnvelop (setRequest 2 [0] [2])]

set_option maxRecDepth 8000 in
/-- Two workers take turns; each has one of the writers, and the first one wins. -/
theorem threads_processSync_twoWriters :
    ∃ s, System.Clean (fsm 2) (.initial (processSync 2)
        (begun ⟨fun _ => none, reset, fun _ => ⟨[], []⟩⟩ twoWriters)) s ∧
      s.place = .finished true ∧ s.shared.db [0] = some [1] ∧
      ∃ out, ProcessSync 2 (fun _ => none) twoWriters out s.shared.db := by
  have hrun : ∃ s, System.follow (fsm 2) (fun s a => !s.exchangeFails a)
      (List.replicate 8 .coordinator ++ (List.replicate 6 [.worker 0, .worker 1]).flatten ++
        List.replicate 9 .coordinator ++ (List.replicate 9 [.worker 0, .worker 1]).flatten ++
        List.replicate 9 .coordinator ++ (List.replicate 10 [.worker 0, .worker 1]).flatten ++
        List.replicate 2 .coordinator)
      (.initial (processSync 2) (begun ⟨fun _ => none, reset, fun _ => ⟨[], []⟩⟩ twoWriters)) =
        some s ∧
      s.place = .finished true ∧ s.shared.db [0] = some [1] := ⟨_, rfl, rfl, rfl⟩
  obtain ⟨s, hs, hplace, hdb⟩ := hrun
  have hclean := System.run_of_follow hs
  obtain ⟨-, _, -, hout⟩ := threads_processSync _ _ hclean hplace
  exact ⟨s, hclean, hplace, hdb, _, hout⟩

end DeterministicFSM

end MassBFT.Exec
