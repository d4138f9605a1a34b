import Mathlib.Data.Fintype.Card
import Mathlib.Logic.Relation
import MassBFT.Lib.Task

/-!
# The threads of a coordinator

A coordinator hands commands to its workers, each a thread of its own. `processParallel` gives
every worker a callback, stores the command in the worker's cell, wakes the worker, and waits on a
countdown that the callbacks signal. A worker waits on its cell, takes the command out of it, runs
the handler of its state machine and calls the callback.

The model has one step for each access to what the threads share, and a run is any order of these
steps. Runs in which no compare-exchange fails are `Clean`. The exchange is the second line of

    cEnum = _command->load();
    _command->compare_exchange_strong(cEnum, idleId);

If a command is stored between the two lines, the exchange fails, and the worker runs the command
but leaves it in the cell. A worker reads an idle cell only if it was woken for nothing;
`execute` itself can do that, because it stores first and wakes afterwards.
-/

set_option autoImplicit false

namespace MassBFT.Exec

open Function

/-- `InvokerCommand` -/
inductive InvokerCommand where
  | IDLE | START | EXEC | COMMIT | CUSTOM | EXIT
  deriving DecidableEq, Repr

/-- `ReceiverState` -/
inductive ReceiverState where
  | READY | FINISH_EXEC | FINISH_COMMIT | FINISH_CUSTOM | EXITED
  deriving DecidableEq, Repr

/-- One function of a `WorkerFSM`: what it does, and what it returns. -/
structure Handler (σ : Type) where
  task : Task σ
  ret : ReceiverState

/-- `WorkerFSM`, for all workers of a coordinator. -/
structure WorkerFSM (σ : Type) (n : Nat) where
  onCreate : Fin n → Handler σ
  onDestroy : Fin n → Handler σ
  onExecuteTransaction : Fin n → Handler σ
  onCommitTransaction : Fin n → Handler σ

/-- The `switch` of `Worker::run`. -/
def WorkerFSM.handler {σ : Type} {n : Nat} (fsm : WorkerFSM σ n) (i : Fin n) :
    InvokerCommand → Handler σ
  | .IDLE => ⟨.done, .READY⟩
  | .START => fsm.onCreate i
  | .EXEC => fsm.onExecuteTransaction i
  | .COMMIT => fsm.onCommitTransaction i
  | .CUSTOM => ⟨.done, .FINISH_CUSTOM⟩
  | .EXIT => fsm.onDestroy i

/-- The closure that `processParallel` gives to the workers. What it refers to in the frame of
`processParallel` is taken by value, but for the flag. -/
structure CommandCallback (σ : Type) (n : Nat) where
  expectRetState : ReceiverState
  beforeFinish : Option (Fin n → Task σ)

/-- `beforeFinish(*workerList[i], *fsmList[i])`, if there is one. -/
def CommandCallback.finishing {σ : Type} {n : Nat} (callback : CommandCallback σ n) (i : Fin n) :
    Task σ :=
  match callback.beforeFinish with
  | none => .done
  | some f => f i

/-- The arguments of a call of `processParallel`. -/
structure Call (σ : Type) (n : Nat) extends CommandCallback σ n where
  inputCommand : InvokerCommand
  /-- No caller hands out one of these. -/
  not_idle : inputCommand ≠ .IDLE
  not_exit : inputCommand ≠ .EXIT

namespace Call

variable {σ : Type} {n : Nat}

/-- The calls that the coordinators make. -/
def start (afterStart : Fin n → Task σ) : Call σ n :=
  ⟨⟨.READY, some afterStart⟩, .START, by decide, by decide⟩

def exec : Call σ n := ⟨⟨.FINISH_EXEC, none⟩, .EXEC, by decide, by decide⟩

def commit (afterCommit : Option (Fin n → Task σ)) : Call σ n :=
  ⟨⟨.FINISH_COMMIT, afterCommit⟩, .COMMIT, by decide, by decide⟩

end Call

/-- What a worker does in a call. -/
def Call.task {σ : Type} {n : Nat} (fsm : WorkerFSM σ n) (call : Call σ n) (i : Fin n) : Task σ :=
  (fsm.handler i call.inputCommand).task.andThen (call.finishing i)

/-- Where a worker is in `Worker::run`. -/
inductive Pc (σ : Type) where
  /-- About to call `butex_wait`. -/
  | wait
  | asleep
  /-- About to load the command. -/
  | load
  /-- About to exchange the command it has loaded. -/
  | exchange (command : InvokerCommand)
  /-- In the handler of a command, or about to look for the callback. -/
  | run (command : InvokerCommand) (task : Task σ)
  /-- In the callback: `beforeFinish`, or about to signal. -/
  | finish (command : InvokerCommand) (task : Task σ)
  | exited

/-- Where the coordinator is in `processSync`, and the calls it has left. -/
inductive Place (σ : Type) (n : Nat) where
  | between (calls : List (Call σ n))
  /-- At the head of the loop over the workers. -/
  | looping (call : Call σ n) (i : Nat) (rest : List (Call σ n))
  /-- In `execute`, about to store the command. -/
  | storing (call : Call σ n) (i : Fin n) (rest : List (Call σ n))
  /-- In `execute`, about to wake the worker. -/
  | waking (call : Call σ n) (i : Fin n) (rest : List (Call σ n))
  | waiting (call : Call σ n) (rest : List (Call σ n))
  | finished (ret : Bool)

/-- A coordinator with its workers. -/
structure System (σ : Type) (n : Nat) where
  shared : σ
  command : Fin n → InvokerCommand
  callback : Fin n → Option (CommandCallback σ n)
  pc : Fin n → Pc σ
  countdown : Int
  ret : Bool
  place : Place σ n

/-- Who takes the next step. -/
inductive Actor (n : Nat) where
  | coordinator
  | worker (i : Fin n)
  /-- `butex_wait` of a worker returns for no reason of ours. -/
  | interrupt (i : Fin n)
  deriving DecidableEq

namespace System

variable {σ : Type} {n : Nat}

def goto (s : System σ n) (i : Fin n) (pc : Pc σ) : System σ n :=
  { s with pc := update s.pc i pc }

/-- The workers have been started, and wait. -/
def initial (calls : List (Call σ n)) (shared : σ) : System σ n where
  shared := shared
  command _ := .IDLE
  callback _ := none
  pc _ := .wait
  countdown := 0
  ret := true
  place := .between calls

/-- `while (cEnum != EXIT)` -/
def afterCommand (command : InvokerCommand) : Pc σ := if command = .EXIT then .exited else .wait

/-- One step of `Worker::run`. -/
def stepWorker (fsm : WorkerFSM σ n) (i : Fin n) (s : System σ n) : Option (System σ n) :=
  match s.pc i with
  | .wait => some (s.goto i (if s.command i = .IDLE then .asleep else .load))
  | .asleep => none
  | .load => some (s.goto i (.exchange (s.command i)))
  | .exchange c =>
    -- in both cases `cEnum` is what the cell held; only if that is `c`, the cell is idle afterwards
    let cEnum := s.command i
    let s := if cEnum = c then { s with command := update s.command i .IDLE } else s
    some (s.goto i (if cEnum = .IDLE then .wait else .run cEnum (fsm.handler i cEnum).task))
  | .run c (.act f next) => some { s.goto i (.run c (next s.shared)) with shared := f s.shared }
  | .run c .done =>
    match s.callback i with
    | none => some (s.goto i (afterCommand c))
    | some cb => some { s.goto i (.finish c (cb.finishing i)) with
        ret := s.ret && decide (cb.expectRetState = (fsm.handler i c).ret) }
  | .finish c (.act f next) =>
    some { s.goto i (.finish c (next s.shared)) with shared := f s.shared }
  | .finish c .done => some { s.goto i (afterCommand c) with countdown := s.countdown - 1 }
  | .exited => none

/-- `butex_wake_all` -/
def wake (s : System σ n) (i : Fin n) : System σ n :=
  match s.pc i with
  | .asleep => s.goto i .load
  | _ => s

/-- One step of `processSync`: calls of `processParallel`, until one returns `false`. -/
def stepCoordinator (s : System σ n) : Option (System σ n) :=
  match s.place with
  | .between [] => some { s with place := .finished true }
  | .between (call :: rest) =>
    some { s with countdown := n, ret := true, place := .looping call 0 rest }
  | .looping call i rest =>
    if h : i < n then
      some { s with
        callback := update s.callback ⟨i, h⟩ (some call.toCommandCallback)
        place := .storing call ⟨i, h⟩ rest }
    else some { s with place := .waiting call rest }
  | .storing call i rest => some { s with
      command := update s.command i call.inputCommand
      place := .waking call i rest }
  | .waking call i rest => some { s.wake i with place := .looping call (i + 1) rest }
  | .waiting _ rest =>
    if s.countdown ≤ 0 then
      some { s with place := if s.ret then .between rest else .finished false }
    else none
  | .finished _ => none

/-- A worker wakes up for no reason. -/
def interrupted (i : Fin n) (s : System σ n) : Option (System σ n) :=
  match s.pc i with
  | .asleep => some (s.goto i .load)
  | _ => none

def step (fsm : WorkerFSM σ n) (s : System σ n) : Actor n → Option (System σ n)
  | .coordinator => s.stepCoordinator
  | .worker i => s.stepWorker fsm i
  | .interrupt i => s.interrupted i

/-- The step is an exchange that fails. -/
def exchangeFails (s : System σ n) : Actor n → Bool
  | .worker i =>
    match s.pc i with
    | .exchange c => decide (s.command i ≠ c)
    | _ => false
  | .coordinator | .interrupt _ => false

/-- Runs with steps that `may` be taken. -/
def Run (fsm : WorkerFSM σ n) (may : System σ n → Actor n → Bool) :
    System σ n → System σ n → Prop :=
  Relation.ReflTransGen fun s s' => ∃ a, may s a = true ∧ s.step fsm a = some s'

/-- Runs in which no exchange fails. -/
def Clean (fsm : WorkerFSM σ n) : System σ n → System σ n → Prop :=
  Run fsm fun s a => !s.exchangeFails a

/-- The steps of these actors, as long as they may be taken. -/
def follow (fsm : WorkerFSM σ n) (may : System σ n → Actor n → Bool) :
    List (Actor n) → System σ n → Option (System σ n)
  | [], s => some s
  | a :: as, s => if may s a then (s.step fsm a).bind (follow fsm may as) else none

theorem run_of_follow {fsm : WorkerFSM σ n} {may : System σ n → Actor n → Bool}
    {as : List (Actor n)} {s s' : System σ n} (h : follow fsm may as s = some s') :
    Run fsm may s s' := by
  induction as generalizing s with
  | nil =>
    cases h
    exact .refl
  | cons a as ih =>
    rw [follow] at h
    by_cases hmay : may s a
    · rw [if_pos hmay] at h
      obtain ⟨s₁, hstep, hrest⟩ := Option.bind_eq_some_iff.mp h
      exact .head ⟨a, hmay, hstep⟩ (ih hrest)
    · rw [if_neg hmay] at h
      cases h

/-! ## What is left of a worker -/

/-- The worker has nothing to do. -/
structure Resting (s : System σ n) (i : Fin n) : Prop where
  command : s.command i = .IDLE
  pc : s.pc i = .wait ∨ s.pc i = .asleep ∨ s.pc i = .load ∨ s.pc i = .exchange .IDLE

/-- What worker `i` has left of a call, by whether it has got the command and has signalled. -/
inductive Left (fsm : WorkerFSM σ n) (call : Call σ n) (s : System σ n) (i : Fin n) :
    Bool → Bool → Task σ → Prop
  | fresh (h : s.Resting i) : Left fsm call s i false false (call.task fsm i)
  | offered (hc : s.command i = call.inputCommand)
      (hcb : s.callback i = some call.toCommandCallback)
      (hpc : s.pc i = .wait ∨ s.pc i = .asleep ∨ s.pc i = .load ∨ s.pc i = .exchange .IDLE ∨
        s.pc i = .exchange call.inputCommand) :
      Left fsm call s i true false (call.task fsm i)
  | running {t : Task σ} (hc : s.command i = .IDLE)
      (hcb : s.callback i = some call.toCommandCallback) (hpc : s.pc i = .run call.inputCommand t) :
      Left fsm call s i true false (t.andThen (call.finishing i))
  | finishing {t : Task σ} (hc : s.command i = .IDLE) (hpc : s.pc i = .finish call.inputCommand t) :
      Left fsm call s i true false t
  | signalled (h : s.Resting i) : Left fsm call s i true true .done

/-- What a worker does depends on its own cell, callback and place. -/
structure SameAt (s s' : System σ n) (i : Fin n) : Prop where
  command : s'.command i = s.command i
  callback : s'.callback i = s.callback i
  pc : s'.pc i = s.pc i

variable {fsm : WorkerFSM σ n} {s s' : System σ n} {i : Fin n} {call : Call σ n}
  {given sig : Bool} {t : Task σ}

theorem Resting.congr (h : s.Resting i) (hc : s'.command i = s.command i)
    (hpc : s'.pc i = s.pc i) : s'.Resting i := by
  constructor
  · rw [hc]; exact h.command
  · rw [hpc]; exact h.pc

theorem Left.congr (h : Left fsm call s i given sig t) (heq : SameAt s s' i) :
    Left fsm call s' i given sig t := by
  cases h with
  | fresh h => exact .fresh (h.congr heq.command heq.pc)
  | offered hc hcb hpc =>
    exact .offered (heq.command.trans hc) (heq.callback.trans hcb) (by rw [heq.pc]; exact hpc)
  | running hc hcb hpc =>
    exact .running (heq.command.trans hc) (heq.callback.trans hcb) (heq.pc.trans hpc)
  | finishing hc hpc => exact .finishing (heq.command.trans hc) (heq.pc.trans hpc)
  | signalled h => exact .signalled (h.congr heq.command heq.pc)

/-- A worker that has not got the command rests. -/
theorem Left.resting (h : Left fsm call s i false sig t) :
    s.Resting i ∧ sig = false ∧ t = call.task fsm i := by
  cases h with
  | fresh h => exact ⟨h, rfl, rfl⟩

theorem Left.of_signalled (h : Left fsm call s i given true t) : s.Resting i ∧ t = .done := by
  cases h with
  | signalled h => exact ⟨h, rfl⟩

/-! ## One step of a worker -/

/-- What a step of worker `i` leaves alone. -/
structure Own (s s' : System σ n) (i : Fin n) : Prop where
  place : s'.place = s.place
  callback : s'.callback = s.callback
  others : ∀ j, j ≠ i → SameAt s s' j

theorem own_of_pc {pc : Pc σ} (hplace : s'.place = s.place) (hcb : s'.callback = s.callback)
    (hcommand : s'.command = s.command) (hpc : s'.pc = update s.pc i pc) : Own s s' i := by
  refine ⟨hplace, hcb, fun j hj => ⟨congrFun hcommand j, congrFun hcb j, ?_⟩⟩
  rw [hpc]
  exact update_of_ne hj _ _

theorem own_goto (s : System σ n) (i : Fin n) (pc : Pc σ) : Own s (s.goto i pc) i :=
  own_of_pc rfl rfl rfl rfl

/-- A worker that rests goes on resting. -/
theorem Resting.step (h : s.Resting i) (hstep : s.stepWorker fsm i = some s') :
    s'.Resting i ∧ Own s s' i ∧ s'.shared = s.shared ∧ s'.countdown = s.countdown ∧
      s'.ret = s.ret := by
  obtain ⟨hc, hpc⟩ := h
  rcases hpc with hpc | hpc | hpc | hpc
  · simp only [stepWorker, hpc, hc, if_true, Option.some.injEq] at hstep
    subst hstep
    exact ⟨⟨hc, .inr (.inl (update_self _ _ _))⟩, own_goto _ _ _, rfl, rfl, rfl⟩
  · simp only [stepWorker, hpc, reduceCtorEq] at hstep
  · simp only [stepWorker, hpc, hc, Option.some.injEq] at hstep
    subst hstep
    exact ⟨⟨hc, .inr (.inr (.inr (update_self _ _ _)))⟩, own_goto _ _ _, rfl, rfl, rfl⟩
  · simp only [stepWorker, hpc, hc, if_true, Option.some.injEq] at hstep
    subst hstep
    refine ⟨⟨update_self _ _ _, .inl (update_self _ _ _)⟩,
      ⟨rfl, rfl, fun j hj => ⟨?_, rfl, ?_⟩⟩, rfl, rfl, rfl⟩
    · exact update_of_ne hj _ _
    · exact update_of_ne hj _ _

/-- What a step of a worker does to what it has left: nothing, one action, or the signal. -/
inductive Moves (s s' : System σ n) : Bool → Bool → Task σ → Task σ → Prop
  | stay {sig : Bool} {t : Task σ} (hshared : s'.shared = s.shared)
      (hcount : s'.countdown = s.countdown) : Moves s s' sig sig t t
  | act {f : σ → σ} {next : σ → Task σ} (hshared : s'.shared = f s.shared)
      (hcount : s'.countdown = s.countdown) : Moves s s' false false (.act f next) (next s.shared)
  | signal (hshared : s'.shared = s.shared) (hcount : s'.countdown = s.countdown - 1) :
      Moves s s' false true .done .done

/-- A handler has returned something else than the call expects. -/
def Unexpected (fsm : WorkerFSM σ n) (call : Call σ n) : Prop :=
  ∃ i, (fsm.handler i call.inputCommand).ret ≠ call.expectRetState

/-- **One step of a worker in a round**, unless it is an exchange that fails. -/
theorem Left.step (h : Left fsm call s i given sig t) (hstep : s.stepWorker fsm i = some s')
    (hclean : s.exchangeFails (.worker i) = false) :
    Own s s' i ∧ (∃ sig' t', Left fsm call s' i given sig' t' ∧ Moves s s' sig sig' t t') ∧
      (s'.ret = false → s.ret = false ∨ Unexpected fsm call) := by
  cases h with
  | fresh h =>
    obtain ⟨h', hown, hshared, hcount, hret⟩ := h.step hstep
    exact ⟨hown, ⟨_, _, .fresh h', .stay hshared hcount⟩, fun hr => .inl (hret ▸ hr)⟩
  | signalled h =>
    obtain ⟨h', hown, hshared, hcount, hret⟩ := h.step hstep
    exact ⟨hown, ⟨_, _, .signalled h', .stay hshared hcount⟩, fun hr => .inl (hret ▸ hr)⟩
  | offered hc hcb hpc =>
    rcases hpc with hpc | hpc | hpc | hpc | hpc
    · simp only [stepWorker, hpc, hc, call.not_idle, if_false, Option.some.injEq] at hstep
      subst hstep
      refine ⟨own_goto _ _ _, ⟨_, _, .offered hc hcb ?_, .stay rfl rfl⟩, .inl⟩
      exact .inr (.inr (.inl (update_self _ _ _)))
    · simp only [stepWorker, hpc, reduceCtorEq] at hstep
    · simp only [stepWorker, hpc, hc, Option.some.injEq] at hstep
      subst hstep
      refine ⟨own_goto _ _ _, ⟨_, _, .offered hc hcb ?_, .stay rfl rfl⟩, .inl⟩
      exact .inr (.inr (.inr (.inr (update_self _ _ _))))
    · -- the worker has loaded the idle cell before the command was stored
      simp [exchangeFails, hpc, hc, call.not_idle] at hclean
    · simp only [stepWorker, hpc, hc, call.not_idle, if_true, if_false, Option.some.injEq] at hstep
      subst hstep
      refine ⟨⟨rfl, rfl, fun j hj => ⟨update_of_ne hj _ _, rfl,
        update_of_ne hj _ _⟩⟩, ⟨_, _, .running ?_ hcb ?_, .stay rfl rfl⟩, .inl⟩
      · exact update_self _ _ _
      · exact update_self _ _ _
  | @running t hc hcb hpc =>
    cases t with
    | done =>
      simp only [stepWorker, hpc, hcb, Option.some.injEq] at hstep
      subst hstep
      refine ⟨own_of_pc rfl rfl rfl rfl,
        ⟨_, _, .finishing hc (update_self _ _ _), .stay rfl rfl⟩, fun hr => ?_⟩
      simp only [Bool.and_eq_false_iff, decide_eq_false_iff_not] at hr
      exact hr.imp_right fun hne => ⟨i, fun heq => hne heq.symm⟩
    | act f next =>
      simp only [stepWorker, hpc, Option.some.injEq] at hstep
      subst hstep
      exact ⟨own_of_pc rfl rfl rfl rfl,
        ⟨_, _, .running hc hcb (update_self _ _ _), .act rfl rfl⟩, .inl⟩
  | @finishing t hc hpc =>
    cases t with
    | done =>
      simp only [stepWorker, hpc, afterCommand, call.not_exit, if_false, Option.some.injEq] at hstep
      subst hstep
      refine ⟨own_of_pc rfl rfl rfl rfl, ⟨_, _, .signalled ⟨hc, ?_⟩, .signal rfl rfl⟩, .inl⟩
      exact .inl (update_self _ _ _)
    | act f next =>
      simp only [stepWorker, hpc, Option.some.injEq] at hstep
      subst hstep
      exact ⟨own_of_pc rfl rfl rfl rfl,
        ⟨_, _, .finishing hc (update_self _ _ _), .act rfl rfl⟩, .inl⟩

theorem Resting.load (h : s.Resting i) : (s.goto i .load).Resting i :=
  ⟨h.command, .inr (.inr (.inl (update_self _ _ _)))⟩

/-- To be woken changes nothing for a worker. -/
theorem Left.load (h : Left fsm call s i given sig t) (hpc : s.pc i = .asleep) :
    Left fsm call (s.goto i .load) i given sig t := by
  cases h with
  | fresh h => exact .fresh h.load
  | signalled h => exact .signalled h.load
  | offered hc hcb _ => exact .offered hc hcb (.inr (.inr (.inl (update_self _ _ _))))
  | running _ _ h => rw [hpc] at h; cases h
  | finishing _ h => rw [hpc] at h; cases h

end System

end MassBFT.Exec
