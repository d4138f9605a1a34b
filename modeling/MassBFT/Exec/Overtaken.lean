import MassBFT.Exec.Rounds

/-!
# A barrier that is overtaken

`execute` stores a command and wakes the worker afterwards. A worker that takes the command before
it is woken may be done with it, and asleep again, when the wake-up comes; it then reads an idle
cell. If the next command is stored before its compare-exchange, the exchange fails, and the worker
**runs that command twice**: the first time it leaves it in the cell.

That is so for every state machine and every call (`command_run_twice`), and it signals the
countdown once more than it should. So the next call of `processParallel` can return while a worker
has not taken a single step of it: `command_run_twice_overtaken` is such a run of two workers,
without a wake-up that is not the coordinator's own.
-/

set_option autoImplicit false

namespace MassBFT.Exec.System

open Function

variable {σ : Type} {n : Nat} {fsm : WorkerFSM σ n} {may : System σ n → Actor n → Bool}
  {s s' : System σ n} {i : Fin n} {c : InvokerCommand} {t : Task σ}

/-! ## A worker alone -/

theorem Run.step {a : Actor n} (ha : may s a = true) (h : s.step fsm a = some s') :
    Run fsm may s s' :=
  .single ⟨a, ha, h⟩

theorem Run.trans {s₁ s₂ s₃ : System σ n} (h : Run fsm may s₁ s₂) (h' : Run fsm may s₂ s₃) :
    Run fsm may s₁ s₃ :=
  Relation.ReflTransGen.trans h h'

/-- A handler, or `beforeFinish`, runs to its end. -/
theorem run_task {place : Task σ → Pc σ} (hi : ∀ s, may s (.worker i) = true)
    (hpc : s.pc i = place t)
    (hact : ∀ (s : System σ n) f next, s.pc i = place (.act f next) → s.stepWorker fsm i =
      some { s.goto i (place (next s.shared)) with shared := f s.shared }) :
    ∃ shared, Run fsm may s { s.goto i (place .done) with shared := shared } := by
  induction t generalizing s with
  | done =>
    refine ⟨s.shared, ?_⟩
    unfold goto
    rw [← hpc, update_eq_self]
    exact .refl
  | act f next ih =>
    obtain ⟨shared, hpath⟩ := @ih s.shared
      { s.goto i (place (next s.shared)) with shared := f s.shared } (update_self _ _ _)
    refine ⟨shared, (Run.step (hi _) (hact s f next hpc)).trans ?_⟩
    simpa [goto] using hpath

/-- Worker `i` has signalled and waits again; its cell is now `c`. -/
structure Signalled (i : Fin n) (c : InvokerCommand) (s s' : System σ n) : Prop where
  place : s'.place = s.place
  callback : s'.callback = s.callback
  ret : s'.ret = s.ret
  countdown : s'.countdown = s.countdown - 1
  command : s'.command = update s.command i c
  pc : s'.pc = update s.pc i .wait

variable {call : Call σ n}

/-- A worker in a handler gets to its signal. -/
theorem run_command (hi : ∀ s, may s (.worker i) = true) (hpc : s.pc i = .run call.inputCommand t)
    (hcb : s.callback i = some call.toCommandCallback) (hexpected : ¬ Unexpected fsm call) :
    ∃ s', Run fsm may s s' ∧ Signalled i (s.command i) s s' := by
  have hret : call.expectRetState = (fsm.handler i call.inputCommand).ret := by
    by_contra hne
    exact hexpected ⟨i, fun heq => hne heq.symm⟩
  obtain ⟨shared₁, hrun⟩ := @run_task _ _ fsm may s i t (.run call.inputCommand) hi hpc
    fun s f next h => by simp only [stepWorker, h]
  have hcall : System.step fsm { s.goto i (.run call.inputCommand .done) with shared := shared₁ }
      (.worker i) = some { s.goto i (.finish call.inputCommand (call.finishing i)) with
        shared := shared₁ } := by
    simp [System.step, stepWorker, goto, hcb, hret]
  obtain ⟨shared₂, hfin⟩ := @run_task _ _ fsm may
    { s.goto i (.finish call.inputCommand (call.finishing i)) with shared := shared₁ } i
    (call.finishing i) (.finish call.inputCommand) hi (update_self _ _ _)
    fun s f next h => by simp only [stepWorker, h]
  have hsignal : System.step fsm { s.goto i (.finish call.inputCommand .done) with
      shared := shared₂ } (.worker i) =
      some { s.goto i .wait with shared := shared₂, countdown := s.countdown - 1 } := by
    simp [System.step, stepWorker, goto, afterCommand, call.not_exit]
  refine ⟨_, hrun.trans ((Run.step (hi _) hcall).trans (Run.trans ?_ (Run.step (hi _) hsignal))),
    rfl, rfl, rfl, rfl, (update_eq_self _ _).symm, rfl⟩
  simpa [goto] using hfin

/-- A worker takes a command from its cell and gets to its signal. -/
theorem run_take (hi : ∀ s, may s (.worker i) = true) (hpc : s.pc i = .wait)
    (hc : s.command i = call.inputCommand) (hcb : s.callback i = some call.toCommandCallback)
    (hexpected : ¬ Unexpected fsm call) : ∃ s', Run fsm may s s' ∧ Signalled i .IDLE s s' := by
  have hload : s.step fsm (.worker i) = some (s.goto i .load) := by
    simp [System.step, stepWorker, hpc, hc, call.not_idle]
  have hexchange : (s.goto i .load).step fsm (.worker i) =
      some (s.goto i (.exchange call.inputCommand)) := by
    simp [System.step, stepWorker, goto, hc]
  have htake : (s.goto i (.exchange call.inputCommand)).step fsm (.worker i) =
      some { s.goto i (.run call.inputCommand (fsm.handler i call.inputCommand).task) with
        command := update s.command i .IDLE } := by
    simp [System.step, stepWorker, goto, hc, call.not_idle]
  obtain ⟨s', hrun, hs'⟩ := @run_command _ _ fsm may
    { s.goto i (.run call.inputCommand (fsm.handler i call.inputCommand).task) with
      command := update s.command i .IDLE } i _ call hi (update_self _ _ _) hcb
    hexpected
  refine ⟨s', (Run.step (hi _) hload).trans ((Run.step (hi _) hexchange).trans
    ((Run.step (hi _) htake).trans hrun)), hs'.place, hs'.callback, hs'.ret, hs'.countdown, ?_, ?_⟩
  · exact hs'.command.trans (update_eq_self _ _)
  · exact hs'.pc.trans (update_idem _ _ _)

/-! ## A command that is stored too early -/

variable {u : Fin n} {rest : List (Call σ n)}

/-- The steps of worker `u` and of the coordinator. -/
def theseTwo (u : Fin n) (_ : System σ n) (a : Actor n) : Bool :=
  decide (a = .coordinator ∨ a = .worker u)

/-- **A worker that has read an idle cell may run the next command twice.** If the command is stored
before the exchange of worker `u`, there is a run of `u` and the coordinator alone, up to where
the coordinator turns to the next worker, in which `u` calls its callback twice. -/
theorem command_run_twice (fsm : WorkerFSM σ n) {call : Call σ n}
    (hexpected : ¬ Unexpected fsm call) {s : System σ n} (hplace : s.place = .storing call u rest)
    (hcb : s.callback u = some call.toCommandCallback) (hpc : s.pc u = .exchange .IDLE) :
    ∃ s', Run fsm (theseTwo u) s s' ∧ s'.place = .looping call (u + 1) rest ∧
      s'.countdown = s.countdown - 2 ∧ s'.ret = s.ret ∧ s'.command u = .IDLE ∧
      ∀ j, j ≠ u → SameAt s s' j := by
  have hcoord : ∀ s : System σ n, theseTwo u s .coordinator = true := fun _ => by simp [theseTwo]
  have hu : ∀ s : System σ n, theseTwo u s (.worker u) = true := fun _ => by simp [theseTwo]
  have hstore : s.step fsm .coordinator = some { s with
      command := update s.command u call.inputCommand
      place := .waking call u rest } := by
    simp only [System.step, stepCoordinator, hplace]
  have hwake : System.step fsm { s with
      command := update s.command u call.inputCommand
      place := .waking call u rest } .coordinator = some { s with
      command := update s.command u call.inputCommand
      place := .looping call (u + 1) rest } := by
    simp [System.step, stepCoordinator, wake, hpc]
  -- the exchange fails: the command stays in the cell
  have hfail : System.step fsm { s with
      command := update s.command u call.inputCommand
      place := .looping call (u + 1) rest } (.worker u) = some { s.goto u
        (.run call.inputCommand (fsm.handler u call.inputCommand).task) with
      command := update s.command u call.inputCommand
      place := .looping call (u + 1) rest } := by
    simp [System.step, stepWorker, hpc, goto, call.not_idle]
  obtain ⟨s₁, hfirst, hs₁⟩ := @run_command _ _ fsm (theseTwo u) { s.goto u
      (.run call.inputCommand (fsm.handler u call.inputCommand).task) with
    command := update s.command u call.inputCommand
    place := .looping call (u + 1) rest } u _ call hu (update_self _ _ _) hcb hexpected
  have hcell : s₁.command = update s.command u call.inputCommand :=
    hs₁.command.trans (update_eq_self _ _)
  obtain ⟨s₂, hsecond, hs₂⟩ := @run_take _ _ fsm (theseTwo u) s₁ u call hu
    (by rw [hs₁.pc, update_self]) (by rw [hcell, update_self])
    (by rw [hs₁.callback]; exact hcb) hexpected
  refine ⟨s₂, (Run.step (hcoord _) hstore).trans ((Run.step (hcoord _) hwake).trans
    ((Run.step (hu _) hfail).trans (hfirst.trans hsecond))), hs₂.place.trans hs₁.place, ?_,
    hs₂.ret.trans hs₁.ret, by rw [hs₂.command, update_self], fun j hj => ⟨?_, ?_, ?_⟩⟩
  · rw [hs₂.countdown, hs₁.countdown]
    show s.countdown - 1 - 1 = _
    omega
  · rw [hs₂.command, hcell, update_of_ne hj, update_of_ne hj]
  · rw [hs₂.callback, hs₁.callback]
    rfl
  · rw [hs₂.pc, hs₁.pc, update_of_ne hj, update_of_ne hj]
    exact update_of_ne hj _ _

/-- Nobody wakes up for no reason. -/
def uninterrupted (_ : System σ n) : Actor n → Bool
  | .interrupt _ => false
  | .coordinator | .worker _ => true

/-- In the second of two calls, worker 0 signals twice, and the call returns without worker 1. -/
theorem command_run_twice_overtaken :
    ∃ s s' s'', Run (counting 2) uninterrupted (initial [.exec, .exec] 0) s ∧
      s.place = .storing .exec 0 [] ∧ Run (counting 2) (theseTwo 0) s s' ∧ s'.countdown = 0 ∧
      Run (counting 2) (theseTwo 0) s s'' ∧ s''.place = .finished true := by
  have hrun : ∃ s, follow (counting 2) uninterrupted
      (List.replicate 3 .coordinator ++ List.replicate 7 (.worker 0) ++ [.coordinator, .worker 0] ++
        List.replicate 4 .coordinator ++ List.replicate 6 (.worker 1) ++
        List.replicate 3 .coordinator) (initial [.exec, .exec] 0) = some s ∧
      s.place = .storing .exec 0 [] ∧ s.callback 0 = some Call.exec.toCommandCallback ∧
      s.pc 0 = .exchange .IDLE ∧ s.countdown = 2 ∧
      ∃ s'', follow (counting 2) (theseTwo 0) (List.replicate 2 .coordinator ++
        List.replicate 10 (.worker 0) ++ List.replicate 6 .coordinator) s = some s'' ∧
        s''.place = .finished true := ⟨_, rfl, rfl, rfl, rfl, rfl, _, rfl, rfl⟩
  obtain ⟨s, hs, hplace, hcb, hpc, hcount, s'', hs'', hfinished⟩ := hrun
  have hexpected : ¬ Unexpected (counting 2) .exec := by
    rintro ⟨i, hi⟩
    exact hi rfl
  obtain ⟨s', hs', -, hcount', -⟩ := command_run_twice (counting 2) hexpected hplace hcb hpc
  exact ⟨s, s', s'', run_of_follow hs, hplace, hs', by rw [hcount', hcount]; rfl,
    run_of_follow hs'', hfinished⟩

end MassBFT.Exec.System
