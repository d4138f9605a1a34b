import Mathlib.Tactic.Common

/-!
# While loops that may fail, and may never stop

A loop body answers one of three things: an aborted check, "the condition is
false, leave", or the next state. `loop` runs a body for at most `n` rounds, so a
loop that never leaves is visible as `Outcome.timeout` at *every* bound, and
"the call returns" is the statement that *some* bound is enough.

Three rules carry everything that is proved about a loop here:

* `loop_mono` — a bound that is enough stays enough, so the bound in "some bound
  is enough" is not a choice anybody has to keep track of;
* `loop_done_of_variant` — an invariant and a variant that drops in every round
  give a result;
* `loop_timeout_of_recurrent` — an invariant under which the body always has a
  next state gives no result at any bound.
-/

set_option autoImplicit false

namespace MassBFT

/-- What a bounded run of a fallible computation can be seen to do. -/
inductive Outcome (ε α : Type) where
  | done (a : α)
  | failed (e : ε)
  | timeout
  deriving DecidableEq, Repr

namespace Outcome

variable {ε α β : Type} {x : Outcome ε α}

/-- Sequencing: only a finished computation hands its value on. -/
def bind (x : Outcome ε α) (k : α → Outcome ε β) : Outcome ε β :=
  match x with
  | .done a => k a
  | .failed e => .failed e
  | .timeout => .timeout

/-- A computation without loops, seen as one with them. -/
def ofExcept : Except ε α → Outcome ε α
  | .ok a => .done a
  | .error e => .failed e

@[simp] theorem bind_done (a : α) (k : α → Outcome ε β) : bind (.done a) k = k a := rfl

@[simp] theorem bind_failed (e : ε) (k : α → Outcome ε β) : bind (.failed e) k = .failed e := rfl

@[simp] theorem ofExcept_ok (a : α) : ofExcept (.ok a : Except ε α) = .done a := rfl

@[simp] theorem ofExcept_error (e : ε) : ofExcept (.error e : Except ε α) = .failed e := rfl

/-- Inversion of sequencing: a finished sequence finished both of its halves. -/
theorem bind_eq_done {k : α → Outcome ε β} {b : β}
    (h : bind x k = .done b) : ∃ a, x = .done a ∧ k a = .done b := by
  cases x with
  | done a => exact ⟨a, rfl, h⟩
  | failed e => cases h
  | timeout => cases h

/-- Partial correctness: the computation does not fail, and what it returns has the property. -/
def Safe (P : α → Prop) : Outcome ε α → Prop
  | .done a => P a
  | .failed _ => False
  | .timeout => True

theorem Safe.bind {P : α → Prop} {Q : β → Prop} {k : α → Outcome ε β}
    (hx : x.Safe P) (hk : ∀ a, P a → (k a).Safe Q) : (x.bind k).Safe Q := by
  cases x with
  | done a => exact hk a hx
  | failed e => exact hx.elim
  | timeout => trivial

theorem Safe.ne_failed {P : α → Prop} (hx : x.Safe P) (e : ε) :
    x ≠ .failed e := by
  rintro rfl
  exact hx

end Outcome

section

variable {ε σ : Type} (body : σ → Except ε (Option σ))

/-- `while (auto next = body(s)) s = next;`, for at most `n` rounds. -/
def loop : Nat → σ → Outcome ε σ
  | 0, _ => .timeout
  | n + 1, s =>
    match body s with
    | .error e => .failed e
    | .ok none => .done s
    | .ok (some s') => loop n s'

variable {body} {Inv : σ → Prop} {s : σ}

theorem loop_leave {n : Nat} (h : body s = .ok none) : loop body (n + 1) s = .done s := by
  rw [loop, h]

theorem loop_round {n : Nat} {s s' : σ} (h : body s = .ok (some s')) :
    loop body (n + 1) s = loop body n s' := by
  rw [loop, h]

theorem loop_error {n : Nat} {e : ε} (h : body s = .error e) : loop body (n + 1) s = .failed e := by
  rw [loop, h]

/-- A bound that is enough stays enough. -/
theorem loop_mono {n m : Nat} (hle : n ≤ m) (h : loop body n s ≠ .timeout) :
    loop body m s = loop body n s := by
  induction n generalizing m s with
  | zero => exact absurd rfl h
  | succ n ih =>
    obtain ⟨m, rfl⟩ : ∃ k, m = k + 1 := ⟨m - 1, by omega⟩
    cases hb : body s with
    | error e => rw [loop_error hb, loop_error hb]
    | ok next =>
      cases next with
      | none => rw [loop_leave hb, loop_leave hb]
      | some s' =>
        rw [loop_round hb] at h
        rw [loop_round hb, loop_round hb]
        exact ih (by omega) h

/-- Two bounds that are enough give the same result. -/
theorem loop_unique {n m : Nat} {s t t' : σ} (h : loop body n s = .done t)
    (h' : loop body m s = .done t') : t = t' := by
  have h1 := loop_mono (Nat.le_max_left n m) (by rw [h]; simp : loop body n s ≠ .timeout)
  have h2 := loop_mono (Nat.le_max_right n m) (by rw [h']; simp : loop body m s ≠ .timeout)
  rw [h1, h, h'] at h2
  exact Outcome.done.inj h2

/-- What holds before a loop and is kept by every round holds when the loop is
left, and there the body has nothing more to do. -/
theorem loop_invariant (hstep : ∀ s s', Inv s → body s = .ok (some s') → Inv s') {n : Nat} {s t : σ}
    (hs : Inv s) (h : loop body n s = .done t) : Inv t ∧ body t = .ok none := by
  induction n generalizing s with
  | zero => cases h
  | succ n ih =>
    cases hb : body s with
    | error e => rw [loop_error hb] at h; cases h
    | ok next =>
      cases next with
      | none =>
        rw [loop_leave hb] at h
        cases h
        exact ⟨hs, hb⟩
      | some s' =>
        rw [loop_round hb] at h
        exact ih (hstep s s' hs hb) h

/-- **Partial correctness of a loop**: under an invariant that excludes failing rounds, no bound
makes the loop fail. -/
theorem loop_safe (hsafe : ∀ s, Inv s → ∃ next, body s = .ok next)
    (hstep : ∀ s s', Inv s → body s = .ok (some s') → Inv s') (hs : Inv s) (n : Nat) :
    (loop body n s).Safe Inv := by
  induction n generalizing s with
  | zero => trivial
  | succ n ih =>
    obtain ⟨next, hb⟩ := hsafe s hs
    cases next with
    | none =>
      rw [loop_leave hb]
      exact hs
    | some s' =>
      rw [loop_round hb]
      exact ih (hstep s s' hs hb)

/-- A loop whose variant drops in every round it survives is not cut off by every bound. -/
theorem loop_stops_of_variant (μ : σ → Nat)
    (hstep : ∀ s s', Inv s → body s = .ok (some s') → Inv s' ∧ μ s' < μ s)
    (hs : Inv s) : ∃ n, loop body n s ≠ .timeout := by
  induction hk : μ s using Nat.strongRecOn generalizing s with
  | ind k ih =>
    cases hb : body s with
    | error e => exact ⟨1, by rw [loop_error hb]; simp⟩
    | ok next =>
      cases next with
      | none => exact ⟨1, by rw [loop_leave hb]; simp⟩
      | some s' =>
        obtain ⟨hs', hlt⟩ := hstep s s' hs hb
        obtain ⟨n, hn⟩ := ih (μ s') (hk ▸ hlt) hs' rfl
        exact ⟨n + 1, by rwa [loop_round hb]⟩

/-- **Total correctness of a loop**: no round fails under the invariant, and the
variant drops, so some bound is enough. -/
theorem loop_done_of_variant (μ : σ → Nat) (hsafe : ∀ s, Inv s → ∃ next, body s = .ok next)
    (hstep : ∀ s s', Inv s → body s = .ok (some s') → Inv s' ∧ μ s' < μ s)
    (hs : Inv s) : ∃ n t, loop body n s = .done t ∧ Inv t ∧ body t = .ok none := by
  have hkeep := fun s s' hs hb => (hstep s s' hs hb).1
  obtain ⟨n, hn⟩ := loop_stops_of_variant μ hstep hs
  have hfine := loop_safe hsafe hkeep hs n
  cases hl : loop body n s with
  | done t => exact ⟨n, t, hl, loop_invariant hkeep hs hl⟩
  | failed e => rw [hl] at hfine; exact hfine.elim
  | timeout => exact absurd hl hn

/-- **Divergence of a loop**: under an invariant that always finds a next round,
no bound is enough. -/
theorem loop_timeout_of_recurrent
    (hstep : ∀ s, Inv s → ∃ s', body s = .ok (some s') ∧ Inv s') (hs : Inv s) (n : Nat) :
    loop body n s = .timeout := by
  induction n generalizing s with
  | zero => rfl
  | succ n ih =>
    obtain ⟨s', hb, hs'⟩ := hstep s hs
    rw [loop_round hb]
    exact ih hs'

end

end MassBFT
