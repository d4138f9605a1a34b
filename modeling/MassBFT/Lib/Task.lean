import Mathlib.Logic.Function.Basic
import Mathlib.Tactic.Common
import MassBFT.Lib.Interleave

/-!
# Tasks over a shared state

A task is a sequential program whose atomic actions read and change a state that others change
too. What it does next may depend on all it has seen. `Parallel` runs one task per worker in any
interleaving, until all have ended; `Phases` runs one such round after another.

The bridge to lists of operations is `Parallel.interleave`. A task may look at parts of the state
that nobody else changes; then its operations are known in advance (`Follows`), and **a parallel
run of such tasks is an interleaving of their operations**. `Interleave.foldl_proj` reads off
what one worker does to the part of the state that is its own.
-/

set_option autoImplicit false

namespace MassBFT

open Function List

/-- A sequential program over the state `σ`: it has ended, or it does one atomic action, after
which it goes on depending on the state that it found. -/
inductive Task (σ : Type) where
  | done
  | act (f : σ → σ) (next : σ → Task σ)

namespace Task

variable {σ α : Type}

/-- One task after another. -/
def andThen : Task σ → Task σ → Task σ
  | done, after => after
  | act f next, after => act f fun s => (next s).andThen after

/-- Operations that are known in advance. -/
def ofList (apply : σ → α → σ) : List α → Task σ
  | [] => done
  | x :: rest => act (fun s => apply s x) fun _ => ofList apply rest

/-- The same, with a task behind them. -/
def issue (apply : σ → α → σ) (ops : List α) (after : Task σ) : Task σ :=
  (ofList apply ops).andThen after

@[simp] theorem done_andThen (t : Task σ) : done.andThen t = t := rfl

@[simp] theorem act_andThen (f : σ → σ) (next : σ → Task σ) (t : Task σ) :
    (act f next).andThen t = act f fun s => (next s).andThen t := rfl

@[simp] theorem andThen_done (t : Task σ) : t.andThen done = t := by
  induction t with
  | done => rfl
  | act f next ih => simp [ih]

theorem ofList_andThen (apply : σ → α → σ) (ops ops' : List α) :
    (ofList apply ops).andThen (ofList apply ops') = ofList apply (ops ++ ops') := by
  induction ops with
  | nil => rfl
  | cons x rest ih => simp [ofList, ih]

end Task

/-! ## Parallel runs -/

section

variable {σ α β : Type} {n : Nat} {apply : σ → α → σ}

/-- `Parallel ts s s'`: from state `s` the workers run the tasks `ts`, in some interleaving, and end
in state `s'`. -/
inductive Parallel : (Fin n → Task σ) → σ → σ → Prop
  | done {ts : Fin n → Task σ} {s : σ} (h : ∀ i, ts i = .done) : Parallel ts s s
  | step {ts : Fin n → Task σ} {s s' : σ} {f : σ → σ} {next : σ → Task σ} (i : Fin n)
      (h : ts i = .act f next) (rest : Parallel (update ts i (next s)) (f s) s') :
      Parallel ts s s'

/-- One parallel run after another. -/
inductive Phases (tasks : β → Fin n → Task σ) : List β → σ → σ → Prop
  | nil (s : σ) : Phases tasks [] s s
  | cons {c : β} {cs : List β} {s s₁ s₂ : σ} (now : Parallel (tasks c) s s₁)
      (later : Phases tasks cs s₁ s₂) : Phases tasks (c :: cs) s s₂

namespace Phases

variable {tasks : β → Fin n → Task σ} {c : β} {cs ds : List β} {s s₁ s₂ : σ}

theorem append (h : Phases tasks cs s s₁) (h' : Phases tasks ds s₁ s₂) :
    Phases tasks (cs ++ ds) s s₂ := by
  induction h with
  | nil s => exact h'
  | cons now _ ih => exact .cons now (ih h')

theorem concat (h : Phases tasks cs s s₁) (h' : Parallel (tasks c) s₁ s₂) :
    Phases tasks (cs ++ [c]) s s₂ :=
  h.append (.cons h' (.nil s₂))

theorem nil_inv (h : Phases tasks [] s s₁) : s₁ = s := by
  cases h
  rfl

theorem cons_inv (h : Phases tasks (c :: cs) s s₂) :
    ∃ s₁, Parallel (tasks c) s s₁ ∧ Phases tasks cs s₁ s₂ := by
  cases h with
  | cons now later => exact ⟨_, now, later⟩

end Phases

/-! ## Tasks whose operations are known -/

/-- `Follows apply S t ops`: as long as `S` holds, what `t` does to the state is `ops`. It may also
look at the state. From the operation on that ends `S`, it does not look any more. -/
inductive Follows (apply : σ → α → σ) (S : σ → Prop) : Task σ → List α → Prop
  | closed (ops : List α) : Follows apply S (.ofList apply ops) ops
  | look {next : σ → Task σ} {ops : List α} (h : ∀ s, S s → Follows apply S (next s) ops) :
      Follows apply S (.act id next) ops
  | act {x : α} {next : σ → Task σ} {ops : List α} (keep : ∀ s, S s → S (apply s x))
      (h : ∀ s, S s → Follows apply S (next s) ops) :
      Follows apply S (.act (fun s => apply s x) next) (x :: ops)

namespace Follows

variable {apply : σ → α → σ} {S : σ → Prop}

/-- Operations that keep `S`, and then a task. -/
theorem issue {ops ops' : List α} {t : Task σ} (keep : ∀ x ∈ ops, ∀ s, S s → S (apply s x))
    (h : Follows apply S t ops') : Follows apply S (Task.issue apply ops t) (ops ++ ops') := by
  induction ops with
  | nil => exact h
  | cons x rest ih =>
    refine .act (keep x mem_cons_self) fun _ _ => ?_
    exact ih fun y hy => keep y (mem_cons_of_mem x hy)

end Follows

/-- What is left of a worker: it still depends on `S`, and `S` holds, or its operations are fixed.
-/
private def Ahead (apply : σ → α → σ) (S : σ → Prop) (s : σ) (t : Task σ) (ops : List α) : Prop :=
  (S s ∧ Follows apply S t ops) ∨ t = .ofList apply ops

private theorem Ahead.of_done {S : σ → Prop} {s : σ} {ops : List α}
    (h : Ahead apply S s .done ops) : ops = [] := by
  rcases h with ⟨-, h⟩ | h
  · generalize ht : Task.done = t at h
    cases h with
    | closed ops =>
      cases ops with
      | nil => rfl
      | cons x rest => cases ht
    | look h => cases ht
    | act keep h => cases ht
  · cases ops with
    | nil => rfl
    | cons x rest => cases h

/-- The next action of a worker looks at the state, or is its next operation. -/
private theorem Ahead.of_act {S : σ → Prop} {s : σ} {f : σ → σ}
    {next : σ → Task σ} {ops : List α} (h : Ahead apply S s (.act f next) ops) :
    (f s = s ∧ Ahead apply S s (next s) ops) ∨
    ∃ x rest, ops = x :: rest ∧ f s = apply s x ∧ Ahead apply S (apply s x) (next s) rest := by
  rcases h with ⟨hs, h⟩ | h
  · generalize ht : Task.act f next = t at h
    cases h with
    | closed ops =>
      cases ops with
      | nil => cases ht
      | cons x rest =>
        cases ht
        exact .inr ⟨x, rest, rfl, rfl, .inr rfl⟩
    | look h =>
      cases ht
      exact .inl ⟨rfl, .inl ⟨hs, h s hs⟩⟩
    | act keep h =>
      cases ht
      exact .inr ⟨_, _, rfl, rfl, .inl ⟨keep s hs, h s hs⟩⟩
  · cases ops with
    | nil => cases h
    | cons x rest =>
      cases h
      exact .inr ⟨x, rest, rfl, rfl, .inr rfl⟩

/-- **A parallel run of tasks whose operations are known is an interleaving of these operations**,
if nobody disturbs what a task looks at. -/
theorem Parallel.interleave {S : Fin n → σ → Prop} {ts : Fin n → Task σ}
    {ls : Fin n → List α} {s s' : σ} (h : Parallel ts s s') (hs : ∀ i, S i s)
    (hts : ∀ i, Follows apply (S i) (ts i) (ls i))
    (hrely : ∀ i j, j ≠ i → ∀ x ∈ ls j, ∀ s, S i s → S i (apply s x)) :
    ∃ out, Interleave ls out ∧ s' = out.foldl apply s := by
  have hahead : ∀ i, Ahead apply (S i) s (ts i) (ls i) := fun i => .inl ⟨hs i, hts i⟩
  clear hs hts
  induction h generalizing ls with
  | @done ts s hdone =>
    refine ⟨[], .done fun i => ?_, rfl⟩
    have hi := hahead i
    rw [hdone i] at hi
    exact hi.of_done
  | @step ts s s' f next i hi _ ih =>
    have hnow := hahead i
    rw [hi] at hnow
    rcases hnow.of_act with ⟨hf, hnext⟩ | ⟨x, rest, hx, hf, hnext⟩
    · -- the worker has only looked
      rw [hf] at ih
      refine ih hrely fun j => ?_
      by_cases hji : j = i
      · subst hji
        rwa [update_self]
      · rw [update_of_ne hji]
        exact hahead j
    · have hsub : ∀ j, ∀ y ∈ update ls i rest j, y ∈ ls j := by
        intro j y hy
        by_cases hji : j = i
        · subst hji
          rw [update_self] at hy
          rw [hx]
          exact mem_cons_of_mem x hy
        · rwa [update_of_ne hji] at hy
      rw [hf] at ih
      obtain ⟨out, hout, hs'⟩ := @ih (update ls i rest)
        (fun j k hkj y hy => hrely j k hkj y (hsub k y hy)) (fun j => by
          by_cases hji : j = i
          · subst hji
            rwa [update_self, update_self]
          · rw [update_of_ne hji, update_of_ne hji]
            -- the others still find what they look at
            refine (hahead j).imp_left fun h => ⟨?_, h.2⟩
            exact hrely j i (Ne.symm hji) x (by rw [hx]; exact mem_cons_self) s h.1)
      exact ⟨x :: out, .step i hx hout, hs'⟩

end

/-! ## What is a worker's own -/

section

variable {σ α γ : Type} {n : Nat} {ls : Fin n → List α} {out : List α}

/-- What only worker `w` changes is changed by its operations, in their order. -/
theorem Interleave.foldl_proj {apply : σ → α → σ} {proj : σ → γ} {own : γ → α → γ} (w : Fin n)
    (h : Interleave ls out) (hown : ∀ x ∈ ls w, ∀ s, proj (apply s x) = own (proj s) x)
    (hother : ∀ j, j ≠ w → ∀ x ∈ ls j, ∀ s, proj (apply s x) = proj s) (s : σ) :
    proj (out.foldl apply s) = (ls w).foldl own (proj s) := by
  induction h generalizing s with
  | done hnil => rw [hnil w]; rfl
  | @step ls out rest x i hi _ ih =>
    have hsub : ∀ j, ∀ y ∈ update ls i rest j, y ∈ ls j := by
      intro j y hy
      by_cases hji : j = i
      · subst hji
        rw [update_self] at hy
        rw [hi]
        exact mem_cons_of_mem x hy
      · rwa [update_of_ne hji] at hy
    have hx : x ∈ ls i := by rw [hi]; exact mem_cons_self
    rw [foldl_cons, ih (fun y hy => hown y (hsub w y hy))
      (fun j hj y hy => hother j hj y (hsub j y hy))]
    by_cases hwi : w = i
    · subst hwi
      rw [update_self, hown x hx, hi, foldl_cons]
    · rw [update_of_ne hwi, hother i (Ne.symm hwi) x hx]

end

end MassBFT
