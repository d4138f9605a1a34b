import Mathlib.Algebra.BigOperators.Fin
import Mathlib.Algebra.BigOperators.Group.List.Basic
import Mathlib.Algebra.Order.BigOperators.Group.Finset
import Mathlib.Data.List.Forall2
import Mathlib.Logic.Function.Basic
import Mathlib.Tactic.Common
import MassBFT.Lib.Interleave

/-!
# Schedules of atomic jobs

Each of finitely many workers has a list of jobs. A job is one atomic action on a state that
all workers share, and answers something; its answer may depend on the state it finds. A
schedule takes, one at a time, the next job of some worker that has one left.

Two rules make a result independent of the schedule. `Schedule.forall₂_outs`: **what the jobs
answer in all states with an invariant, they answer in every schedule**, if they keep the
invariant. `Schedule.state_eq`: if every job moves the state by an element of a commutative
monoid, every schedule moves it by the sum.
-/

set_option autoImplicit false

namespace MassBFT

open Function List

variable {σ α β : Type} {n : Nat}

/-- `Schedule act ls s outs s'`: from state `s` the workers do the jobs `ls`, with the answers
`outs`, and end in state `s'`. -/
inductive Schedule (act : σ → α → β × σ) : (Fin n → List α) → σ → (Fin n → List β) → σ → Prop
  | done {ls : Fin n → List α} {s : σ} (h : ∀ i, ls i = []) : Schedule act ls s (fun _ => []) s
  | step {ls : Fin n → List α} {s s' : σ} {outs : Fin n → List β} {x : α} {rest : List α}
      (i : Fin n) (h : ls i = x :: rest)
      (next : Schedule act (update ls i rest) (act s x).2 outs s') :
      Schedule act ls s (update outs i ((act s x).1 :: outs i)) s'

namespace Schedule

variable {act : σ → α → β × σ} {ls : Fin n → List α} {s s' : σ} {outs : Fin n → List β}

/-- Some schedule always exists. -/
theorem exists_run (act : σ → α → β × σ) (ls : Fin n → List α) (s : σ) :
    ∃ outs s', Schedule act ls s outs s' := by
  induction ls using queues_induction generalizing s with
  | hdone ls hnil => exact ⟨_, _, done hnil⟩
  | hstep ls i x rest hx ih =>
    obtain ⟨outs, s', hrun⟩ := ih (act s x).2
    exact ⟨_, _, step i hx hrun⟩

/-- Every worker may be the first one. -/
theorem exists_first {i : Fin n} {x : α} {rest : List α} (h : ls i = x :: rest) (s : σ) :
    ∃ outs s', Schedule act ls s outs s' ∧ (outs i)[0]? = some (act s x).1 := by
  obtain ⟨outs, s', hrun⟩ := exists_run act (update ls i rest) (act s x).2
  refine ⟨_, s', step i h hrun, ?_⟩
  rw [update_self]
  rfl

/-- Every two workers may be the first ones. -/
theorem exists_second {i j : Fin n} (hij : i ≠ j) {x y : α} {rest rest' : List α}
    (hi : ls i = x :: rest) (hj : ls j = y :: rest') (s : σ) :
    ∃ outs s', Schedule act ls s outs s' ∧ (outs j)[0]? = some (act (act s x).2 y).1 := by
  have hj' : update ls i rest j = y :: rest' := by
    rwa [update_of_ne (Ne.symm hij)]
  obtain ⟨outs, s', hrun, hfirst⟩ := @exists_first _ _ _ _ act _ j y rest' hj' (act s x).2
  refine ⟨_, s', step i hi hrun, ?_⟩
  rwa [update_of_ne (Ne.symm hij)]

/-- What is left of a job list is part of it. -/
theorem mem_update {i j : Fin n} {x y : α} {rest : List α} (h : ls i = x :: rest)
    (hy : y ∈ update ls i rest j) : y ∈ ls j := by
  by_cases hji : j = i
  · subst hji
    rw [update_self] at hy
    rw [h]
    exact mem_cons_of_mem x hy
  · rwa [update_of_ne hji] at hy

/-- **The answers of a schedule**: what every job answers in all states with an invariant, it
answers here. -/
theorem forall₂_outs {I : σ → Prop} {R : α → β → Prop} (h : Schedule act ls s outs s') (hs : I s)
    (hjob : ∀ i, ∀ x ∈ ls i, ∀ s, I s → R x (act s x).1 ∧ I (act s x).2) :
    (∀ i, List.Forall₂ R (ls i) (outs i)) ∧ I s' := by
  induction h with
  | done hnil =>
    refine ⟨fun i => ?_, hs⟩
    rw [hnil i]
    exact .nil
  | @step ls s s' outs x rest i hi _ ih =>
    obtain ⟨hans, hkeep⟩ := hjob i x (by rw [hi]; exact mem_cons_self) s hs
    obtain ⟨houts, hs'⟩ := ih hkeep fun j y hy => hjob j y (mem_update hi hy)
    refine ⟨fun j => ?_, hs'⟩
    have hj := houts j
    by_cases hji : j = i
    · subst hji
      rw [update_self] at hj ⊢
      rw [hi]
      exact .cons hans hj
    · rw [update_of_ne hji] at hj ⊢
      exact hj

/-- The same with a fixed answer for every job. -/
theorem answers {I : σ → Prop} {ans : α → β} (h : Schedule act ls s outs s') (hs : I s)
    (hjob : ∀ i, ∀ x ∈ ls i, ∀ s, I s → (act s x).1 = ans x ∧ I (act s x).2) :
    (outs = fun i => (ls i).map ans) ∧ I s' := by
  obtain ⟨hall, hs'⟩ := @forall₂_outs _ _ _ _ _ _ _ _ _ I (fun x y => ans x = y) h hs
    fun i x hx s hs => ⟨(hjob i x hx s hs).1.symm, (hjob i x hx s hs).2⟩
  refine ⟨?_, hs'⟩
  funext i
  have hmap := List.forall₂_map_left_iff.mpr (hall i)
  rw [List.forall₂_eq_eq_eq] at hmap
  exact hmap.symm

/-- Every job is answered. -/
theorem length_outs (h : Schedule act ls s outs s') (i : Fin n) :
    (outs i).length = (ls i).length := by
  obtain ⟨hall, -⟩ := @forall₂_outs _ _ _ _ _ _ _ _ _ (fun _ => True) (fun _ _ => True) h
    trivial fun _ _ _ _ _ => ⟨trivial, trivial⟩
  exact (hall i).length_eq.symm

section

variable {M : Type} [AddCommMonoid M]

/-- All jobs of all workers. -/
def total (m : α → M) (ls : Fin n → List α) : M := ∑ i, ((ls i).map m).sum

theorem total_update (m : α → M) {i : Fin n} {x : α} {rest : List α} (h : ls i = x :: rest) :
    total m ls = total m (update ls i rest) + m x := by
  have hsplit : ∀ ks : Fin n → List α, total m ks =
      ((ks i).map m).sum + ∑ j ∈ Finset.univ.erase i, ((ks j).map m).sum :=
    fun ks => (Finset.add_sum_erase _ _ (Finset.mem_univ i)).symm
  have hothers : ∑ j ∈ Finset.univ.erase i, ((update ls i rest j).map m).sum =
      ∑ j ∈ Finset.univ.erase i, ((ls j).map m).sum := by
    refine Finset.sum_congr rfl fun j hj => ?_
    rw [update_of_ne (Finset.ne_of_mem_erase hj)]
  rw [hsplit ls, hsplit (update ls i rest), hothers, update_self, h,
    map_cons, sum_cons, add_assoc, add_comm]

/-- The total is a sum over any list of all jobs. -/
theorem total_eq_sum (m : α → M) {jobs : List α} (h : (List.ofFn ls).flatten.Perm jobs) :
    total m ls = (jobs.map m).sum := by
  rw [← (h.map m).sum_eq, map_flatten, sum_flatten, map_map, map_ofFn, sum_ofFn]
  rfl

/-- **The state after a schedule**: every job moves it by its own element, and the order does not
matter. -/
theorem state_eq {move : M → σ → σ} {m : α → M} (h : Schedule act ls s outs s')
    (hzero : ∀ s, move 0 s = s) (hadd : ∀ a b s, move a (move b s) = move (a + b) s)
    (hjob : ∀ i, ∀ x ∈ ls i, ∀ s, (act s x).2 = move (m x) s) : s' = move (total m ls) s := by
  induction h with
  | @done ls s hnil =>
    have htotal : total m ls = 0 := Finset.sum_eq_zero fun i _ => by rw [hnil i, map_nil, sum_nil]
    rw [htotal, hzero]
  | @step ls s s' outs x rest i hi _ ih =>
    rw [ih fun j y hy => hjob j y (mem_update hi hy),
      hjob i x (by rw [hi]; exact mem_cons_self) s, hadd, total_update m hi]

end

end Schedule

end MassBFT
