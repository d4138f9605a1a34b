import Mathlib.Logic.Function.Basic
import Mathlib.Data.Fintype.Basic
import Mathlib.Algebra.Order.BigOperators.Group.Finset
import Mathlib.Tactic.Common

/-!
# Interleavings of sequential workers

Each of finitely many workers issues a list of atomic operations. An interleaving
takes, one at a time, the next operation of some worker that has one left.

What is proved about interleavings here is what makes a result independent of the
schedule: which operations occur is fixed (`mem_iff`), so anything read off the
*set* of operations is; and the operations on one shared cell are the interleaving
of what the workers do to that cell (`filter`), so **the last operation on a cell is the
last one of some worker on that cell** (`exists_getLast?`).
-/

set_option autoImplicit false

namespace MassBFT

open Function List

variable {α : Type} {n : Nat}

/-- Induction on what the workers have left: nothing, or one of them is served next. -/
theorem queues_induction {motive : (Fin n → List α) → Prop}
    (hdone : ∀ ls, (∀ i, ls i = []) → motive ls)
    (hstep : ∀ ls i x rest, ls i = x :: rest → motive (update ls i rest) → motive ls)
    (ls : Fin n → List α) : motive ls := by
  induction hk : ∑ i, (ls i).length using Nat.strongRecOn generalizing ls with
  | ind k ih =>
    by_cases hnil : ∀ i, ls i = []
    · exact hdone ls hnil
    obtain ⟨i, hi⟩ := not_forall.mp hnil
    obtain ⟨x, rest, hx⟩ := exists_cons_of_ne_nil hi
    -- serve worker `i` next; the total of what is left drops by one
    have hlt : ∑ j, (update ls i rest j).length < k := by
      rw [← hk]
      refine Finset.sum_lt_sum (fun j _ => ?_) ⟨i, Finset.mem_univ i, by simp [hx]⟩
      by_cases hji : j = i
      · subst hji
        simp [hx]
      · rw [update_of_ne hji]
    exact hstep ls i x rest hx (ih _ hlt (update ls i rest) rfl)

/-- `Interleave ls out`: the workers issue the lists `ls`, and `out` is an order in
which their operations can happen. -/
inductive Interleave : (Fin n → List α) → List α → Prop
  | done {ls : Fin n → List α} (h : ∀ i, ls i = []) : Interleave ls []
  | step {ls : Fin n → List α} {out rest : List α} {x : α} (i : Fin n) (h : ls i = x :: rest)
      (next : Interleave (update ls i rest) out) : Interleave ls (x :: out)

namespace Interleave

variable {ls : Fin n → List α} {out : List α}

/-- An interleaving drops nothing and invents nothing. -/
theorem mem_iff (h : Interleave ls out) {x : α} : x ∈ out ↔ ∃ i, x ∈ ls i := by
  induction h with
  | done hnil => simp [hnil]
  | @step ls out rest y i hi _ ih =>
    rw [mem_cons, ih]
    constructor
    · rintro (rfl | ⟨j, hj⟩)
      · exact ⟨i, by simp [hi]⟩
      · by_cases hji : j = i
        · subst hji
          rw [update_self] at hj
          exact ⟨j, by simp [hi, hj]⟩
        · rw [update_of_ne hji] at hj
          exact ⟨j, hj⟩
    · rintro ⟨j, hj⟩
      by_cases hji : j = i
      · subst hji
        rw [hi, mem_cons] at hj
        refine hj.imp id fun hj => ⟨j, ?_⟩
        rwa [update_self]
      · refine Or.inr ⟨j, ?_⟩
        rwa [update_of_ne hji]

/-- The operations of one kind, out of an interleaving, interleave the workers' operations of that
kind. -/
theorem filterMap {β : Type} (g : α → Option β) (h : Interleave ls out) :
    Interleave (fun i => (ls i).filterMap g) (out.filterMap g) := by
  induction h with
  | done hnil => exact done fun i => by simp [hnil i]
  | @step ls out rest x i hi _ ih =>
    have hupd : (fun j => (update ls i rest j).filterMap g) =
        update (fun j => (ls j).filterMap g) i (rest.filterMap g) := by
      funext j
      by_cases hji : j = i
      · subst hji
        simp
      · simp [update_of_ne hji]
    rw [hupd] at ih
    cases hx : g x with
    | some y =>
      rw [filterMap_cons_some hx]
      exact step i (by rw [hi, filterMap_cons_some hx]) ih
    | none =>
      rw [filterMap_cons_none hx]
      -- worker `i` had nothing to issue here, so its list has not moved
      have hsame : (ls i).filterMap g = rest.filterMap g := by rw [hi, filterMap_cons_none hx]
      rw [← hsame, update_eq_self (f := fun j => (ls j).filterMap g)] at ih
      exact ih

theorem filter (p : α → Bool) (h : Interleave ls out) :
    Interleave (fun i => (ls i).filter p) (out.filter p) := by
  rw [← filterMap_eq_filter]
  exact h.filterMap _

/-- The last operation of an interleaving is the last one of some worker. -/
theorem exists_getLast? (h : Interleave ls out) {x : α} (hx : out.getLast? = some x) :
    ∃ i, (ls i).getLast? = some x := by
  induction h with
  | done hnil => cases hx
  | @step ls out rest y i hi hnext ih =>
    cases hout : out.getLast? with
    | none =>
      -- nothing follows, so worker `i` has issued its last operation
      obtain rfl : out = [] := getLast?_eq_none_iff.mp hout
      have hrest : rest = [] := by
        cases hnext with
        | done hnil =>
          have hi' := hnil i
          rwa [update_self] at hi'
      refine ⟨i, ?_⟩
      rw [hi, hrest]
      exact hx
    | some z =>
      have hz : some z = some x := by
        rw [getLast?_cons, hout] at hx
        exact hx
      obtain ⟨j, hj⟩ := ih (hout.trans hz)
      by_cases hji : j = i
      · subst hji
        rw [update_self] at hj
        refine ⟨j, ?_⟩
        rw [hi, getLast?_cons, hj]
        rfl
      · rw [update_of_ne hji] at hj
        exact ⟨j, hj⟩

theorem eq_nil (h : Interleave ls out) (hnil : ∀ i, ls i = []) : out = [] := by
  cases h with
  | done _ => rfl
  | step i hi _ => rw [hnil i] at hi; cases hi

/-- Some schedule always exists. -/
theorem exists_out (ls : Fin n → List α) : ∃ out, Interleave ls out := by
  induction ls using queues_induction with
  | hdone ls hnil => exact ⟨[], done hnil⟩
  | hstep ls i x rest hx ih =>
    obtain ⟨out, hout⟩ := ih
    exact ⟨x :: out, step i hx hout⟩

end Interleave

/-- The same for one worker's own list: where one entry alone contributes, the
contributions are that entry's. -/
theorem flatMap_eq_of_alone {β : Type} {l : List α} (hl : l.Nodup) {t : α} (ht : t ∈ l)
    {g : α → List β} (halone : ∀ u ∈ l, u ≠ t → g u = []) : l.flatMap g = g t := by
  obtain ⟨l₁, l₂, rfl⟩ := append_of_mem ht
  have hnotin := nodup_middle.mp hl
  rw [nodup_cons, mem_append, not_or] at hnotin
  have hrest : ∀ l' : List α, t ∉ l' → (∀ u ∈ l', u ∈ l₁ ++ t :: l₂) → l'.flatMap g = [] := by
    intro l' hn hsub
    rw [flatMap_eq_nil_iff]
    exact fun u hu => halone u (hsub u hu) fun he => hn (he ▸ hu)
  rw [flatMap_append, flatMap_cons, hrest l₁ hnotin.1.1 (by simp +contextual),
    hrest l₂ hnotin.1.2 (by simp +contextual)]
  simp

/-- Where all entries contribute the same or nothing, the last contribution is theirs. -/
theorem getLast?_flatMap_copies {β : Type} {l : List α} {g : α → List β} {ys : List β}
    (hcopy : ∀ u ∈ l, g u = [] ∨ g u = ys) (hone : ∃ u ∈ l, g u = ys) :
    (l.flatMap g).getLast? = ys.getLast? := by
  induction l with
  | nil =>
    obtain ⟨u, hu, -⟩ := hone
    cases hu
  | cons v rest ih =>
    have hrest : ∀ u ∈ rest, g u = [] ∨ g u = ys := fun u hu => hcopy u (mem_cons_of_mem v hu)
    rw [flatMap_cons, getLast?_append]
    by_cases hlater : ∃ u ∈ rest, g u = ys
    · rw [ih hrest hlater]
      cases hys : ys.getLast? with
      | some y => rfl
      | none =>
        obtain rfl : ys = [] := getLast?_eq_none_iff.mp hys
        rw [(hcopy v mem_cons_self).elim id id]
        rfl
    · have hnone : rest.flatMap g = [] := by
        rw [flatMap_eq_nil_iff]
        exact fun u hu => (hrest u hu).resolve_right fun h => hlater ⟨u, hu, h⟩
      obtain ⟨u, hu, hgu⟩ := hone
      have hv : g v = ys := by
        rcases mem_cons.mp hu with rfl | hu
        · exact hgu
        · exact absurd ⟨u, hu, hgu⟩ hlater
      rw [hnone, hv]
      rfl

end MassBFT
