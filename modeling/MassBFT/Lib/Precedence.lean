import Mathlib.Data.List.Basic
import Mathlib.Data.List.Sort
import Mathlib.Logic.Relation
import Mathlib.Order.Extension.Linear

/-!
# Orders that respect a precedence

A relation says which of two things has to come before the other. **A list can be put in an
order that respects the relation exactly if the relation has no cycle**
(`Acyclic.exists_respects`, `Respects.acyclic`).
-/

set_option autoImplicit false

namespace MassBFT.Precedence

open List

variable {α : Type}

/-- No way leads back to where it started. -/
def Acyclic (r : α → α → Prop) : Prop := ∀ a, ¬ Relation.TransGen r a a

/-- Nothing comes before what has to precede it. -/
def Respects (r : α → α → Prop) (l : List α) : Prop := l.Pairwise fun a b => ¬ r b a

variable {r : α → α → Prop}

/-- Without a cycle, the ways of a relation are a partial order. -/
theorem Acyclic.isPartialOrder (h : Acyclic r) : IsPartialOrder α (Relation.ReflTransGen r) where
  refl _ := .refl
  trans _ _ _ := Relation.ReflTransGen.trans
  antisymm a b hab hba := by
    rcases Relation.reflTransGen_iff_eq_or_transGen.mp hab with rfl | hab
    · rfl
    · exact absurd (hab.trans_left hba) (h a)

/-- A linear order that extends the ways of the relation sorts the list. -/
theorem Acyclic.exists_respects (h : Acyclic r) (l : List α) :
    ∃ order : List α, order.Perm l ∧ Respects r order := by
  classical
  have hpartial := h.isPartialOrder
  obtain ⟨s, hlinear, hext⟩ := extend_partialOrder (Relation.ReflTransGen r)
  refine ⟨l.mergeSort fun a b => decide (s a b), mergeSort_perm _ _, ?_⟩
  have hsorted : (l.mergeSort fun a b => decide (s a b)).Pairwise
      fun a b => decide (s a b) = true := by
    refine pairwise_mergeSort (fun a b c hab hbc => ?_) (fun a b => ?_) l
    · exact decide_eq_true (hlinear.trans _ _ _ (of_decide_eq_true hab) (of_decide_eq_true hbc))
    · simpa using hlinear.total a b
  refine hsorted.imp fun {a b} hab hba => ?_
  have heq : a = b := hlinear.antisymm _ _ (of_decide_eq_true hab) (hext b a (.single hba))
  rw [heq] at hba
  exact h b (.single hba)

/-- In an order that respects the relation, every step leads forward. -/
theorem Respects.acyclic {order : List α} (h : Respects r order)
    (hmem : ∀ a b, r a b → a ≠ b ∧ a ∈ order ∧ b ∈ order) : Acyclic r := by
  classical
  have hstep : ∀ a b, r a b → order.idxOf a < order.idxOf b := by
    intro a b hab
    obtain ⟨hne, ha, hb⟩ := hmem a b hab
    have ha' := idxOf_lt_length_of_mem ha
    have hb' := idxOf_lt_length_of_mem hb
    rcases Nat.lt_trichotomy (order.idxOf a) (order.idxOf b) with hlt | heq | hgt
    · exact hlt
    · exact absurd ((idxOf_inj ha).mp heq) hne
    · have hnot := pairwise_iff_getElem.mp h _ _ hb' ha' hgt
      rw [getElem_idxOf, getElem_idxOf] at hnot
      exact absurd hab hnot
  have hway : ∀ a b, Relation.TransGen r a b → order.idxOf a < order.idxOf b := by
    intro a b hab
    induction hab with
    | single hab => exact hstep _ _ hab
    | tail _ hbc ih => exact ih.trans (hstep _ _ hbc)
  exact fun a ha => Nat.lt_irrefl _ (hway a a ha)

/-- It is enough to look behind every entry. -/
theorem pairwise_of_splits {l : List α}
    (h : ∀ l₁ a l₂, l = l₁ ++ a :: l₂ → ∀ b ∈ l₂, r a b) : l.Pairwise r := by
  induction l with
  | nil => exact .nil
  | cons a l ih =>
    refine .cons (h [] a l rfl) (ih fun l₁ a' l₂ heq => h (a :: l₁) a' l₂ ?_)
    rw [heq]
    rfl

end MassBFT.Precedence
