import Mathlib.Algebra.Order.BigOperators.Group.List
import Mathlib.Algebra.Order.Ring.Nat
import Mathlib.Data.List.Basic
import Mathlib.Tactic.Common

/-!
# Places in a layout

Groups of members are laid out one behind another. `before` is where a group starts, `rank` is the
place of a member: **the members of all groups have different places** (`rank_inj`), and the
places fill `0` to the number of members (`rank_lt`).

A place with several cells is spelled in a mixed radix; `radix_inj` says that the spelling is
unique.
-/

set_option autoImplicit false

namespace MassBFT.Layout

variable {counts : List Nat} {g h j k : Nat}

/-- The members of the groups in front of group `g`. -/
def before (counts : List Nat) (g : Nat) : Nat := (counts.take g).sum

/-- The place of member `j` of group `g`. -/
def rank (counts : List Nat) (g j : Nat) : Nat := before counts g + j

@[simp] theorem before_zero (counts : List Nat) : before counts 0 = 0 := by
  simp [before]

@[simp] theorem before_cons_succ (n : Nat) (counts : List Nat) (g : Nat) :
    before (n :: counts) (g + 1) = n + before counts g := by
  simp [before]

theorem before_succ (hg : g < counts.length) :
    before counts (g + 1) = before counts g + counts[g] := by
  rw [before, before, List.take_add_one, List.getElem?_eq_getElem hg, List.sum_append]
  simp

/-- A group ends before a later one starts. -/
theorem before_add_le (hg : g < counts.length) (hgh : g < h) :
    before counts g + counts[g] ≤ before counts h := by
  rw [← before_succ hg]
  exact (List.take_sublist_take_left hgh).sum_le_sum fun _ _ => Nat.zero_le _

theorem before_add_le_sum (hg : g < counts.length) : before counts g + counts[g] ≤ counts.sum := by
  rw [← before_succ hg]
  exact (List.take_sublist (g + 1) counts).sum_le_sum fun _ _ => Nat.zero_le _

theorem rank_lt (hg : g < counts.length) (hj : j < counts[g]) : rank counts g j < counts.sum :=
  Nat.lt_of_lt_of_le (Nat.add_lt_add_left hj _) (before_add_le_sum hg)

/-- A place belongs to one member. -/
theorem rank_inj (hg : g < counts.length) (hh : h < counts.length) (hj : j < counts[g])
    (hk : k < counts[h]) (heq : rank counts g j = rank counts h k) : g = h ∧ j = k := by
  unfold rank at heq
  rcases Nat.lt_trichotomy g h with hlt | rfl | hlt
  · have := before_add_le hg hlt
    omega
  · exact ⟨rfl, by omega⟩
  · have := before_add_le hh hlt
    omega

/-- A number is spelled in one way, with a last digit below the radix. -/
theorem radix_inj {width a b i l : Nat} (hi : i < width) (hl : l < width)
    (h : width * a + i = width * b + l) : a = b ∧ i = l := by
  have hmod := congrArg (· % width) h
  simp only [Nat.mul_add_mod, Nat.mod_eq_of_lt hi, Nat.mod_eq_of_lt hl] at hmod
  subst hmod
  have hmul := Nat.add_right_cancel h
  exact ⟨Nat.eq_of_mul_eq_mul_left (Nat.zero_lt_of_lt hi) hmul, rfl⟩

/-- A number with more than one digit is below its radix in the last place. -/
theorem radix_lt {width bound a i : Nat} (hi : i < width) (ha : a < bound) :
    width * a + i < width * bound := by
  calc width * a + i < width * a + width := Nat.add_lt_add_left hi _
    _ = width * (a + 1) := (Nat.mul_succ width a).symm
    _ ≤ width * bound := Nat.mul_le_mul_left width ha

end MassBFT.Layout
