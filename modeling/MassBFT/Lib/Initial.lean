import Mathlib.Order.PiLex
import Mathlib.Data.Prod.Lex
import Mathlib.Data.List.Basic

/-!
# Initial segments, and lexicographic comparison with estimates

Two observers who enumerate the same totally ordered set from below, each without gaps and
in order, can only differ in how far they got. `InitialSegment` is "without gaps and in
order" and `InitialSegment.comparable` is the conclusion; no observer needs to know
about the other.

The second half is what an observer needs who sees vectors only in part. A coordinate that
is known exactly on the left and bounded from below on the right decides a lexicographic
comparison as soon as it is smaller, if the coordinates in front of it are not larger
(`toLex_lt_of_le_of_lt`).
-/

set_option autoImplicit false

namespace MassBFT

open List

section

variable {α β : Type} [LinearOrder β]

/-- `l` lists an initial segment of the order that `key` defines, in that order. -/
structure InitialSegment (key : α → β) (l : List α) : Prop where
  sorted : l.Pairwise fun x y => key x < key y
  closed : ∀ x ∈ l, ∀ y, key y < key x → y ∈ l

variable {key : α → β}

/-- A sorted list that contains, with every member, everything below it that the longer list
has, is where the longer list begins. -/
theorem prefix_of_closed : ∀ {l₁ l₂ : List α}, (l₁.Pairwise fun x y => key x < key y) →
    (l₂.Pairwise fun x y => key x < key y) → l₁ ⊆ l₂ →
    (∀ x ∈ l₁, ∀ y ∈ l₂, key y < key x → y ∈ l₁) → l₁ <+: l₂
  | [], _, _, _, _, _ => nil_prefix
  | x :: t₁, [], _, _, hsub, _ => absurd (hsub mem_cons_self) (by simp)
  | x :: t₁, y :: t₂, h₁, h₂, hsub, hcl => by
    rw [pairwise_cons] at h₁ h₂
    have hxy : x = y := by
      rcases mem_cons.mp (hsub mem_cons_self) with hx | hx
      · exact hx
      · -- Otherwise `y` is below `x`, hence in the shorter list, and not its head.
        have hlt : key y < key x := h₂.1 x hx
        rcases mem_cons.mp (hcl x mem_cons_self y mem_cons_self hlt) with hy | hy
        · exact hy.symm
        · exact absurd (h₁.1 y hy) (not_lt.mpr hlt.le)
    subst hxy
    refine cons_prefix_cons.mpr ⟨rfl, prefix_of_closed h₁.2 h₂.2 ?_ ?_⟩
    · intro z hz
      rcases mem_cons.mp (hsub (mem_cons_of_mem _ hz)) with rfl | hz'
      · exact absurd (h₁.1 _ hz) (lt_irrefl _)
      · exact hz'
    · intro z hz w hw hlt
      rcases mem_cons.mp (hcl z (mem_cons_of_mem _ hz) w (mem_cons_of_mem _ hw) hlt) with rfl | hw'
      · exact absurd (h₂.1 _ hw) (lt_irrefl _)
      · exact hw'

/-- **Two initial segments of one order: one is a prefix of the other.** -/
theorem InitialSegment.comparable (hinj : Function.Injective key) {l₁ l₂ : List α}
    (h₁ : InitialSegment key l₁) (h₂ : InitialSegment key l₂) : l₁ <+: l₂ ∨ l₂ <+: l₁ := by
  by_cases hsub : l₁ ⊆ l₂
  · exact Or.inl (prefix_of_closed h₁.sorted h₂.sorted hsub fun x hx y _ => h₁.closed x hx y)
  · obtain ⟨x, hx, hnx⟩ : ∃ x ∈ l₁, x ∉ l₂ := by
      simpa [subset_def] using hsub
    -- Everything the second list has is below `x`, because `x` is not below any of it.
    have hsub' : l₂ ⊆ l₁ := by
      intro y hy
      rcases lt_trichotomy (key y) (key x) with hlt | heq | hgt
      · exact h₁.closed x hx y hlt
      · exact hinj heq ▸ hx
      · exact absurd (h₂.closed y hy x hgt) hnx
    exact Or.inr (prefix_of_closed h₂.sorted h₁.sorted hsub' fun y hy z _ => h₂.closed y hy z)

theorem InitialSegment.nodup {l : List α} (h : InitialSegment key l) : l.Nodup :=
  h.sorted.imp fun hlt heq => absurd (heq ▸ hlt) (lt_irrefl _)

end

section

variable {ι β γ : Type} [LinearOrder ι] [LinearOrder β] [LinearOrder γ]

/-- Vectors first, then a tie break: a smaller vector wins. -/
theorem toLex_pair_lt_of_lt {x y : ι → β} (s t : γ) (h : toLex x < toLex y) :
    toLex (toLex x, s) < toLex (toLex y, t) :=
  Prod.Lex.toLex_lt_toLex.mpr (Or.inl h)

variable [WellFoundedLT ι]

/-- … and a vector that is not larger wins with the smaller tie break. -/
theorem toLex_pair_lt_of_le {x y : ι → β} {s t : γ} (h : ∀ i, x i ≤ y i) (hst : s < t) :
    toLex (toLex x, s) < toLex (toLex y, t) := by
  rcases lt_or_eq_of_le (Pi.toLex_monotone (show x ≤ y from h)) with hlt | heq
  · exact toLex_pair_lt_of_lt s t hlt
  · exact Prod.Lex.toLex_lt_toLex.mpr (Or.inr ⟨heq, hst⟩)

/-- The first coordinates are not larger and the next one is smaller. -/
theorem toLex_lt_of_le_of_lt {x y : ι → β} {i : ι} (hle : ∀ j < i, x j ≤ y j) (hlt : x i < y i) :
    toLex x < toLex y := by
  -- In between lies `y` up to `i` and `x` from there on.
  have h₁ : toLex x ≤ toLex (fun j => if j < i then y j else x j) := by
    apply Pi.toLex_monotone
    intro j
    by_cases hj : j < i
    · simpa [hj] using hle j hj
    · simp [hj]
  have h₂ : toLex (fun j => if j < i then y j else x j) < toLex y := by
    refine ⟨i, fun j hj => ?_, ?_⟩
    · simp [hj]
    · simpa using hlt
  exact lt_of_le_of_lt h₁ h₂

end

end MassBFT
