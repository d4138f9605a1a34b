import MassBFT.Lib.Initial
import MassBFT.Order.Steps

/-!
# Vector clocks, and what `mustLessThan` decides about them

The abstract side of the order manager. A *clock* assigns a full vector to every block;
`rank` is the total order the manager is meant to enumerate: vectors lexicographically,
then block ids, then group ids. A cell *fits* a vector if it is what one can know of the
vector so far — a lower bound, exact where `real`.

`mustLessThan_key` is the one fact about the comparison that everything rests on: what it
answers on two partially known blocks holds for **every** pair of vectors the two cells fit.
-/

set_option autoImplicit false

namespace MassBFT.Order

variable {G : Nat}

/-- A full vector for every block `(g, b)`: `W g b v` is coordinate `v`. -/
abbrev Clock (G : Nat) := Fin G → Nat → Fin G → Int

/-- Successors are not below their predecessors, in any coordinate. -/
def Clock.Grows (W : Clock G) : Prop := ∀ g b v, W g b v ≤ W g (b + 1) v

/-- The vector of a block together with the tie break. -/
def keyOf (X : Fin G → Int) (x : Fin G × Nat) :
    Lex (Lex (Fin G → Int) × Lex (Nat × Fin G)) :=
  toLex (toLex X, toLex (x.2, x.1))

/-- The order of the blocks under a clock. -/
def rank (W : Clock G) (x : Fin G × Nat) : Lex (Lex (Fin G → Int) × Lex (Nat × Fin G)) :=
  keyOf (W x.1 x.2) x

theorem rank_injective (W : Clock G) : Function.Injective (rank W) := by
  intro x y hxy
  have h2 : toLex (x.2, x.1) = toLex (y.2, y.1) := congrArg (fun k => (ofLex k).2) hxy
  have h3 : (x.2, x.1) = (y.2, y.1) := h2
  rw [Prod.mk.injEq] at h3
  exact Prod.ext h3.2 h3.1

theorem keyOf_lt_keyOf_succ {X Y : Fin G → Int} (hle : ∀ v, X v ≤ Y v) (g : Fin G) (b : Nat) :
    keyOf X (g, b) < keyOf Y (g, b + 1) :=
  toLex_pair_lt_of_le hle (Prod.Lex.toLex_lt_toLex.mpr (Or.inl (Nat.lt_succ_self b)))

theorem Clock.Grows.rank_lt_succ {W : Clock G} (hW : W.Grows) (g : Fin G) (b : Nat) :
    rank W (g, b) < rank W (g, b + 1) :=
  keyOf_lt_keyOf_succ (hW g b) g b

theorem Clock.Grows.rank_le {W : Clock G} (hW : W.Grows) (g : Fin G) {b c : Nat} (hbc : b ≤ c) :
    rank W (g, b) ≤ rank W (g, c) := by
  induction hbc with
  | refl => exact le_refl _
  | step _ ih => exact le_trans ih (hW.rank_lt_succ g _).le

theorem Clock.Grows.le {W : Clock G} (hW : W.Grows) (g v : Fin G) {b c : Nat} (hbc : b ≤ c) :
    W g b v ≤ W g c v := by
  induction hbc with
  | refl => exact le_refl _
  | step _ ih => exact le_trans ih (hW g _ v)

/-- The cell is what can be known of the vector. -/
def Cell.Fits (c : Cell G) (X : Fin G → Int) : Prop :=
  ∀ v, c.watermarks v ≤ X v ∧ (c.real v = true → c.watermarks v = X v)

/-- **`mustLessThan` on two heads decides the order of their blocks**, whatever the missing
coordinates turn out to be. -/
theorem mustLessThan_key {lhs rhs : Cell G} {X Y : Fin G → Int} {same : Bool}
    (hne : lhs.groupId ≠ rhs.groupId) (h : Cell.mustLessThan same lhs rhs = .ok true)
    (hX : lhs.Fits X) (hY : ∀ v, rhs.watermarks v ≤ Y v) :
    keyOf X (lhs.groupId, lhs.blockId) < keyOf Y (rhs.groupId, rhs.blockId) := by
  have hsettled : ∀ k, Cell.Settled lhs rhs k → X k ≤ Y k := by
    intro k hk
    rw [← (hX k).2 hk.1, hk.2.2]
    exact hY k
  rcases (Cell.mustLessThan_iff hne).mp h with ⟨j, hbefore, hreal, hlt⟩ | ⟨hall, htie⟩
  · refine toLex_pair_lt_of_lt _ _ (toLex_lt_of_le_of_lt (fun k hk => hsettled k (hbefore k hk)) ?_)
    exact (hX j).2 hreal ▸ lt_of_lt_of_le hlt (hY j)
  · refine toLex_pair_lt_of_le (fun k => hsettled k (hall k)) ?_
    exact Prod.Lex.toLex_lt_toLex.mpr htie

end MassBFT.Order
