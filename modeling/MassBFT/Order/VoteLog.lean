import MassBFT.Order.Evidence
import Mathlib.Order.Nat

/-!
# Vote logs, and the manager as a reader of them

A voter's log is an infinite sequence of votes on the blocks of the other groups. The logs of
all groups determine a vector for every block — `VoteLogs.final` — long before anybody has
read them to the end, and the manager reads them in some interleaving, with repetitions.

`Cell.Reads` says what a cell of such a reader has to do with the logs: a coordinate is real exactly
if the vote has been read, and it then has the final value; an estimate is a lower bound.
-/

set_option autoImplicit false

namespace MassBFT.Order

open Function

variable {G : Nat}

/-- What a voter appends to its log. -/
structure Vote (G : Nat) where
  groupId : Fin G
  blockId : Nat
  watermark : Int

/-- The log of voter `v`. -/
structure VoteLog (G : Nat) (v : Fin G) where
  entry : Nat → Vote G
  other : ∀ n, (entry n).groupId ≠ v
  complete : ∀ g, g ≠ v → ∀ b, ∃ n, (entry n).groupId = g ∧ (entry n).blockId = b
  increasing : ∀ m n, m < n → (entry m).groupId = (entry n).groupId →
    (entry m).blockId < (entry n).blockId
  clock_ge : ∀ n, -1 ≤ (entry n).watermark
  clock_mono : ∀ m n, m ≤ n → (entry m).watermark ≤ (entry n).watermark

namespace VoteLog

variable {v : Fin G} (l : VoteLog G v)

/-- Where in the log the vote on block `b` of group `g` is. -/
def position (g : Fin G) (b : Nat) : Nat := if hg : g = v then 0 else Nat.find (l.complete g hg b)

theorem entry_position {g : Fin G} (hg : g ≠ v) (b : Nat) :
    (l.entry (l.position g b)).groupId = g ∧ (l.entry (l.position g b)).blockId = b := by
  unfold position
  rw [dif_neg hg]
  exact Nat.find_spec (l.complete g hg b)

/-- A log has one vote on each block. -/
theorem position_entry (n : Nat) : l.position (l.entry n).groupId (l.entry n).blockId = n := by
  obtain ⟨hg, hb⟩ := l.entry_position (l.other n) (l.entry n).blockId
  rcases lt_trichotomy (l.position (l.entry n).groupId (l.entry n).blockId) n with hlt | heq | hgt
  · exact absurd hb (l.increasing _ _ hlt hg).ne
  · exact heq
  · exact absurd hb.symm (l.increasing _ _ hgt hg.symm).ne

theorem position_lt_succ {g : Fin G} (hg : g ≠ v) (b : Nat) :
    l.position g b < l.position g (b + 1) := by
  obtain ⟨hg₁, hb₁⟩ := l.entry_position hg b
  obtain ⟨hg₂, hb₂⟩ := l.entry_position hg (b + 1)
  rcases lt_trichotomy (l.position g b) (l.position g (b + 1)) with hlt | heq | hgt
  · exact hlt
  · rw [heq, hb₂] at hb₁
    omega
  · have hinc := l.increasing _ _ hgt (hg₂.trans hg₁.symm)
    rw [hb₁, hb₂] at hinc
    omega

end VoteLog

/-- One log for each group. -/
abbrev VoteLogs (G : Nat) := ∀ v : Fin G, VoteLog G v

namespace VoteLogs

variable (L : VoteLogs G) {cnt : Fin G → Nat}

/-- The final vectors: the own coordinate is the block number, the others are the votes. -/
def final : Clock G := fun g b v =>
  if v = g then b else ((L v).entry ((L v).position g b)).watermark

/-- The call that feeds the `n`-th vote of `v` to the manager. -/
def call (v : Fin G) (n : Nat) : Call G :=
  .pushDecision ((L v).entry n).groupId ((L v).entry n).blockId v ((L v).entry n).watermark

/-- The vote of `v` on the block is among the first `cnt v` of its log; the own coordinate needs
no vote. -/
def Known (cnt : Fin G → Nat) (g : Fin G) (b : Nat) (v : Fin G) : Prop :=
  v = g ∨ (L v).position g b < cnt v

theorem final_self (g : Fin G) (b : Nat) : L.final g b g = b := if_pos rfl

theorem final_of_ne {g v : Fin G} (hv : v ≠ g) (b : Nat) :
    L.final g b v = ((L v).entry ((L v).position g b)).watermark := if_neg hv

theorem final_entry (v : Fin G) (n : Nat) :
    L.final ((L v).entry n).groupId ((L v).entry n).blockId v = ((L v).entry n).watermark := by
  rw [L.final_of_ne (Ne.symm ((L v).other n)), (L v).position_entry]

theorem final_grows : L.final.Grows := by
  intro g b v
  by_cases hv : v = g
  · subst hv
    rw [L.final_self, L.final_self]
    push_cast
    omega
  · rw [L.final_of_ne hv, L.final_of_ne hv]
    exact (L v).clock_mono _ _ ((L v).position_lt_succ (Ne.symm hv) b).le

theorem neg_one_le_final (g : Fin G) (b : Nat) (v : Fin G) : -1 ≤ L.final g b v := by
  by_cases hv : v = g
  · subst hv
    rw [L.final_self]
    omega
  · rw [L.final_of_ne hv]
    exact (L v).clock_ge _

/-- A vote that has not been read is not below any that comes before it … -/
theorem entry_le_final {g v : Fin G} {b n : Nat} (hk : ¬L.Known cnt g b v)
    (hn : n ≤ cnt v) : ((L v).entry n).watermark ≤ L.final g b v := by
  unfold Known at hk
  push Not at hk
  rw [L.final_of_ne hk.1]
  exact (L v).clock_mono _ _ (le_trans hn hk.2)

/-- … and one that has been read is not above any that comes after it. -/
theorem final_le_entry {g v : Fin G} {b n : Nat} (hv : v ≠ g)
    (hk : L.Known cnt g b v) (hn : cnt v ≤ n) : L.final g b v ≤ ((L v).entry n).watermark := by
  rw [L.final_of_ne hv]
  rcases hk with rfl | hlt
  · exact absurd rfl hv
  · exact (L v).clock_mono _ _ (le_trans hlt.le hn)

/-- Reading on at most makes the vote that is read known. -/
theorem known_update_iff {v : Fin G} {n : Nat} (hn : n ≤ cnt v) (g : Fin G) (b : Nat) (u : Fin G) :
    L.Known (update cnt v (max (cnt v) (n + 1))) g b u ↔ L.Known cnt g b u ∨
      u = v ∧ ((L v).entry n).groupId = g ∧ ((L v).entry n).blockId = b := by
  unfold Known
  by_cases huv : u = v
  · subst huv
    rw [update_self]
    by_cases hug : u = g
    · simp [hug]
    · constructor
      · rintro (heq | hlt)
        · exact absurd heq hug
        · rcases Nat.lt_or_ge ((L u).position g b) (cnt u) with hlt' | hge
          · exact Or.inl (Or.inr hlt')
          · have hpos : (L u).position g b = n := by omega
            refine Or.inr ⟨rfl, ?_⟩
            rw [← hpos]
            exact (L u).entry_position (Ne.symm hug) b
      · rintro ((heq | hlt) | ⟨_, rfl, rfl⟩)
        · exact absurd heq hug
        · exact Or.inr (by omega)
        · rw [(L u).position_entry]
          exact Or.inr (by omega)
  · rw [update_of_ne huv]
    simp [huv]

end VoteLogs

/-- `cs` feeds the first `cnt v` votes of every voter `v` to the manager, each voter's in the
order of its log; a vote that has been fed may be fed again at any later time. -/
inductive Interleaving (L : VoteLogs G) : List (Call G) → (Fin G → Nat) → Prop
  | nil : Interleaving L [] fun _ => 0
  | vote {cs : List (Call G)} {cnt : Fin G → Nat} (v : Fin G) (n : Nat) (hn : n ≤ cnt v)
      (h : Interleaving L cs cnt) :
      Interleaving L (cs ++ [L.call v n]) (update cnt v (max (cnt v) (n + 1)))

/-! ## What a coordinate says -/

/-- What coordinate `v` of a cell has to do with the log of `v`. -/
structure Cell.Reads (L : VoteLogs G) (cnt : Fin G → Nat) (g : Fin G) (n : Nat) (v : Fin G)
    (c : Cell G) : Prop where
  le : c.watermarks v ≤ L.final g n v
  eq : c.real v = true → c.watermarks v = L.final g n v
  known : c.real v = true ↔ L.Known cnt g n v

theorem Cell.Reads.fresh (L : VoteLogs G) (g : Fin G) (n : Nat) (v : Fin G) :
    Cell.Reads L (fun _ => 0) g n v (Cell.new g n) := by
  have hreal := Cell.new_real_iff g v n
  refine ⟨?_, fun hr => ?_, ?_⟩
  · by_cases hv : v = g
    · subst hv
      rw [Cell.new_watermarks_self, L.final_self]
    · rw [Cell.new_watermarks_of_ne hv]
      exact L.neg_one_le_final g n v
  · obtain rfl := hreal.mp hr
    rw [Cell.new_watermarks_self, L.final_self]
  · rw [hreal]
    simp [VoteLogs.Known]

end MassBFT.Order
