import Mathlib.Logic.Nontrivial.Basic
import Mathlib.Logic.Relation

/-!
# Values that were assigned, and values that were found

A program that reads memory it has never written, or a clock, has values of which nobody knows what
they are. A `Tracked` value says where it comes from: it was assigned, or it is what is found at
a place. What is found there is up to the environment, so one tracked run stands for all of them.

Which equations between tracked values hold *whatever is found*? Those that follow from the given
ones by reflexivity, symmetry and transitivity, or all of them, if the given ones identify two
different assigned values (`follows_iff`).
-/

set_option autoImplicit false

namespace MassBFT

/-- A value and where it comes from. -/
inductive Tracked (α κ : Type) where
  | assigned (a : α)
  | found (place : κ)
  deriving DecidableEq, Repr

namespace Tracked

variable {α κ : Type}

/-- The value, in an environment. -/
def read (env : κ → α) : Tracked α κ → α
  | assigned a => a
  | found place => env place

@[simp] theorem read_assigned (env : κ → α) (a : α) : (assigned a).read env = a := rfl

/-- Two values are the same in the environment if the equations say so. -/
theorem read_eq_of_eqvGen {R : Tracked α κ → Tracked α κ → Prop} {env : κ → α}
    (hR : ∀ u v, R u v → u.read env = v.read env) {x y : Tracked α κ}
    (h : Relation.EqvGen R x y) : x.read env = y.read env := by
  induction h with
  | rel u v huv => exact hR u v huv
  | refl u => rfl
  | symm u v _ ih => exact ih.symm
  | trans u v z _ _ ih ih' => exact ih.trans ih'

/-! ## An environment for a class of equations -/

section

variable (R : Tracked α κ → Tracked α κ → Prop)

open Classical in
/-- The value of a class: what was assigned to one of its members, or one of two others. -/
noncomputable def valueOf (x : Tracked α κ) (p q : α) (u : Tracked α κ) : α :=
  if h : ∃ a, Relation.EqvGen R u (assigned a) then h.choose
  else if Relation.EqvGen R u x then p else q

variable {R} {x u v : Tracked α κ} {p q a : α}

theorem valueOf_congr (h : Relation.EqvGen R u v) : valueOf R x p q u = valueOf R x p q v := by
  have hsame : Relation.EqvGen R u = Relation.EqvGen R v := by
    funext z
    exact propext ⟨fun hu => (h.symm _ _).trans _ _ _ hu, fun hv => h.trans _ _ _ hv⟩
  unfold valueOf
  rw [hsame]

/-- The equations do not identify different assigned values. -/
def Consistent (R : Tracked α κ → Tracked α κ → Prop) : Prop :=
  ∀ a b, Relation.EqvGen R (assigned a) (assigned b) → a = b

theorem valueOf_of_assigned (hR : Consistent R) (h : Relation.EqvGen R u (assigned a)) :
    valueOf R x p q u = a := by
  have hex : ∃ a, Relation.EqvGen R u (assigned a) := ⟨a, h⟩
  unfold valueOf
  rw [dif_pos hex]
  exact hR _ _ ((hex.choose_spec.symm _ _).trans _ _ _ h)

/-- The environment that gives every place the value of its class reads every value so. -/
theorem read_valueOf (hR : Consistent R) (u : Tracked α κ) :
    u.read (fun place => valueOf R x p q (found place)) = valueOf R x p q u := by
  cases u with
  | assigned a => exact (valueOf_of_assigned hR (.refl _)).symm
  | found place => rfl

/-- Two classes can be given different values. -/
theorem exists_valueOf_ne [Nontrivial α] (hR : Consistent R) {y : Tracked α κ}
    (hxy : ¬ Relation.EqvGen R x y) : ∃ p q, valueOf R x p q x ≠ valueOf R x p q y := by
  by_cases hx : ∃ a, Relation.EqvGen R x (assigned a)
  · obtain ⟨a, ha⟩ := hx
    obtain ⟨q, hq⟩ := exists_ne a
    refine ⟨a, q, ?_⟩
    rw [valueOf_of_assigned hR ha]
    by_cases hy : ∃ b, Relation.EqvGen R y (assigned b)
    · obtain ⟨b, hb⟩ := hy
      rw [valueOf_of_assigned hR hb]
      rintro rfl
      exact hxy (ha.trans _ _ _ (hb.symm _ _))
    · rw [valueOf, dif_neg hy, if_neg fun h => hxy (h.symm _ _)]
      exact hq.symm
  · by_cases hy : ∃ b, Relation.EqvGen R y (assigned b)
    · obtain ⟨b, hb⟩ := hy
      obtain ⟨p, hp⟩ := exists_ne b
      refine ⟨p, p, ?_⟩
      rw [valueOf_of_assigned hR hb, valueOf, dif_neg hx, if_pos (.refl x)]
      exact hp
    · obtain ⟨p, q, hpq⟩ := exists_pair_ne α
      refine ⟨p, q, ?_⟩
      rw [valueOf, dif_neg hx, if_pos (.refl x), valueOf, dif_neg hy,
        if_neg fun h => hxy (h.symm _ _)]
      exact hpq

end

/-- **What follows from equations between tracked values**, whatever is found: what the laws of
equality give, or everything if they identify different assigned values. -/
theorem follows_iff [Nontrivial α] (R : Tracked α κ → Tracked α κ → Prop) (x y : Tracked α κ) :
    (∀ env : κ → α, (∀ u v, R u v → u.read env = v.read env) → x.read env = y.read env) ↔
      Consistent R → Relation.EqvGen R x y := by
  constructor
  · intro h hR
    by_contra hxy
    obtain ⟨p, q, hpq⟩ := exists_valueOf_ne hR hxy
    refine hpq ?_
    rw [← read_valueOf hR x, ← read_valueOf hR y]
    refine h _ fun u v huv => ?_
    rw [read_valueOf hR, read_valueOf hR]
    exact valueOf_congr (.rel u v huv)
  · intro h env henv
    refine read_eq_of_eqvGen henv (h fun a b hab => ?_)
    exact read_eq_of_eqvGen henv hab

end Tracked

end MassBFT
