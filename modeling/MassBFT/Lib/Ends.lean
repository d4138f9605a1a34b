import Mathlib.Tactic.Common

/-!
# Programs that end, the same in every environment

A program has a state and may fail, and it may look at an environment. `Ends m s post` says that
from `s` it does not fail, that **the environment makes no difference**, and what holds when it has
ended. The rules follow the program: one for a value, one for a step and what comes after it, and
one for a loop, with an invariant over the elements that it has gone through.
-/

set_option autoImplicit false

namespace MassBFT

variable {E S β δ ι : Type}

/-- From the state `s` the program ends with `post`, and in the same way in every environment. -/
def Ends (m : E → StateT S Option β) (s : S) (post : β → S → Prop) : Prop :=
  ∃ b s', (∀ env, m env s = some (b, s')) ∧ post b s'

namespace Ends

variable {m : E → StateT S Option β} {f : E → β → StateT S Option δ} {s : S}
  {post : β → S → Prop}

theorem pure {b : β} (h : post b s) : Ends (fun _ : E => Pure.pure b) s post :=
  ⟨b, s, fun _ => rfl, h⟩

theorem mono {post' : β → S → Prop} (h : Ends m s post) (himp : ∀ b s', post b s' → post' b s') :
    Ends m s post' := by
  obtain ⟨b, s', hrun, hpost⟩ := h
  exact ⟨b, s', hrun, himp b s' hpost⟩

/-- One program after another. -/
theorem bind {post' : δ → S → Prop} (h : Ends m s fun b s' => Ends (fun env => f env b) s' post') :
    Ends (fun env => m env >>= f env) s post' := by
  obtain ⟨b, s', hrun, c, s'', hrun', hpost⟩ := h
  refine ⟨c, s'', fun env => ?_, hpost⟩
  simp only [Bind.bind, StateT.bind, hrun env, Option.bind_some]
  exact hrun' env

/-- A value that does not depend on the state. -/
theorem lift {o : E → Option β} {b : β} (ho : ∀ env, o env = some b) (h : post b s) :
    Ends (fun env => StateT.lift (o env)) s post := by
  refine ⟨b, s, fun env => ?_, h⟩
  simp only [StateT.lift, ho env]
  rfl

/-- A loop: the invariant is about the elements that it has gone through, and what it has made of
them. -/
theorem foldlM {f : E → β → ι → StateT S Option β} {l : List ι} {b : β}
    (inv : List ι → β → S → Prop) (hstart : inv [] b s)
    (hstep : ∀ done i rest b s, l = done ++ i :: rest → inv done b s →
      Ends (fun env => f env b i) s (inv (done ++ [i]))) :
    Ends (fun env => l.foldlM (f env) b) s (inv l) := by
  -- the elements are moved from `rest` to `done`, one by one
  have hrest : ∀ (rest done : List ι) (b : β) (s : S), l = done ++ rest → inv done b s →
      Ends (fun env => rest.foldlM (f env) b) s (inv l) := by
    intro rest
    induction rest with
    | nil =>
      intro done b s hl hinv
      rw [List.append_nil] at hl
      subst hl
      exact pure hinv
    | cons i rest ih =>
      intro done b s hl hinv
      simp only [List.foldlM_cons]
      refine bind ((hstep done i rest b s hl hinv).mono fun b' s' hinv' => ?_)
      exact ih (done ++ [i]) b' s' (by simpa using hl) hinv'
  exact hrest l [] b s rfl hstart

end Ends

/-- A loop without an accumulator is one whose accumulator says nothing. -/
theorem forM_eq_foldlM {f : ι → StateT S Option PUnit} (l : List ι) :
    l.forM f = l.foldlM (fun _ i => f i) PUnit.unit := by
  induction l with
  | nil => rfl
  | cons i l ih =>
    rw [List.foldlM_cons]
    show (f i >>= fun _ => l.forM f) = _
    exact bind_congr fun _ => ih

theorem Ends.forM {f : E → ι → StateT S Option PUnit} {l : List ι} {s : S}
    (inv : List ι → S → Prop) (hstart : inv [] s)
    (hstep : ∀ done i rest s, l = done ++ i :: rest → inv done s →
      Ends (fun env => f env i) s fun _ => inv (done ++ [i])) :
    Ends (fun env => l.forM (f env)) s fun _ => inv l := by
  simp only [forM_eq_foldlM]
  exact .foldlM (fun done _ => inv done) hstart fun done i rest _ => hstep done i rest

end MassBFT
