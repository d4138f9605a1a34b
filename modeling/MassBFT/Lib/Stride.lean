import Mathlib.Data.List.Basic
import Mathlib.Data.List.GetD
import Mathlib.Data.List.Nodup
import Mathlib.Data.List.Range
import Mathlib.Tactic.Ring

/-!
# Loops that are split among routines

Routine `i` of `r` starts a loop at its own index and skips the indices of the others. **One
after another, the routines visit every index of the whole loop exactly once**
(`split_perm`), so the outcome is that of the whole loop as soon as the rounds commute.

A loop that writes one entry of a list in every round leaves the value of the round there,
in whatever order the rounds come (`isPrefix_foldl_set`).
-/

set_option autoImplicit false

namespace MassBFT.Stride

open List

/-- The indices of `for (j = start; j < stop; j += step)`. -/
def indices (start stop step : Nat) : List Nat :=
  List.range' start ((stop - start + (step - 1)) / step) step

/-- The indices that the routines visit, one routine after another. -/
def split (width routines stop : Nat) : List Nat :=
  (List.range routines).flatMap fun i => indices (width * i) stop (width * routines)

theorem mem_indices {start stop step j : Nat} (hstep : 0 < step) :
    j ∈ indices start stop step ↔ ∃ k, j = start + step * k ∧ j < stop := by
  have hcount : ∀ k, k < (stop - start + (step - 1)) / step ↔ step * k < stop - start := by
    intro k
    rw [Nat.lt_iff_add_one_le, Nat.le_div_iff_mul_le hstep, Nat.add_mul, Nat.one_mul,
      Nat.mul_comm k step]
    omega
  rw [indices, mem_range']
  constructor
  · rintro ⟨k, hk, rfl⟩
    rw [hcount] at hk
    exact ⟨k, rfl, by omega⟩
  · rintro ⟨k, rfl, hlt⟩
    exact ⟨k, (hcount k).mpr (by omega), rfl⟩

theorem nodup_indices {start stop step : Nat} (hstep : 0 < step) :
    (indices start stop step).Nodup :=
  nodup_range' step hstep

theorem mem_split {width routines stop j : Nat} (hw : 0 < width) (hr : 0 < routines) :
    j ∈ split width routines stop ↔ j ∈ indices 0 stop width := by
  rw [split, mem_flatMap, mem_indices hw]
  simp only [mem_range, mem_indices (Nat.mul_pos hw hr), Nat.zero_add]
  constructor
  · rintro ⟨i, -, k, rfl, hlt⟩
    exact ⟨i + routines * k, by ring, hlt⟩
  · rintro ⟨k, rfl, hlt⟩
    refine ⟨k % routines, Nat.mod_lt k hr, k / routines, ?_, hlt⟩
    rw [Nat.mul_assoc, ← Nat.mul_add, Nat.mod_add_div]

theorem nodup_split {width routines stop : Nat} (hw : 0 < width) (hr : 0 < routines) :
    (split width routines stop).Nodup := by
  have hstep := Nat.mul_pos hw hr
  refine nodup_flatMap.mpr ⟨fun i _ => nodup_indices hstep, ?_⟩
  refine nodup_range.imp_of_mem fun {i i'} hi hi' hne => ?_
  -- An index determines its routine: it is the remainder of the index by their number.
  intro j hj hj'
  obtain ⟨k, rfl, -⟩ := (mem_indices hstep).mp hj
  obtain ⟨k', heq, -⟩ := (mem_indices hstep).mp hj'
  rw [Nat.mul_assoc, Nat.mul_assoc, ← Nat.mul_add, ← Nat.mul_add] at heq
  have hsum := Nat.eq_of_mul_eq_mul_left hw heq
  have hmod : (i + routines * k) % routines = (i' + routines * k') % routines := by rw [hsum]
  rw [Nat.add_mul_mod_self_left, Nat.add_mul_mod_self_left,
    Nat.mod_eq_of_lt (mem_range.mp hi), Nat.mod_eq_of_lt (mem_range.mp hi')] at hmod
  exact hne hmod

/-- **The routines share the loop.** -/
theorem split_perm {width routines : Nat} (hw : 0 < width) (hr : 0 < routines) (stop : Nat) :
    (split width routines stop).Perm (indices 0 stop width) :=
  (perm_ext_iff_of_nodup (nodup_split hw hr) (nodup_indices hw)).mpr fun _ => mem_split hw hr

theorem indices_zero (stop : Nat) {step : Nat} :
    indices 0 stop step = (List.range ((stop + (step - 1)) / step)).map (step * ·) := by
  rw [indices, Nat.sub_zero]
  apply ext_getElem
  · simp
  · intro i _ _
    simp

/-! ## Writing loops -/

section

variable {α : Type}

theorem length_foldl_set (place : Nat → Nat) (value : Nat → α) (ks : List Nat) (l : List α) :
    (ks.foldl (fun l k => l.set (place k) (value k)) l).length = l.length := by
  induction ks generalizing l with
  | nil => rfl
  | cons k ks ih => rw [foldl_cons, ih, length_set]

/-- Every round writes one entry, and nobody writes anything else there. -/
theorem getElem?_foldl_set {place : Nat → Nat} {value : Nat → α} {ks : List Nat}
    (hinj : ∀ k ∈ ks, ∀ k' ∈ ks, place k = place k' → k = k') {l : List α} {k : Nat} (hk : k ∈ ks)
    (hlt : place k < l.length) :
    (ks.foldl (fun l k => l.set (place k) (value k)) l)[place k]? = some (value k) := by
  induction ks using List.reverseRecOn with
  | nil => cases hk
  | append_singleton ks last ih =>
    rw [foldl_append, foldl_cons, foldl_nil]
    by_cases hlast : place last = place k
    · obtain rfl := hinj last (by simp) k hk hlast
      rw [getElem?_set_self (by rw [length_foldl_set]; exact hlt)]
    · rw [getElem?_set_ne hlast]
      rcases mem_append.mp hk with hk | hk
      · exact ih (fun k hk k' hk' => hinj k (by simp [hk]) k' (by simp [hk'])) hk
      · rw [mem_singleton.mp hk] at hlast
        exact absurd rfl hlast

/-- A loop whose rounds write the entries of a list leaves that list in front. -/
theorem isPrefix_foldl_set {place : Nat → Nat} {value : Nat → α} {ks : List Nat}
    (hinj : ∀ k ∈ ks, ∀ k' ∈ ks, place k = place k' → k = k') {l target : List α}
    (hlen : target.length ≤ l.length)
    (hwrites : ∀ i, i < target.length → ∃ k ∈ ks, place k = i ∧ target[i]? = some (value k)) :
    target <+: ks.foldl (fun l k => l.set (place k) (value k)) l := by
  rw [prefix_iff_getElem?]
  intro i hi
  obtain ⟨k, hk, rfl, hvalue⟩ := hwrites i hi
  rw [getElem?_foldl_set hinj hk (lt_of_lt_of_le hi hlen), ← hvalue, getElem?_eq_getElem hi]

end

end MassBFT.Stride
