import Mathlib.Data.List.Basic
import Mathlib.Data.List.FinRange
import Mathlib.Data.List.Forall2
import Mathlib.Data.List.Nodup
import Mathlib.Tactic.Common
import Mathlib.Tactic.Ring

/-!
# Round robin

A list is dealt out to `n` workers: worker `w` takes the entries at `w`, `w + n`, `w + 2n` and
so on (`scatter`). Afterwards position `i` takes back entry `i / n` of worker `i % n`
(`gather`). **Whatever the workers do to their entries in place, every entry comes back to the
position it was taken from** (`gather_scatter`).
-/

set_option autoImplicit false

namespace MassBFT.RoundRobin

open List

variable {α β : Type}

/-- What worker `w` of `n` takes: `for (i = w; i < size; i += n)`. -/
def scatter (n w : Nat) (l : List α) : List α :=
  (List.range l.length).filterMap fun j => l[w + j * n]?

/-- The positions take back what the workers have. -/
def gather (n size : Nat) (parts : Nat → List α) : List α :=
  (List.range size).filterMap fun i => (parts (i % n))[i / n]?

/-- `gather` for a family of workers. -/
def collect (n size : Nat) (outs : Fin n → List α) : List α :=
  gather n size fun i => if hi : i < n then outs ⟨i, hi⟩ else []

/-- A loop that collects values up to the first missing one. -/
theorem getElem?_filterMap_range (L : Nat) (f : Nat → Option α) (hstop : f L = none)
    (hmono : ∀ j, f j = none → f (j + 1) = none) (j : Nat) :
    ((List.range L).filterMap f)[j]? = f j := by
  induction L generalizing f j with
  | zero =>
    have hnone : ∀ i, f i = none := fun i => by
      induction i with
      | zero => exact hstop
      | succ i ih => exact hmono i ih
    simp [hnone]
  | succ L ih =>
    have hsucc := ih (fun i => f (i + 1)) hstop fun i hi => hmono (i + 1) hi
    rw [range_succ_eq_map, filterMap_cons, filterMap_map]
    cases h0 : f 0 with
    | none =>
      have hnone : ∀ i, f i = none := fun i => by
        induction i with
        | zero => exact h0
        | succ i ih => exact hmono i ih
      simp [hnone]
    | some x =>
      cases j with
      | zero => simp [h0]
      | succ j => simpa using hsucc j

variable {n w : Nat} {l : List α} {R : α → β → Prop}

theorem getElem?_scatter (hn : 1 ≤ n) (j : Nat) : (scatter n w l)[j]? = l[w + j * n]? := by
  apply getElem?_filterMap_range
  · have := Nat.mul_le_mul_left l.length hn
    rw [getElem?_eq_none_iff]
    omega
  · intro i hi
    rw [getElem?_eq_none_iff] at hi ⊢
    rw [Nat.add_mul]
    omega

/-- What worker `w` takes first. -/
theorem scatter_eq_cons (hn : 1 ≤ n) {a : α} (h : l[w]? = some a) :
    ∃ rest, scatter n w l = a :: rest := by
  have hfirst := @getElem?_scatter _ n w l hn 0
  rw [Nat.zero_mul, Nat.add_zero, h] at hfirst
  cases hl : scatter n w l with
  | nil =>
    rw [hl] at hfirst
    cases hfirst
  | cons b rest =>
    rw [hl, getElem?_cons_zero] at hfirst
    cases hfirst
    exact ⟨rest, rfl⟩

/-- Every entry is with some worker. -/
theorem mem_scatter (hn : 1 ≤ n) {a : α} : (∃ w : Fin n, a ∈ scatter n w l) ↔ a ∈ l := by
  simp only [mem_iff_getElem?, getElem?_scatter hn]
  constructor
  · rintro ⟨w, j, h⟩
    exact ⟨_, h⟩
  · rintro ⟨i, h⟩
    refine ⟨⟨i % n, Nat.mod_lt i hn⟩, i / n, ?_⟩
    rwa [Nat.mod_add_div']

theorem nodup_scatter (hn : 1 ≤ n) (hl : l.Nodup) : (scatter n w l).Nodup := by
  rw [nodup_iff_getElem?_ne_getElem?] at hl ⊢
  intro i j hij hj
  have hj' : w + j * n < l.length := by
    have hget := @getElem?_scatter _ n w l hn j
    rw [getElem?_eq_getElem hj] at hget
    exact (List.getElem?_eq_some_iff.mp hget.symm).1
  have hlt : i * n < j * n := Nat.mul_lt_mul_of_pos_right hij hn
  rw [getElem?_scatter hn, getElem?_scatter hn]
  exact hl _ _ (by omega) hj'

/-- Two workers share no entry of a list without repetitions. -/
theorem scatter_unique (hn : 1 ≤ n) (hl : l.Nodup) {w w' : Fin n} {a : α}
    (h : a ∈ scatter n w l) (h' : a ∈ scatter n w' l) : w = w' := by
  rw [mem_iff_getElem?] at h h'
  obtain ⟨j, hj⟩ := h
  obtain ⟨j', hj'⟩ := h'
  rw [getElem?_scatter hn] at hj hj'
  obtain ⟨hlt, he⟩ := List.getElem?_eq_some_iff.mp hj
  obtain ⟨hlt', he'⟩ := List.getElem?_eq_some_iff.mp hj'
  have hidx : (w : Nat) + j * n = w' + j' * n := (hl.getElem_inj_iff).mp (he.trans he'.symm)
  have hmod := congrArg (· % n) hidx
  simp only [Nat.add_mul_mod_self_right, Nat.mod_eq_of_lt w.isLt, Nat.mod_eq_of_lt w'.isLt] at hmod
  exact Fin.ext hmod

theorem scatter_map (g : α → β) : scatter n w (l.map g) = (scatter n w l).map g := by
  simp only [scatter, length_map, getElem?_map, map_filterMap]

/-- What a position takes back, if no worker has lost an entry. -/
theorem getElem?_gather (hn : 1 ≤ n) {parts : Nat → List β}
    (hlen : ∀ w, w < n → (parts w).length = (scatter n w l).length) (i : Nat) :
    (gather n l.length parts)[i]? = (parts (i % n))[i / n]? := by
  have hnone : ∀ j, (parts (j % n))[j / n]? = none ↔ l.length ≤ j := by
    intro j
    rw [getElem?_eq_none_iff, hlen _ (Nat.mod_lt j hn), ← getElem?_eq_none_iff,
      getElem?_scatter hn, Nat.mod_add_div', getElem?_eq_none_iff]
  apply getElem?_filterMap_range
  · exact (hnone _).mpr (le_refl _)
  · intro j hj
    exact (hnone _).mpr (Nat.le_succ_of_le ((hnone _).mp hj))

/-- **Every entry comes back to its position.** -/
theorem gather_scatter (hn : 1 ≤ n) (g : α → β) :
    gather n l.length (fun w => (scatter n w l).map g) = l.map g := by
  apply ext_getElem?
  intro i
  rw [getElem?_gather hn fun w _ => length_map g, getElem?_map, getElem?_scatter hn,
    Nat.mod_add_div', getElem?_map]

theorem getElem?_collect {outs : Fin n → List β}
    (hlen : ∀ w, (outs w).length = (scatter n w l).length) {i : Nat} (hi : i < n) :
    (collect n l.length outs)[i]? = (outs ⟨i, hi⟩)[0]? := by
  have hlen' : ∀ w, w < n → (if hw : w < n then outs ⟨w, hw⟩ else []).length =
      (scatter n w l).length := by
    intro w hw
    rw [dif_pos hw]
    exact hlen ⟨w, hw⟩
  rw [collect, getElem?_gather (Nat.one_le_of_lt hi) hlen', Nat.mod_eq_of_lt hi,
    Nat.div_eq_of_lt hi, dif_pos hi]

/-- Lists that are related position by position. -/
theorem forall₂_iff_getElem? {l : List α} {l' : List β} :
    List.Forall₂ R l l' ↔ ∀ i : Nat, Option.Rel R l[i]? l'[i]? := by
  induction l generalizing l' with
  | nil =>
    cases l' with
    | nil => exact ⟨fun _ _ => .none, fun _ => .nil⟩
    | cons b l' => exact ⟨nofun, fun h => nomatch h 0⟩
  | cons a l ih =>
    cases l' with
    | nil => exact ⟨nofun, fun h => nomatch h 0⟩
    | cons b l' =>
      rw [List.forall₂_cons, ih]
      constructor
      · rintro ⟨hab, hl⟩ i
        cases i with
        | zero => exact .some hab
        | succ i => exact hl i
      · intro h
        refine ⟨?_, fun i => h (i + 1)⟩
        cases h 0 with
        | some hab => exact hab

/-- What an entry is related to, in either direction. -/
theorem exists_right_of_forall₂ {l : List α} {l' : List β}
    (h : List.Forall₂ R l l') {i : Nat} {a : α} (ha : l[i]? = some a) :
    ∃ b, l'[i]? = some b ∧ R a b := by
  have hi := forall₂_iff_getElem?.mp h i
  rw [ha] at hi
  generalize l'[i]? = right at hi
  cases hi with
  | some hab => exact ⟨_, rfl, hab⟩

theorem exists_left_of_forall₂ {l : List α} {l' : List β}
    (h : List.Forall₂ R l l') {i : Nat} {b : β} (hb : l'[i]? = some b) :
    ∃ a, l[i]? = some a ∧ R a b :=
  exists_right_of_forall₂ h.flip hb

/-- **What holds between the entries and what the workers make of them holds at every position
afterwards.** -/
theorem forall₂_collect (hn : 1 ≤ n) {outs : Fin n → List β}
    (h : ∀ w : Fin n, List.Forall₂ R (scatter n w l) (outs w)) :
    List.Forall₂ R l (collect n l.length outs) := by
  have hlen : ∀ w, w < n → (if hw : w < n then outs ⟨w, hw⟩ else []).length =
      (scatter n w l).length := by
    intro w hw
    rw [dif_pos hw]
    exact (h ⟨w, hw⟩).length_eq.symm
  rw [forall₂_iff_getElem?]
  intro i
  have hi := forall₂_iff_getElem?.mp (h ⟨i % n, Nat.mod_lt i hn⟩) (i / n)
  rw [getElem?_scatter hn, Nat.mod_add_div'] at hi
  rw [collect, getElem?_gather hn hlen, dif_pos (Nat.mod_lt i hn)]
  exact hi

theorem collect_scatter (hn : 1 ≤ n) (g : α → β) :
    collect n l.length (fun w : Fin n => (scatter n w l).map g) = l.map g := by
  have h : List.Forall₂ (fun a b => g a = b) l
      (collect n l.length fun w : Fin n => (scatter n w l).map g) :=
    forall₂_collect hn fun w => List.forall₂_map_left_iff.mp (List.forall₂_refl _)
  have hmap := List.forall₂_map_left_iff.mpr h
  rw [List.forall₂_eq_eq_eq] at hmap
  exact hmap.symm

/-- All that is dealt out is the list. -/
theorem flatten_scatter_perm (hn : 1 ≤ n) (l : List α) :
    (List.ofFn fun w : Fin n => scatter n w l).flatten.Perm l := by
  -- positions are distinct, so it is enough that every position is dealt out, and only once
  have hpositions : (List.ofFn fun w : Fin n =>
      scatter n w (List.finRange l.length)).flatten.Perm (List.finRange l.length) := by
    have hnodup := nodup_finRange l.length
    refine (perm_ext_iff_of_nodup ?_ hnodup).mpr fun i => ?_
    · rw [nodup_flatten]
      constructor
      · intro part hpart
        obtain ⟨w, rfl⟩ := mem_ofFn.mp hpart
        exact nodup_scatter hn hnodup
      · rw [pairwise_ofFn]
        intro w w' hlt i hi hi'
        exact absurd (scatter_unique hn hnodup hi hi') (Fin.ne_of_lt hlt)
    · rw [mem_flatten, ← @mem_scatter _ n (List.finRange l.length) hn]
      constructor
      · rintro ⟨part, hpart, hi⟩
        obtain ⟨w, rfl⟩ := mem_ofFn.mp hpart
        exact ⟨w, hi⟩
      · rintro ⟨w, hi⟩
        exact ⟨_, mem_ofFn.mpr ⟨w, rfl⟩, hi⟩
  have hget : (List.finRange l.length).map l.get = l := map_get_finRange l
  have hmap := hpositions.map l.get
  rw [hget, map_flatten, map_ofFn] at hmap
  have hparts : (List.map l.get ∘ fun w : Fin n => scatter n w (List.finRange l.length)) =
      fun w : Fin n => scatter n w l := by
    funext w
    rw [Function.comp_apply, ← scatter_map, hget]
  rwa [hparts] at hmap

end MassBFT.RoundRobin
