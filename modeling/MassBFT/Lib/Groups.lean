import Mathlib.Data.List.Perm.Basic
import Mathlib.Data.List.Nodup
import Mathlib.Tactic.Common

/-!
# A map from keys to lists

`m[k].push_back(x)`, with the map as the list of its entries. `Groups m es` says what such a map is
after `es` has been put into it: every key has one entry, and its list has the values that came with
that key, in some order. So the lists may be sorted, and the entries be gone through in any order.
-/

set_option autoImplicit false

namespace MassBFT

open List

variable {κ ι : Type} [DecidableEq κ]

/-- `m[k].push_back(x)` -/
def pushBack (k : κ) (x : ι) : List (κ × List ι) → List (κ × List ι)
  | [] => [(k, [x])]
  | (k', l) :: m => if k' = k then (k', l ++ [x]) :: m else (k', l) :: pushBack k x m

/-- The values that came with a key. -/
def valuesOf (k : κ) (es : List (κ × ι)) : List ι :=
  es.filterMap fun e => if e.1 = k then some e.2 else none

theorem mem_valuesOf {k : κ} {x : ι} {es : List (κ × ι)} : x ∈ valuesOf k es ↔ (k, x) ∈ es := by
  simp only [valuesOf, mem_filterMap, Prod.exists, Option.ite_none_right_eq_some, Option.some.injEq]
  constructor
  · rintro ⟨k', x', hmem, rfl, rfl⟩
    exact hmem
  · intro hmem
    exact ⟨k, x, hmem, rfl, rfl⟩

/-- The map has what was put into it. -/
structure Groups (m : List (κ × List ι)) (es : List (κ × ι)) : Prop where
  nodup : (m.map Prod.fst).Nodup
  perm : ∀ k l, (k, l) ∈ m → l.Perm (valuesOf k es)
  ne_nil : ∀ k l, (k, l) ∈ m → l ≠ []
  mem_keys : ∀ k x, (k, x) ∈ es → k ∈ m.map Prod.fst

namespace Groups

variable {m m' : List (κ × List ι)} {es : List (κ × ι)}

theorem nil : Groups ([] : List (κ × List ι)) ([] : List (κ × ι)) := by
  constructor <;> simp

/-- A key has an entry if something came with it. -/
theorem exists_iff (h : Groups m es) {k : κ} : (∃ l, (k, l) ∈ m) ↔ valuesOf k es ≠ [] := by
  constructor
  · rintro ⟨l, hl⟩ hnil
    have hperm := h.perm k l hl
    rw [hnil] at hperm
    exact h.ne_nil k l hl hperm.eq_nil
  · intro hne
    obtain ⟨x, hx⟩ := exists_mem_of_ne_nil _ hne
    have hkey := h.mem_keys k x (mem_valuesOf.mp hx)
    simpa using hkey

/-- Another order of the entries. -/
theorem of_perm (h : Groups m es) (hm : m'.Perm m) : Groups m' es where
  nodup := (hm.map Prod.fst).nodup_iff.mpr h.nodup
  perm k l hl := h.perm k l (hm.mem_iff.mp hl)
  ne_nil k l hl := h.ne_nil k l (hm.mem_iff.mp hl)
  mem_keys k x hx := (hm.map Prod.fst).mem_iff.mpr (h.mem_keys k x hx)

/-- Another order of the lists. -/
theorem map_lists (h : Groups m es) {f : List ι → List ι} (hf : ∀ l, (f l).Perm l) :
    Groups (m.map fun e => (e.1, f e.2)) es := by
  have hmem : ∀ {k l}, (k, l) ∈ m.map (fun e => (e.1, f e.2)) → ∃ l', (k, l') ∈ m ∧ f l' = l := by
    intro k l hl
    obtain ⟨⟨k', l'⟩, hmem, heq⟩ := mem_map.mp hl
    cases heq
    exact ⟨l', hmem, rfl⟩
  have hkeys : (m.map fun e => (e.1, f e.2)).map Prod.fst = m.map Prod.fst := by
    simp [Function.comp_def]
  refine ⟨by rw [hkeys]; exact h.nodup, fun k l hl => ?_, fun k l hl => ?_, fun k x hx => ?_⟩
  · obtain ⟨l', hl', rfl⟩ := hmem hl
    exact (hf l').trans (h.perm k l' hl')
  · obtain ⟨l', hl', rfl⟩ := hmem hl
    intro hnil
    have hperm := hf l'
    rw [hnil] at hperm
    exact h.ne_nil k l' hl' hperm.nil_eq.symm
  · rw [hkeys]
    exact h.mem_keys k x hx

end Groups

/-! ## Putting in one more -/

theorem keys_pushBack (k : κ) (x : ι) (m : List (κ × List ι)) :
    (pushBack k x m).map Prod.fst =
      if k ∈ m.map Prod.fst then m.map Prod.fst else m.map Prod.fst ++ [k] := by
  induction m with
  | nil => simp [pushBack]
  | cons e m ih =>
    obtain ⟨k', l⟩ := e
    by_cases hk : k' = k
    · simp [pushBack, hk]
    · rw [pushBack, if_neg hk, map_cons, ih]
      have hk' : k ≠ k' := fun h => hk h.symm
      by_cases hmem : k ∈ m.map Prod.fst <;> simp [hk', hmem]

/-- The entry of the key gets the value, the others stay. -/
theorem mem_pushBack {k k' : κ} {x : ι} {l : List ι} {m : List (κ × List ι)}
    (hnodup : (m.map Prod.fst).Nodup) (h : (k', l) ∈ pushBack k x m) :
    (k' ≠ k ∧ (k', l) ∈ m) ∨ (k' = k ∧ ∃ l', l = l' ++ [x] ∧ ((k, l') ∈ m ∨
      (l' = [] ∧ k ∉ m.map Prod.fst))) := by
  induction m with
  | nil =>
    simp only [pushBack, mem_singleton, Prod.mk.injEq] at h
    obtain ⟨rfl, rfl⟩ := h
    exact .inr ⟨rfl, [], rfl, .inr ⟨rfl, by simp⟩⟩
  | cons e m ih =>
    obtain ⟨k₀, l₀⟩ := e
    rw [map_cons, nodup_cons] at hnodup
    obtain ⟨hnot, hnodup⟩ := hnodup
    by_cases hk : k₀ = k
    · subst hk
      rw [pushBack, if_pos rfl, mem_cons] at h
      rcases h with heq | hmem
      · cases heq
        exact .inr ⟨rfl, l₀, rfl, .inl (mem_cons_self ..)⟩
      · -- the key is in the entry at hand, so it is in none of the others
        refine .inl ⟨?_, mem_cons_of_mem _ hmem⟩
        rintro rfl
        exact hnot (mem_map.mpr ⟨_, hmem, rfl⟩)
    · rw [pushBack, if_neg hk, mem_cons] at h
      rcases h with heq | hmem
      · cases heq
        exact .inl ⟨hk, mem_cons_self ..⟩
      · rcases ih hnodup hmem with ⟨hne, hm⟩ | ⟨heq, l', hl, hm | ⟨hnil, hm⟩⟩
        · exact .inl ⟨hne, mem_cons_of_mem _ hm⟩
        · exact .inr ⟨heq, l', hl, .inl (mem_cons_of_mem _ hm)⟩
        · refine .inr ⟨heq, l', hl, .inr ⟨hnil, ?_⟩⟩
          rw [map_cons, mem_cons]
          rintro (h | h)
          · exact hk h.symm
          · exact hm h

theorem Groups.pushBack {m : List (κ × List ι)} {es : List (κ × ι)} (h : Groups m es) (k : κ)
    (x : ι) : Groups (pushBack k x m) (es ++ [(k, x)]) := by
  have hother : ∀ {k'}, k' ≠ k → valuesOf k' (es ++ [(k, x)]) = valuesOf k' es := by
    intro k' hk
    simp [valuesOf, Ne.symm hk]
  have hsame : valuesOf k (es ++ [(k, x)]) = valuesOf k es ++ [x] := by
    simp [valuesOf]
  refine ⟨?_, fun k' l hl => ?_, fun k' l hl => ?_, fun k' x' hx => ?_⟩
  · rw [keys_pushBack]
    split_ifs with hmem
    · exact h.nodup
    · exact nodup_append.mpr ⟨h.nodup, nodup_singleton k, fun a ha b hb hab => by
        rw [mem_singleton.mp hb] at hab
        exact hmem (hab ▸ ha)⟩
  · rcases mem_pushBack h.nodup hl with ⟨hk, hm⟩ | ⟨rfl, l', rfl, hm | ⟨rfl, hm⟩⟩
    · rw [hother hk]
      exact h.perm k' l hm
    · rw [hsame]
      exact (h.perm k' l' hm).append_right [x]
    · -- nothing had come with the key
      have hnil : valuesOf k' es = [] := by
        by_contra hne
        obtain ⟨l, hl⟩ := h.exists_iff.mpr hne
        exact hm (mem_map.mpr ⟨_, hl, rfl⟩)
      rw [hsame, hnil]
  · rcases mem_pushBack h.nodup hl with ⟨-, hm⟩ | ⟨-, l', rfl, -⟩
    · exact h.ne_nil k' l hm
    · exact append_ne_nil_of_right_ne_nil _ (cons_ne_nil x [])
  · rw [keys_pushBack]
    rcases mem_append.mp hx with hold | hnew
    · have hkey := h.mem_keys k' x' hold
      split_ifs
      · exact hkey
      · exact mem_append_left _ hkey
    · cases mem_singleton.mp hnew
      split_ifs with hmem
      · exact hmem
      · exact mem_append_right _ (mem_singleton.mpr rfl)

end MassBFT
