import Mathlib.Tactic.Common

/-!
# Writing into a buffer

A buffer is a list, and a writer puts a string into it at a position: what it writes stands
there, every other entry stays, and the buffer grows where it is too short and is never cut
(`Overwrites`). What the writer fills a gap behind the end with is left open.

`Spells` says that a string stands in a buffer at a position. **A string survives every write
that does not touch its extent**, whether the write is in front of it or behind it, so a buffer
of several sections is followed section by section.
-/

set_option autoImplicit false

namespace MassBFT

open List

variable {α : Type}

/-- The string `as` stands in the buffer at `pos`, whatever follows. -/
def Spells (buf : List α) (pos : Nat) (as : List α) : Prop :=
  ∀ i, i < as.length → buf[pos + i]? = as[i]?

/-- Writing at a position overwrites, grows the buffer when needed and never truncates it. -/
structure Overwrites (write : List α → Nat → List α → List α) : Prop where
  length : ∀ buf pos as, (write buf pos as).length = max buf.length (pos + as.length)
  written : ∀ buf pos as i, i < as.length → (write buf pos as)[pos + i]? = as[i]?
  kept : ∀ buf pos as i, i < buf.length → i < pos ∨ pos + as.length ≤ i →
    (write buf pos as)[i]? = buf[i]?

namespace Spells

variable {buf as bs : List α} {pos : Nat}

/-- One string after another. -/
theorem append_iff :
    Spells buf pos (as ++ bs) ↔ Spells buf pos as ∧ Spells buf (pos + as.length) bs := by
  refine ⟨fun h => ⟨fun i hi => ?_, fun i hi => ?_⟩, fun ⟨has, hbs⟩ i hi => ?_⟩
  · rw [h i (by simp; omega), getElem?_append_left hi]
  · have hread := h (as.length + i) (by simp; omega)
    rw [getElem?_append_right (by omega), Nat.add_sub_cancel_left] at hread
    rw [Nat.add_assoc, hread]
  · by_cases hleft : i < as.length
    · rw [has i hleft, getElem?_append_left hleft]
    · have hread := hbs (i - as.length) (by simp at hi; omega)
      have hindex : pos + as.length + (i - as.length) = pos + i := by omega
      rw [hindex] at hread
      rw [hread, getElem?_append_right (by omega)]

/-- A string that stands in a buffer ends inside it. -/
theorem lt_length (h : Spells buf pos as) {i : Nat} (hi : i < as.length) :
    pos + i < buf.length := by
  have hread := h i hi
  rw [getElem?_eq_getElem hi] at hread
  exact (List.getElem?_eq_some_iff.mp hread).1

/-- What a reader sees from the position on. -/
theorem drop_eq (h : Spells buf pos as) : buf.drop pos = as ++ buf.drop (pos + as.length) := by
  apply ext_getElem?
  intro i
  rw [getElem?_drop]
  by_cases hi : i < as.length
  · rw [h i hi, getElem?_append_left hi]
  · have hindex : pos + as.length + (i - as.length) = pos + i := by omega
    rw [getElem?_append_right (by omega), getElem?_drop, hindex]

end Spells

namespace Overwrites

variable {write : List α → Nat → List α → List α} {buf as bs : List α} {pos at' : Nat}

theorem spells (h : Overwrites write) (buf : List α) (pos : Nat) (as : List α) :
    Spells (write buf pos as) pos as :=
  h.written buf pos as

/-- A write behind a string leaves it alone. -/
theorem spells_before (h : Overwrites write) (has : Spells buf pos as)
    (hbehind : pos + as.length ≤ at') : Spells (write buf at' bs) pos as := by
  intro i hi
  rw [h.kept buf at' bs (pos + i) (has.lt_length hi) (Or.inl (by omega)), has i hi]

/-- A write that ends in front of a string leaves it alone. -/
theorem spells_behind (h : Overwrites write) (has : Spells buf pos as)
    (hfront : at' + bs.length ≤ pos) : Spells (write buf at' bs) pos as := by
  intro i hi
  rw [h.kept buf at' bs (pos + i) (has.lt_length hi) (Or.inr (by omega)), has i hi]

/-- What stands at the front of a buffer and fills it is the buffer. -/
theorem eq_of_spells (has : Spells buf 0 as) (hlen : buf.length = as.length) : buf = as := by
  have hdrop := has.drop_eq
  rw [Nat.zero_add, ← hlen, drop_length, append_nil, drop_zero] at hdrop
  exact hdrop

end Overwrites

/-! ## A writer -/

/-- Fills a gap behind the end of the buffer with a given value. -/
def writeOver (fill : α) (buf : List α) (pos : Nat) (as : List α) : List α :=
  buf.take pos ++ List.replicate (pos - buf.length) fill ++ as ++ buf.drop (pos + as.length)

theorem length_writeOver_front (fill : α) (buf : List α) (pos : Nat) :
    (buf.take pos ++ List.replicate (pos - buf.length) fill).length = pos := by
  simp only [length_append, length_take, length_replicate]
  omega

theorem overwrites_writeOver (fill : α) : Overwrites (writeOver fill) where
  length buf pos as := by
    rw [writeOver, length_append, length_append, length_writeOver_front, length_drop]
    omega
  written buf pos as i hi := by
    have hfront := length_writeOver_front fill buf pos
    rw [writeOver, getElem?_append_left (by rw [length_append]; omega),
      getElem?_append_right (by omega), hfront, Nat.add_sub_cancel_left]
  kept buf pos as i hi h := by
    have hfront := length_writeOver_front fill buf pos
    rw [writeOver]
    rcases h with hlt | hle
    · rw [append_assoc, getElem?_append_left (by omega),
        getElem?_append_left (by rw [length_take]; omega), getElem?_take, if_pos hlt]
    · rw [getElem?_append_right (by rw [length_append]; omega), getElem?_drop,
        length_append, hfront]
      congr 1
      omega

end MassBFT
