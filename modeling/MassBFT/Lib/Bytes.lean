import Mathlib.Tactic.Common
import Mathlib.Tactic.Ring
import Mathlib.Tactic.Linarith

/-!
# Byte strings

Byte strings as lists, the comparison of two equally long ones by their first
difference, and the number that such a string spells in base 256. **On strings of
one length the comparison is the order of those numbers**, which is all that a
proof about a comparison of digests needs.
-/

set_option autoImplicit false

namespace MassBFT

/-- A string of bytes. -/
abbrev Bytes := List UInt8

/-- `memcmp`: negative, zero or positive as the first differing byte decides. -/
def memcmp : Bytes → Bytes → Int
  | a :: as, b :: bs => if a < b then -1 else if b < a then 1 else memcmp as bs
  | _, _ => 0

/-- The number a byte string spells, most significant byte first. -/
def bigEndian : Bytes → Nat
  | [] => 0
  | a :: as => a.toNat * 256 ^ as.length + bigEndian as

theorem bigEndian_lt (as : Bytes) : bigEndian as < 256 ^ as.length := by
  induction as with
  | nil => simp [bigEndian]
  | cons a as ih =>
    have ha : a.toNat + 1 ≤ 256 := a.toNat_lt
    have := Nat.mul_le_mul_right (256 ^ as.length) ha
    rw [bigEndian, List.length_cons, pow_succ]
    linarith

/-- A smaller leading byte makes a smaller number, whatever follows. -/
theorem bigEndian_cons_lt {a b : UInt8} {as bs : Bytes} (hl : as.length = bs.length) (h : a < b) :
    bigEndian (a :: as) < bigEndian (b :: bs) := by
  have hab : a.toNat + 1 ≤ b.toNat := UInt8.lt_iff_toNat_lt.mp h
  have hmul := Nat.mul_le_mul_right (256 ^ as.length) hab
  have has := bigEndian_lt as
  rw [bigEndian, bigEndian, ← hl]
  linarith

theorem memcmp_spec {as bs : Bytes} (hl : as.length = bs.length) :
    (memcmp as bs < 0 ↔ bigEndian as < bigEndian bs) ∧
    (memcmp as bs = 0 ↔ as = bs) ∧ (as = bs ↔ bigEndian as = bigEndian bs) := by
  induction as generalizing bs with
  | nil =>
    obtain rfl : bs = [] := List.length_eq_zero_iff.mp hl.symm
    simp [memcmp]
  | cons a as ih =>
    obtain _ | ⟨b, bs⟩ := bs
    · cases hl
    have hl' : as.length = bs.length := Nat.succ.inj hl
    obtain ⟨hlt, hzero, heq⟩ := ih hl'
    rcases Nat.lt_trichotomy a.toNat b.toNat with hab | hab | hab
    · -- the first byte decides, downwards
      have hlt' : a < b := UInt8.lt_iff_toNat_lt.mpr hab
      have hnum := bigEndian_cons_lt hl' hlt'
      have hne : a ≠ b := fun h => by simp [h] at hab
      simp [memcmp, hlt', hnum, hne, hnum.ne]
    · obtain rfl : a = b := UInt8.toNat_inj.mp hab
      simp [memcmp, bigEndian, hl', hlt, hzero, heq]
    · have hgt : b < a := UInt8.lt_iff_toNat_lt.mpr hab
      have hnum := bigEndian_cons_lt hl'.symm hgt
      have hne : a ≠ b := fun h => by simp [h] at hab
      have hnlt : ¬ a < b := fun h => by
        have := UInt8.lt_iff_toNat_lt.mp h
        omega
      simp [memcmp, hgt, hnlt, hnum.le, hne, hnum.ne']

/-! ## Strings of 64 bytes -/

theorem length_zeros : (List.replicate 64 0 : Bytes).length = 64 := rfl

theorem length_zeros_concat (x : UInt8) : (List.replicate 63 0 ++ [x] : Bytes).length = 64 := rfl

end MassBFT
