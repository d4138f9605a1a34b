import Mathlib.Data.Finset.Card
import Mathlib.Data.Finset.Range
import Mathlib.Order.Interval.Finset.Nat
import Mathlib.Order.Bounds.Basic

/-!
# The acknowledged counter

`AcknowledgedCounterGenerator` hands out numbers and reports the last one up to which all have
been acknowledged. Acknowledgements that come early are kept as flags in a circular window of
`2 ^ 20` slots; each call moves the contiguous ones over to `limit`.

The loop that does so runs on a 64-bit index and ends at a slot that is not set, which happens
after one round at the latest, because every slot it passes is cleared. It also ends when the
index *itself*, not its slot, equals the slot before the first one. For an index behind `limit`
that is impossible, unless `limit` is the number before 0: **a counter that starts at 0 stops
one slot early if 0 is acknowledged after all of the others in the window**, and nowhere else
(`acknowledge_reports_iff`).
-/

set_option autoImplicit false

namespace MassBFT.Client

open Function List

/-- `AcknowledgedCounterGenerator::WINDOW_SIZE` -/
def windowSize : Nat := 2 ^ 20

structure AcknowledgedCounterGenerator where
  window : Nat → Bool
  limit : Nat

namespace AcknowledgedCounterGenerator

/-- The constructor: `limit` is the number before the first one, in `uint64_t`. -/
def newAcknowledgedCounterGenerator (startWith : Nat) : AcknowledgedCounterGenerator where
  window _ := false
  limit := (startWith + (2 ^ 64 - 1)) % 2 ^ 64

def lastValue (g : AcknowledgedCounterGenerator) : Nat := g.limit

/-- The slots whose flag is set. -/
def pending (window : Nat → Bool) : Finset Nat :=
  (Finset.range windowSize).filter fun slot => window slot = true

/-- To clear a flag that is set leaves fewer of them. -/
theorem card_pending_update {window : Nat → Bool} {slot : Nat} (hslot : slot < windowSize)
    (hset : window slot = true) :
    (pending (update window slot false)).card < (pending window).card := by
  apply Finset.card_lt_card
  rw [Finset.ssubset_iff_of_subset]
  · refine ⟨slot, ?_, ?_⟩
    · exact Finset.mem_filter.mpr ⟨Finset.mem_range.mpr hslot, hset⟩
    · simp [pending]
  · intro i hi
    obtain ⟨hrange, hflag⟩ := Finset.mem_filter.mp hi
    refine Finset.mem_filter.mpr ⟨hrange, ?_⟩
    by_cases h : i = slot
    · rw [h]
      exact hset
    · rwa [update_of_ne h] at hflag

theorem mod_windowSize_lt (index : Nat) : index % windowSize < windowSize :=
  Nat.mod_lt _ (by decide)

/-- The loop of `acknowledge`: the window and the index that it leaves. -/
def scan (beforeFirstSlot : Nat) (window : Nat → Bool) (index : Nat) : (Nat → Bool) × Nat :=
  if index = beforeFirstSlot then (window, index)
  else
    if h : window (index % windowSize) = true then
      scan beforeFirstSlot (update window (index % windowSize) false) ((index + 1) % 2 ^ 64)
    else (window, index)
termination_by (pending window).card
decreasing_by exact card_pending_update (mod_windowSize_lt index) h

/-- `acknowledge`; `none` is the exception of a slot that is still taken. -/
def acknowledge (g : AcknowledgedCounterGenerator) (value : Int) :
    Option AcknowledgedCounterGenerator :=
  let currentSlot := (value % windowSize).toNat
  if g.window currentSlot then none
  else
    let beforeFirstSlot := g.limit % windowSize
    let left := scan beforeFirstSlot (update g.window currentSlot true) ((g.limit + 1) % 2 ^ 64)
    some { window := left.1, limit := (left.2 + (2 ^ 64 - 1)) % 2 ^ 64 }

/-- One call after another. -/
def acknowledgeAll (g : AcknowledgedCounterGenerator) :
    List Nat → Option AcknowledgedCounterGenerator
  | [] => some g
  | value :: rest => (g.acknowledge value).bind fun g => g.acknowledgeAll rest

/-! ## What the calls are about -/

/-- The first number from `s` on that has not been acknowledged. -/
def FirstMissing (s : Nat) (acked : List Nat) (m : Nat) : Prop := IsLeast {u | s ≤ u ∧ u ∉ acked} m

/-- Distinct numbers from `s` on that an `int` can hold, each of them less than a window above the
first one that is missing when it comes. -/
structure Admissible (s : Nat) (values : List Nat) : Prop where
  distinct : values.Nodup
  fits : ∀ v ∈ values, s ≤ v ∧ v < 2 ^ 31
  inWindow : ∀ (i v m : Nat), values[i]? = some v → FirstMissing s (values.take i) m →
    v < m + windowSize

/-- The counter reports the numbers that have been acknowledged without a gap. -/
structure Reports (s : Nat) (acked : List Nat) (last : Nat) : Prop where
  acknowledged : s ∈ acked → IsGreatest {l | s ≤ l ∧ ∀ u, s ≤ u → u ≤ l → u ∈ acked} last
  nothing : s ∉ acked → last = (s + (2 ^ 64 - 1)) % 2 ^ 64

/-! ## The loop -/

/-- The flags that are set are those of the acknowledged numbers from `index` on. -/
def Flags (window : Nat → Bool) (acked : List Nat) (index : Nat) : Prop :=
  ∀ slot, window slot = true ↔ ∃ v ∈ acked, index ≤ v ∧ v % windowSize = slot

section

variable {window : Nat → Bool} {acked : List Nat} {index : Nat}

/-- A slot of the window stands for one number. -/
theorem eq_of_mod_eq {u v m : Nat} (hu : m ≤ u) (hv : m ≤ v) (hu' : u < m + windowSize)
    (hv' : v < m + windowSize) (h : u % windowSize = v % windowSize) : u = v := by
  unfold windowSize at *
  omega

section

variable (h : Flags window acked index) (hbound : ∀ v ∈ acked, v < index + windowSize)
include h hbound

/-- The flag of the number at the index. -/
theorem Flags.at_index :
    window (index % windowSize) = true ↔ index ∈ acked := by
  rw [h]
  constructor
  · rintro ⟨v, hv, hle, hmod⟩
    have hpos : index < index + windowSize := Nat.lt_add_of_pos_right (by decide)
    rwa [eq_of_mod_eq hle (le_refl index) (hbound v hv) hpos hmod] at hv
  · intro hmem
    exact ⟨index, hmem, le_refl index, rfl⟩

/-- The flag of the number at the index is cleared. -/
theorem Flags.clear :
    Flags (update window (index % windowSize) false) acked (index + 1) := by
  intro slot
  by_cases hslot : slot = index % windowSize
  · subst hslot
    rw [update_self]
    constructor
    · intro hfalse
      cases hfalse
    · rintro ⟨v, hv, hle, hmod⟩
      have hpos : index < index + windowSize := Nat.lt_add_of_pos_right (by decide)
      have heq := eq_of_mod_eq (Nat.le_of_succ_le hle) (le_refl index) (hbound v hv) hpos hmod
      omega
  · rw [update_of_ne hslot, h]
    constructor
    · rintro ⟨v, hv, hle, hmod⟩
      refine ⟨v, hv, Nat.lt_of_le_of_ne hle ?_, hmod⟩
      rintro rfl
      exact hslot hmod.symm
    · rintro ⟨v, hv, hle, hmod⟩
      exact ⟨v, hv, Nat.le_of_succ_le hle, hmod⟩

/-- **What the loop leaves**: it has passed acknowledged numbers only, none of them the one to stop
at, and has stopped there or at the first number that is missing. -/
theorem scan_spec (beforeFirstSlot : Nat) (hfits : ∀ v ∈ acked, v < 2 ^ 31)
    {left : (Nat → Bool) × Nat} (hleft : left = scan beforeFirstSlot window index) :
    Flags left.1 acked left.2 ∧ index ≤ left.2 ∧
      (∀ u, index ≤ u → u < left.2 → u ∈ acked ∧ u ≠ beforeFirstSlot) ∧
      (left.2 = beforeFirstSlot ∨ left.2 ∉ acked) := by
  induction hcard : (pending window).card using Nat.strong_induction_on
    generalizing window index with
  | _ card ih =>
    rw [scan] at hleft
    by_cases hstop : index = beforeFirstSlot
    · rw [if_pos hstop] at hleft
      subst hleft
      exact ⟨h, le_refl index, fun u hle hlt => absurd hle (Nat.not_le.mpr hlt), .inl hstop⟩
    rw [if_neg hstop] at hleft
    by_cases hflag : window (index % windowSize) = true
    · rw [dif_pos hflag] at hleft
      have hmem := (h.at_index hbound).mp hflag
      have hnext : (index + 1) % 2 ^ 64 = index + 1 := by
        have := hfits index hmem
        omega
      rw [hnext] at hleft
      have hless := card_pending_update (mod_windowSize_lt index) hflag
      rw [hcard] at hless
      obtain ⟨hflags, hle, hpassed, hend⟩ := ih _ hless (h.clear hbound)
        (fun v hv => Nat.lt_of_lt_of_le (hbound v hv) (by omega)) hleft rfl
      refine ⟨hflags, Nat.le_of_succ_le hle, ?_, hend⟩
      intro u hu hlt
      by_cases heq : u = index
      · subst heq
        exact ⟨hmem, hstop⟩
      · exact hpassed u (by omega) hlt
    · rw [dif_neg hflag] at hleft
      subst hleft
      refine ⟨h, le_refl index, fun u hle hlt => absurd hle (Nat.not_le.mpr hlt), .inr ?_⟩
      exact fun hmem => hflag ((h.at_index hbound).mpr hmem)

end

end

/-! ## One call -/

/-- The counter has seen the numbers `acked`, and `m` is the first one that is missing. -/
structure Inv (s : Nat) (acked : List Nat) (m : Nat) (g : AcknowledgedCounterGenerator) : Prop where
  missing : FirstMissing s acked m
  limit : g.limit = (m + (2 ^ 64 - 1)) % 2 ^ 64
  flags : Flags g.window acked m
  bound : ∀ v ∈ acked, v < m + windowSize
  fits : ∀ v ∈ acked, v < 2 ^ 31

/-- The number that is to come is 0, and all others of the first window are there. -/
def ZeroLast (acked : List Nat) (v : Nat) : Prop := v = 0 ∧ ∀ u, 0 < u → u < windowSize → u ∈ acked

/-- The index at which the loop of a call stops anyway, when `m` is the first number missing. -/
def stopIndex (m : Nat) : Nat := (m + (2 ^ 64 - 1)) % 2 ^ 64 % windowSize

/-- The stop is behind the index, or it is the last slot of the window, for `m = 0`. -/
theorem stopIndex_lt {m : Nat} (hm : m < 2 ^ 64) : stopIndex m < m ∨ m = 0 ∧
    stopIndex m = windowSize - 1 := by
  unfold stopIndex windowSize
  omega

section

variable {s m v : Nat} {acked : List Nat} {g : AcknowledgedCounterGenerator}

theorem inv_new (s : Nat) : Inv s [] s (newAcknowledgedCounterGenerator s) where
  missing := ⟨⟨le_refl s, not_mem_nil⟩, fun _ hu => hu.1⟩
  limit := rfl
  flags slot := by simp [newAcknowledgedCounterGenerator]
  bound := by simp
  fits := by simp

/-- A call does not throw, and its loop starts at the first number that was missing. -/
theorem Inv.acknowledge (h : Inv s acked m g) (hv : v ∉ acked) (hs : s ≤ v) (hfits : v < 2 ^ 31)
    (hwindow : v < m + windowSize) : ∃ left : (Nat → Bool) × Nat,
      g.acknowledge v = some ⟨left.1, (left.2 + (2 ^ 64 - 1)) % 2 ^ 64⟩ ∧
      Flags left.1 (acked ++ [v]) left.2 ∧ m ≤ left.2 ∧
      (∀ u, m ≤ u → u < left.2 → u ∈ acked ++ [v] ∧ u ≠ stopIndex m) ∧
      (left.2 = stopIndex m ∨ left.2 ∉ acked ++ [v]) := by
  have hmv : m ≤ v := h.missing.2 ⟨hs, hv⟩
  have hslot : ((v : Int) % windowSize).toNat = v % windowSize := by
    unfold windowSize
    omega
  have hfree : g.window (v % windowSize) = false := by
    by_contra hset
    obtain ⟨u, hu, hle, hmod⟩ := (h.flags _).mp (Bool.not_eq_false _ ▸ hset)
    rw [eq_of_mod_eq hle hmv (h.bound u hu) hwindow hmod] at hu
    exact hv hu
  have hindex : (g.limit + 1) % 2 ^ 64 = m := by
    rw [h.limit]
    omega
  -- the flag of the new number is set
  have hflags : Flags (update g.window (v % windowSize) true) (acked ++ [v]) m := by
    intro slot
    by_cases heq : slot = v % windowSize
    · subst heq
      rw [update_self]
      exact ⟨fun _ => ⟨v, by simp, hmv, rfl⟩, fun _ => rfl⟩
    · rw [update_of_ne heq, h.flags]
      constructor
      · rintro ⟨u, hu, hle, hmod⟩
        exact ⟨u, mem_append_left _ hu, hle, hmod⟩
      · rintro ⟨u, hu, hle, hmod⟩
        rcases mem_append.mp hu with hu | hu
        · exact ⟨u, hu, hle, hmod⟩
        · rw [mem_singleton.mp hu] at hmod
          exact absurd hmod.symm heq
  have hbound : ∀ u ∈ acked ++ [v], u < m + windowSize :=
    forall_mem_append.mpr ⟨h.bound, forall_mem_singleton.mpr hwindow⟩
  have hsmall : ∀ u ∈ acked ++ [v], u < 2 ^ 31 :=
    forall_mem_append.mpr ⟨h.fits, forall_mem_singleton.mpr hfits⟩
  obtain ⟨hleft, hle, hpassed, hend⟩ := scan_spec hflags hbound (stopIndex m) hsmall rfl
  refine ⟨scan (stopIndex m) (update g.window (v % windowSize) true) m, ?_, hleft, hle,
    hpassed, hend⟩
  simp only [AcknowledgedCounterGenerator.acknowledge, hslot, hfree, hindex, Bool.false_eq_true,
    if_false]
  rw [h.limit]
  rfl

/-- **A call keeps the invariant**, unless it is the one of 0 behind a full window. -/
theorem Inv.step (h : Inv s acked m g) (hv : v ∉ acked) (hs : s ≤ v) (hfits : v < 2 ^ 31)
    (hwindow : v < m + windowSize) (hgood : ¬ ZeroLast acked v) :
    ∃ g' m', g.acknowledge v = some g' ∧ Inv s (acked ++ [v]) m' g' := by
  obtain ⟨left, hcall, hflags, hle, hpassed, hend⟩ := h.acknowledge hv hs hfits hwindow
  have hmv : m ≤ v := h.missing.2 ⟨hs, hv⟩
  have hmissing : left.2 ∉ acked ++ [v] := by
    rcases hend with hstop | hend
    · intro hmem
      rcases stopIndex_lt (show m < 2 ^ 64 by omega) with hlt | ⟨rfl, hlast⟩
      · omega
      · -- the whole window is acknowledged, so 0 is the number that came last
        have hfull : ∀ u, u < windowSize → u ∈ acked ++ [v] := by
          intro u hu
          by_cases heq : u = left.2
          · rwa [heq]
          · exact (hpassed u (Nat.zero_le u) (by omega)).1
        have hzero : v = 0 := by
          have h0 := hfull 0 (by decide)
          rcases mem_append.mp h0 with h0 | h0
          · exact absurd h0 h.missing.1.2
          · exact (mem_singleton.mp h0).symm
        refine hgood ⟨hzero, fun u hpos hu => ?_⟩
        rcases mem_append.mp (hfull u hu) with hu | hu
        · exact hu
        · rw [mem_singleton.mp hu, hzero] at hpos
          exact absurd hpos (lt_irrefl 0)
    · exact hend
  refine ⟨_, left.2, hcall, ⟨⟨h.missing.1.1.trans hle, hmissing⟩, ?_⟩, rfl, hflags, ?_, ?_⟩
  · rintro u ⟨hsu, hu⟩
    by_contra hlt
    have hmu : m ≤ u := h.missing.2 ⟨hsu, fun hmem => hu (mem_append_left _ hmem)⟩
    exact hu (hpassed u hmu (Nat.not_le.mp hlt)).1
  · refine forall_mem_append.mpr ⟨fun u hu => ?_, forall_mem_singleton.mpr ?_⟩
    · exact Nat.lt_of_lt_of_le (h.bound u hu) (Nat.add_le_add_right hle _)
    · exact Nat.lt_of_lt_of_le hwindow (Nat.add_le_add_right hle _)
  · exact forall_mem_append.mpr ⟨h.fits, forall_mem_singleton.mpr hfits⟩

/-- With the invariant the counter reports what it should. -/
theorem Inv.reports (h : Inv s acked m g) : Reports s acked g.lastValue := by
  have hbelow : ∀ u, s ≤ u → u < m → u ∈ acked := by
    intro u hsu hlt
    by_contra hu
    exact absurd (h.missing.2 ⟨hsu, hu⟩) (Nat.not_le.mpr hlt)
  constructor
  · intro hacked
    have hsm : s < m := by
      refine Nat.lt_of_le_of_ne h.missing.1.1 ?_
      rintro rfl
      exact h.missing.1.2 hacked
    have hfits := h.fits (m - 1) (hbelow (m - 1) (by omega) (by omega))
    have hlast : g.lastValue = m - 1 := by
      rw [lastValue, h.limit]
      omega
    rw [hlast]
    refine ⟨⟨by omega, fun u hsu hu => hbelow u hsu (by omega)⟩, ?_⟩
    rintro l ⟨hsl, hall⟩
    by_contra hlt
    exact h.missing.1.2 (hall m h.missing.1.1 (by omega))
  · intro hnone
    have hsm : m = s := le_antisymm (h.missing.2 ⟨le_refl s, hnone⟩) h.missing.1.1
    rw [lastValue, h.limit, hsm]

/-- The call of 0 behind a full window ends one number too early. -/
theorem Inv.not_reports (h : Inv 0 acked m g) (hv : v ∉ acked) (hwindow : v < m + windowSize)
    (hbad : ZeroLast acked v) :
    ∃ g', g.acknowledge v = some g' ∧ ¬ Reports 0 (acked ++ [v]) g'.lastValue := by
  obtain ⟨rfl, hothers⟩ := hbad
  have hm : m = 0 := Nat.le_zero.mp (h.missing.2 ⟨le_refl 0, hv⟩)
  subst hm
  have hstop : stopIndex 0 = windowSize - 1 := by decide
  have hfull : ∀ u, u < windowSize → u ∈ acked ++ [0] := by
    intro u hu
    rcases Nat.eq_zero_or_pos u with rfl | hpos
    · simp
    · exact mem_append_left _ (hothers u hpos hu)
  obtain ⟨left, hcall, -, -, hpassed, hend⟩ := h.acknowledge hv (le_refl 0) (by decide) hwindow
  have hleft : left.2 = windowSize - 1 := by
    rcases hend with hend | hend
    · exact hend.trans hstop
    · have hge : windowSize ≤ left.2 := by
        by_contra hlt
        exact hend (hfull left.2 (Nat.not_le.mp hlt))
      have hpast := (hpassed (windowSize - 1) (Nat.zero_le _) (by unfold windowSize at *; omega)).2
      exact absurd hstop.symm hpast
  refine ⟨_, hcall, fun hreports => ?_⟩
  have hgreatest := (hreports.acknowledged (by simp)).2
    (show windowSize - 1 ∈ _ from ⟨Nat.zero_le _, fun u _ hu => hfull u (by
      unfold windowSize at *
      omega)⟩)
  rw [lastValue, hleft] at hgreatest
  have hbehind : ¬ windowSize - 1 ≤ (windowSize - 1 + (2 ^ 64 - 1)) % 2 ^ 64 := by decide
  exact hbehind hgreatest

end

/-! ## A sequence of calls -/

section

variable {s : Nat} {values : List Nat}

theorem acknowledgeAll_concat (g : AcknowledgedCounterGenerator) (l : List Nat) (v : Nat) :
    g.acknowledgeAll (l ++ [v]) = (g.acknowledgeAll l).bind fun g => g.acknowledge v := by
  induction l generalizing g with
  | nil =>
    rw [nil_append, acknowledgeAll, acknowledgeAll, Option.bind_some]
    cases g.acknowledge v with
    | none => rfl
    | some g' => rfl
  | cons u l ih =>
    rw [cons_append, acknowledgeAll, acknowledgeAll]
    cases g.acknowledge u with
    | none => rfl
    | some g' => exact ih g'

theorem take_succ_of_getElem? {i v : Nat} (h : values[i]? = some v) :
    values.take (i + 1) = values.take i ++ [v] := by
  rw [take_add_one, h]
  rfl

/-- A number is new when it comes. -/
theorem Admissible.new (h : Admissible s values) {i v : Nat} (hi : values[i]? = some v) :
    v ∉ values.take i := by
  have hnodup := h.distinct.sublist (take_sublist (i + 1) values)
  rw [take_succ_of_getElem? hi, nodup_append] at hnodup
  intro hmem
  exact hnodup.2.2 v hmem v (mem_singleton_self v) rfl

/-- After any number of calls that are not the bad one, the invariant holds. -/
theorem exists_inv (h : Admissible s values) {k : Nat} (hk : k ≤ values.length)
    (hgood : ∀ i v, i < k → values[i]? = some v → ¬ ZeroLast (values.take i) v) :
    ∃ g m, (newAcknowledgedCounterGenerator s).acknowledgeAll (values.take k) = some g ∧
      Inv s (values.take k) m g := by
  induction k with
  | zero => exact ⟨_, s, rfl, inv_new s⟩
  | succ k ih =>
    obtain ⟨g, m, hg, hinv⟩ := ih (Nat.le_of_succ_le hk)
      fun i v hi => hgood i v (Nat.lt_succ_of_lt hi)
    have hget : values[k]? = some values[k] := getElem?_eq_getElem hk
    obtain ⟨hs, hfits⟩ := h.fits _ (getElem_mem hk)
    obtain ⟨g', m', hcall, hinv'⟩ := hinv.step (h.new hget) hs hfits
      (h.inWindow k _ m hget hinv.missing) (hgood k _ (Nat.lt_succ_self k) hget)
    rw [take_succ_of_getElem? hget]
    refine ⟨g', m', ?_, hinv'⟩
    rw [acknowledgeAll_concat, hg]
    exact hcall

/-- Before 0 comes, only the other numbers of the first window can come. -/
theorem Admissible.take_subset (h : Admissible 0 values) {i : Nat} (hi : values[i]? = some 0) :
    (values.take i).toFinset ⊆ Finset.Ioo 0 windowSize := by
  intro u hu
  rw [mem_toFinset] at hu
  have hzero := h.new hi
  obtain ⟨j, hj, rfl⟩ := getElem_of_mem hu
  rw [length_take] at hj
  have hget : values[j]? = some (values.take i)[j] := by
    rw [getElem_take]
    exact getElem?_eq_getElem (by omega)
  -- as long as 0 is missing, it is the first number that is
  have hmissing : FirstMissing 0 (values.take j) 0 := by
    refine ⟨⟨le_refl 0, fun hmem => hzero ?_⟩, fun _ _ => Nat.zero_le _⟩
    exact (take_prefix_take_left (by omega)).subset hmem
  have hlt := h.inWindow j _ 0 hget hmissing
  refine Finset.mem_Ioo.mpr ⟨Nat.pos_of_ne_zero fun h0 => hzero ?_, by omega⟩
  rw [← h0]
  exact hu

/-- The bad call is the one of 0 in the place that the window size gives. -/
theorem Admissible.zeroLast_iff (h : Admissible 0 values) {i : Nat} (hi : values[i]? = some 0) :
    ZeroLast (values.take i) 0 ↔ i = windowSize - 1 := by
  have hsubset := h.take_subset hi
  have hlt : i < values.length := (List.getElem?_eq_some_iff.mp hi).1
  have hcard : (values.take i).toFinset.card = i := by
    rw [toFinset_card_of_nodup (h.distinct.sublist (take_sublist i values)), length_take]
    omega
  have hwindow : (Finset.Ioo 0 windowSize).card = windowSize - 1 := by
    rw [Nat.card_Ioo]
    rfl
  constructor
  · rintro ⟨-, hall⟩
    have heq : (values.take i).toFinset = Finset.Ioo 0 windowSize := by
      refine hsubset.antisymm fun u hu => ?_
      obtain ⟨hpos, hu⟩ := Finset.mem_Ioo.mp hu
      exact mem_toFinset.mpr (hall u hpos hu)
    rw [← hcard, heq, hwindow]
  · intro hlast
    have heq := Finset.eq_of_subset_of_card_le hsubset (by rw [hcard, hwindow, hlast])
    refine ⟨rfl, fun u hpos hu => ?_⟩
    rw [← mem_toFinset, heq]
    exact Finset.mem_Ioo.mpr ⟨hpos, hu⟩

/-- No call throws, and the counter reports the acknowledged numbers after each of them. -/
def ReportsAlways (s : Nat) (values : List Nat) : Prop :=
  ∀ i, i ≤ values.length → ∃ g,
    (newAcknowledgedCounterGenerator s).acknowledgeAll (values.take i) = some g ∧
      Reports s (values.take i) g.lastValue

/-- A counter that starts at 0 and gets 0 behind a full window reports one number too few. -/
theorem not_reportsAlways (h : Admissible 0 values) (hlast : values[windowSize - 1]? = some 0) :
    ¬ ReportsAlways 0 values := by
  intro hreports
  have hlt : windowSize - 1 < values.length := (List.getElem?_eq_some_iff.mp hlast).1
  -- 0 does not come before, so all calls before it are good
  obtain ⟨g, m, hg, hinv⟩ := exists_inv h (Nat.le_of_lt hlt) fun i v hi hget hbad => by
    obtain ⟨rfl, -⟩ := hbad
    have hmem : 0 ∈ values.take (windowSize - 1) :=
      mem_of_getElem? ((getElem?_take_of_lt hi).trans hget)
    exact h.new hlast hmem
  obtain ⟨g', hcall, hnot⟩ := hinv.not_reports (h.new hlast)
    (h.inWindow _ _ m hlast hinv.missing) ((h.zeroLast_iff hlast).mpr rfl)
  obtain ⟨g'', hg'', hreport⟩ := hreports (windowSize - 1 + 1) hlt
  rw [take_succ_of_getElem? hlast] at hg'' hreport
  rw [acknowledgeAll_concat, hg, Option.bind_some, hcall] at hg''
  cases hg''
  exact hnot hreport

end

/-- **The counter reports exactly the acknowledged prefix, in all cases but one.** For every start
value and every admissible sequence of calls, no call throws and `lastValue` is right after each
of them if and only if the counter does not both start at 0 and get 0 as the last number of the
first window. -/
theorem acknowledge_reports_iff {s : Nat} {values : List Nat} (h : Admissible s values) :
    ReportsAlways s values ↔ ¬ (s = 0 ∧ values[windowSize - 1]? = some 0) := by
  constructor
  · rintro hreports ⟨rfl, hlast⟩
    exact not_reportsAlways h hlast hreports
  · intro hcond i hi
    obtain ⟨g, m, hg, hinv⟩ := exists_inv h hi fun j v _ hget hbad => by
      obtain ⟨rfl, -⟩ := id hbad
      have hs : s = 0 := Nat.le_zero.mp (h.fits 0 (mem_of_getElem? hget)).1
      subst hs
      have hj := (h.zeroLast_iff hget).mp hbad
      rw [hj] at hget
      exact hcond ⟨rfl, hget⟩
    exact ⟨g, hg, hinv.reports⟩

/-- Three numbers, the second one first. -/
theorem acknowledge_reports_three : Admissible 0 [1, 0, 2] ∧ ReportsAlways 0 [1, 0, 2] := by
  have hadmissible : Admissible 0 [1, 0, 2] := by
    refine ⟨by decide, by decide, fun i v m hget _ => ?_⟩
    have hsmall : ∀ v ∈ [1, 0, 2], v < windowSize := by decide
    exact Nat.lt_add_left m (hsmall v (mem_of_getElem? hget))
  exact ⟨hadmissible, (acknowledge_reports_iff hadmissible).mpr (by decide)⟩

/-- All numbers of the first window, 0 behind the others. -/
def zeroBehindWindow : List Nat := List.range' 1 (windowSize - 1) ++ [0]

/-- The counter reports `2 ^ 20 - 2` when all numbers up to `2 ^ 20 - 1` have been acknowledged. -/
theorem zero_behind_window_not_reported :
    Admissible 0 zeroBehindWindow ∧ ¬ ReportsAlways 0 zeroBehindWindow := by
  have hlast : zeroBehindWindow[windowSize - 1]? = some 0 := by
    rw [zeroBehindWindow, getElem?_append_right (by rw [length_range']),
      length_range', Nat.sub_self]
    rfl
  have hmem : ∀ v ∈ zeroBehindWindow, v < windowSize := by
    intro v hv
    rcases mem_append.mp hv with hv | hv
    · have hrange := mem_range'_1.mp hv
      have hpos : 0 < windowSize := by decide
      omega
    · rw [mem_singleton.mp hv]
      decide
  have hadmissible : Admissible 0 zeroBehindWindow := by
    refine ⟨?_, fun v hv => ⟨Nat.zero_le v, ?_⟩, fun i v m hget _ => ?_⟩
    · refine nodup_append.mpr ⟨nodup_range', nodup_singleton 0, ?_⟩
      intro u hu v hv
      have hrange := mem_range'_1.mp hu
      rw [mem_singleton.mp hv]
      omega
    · exact (hmem v hv).trans (by decide)
    · exact Nat.lt_add_left m (hmem v (mem_of_getElem? hget))
  exact ⟨hadmissible, not_reportsAlways hadmissible hlast⟩

end AcknowledgedCounterGenerator

end MassBFT.Client
