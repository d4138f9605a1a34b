import MassBFT.TPCC.LastNames

/-!
# Which districts the index of last names matches

The entries of a district are those of the customers up to that district. So they match the first
district, and if there is only one they are right in every run. If there are more, a random stream
that draws one name in the first district and never again makes an entry in the second that none of
its customers belongs to. **The index matches in every run exactly if there is one district**
(`index_right_iff`).
-/

set_option autoImplicit false

namespace MassBFT.TPCC

open List
open Build (TrackedByte)

section

variable {σ α : Type} {people : List Person} {added : List (Row TrackedByte Nat α)}

/-- After `initCustomer` the index of every district matches its customers. -/
def IndexRight [IntCast α] (lib : Library σ α) (env : Env) (nDistrict partitionID : Int32)
    (s : Load σ α) : Prop :=
  ∃ s' added, initCustomer lib env nDistrict partitionID s = some (true, s') ∧
    s'.rows = s.rows ++ added ∧ ∀ d ∈ districts nDistrict,
      IndexMatches (added.map (Row.read env)) (partitionID + 1) (Int32.ofNat d)

/-- The customers of a district, from those of all. -/
theorem namesakes_eq {env : Env} {w_id d_id : Int32}
    {entries : List Entry} (hviews : Views added people entries)
    (hw : ∀ p ∈ people, p.w_id = w_id) (name : Bytes) :
    namesakes (added.map (Row.read env)) w_id d_id name =
      called name (people.filter fun p => p.d_id = d_id) := by
  rw [namesakes, called, (hviews env).1, filter_filter]
  refine congrArg _ (filter_congr fun p hp => ?_)
  simp [hw p hp, Bool.and_comm]

/-- Where only one district has been loaded so far, its index matches. -/
theorem Progress.indexMatches {lib : Library σ α} {w_id : Int32} {s₀ s : Load σ α}
    {done : List (Nat × Nat)} {finished : List Nat} {customerMap : CustomerMap}
    {entries : List Entry} {d : Nat}
    (h : Progress lib w_id s₀ s done finished customerMap people entries)
    (hviews : Views added people entries) (hd : d ∈ finished) (honly : ∀ t ∈ done, t.1 = d)
    (env : Env) : IndexMatches (added.map (Row.read env)) w_id (Int32.ofNat d) := by
  have hdistrict : ∀ p ∈ people, p.d_id = Int32.ofNat d := by
    intro p hp
    obtain ⟨-, t, ht, hpd⟩ := h.ids p hp
    rw [hpd, honly t ht]
  have hall : upTo d people = people :=
    filter_eq_self.mpr fun p hp => decide_eq_true (Int32.le_of_eq (hdistrict p hp))
  have hown : people.filter (fun p => p.d_id = Int32.ofNat d) = people :=
    filter_eq_self.mpr fun p hp => decide_eq_true (hdistrict p hp)
  have hindex : ∀ name c_id, ⟨w_id, Int32.ofNat d, name, c_id⟩ ∈ entries ↔
      middle (called name people) = some c_id := by
    intro name c_id
    rw [h.index d hd name c_id, hall]
  intro name
  rw [(hviews env).2, namesakes_eq hviews (fun p hp => (h.ids p hp).1), hown]
  refine ⟨⟨?_, ?_⟩, fun c_id hc => (hindex name c_id).mp hc⟩
  · rintro ⟨c_id, hc⟩ hnil
    have hmiddle := (hindex name c_id).mp hc
    rw [hnil, middle_nil] at hmiddle
    cases hmiddle
  · intro hne
    obtain ⟨c_id, hc⟩ := middle_ne_none hne
    exact ⟨c_id, (hindex name c_id).mpr hc⟩

variable [IntCast α] {rand rand' : Bool}

/-- Whether the index is right is a matter of the rows that a run adds. -/
theorem indexRight_rows (lib : Library σ α) (env : Env) {nDistrict partitionID : Int32}
    (hn : 0 < nDistrict) (hp : 0 ≤ partitionID) (s : Load σ α) :
    ∃ (s' : Load σ α) (added : List (Row TrackedByte Nat α)) (customerMap : CustomerMap)
      (people : List Person) (entries : List Entry),
      Progress lib (partitionID + 1) s s' (customersIn (districts nDistrict)) (districts nDistrict)
        customerMap people entries ∧
      Views added people entries ∧
      (IndexRight lib env nDistrict partitionID s ↔ ∀ d ∈ districts nDistrict,
        IndexMatches (added.map (Row.read env)) (partitionID + 1) (Int32.ofNat d)) := by
  obtain ⟨ok, s', hrun, hok, customerMap, people, entries, h⟩ := ends_initCustomer lib hn hp s
  subst hok
  obtain ⟨added, hloads, hviews⟩ := h.loads
  refine ⟨s', added, customerMap, people, entries, h, hviews, ⟨?_, fun hmatches => ?_⟩⟩
  · rintro ⟨s'', added', hrun', hrows', hmatches⟩
    have hs : s' = s'' := (Prod.mk.inj (Option.some.inj ((hrun env).symm.trans hrun'))).2
    subst hs
    have hadded : added = added' := append_cancel_left (hloads.rows.symm.trans hrows')
    subst hadded
    exact hmatches
  · exact ⟨s', added, hrun env, hloads.rows, hmatches⟩

/-- A random stream that has the last of all last names once, for the first customer whose name is
drawn. -/
def late : Library Bool α where
  uniform lb ub armed :=
    if lb = 0 ∧ ub = 999 ∧ armed then (842, false) else (lb, if ub = 999 then false else armed)
  uniform_mem lb ub armed hle := by
    by_cases h : lb = 0 ∧ ub = 999 ∧ armed = true
    · rw [if_pos h]
      exact ⟨by omega, by omega⟩
    · rw [if_neg h]
      exact ⟨le_refl lb, hle⟩
  real _ _ armed := (((0 : Int) : α), armed)
  shuffle ids armed := (ids, armed)
  shuffle_perm _ _ := .refl _
  order customerMap := customerMap
  order_perm _ := .refl _

theorem late_drawn (h : Drawn (late : Library Bool α) rand rand') :
    rand' = rand := by
  induction h with
  | refl => rfl
  | tail _ hdraw ih =>
    subst ih
    rcases hdraw with ⟨lb, ub, hub, heq⟩ | ⟨lb, ub, heq⟩ | ⟨ids, heq⟩
    · simpa [late, hub] using heq
    · exact heq
    · exact heq

/-- The number is the last one if the stream still has it. -/
theorem late_number {j n : Nat} (h : NumberDrawn (late : Library Bool α) j rand n rand') :
    (j < 1000 ∧ n = j - 1 ∧ rand' = rand) ∨
      (1000 ≤ j ∧ n = (if rand then 999 else 157) ∧ rand' = false) := by
  obtain ⟨r, r', hr, hr', hn⟩ := h
  have hr := late_drawn hr
  have hr' := late_drawn hr'
  subst hr hr'
  split_ifs at hn with hj
  · exact .inl ⟨hj, hn⟩
  · refine .inr ⟨Nat.le_of_not_lt hj, ?_⟩
    cases r <;> cases hn <;> exact ⟨rfl, rfl⟩

theorem lastName_ne : ∀ n < 999, lastName n ≠ lastName 999 := by
  decide +kernel

/-- Only the district of the first drawn name has a customer with the last name of all. -/
theorem late_naming {done : List (Nat × Nat)}
    (h : Naming (late : Library Bool α) done rand people rand') (hrand : rand = true) :
    (done.find? (fun t => 1000 ≤ t.2) = none ∧ rand' = true ∧
      ∀ p ∈ people, some p.last ≠ lastName 999) ∨
    ∃ t, done.find? (fun t => 1000 ≤ t.2) = some t ∧ rand' = false ∧
      (∃ p ∈ people, some p.last = lastName 999) ∧
      ∀ p ∈ people, some p.last = lastName 999 → p.d_id = Int32.ofNat t.1 := by
  induction h with
  | nil rand => exact .inl ⟨rfl, hrand, nofun⟩
  | drawn hnaming hdrawn ih =>
    rw [late_drawn hdrawn]
    exact ih hrand
  | @customer done rand people r n r' d j p hnaming hnumber hlast hd ih =>
    have hother : n < 999 → some p.last ≠ lastName 999 := fun hn => by
      rw [← hlast]
      exact lastName_ne n hn
    rw [find?_append]
    rcases ih hrand with ⟨hnone, rfl, hpeople⟩ | ⟨t, hsome, rfl, ⟨q, hq, hqlast⟩, hpeople⟩
    · rcases late_number hnumber with ⟨hlt, rfl, rfl⟩ | ⟨hge, rfl, rfl⟩
      · -- a name by number
        refine .inl ⟨by simp [hnone, Nat.not_le.mpr hlt], rfl, fun q hq => ?_⟩
        rcases mem_append.mp hq with hq | hq
        · exact hpeople q hq
        · rw [mem_singleton.mp hq]
          exact hother (by omega)
      · -- the first drawn name
        refine .inr ⟨(d, j), by simp [hnone, hge], rfl, ⟨p, by simp, hlast.symm⟩, ?_⟩
        intro q hq hqlast
        rcases mem_append.mp hq with hq | hq
        · exact absurd hqlast (hpeople q hq)
        · rw [mem_singleton.mp hq]
          exact hd
    · -- the last name of all has been drawn before
      have hn : n < 999 := by
        rcases late_number hnumber with ⟨hlt, rfl, -⟩ | ⟨-, rfl, -⟩
        · omega
        · decide
      have hr' : r' = false := by
        rcases late_number hnumber with ⟨-, -, h⟩ | ⟨-, -, h⟩ <;> exact h
      refine .inr ⟨t, by simp [hsome], hr', ⟨q, mem_append_left _ hq, hqlast⟩, ?_⟩
      intro q' hq' hlast'
      rcases mem_append.mp hq' with hq' | hq'
      · exact hpeople q' hq' hlast'
      · rw [mem_singleton.mp hq'] at hlast'
        exact absurd hlast' (hother hn)

/-- The first customer whose name is drawn is in the first district. -/
theorem find?_customersIn (ds : List Nat) :
    (customersIn (1 :: ds)).find? (fun t => 1000 ≤ t.2) = some (1, 1000) := by
  have hfirst : (List.range' 1 3000).find? (fun j => 1000 ≤ j) = some 1000 := by decide +kernel
  rw [customersIn, flatMap_cons, find?_append, find?_map]
  simp only [Function.comp_def, hfirst, Option.map_some, Option.some_or]

theorem districts_eq_cons {nDistrict : Int32} (hn : 1 < nDistrict) :
    ∃ rest, districts nDistrict = 1 :: 2 :: rest := by
  have hlt : 1 < nDistrict.toInt := Int32.lt_iff_toInt_lt.mp hn
  have htwo : nDistrict.toNatClampNeg = nDistrict.toNatClampNeg - 2 + 2 := by
    rw [← Int32.toNat_toInt]
    omega
  exact ⟨List.range' 3 (nDistrict.toNatClampNeg - 2), by rw [districts, htwo]; rfl⟩

/-- In that stream the second district has an entry for a name that none of its customers has. -/
theorem late_not_indexRight {nDistrict partitionID : Int32} (hn : 1 < nDistrict)
    (hp : 0 ≤ partitionID) (env : Env) {s : Load Bool α} (hs : s.rand = true) :
    ¬ IndexRight (late : Library Bool α) env nDistrict partitionID s := by
  obtain ⟨s', added, customerMap, people, entries, h, hviews, hiff⟩ :=
    indexRight_rows (late : Library Bool α) env (Int32.lt_trans (by decide) hn) hp s
  obtain ⟨rest, hdistricts⟩ := districts_eq_cons hn
  rw [hiff]
  intro hmatches
  have hfind := find?_customersIn (2 :: rest)
  rw [← hdistricts] at hfind
  rcases late_naming h.naming hs with ⟨hnone, -, -⟩ | ⟨t, hsome, -, ⟨p, hp, hlast⟩, honly⟩
  · rw [hfind] at hnone
    cases hnone
  rw [hfind, Option.some.injEq] at hsome
  subst hsome
  have htwo : 2 ∈ districts nDistrict := by simp [hdistricts]
  -- the name is among those of the districts up to the second, so it has an entry there
  have hne : called p.last (upTo 2 people) ≠ [] := by
    have hmem : p ∈ (upTo 2 people).filter fun q => q.last = p.last := by
      simp [upTo, hp, honly p hp hlast]
    exact ne_nil_of_mem (mem_map_of_mem hmem)
  obtain ⟨c_id, hc⟩ := middle_ne_none hne
  have hentry := (h.index 2 htwo p.last c_id).mpr hc
  -- but whoever has the name is of the first district
  have hnamesakes := (hmatches 2 htwo p.last).1.mp ⟨c_id, by rwa [(hviews env).2]⟩
  rw [namesakes_eq hviews (fun q hq => (h.ids q hq).1)] at hnamesakes
  obtain ⟨x, hx⟩ := exists_mem_of_ne_nil _ hnamesakes
  obtain ⟨q, hq, -⟩ := mem_map.mp hx
  simp only [mem_filter, decide_eq_true_eq] at hq
  obtain ⟨⟨hq, hqd⟩, hqlast⟩ := hq
  have hfirst := honly q hq (by rw [hqlast, hlast])
  rw [hqd] at hfirst
  exact absurd hfirst (by decide)

/-- **The index of last names matches in every run exactly if there is one district.** -/
theorem index_right_iff {nDistrict partitionID : Int32} (hn : 0 < nDistrict)
    (hp : 0 ≤ partitionID) :
    (∀ (σ : Type) (lib : Library σ α) (env : Env) (s : Load σ α),
      IndexRight lib env nDistrict partitionID s) ↔ nDistrict = 1 := by
  constructor
  · intro h
    by_contra hne
    have hgt : 1 < nDistrict := by
      have hpos : 0 < nDistrict.toInt := Int32.lt_iff_toInt_lt.mp hn
      have hone : nDistrict.toInt ≠ 1 := fun heq => hne (Int32.toInt_inj.mp heq)
      refine Int32.lt_iff_toInt_lt.mpr (show 1 < nDistrict.toInt from ?_)
      omega
    exact late_not_indexRight hgt hp ⟨fun _ => 0, fun _ => 0⟩ rfl
      (h Bool late ⟨fun _ => 0, fun _ => 0⟩ ⟨true, 0, 0, []⟩)
  · rintro rfl σ lib env s
    obtain ⟨s', added, customerMap, people, entries, h, hviews, hiff⟩ :=
      indexRight_rows lib env hn hp s
    refine hiff.mpr fun d hd => h.indexMatches hviews hd (fun t ht => ?_) env
    -- there is one district
    have hdistricts : districts 1 = [1] := rfl
    rw [hdistricts, mem_singleton] at hd
    rw [hdistricts, customersIn, flatMap_singleton] at ht
    obtain ⟨j, -, rfl⟩ := mem_map.mp ht
    exact hd.symm

theorem index_right_one_district :
    IndexRight (late : Library Bool Int32) ⟨fun _ => 0, fun _ => 0⟩ 1 0 ⟨true, 0, 0, []⟩ :=
  (index_right_iff (by decide) (by decide)).mpr rfl _ _ _ _

/-- With two districts the second has an entry of the first. -/
theorem entry_without_customer :
    ¬ IndexRight (late : Library Bool Int32) ⟨fun _ => 0, fun _ => 0⟩ 2 0 ⟨true, 0, 0, []⟩ :=
  late_not_indexRight (by decide) (by decide) _ rfl

end

end MassBFT.TPCC
