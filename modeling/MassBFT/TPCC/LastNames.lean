import MassBFT.TPCC.Loaded

/-!
# The index of last names

`initCustomer` groups the customers by last name, and enters the one in the middle of each group, by
first name and id, into `CUSTOMER_WDL` of the district. The map is made before the loop over the
districts, and nothing is ever taken out of it. So **the entries of a district are those of all
customers up to that district** (`ends_initCustomer`).

`Progress` is the invariant of the two loops. It says what the rows are, what the map holds, how the
random stream has named the customers, and what the index of every finished district is.
-/

set_option autoImplicit false

namespace MassBFT.TPCC

open List
open Build (TrackedByte)

/-! ## Customers and entries in the tables -/

/-- A customer, as far as the index is concerned. -/
structure Person where
  w_id : Int32
  d_id : Int32
  id : Int32
  first : Bytes
  last : Bytes
  deriving DecidableEq

/-- A row of `CUSTOMER_WDL`. -/
structure Entry where
  w_id : Int32
  d_id : Int32
  c_last : Bytes
  c_id : Int32
  deriving DecidableEq

section

variable {α : Type}

def Row.person : Row UInt8 UInt64 α → Option Person
  | ⟨.CUSTOMER c_w_id c_d_id c_id, .CUSTOMER value⟩ => do
    return ⟨c_w_id, c_d_id, c_id, ← value.c_first.toString, ← value.c_last.toString⟩
  | _ => none

def Row.entry : Row UInt8 UInt64 α → Option Entry
  | ⟨.CUSTOMER_WDL c_w_id c_d_id c_last, .CUSTOMER_WDL c_id⟩ =>
    c_last.toString.map fun name => ⟨c_w_id, c_d_id, name, c_id⟩
  | _ => none

/-- By first name, and then by id. -/
def byName (a b : Bytes × Int32) : Bool := a.1 < b.1 ∨ a.1 = b.1 ∧ a.2 ≤ b.2

/-- The id at position ⌈n/2⌉ of the sorted list, counted from one. -/
def middle (l : List (Bytes × Int32)) : Option Int32 :=
  ((l.mergeSort byName)[(l.length + 1) / 2 - 1]?).map Prod.snd

/-- The customers of a district with a last name. -/
def namesakes (rows : List (Row UInt8 UInt64 α)) (w_id d_id : Int32) (name : Bytes) :
    List (Bytes × Int32) :=
  ((rows.filterMap Row.person).filter fun p =>
    p.w_id = w_id ∧ p.d_id = d_id ∧ p.last = name).map fun p => (p.first, p.id)

/-- The index of a district matches its customers. -/
def IndexMatches (rows : List (Row UInt8 UInt64 α)) (w_id d_id : Int32) : Prop :=
  ∀ name : Bytes,
    ((∃ c_id, ⟨w_id, d_id, name, c_id⟩ ∈ rows.filterMap Row.entry) ↔
      namesakes rows w_id d_id name ≠ []) ∧
    ∀ c_id, ⟨w_id, d_id, name, c_id⟩ ∈ rows.filterMap Row.entry →
      middle (namesakes rows w_id d_id name) = some c_id

/-- What the rows are in every environment. -/
def Views (added : List (Row TrackedByte Nat α)) (people : List Person) (entries : List Entry) :
    Prop :=
  ∀ env, (added.map (Row.read env)).filterMap Row.person = people ∧
    (added.map (Row.read env)).filterMap Row.entry = entries

theorem Views.nil : Views ([] : List (Row TrackedByte Nat α)) [] [] := fun _ => ⟨rfl, rfl⟩

theorem Views.append {added added' : List (Row TrackedByte Nat α)} {people people' : List Person}
    {entries entries' : List Entry} (h : Views added people entries)
    (h' : Views added' people' entries') :
    Views (added ++ added') (people ++ people') (entries ++ entries') := by
  intro env
  rw [map_append, filterMap_append, filterMap_append, (h env).1, (h env).2, (h' env).1, (h' env).2]
  exact ⟨rfl, rfl⟩

end

/-! ## Sorting -/

theorem byName_trans (a b c : Bytes × Int32) (h : byName a b = true) (h' : byName b c = true) :
    byName a c = true := by
  simp only [byName, decide_eq_true_eq] at *
  rcases h with hlt | ⟨heq, hle⟩
  · rcases h' with hlt' | ⟨heq', -⟩
    · exact .inl (Std.lt_trans hlt hlt')
    · exact .inl (heq' ▸ hlt)
  · rcases h' with hlt' | ⟨heq', hle'⟩
    · exact .inl (heq ▸ hlt')
    · exact .inr ⟨heq.trans heq', Int32.le_trans hle hle'⟩

theorem byName_total (a b : Bytes × Int32) : (byName a b || byName b a) = true := by
  simp only [byName, Bool.or_eq_true, decide_eq_true_eq]
  rcases Std.lt_trichotomy a.1 b.1 with hlt | heq | hgt
  · exact .inl (.inl hlt)
  · exact (Int32.le_total a.2 b.2).imp (fun h => .inr ⟨heq, h⟩) fun h => .inr ⟨heq.symm, h⟩
  · exact .inr (.inl hgt)

theorem byName_antisymm {a b : Bytes × Int32} (h : byName a b = true) (h' : byName b a = true) :
    a = b := by
  simp only [byName, decide_eq_true_eq] at *
  rcases h with hlt | ⟨heq, hle⟩
  · rcases h' with hlt' | ⟨heq', -⟩
    · exact absurd (Std.lt_trans hlt hlt') Std.lt_irrefl
    · exact absurd (heq' ▸ hlt) Std.lt_irrefl
  · rcases h' with hlt' | ⟨-, hle'⟩
    · exact absurd (heq ▸ hlt') Std.lt_irrefl
    · exact Prod.ext heq (Int32.le_antisymm hle hle')

/-- The order in which the customers came makes no difference. -/
theorem middle_perm {l l' : List (Bytes × Int32)} (h : l.Perm l') : middle l = middle l' := by
  have hsort : l.mergeSort byName = l'.mergeSort byName := by
    refine Perm.eq_of_pairwise (fun a b _ _ => byName_antisymm)
      (pairwise_mergeSort byName_trans byName_total l)
      (pairwise_mergeSort byName_trans byName_total l') ?_
    exact (mergeSort_perm l byName).trans (h.trans (mergeSort_perm l' byName).symm)
  rw [middle, middle, hsort, h.length_eq]

theorem middle_ne_none {l : List (Bytes × Int32)} (h : l ≠ []) : ∃ c_id, middle l = some c_id := by
  have hlen : 0 < l.length := length_pos_iff.mpr h
  have hlt : (l.length + 1) / 2 - 1 < (l.mergeSort byName).length := by
    rw [length_mergeSort]
    omega
  exact ⟨_, by rw [middle, getElem?_eq_getElem hlt]; rfl⟩

@[simp] theorem middle_nil : middle [] = none := by simp [middle]

/-- A first name that is known, with its id. -/
def knownName (c : Varchar TrackedByte 16 × Int32) : Bytes × Int32 := (c.1.known.getD [], c.2)

/-- On known names `operator<` does not look at the environment. -/
theorem customerLess_eq (env : Env) {a b : Varchar TrackedByte 16 × Int32} {as bs : Bytes}
    (ha : a.1.known = some as) (hb : b.1.known = some bs) :
    (!customerLess env b a) = byName (knownName a) (knownName b) := by
  have ha' := Varchar.toString_of_known ha env.mem
  have hb' := Varchar.toString_of_known hb env.mem
  simp only [customerLess, byName, knownName, ha, hb, Option.getD_some,
    Varchar.less_eq ha' hb', Varchar.less_eq hb' ha']
  rcases Std.lt_trichotomy as bs with hlt | rfl | hgt
  · have hnot : ¬ bs < as := fun h => Std.lt_irrefl (Std.lt_trans h hlt)
    simp [hlt, hnot]
  · simp [Std.lt_irrefl, ← Int32.not_le]
  · have hnot : ¬ as < bs := fun h => Std.lt_irrefl (Std.lt_trans h hgt)
    have hne : as ≠ bs := fun h => Std.lt_irrefl (h ▸ hgt)
    simp [hgt, hnot, hne]

/-- The lists of the map, sorted by what is known. -/
def sortedMap (customerMap : CustomerMap) : CustomerMap :=
  customerMap.map fun it =>
    (it.1, it.2.mergeSort fun a b => byName (knownName a) (knownName b))

theorem sortLists_eq {customerMap : CustomerMap}
    (h : ∀ it ∈ customerMap, ∀ c ∈ it.2, ∃ str, c.1.known = some str) (env : Env) :
    sortLists env customerMap = some (sortedMap customerMap) := by
  have hsize : ∀ it ∈ customerMap, ∀ c ∈ it.2, c.1.size ≤ 16 := by
    intro it hit c hc
    obtain ⟨str, hstr⟩ := h it hit c hc
    exact (Option.ite_none_right_eq_some.mp (Varchar.known_iff.mp hstr)).1
  rw [sortLists, if_pos hsize, sortedMap, Option.some.injEq]
  refine map_congr_left fun it hit => ?_
  -- the two comparisons are the same on the list at hand
  have hsort := map_mergeSort (f := id) (l := it.2)
    (r := fun a b => !customerLess env b a) (s := fun a b => byName (knownName a) (knownName b))
    fun a ha b hb => by
      obtain ⟨as, has⟩ := h it hit a ha
      obtain ⟨bs, hbs⟩ := h it hit b hb
      exact customerLess_eq env has hbs
  simpa using hsort

/-! ## The map holds the customers -/

/-- The customers with a last name, whatever their district is. -/
def called (name : Bytes) (people : List Person) : List (Bytes × Int32) :=
  (people.filter fun p => p.last = name).map fun p => (p.first, p.id)

/-- An entry of the map for a customer. -/
def Files (e : Bytes × Varchar TrackedByte 16 × Int32) (p : Person) : Prop :=
  e.1 = p.last ∧ e.2.1.known = some p.first ∧ e.2.2 = p.id ∧ 0 < p.id ∧ p.last.length ≤ 16

/-- The map has been made of these customers. -/
def Holds (customerMap : CustomerMap) (people : List Person) : Prop :=
  ∃ es, Groups customerMap es ∧ List.Forall₂ Files es people

variable {es : List (Bytes × Varchar TrackedByte 16 × Int32)}

/-- The known values under a name are the customers of that name. -/
theorem Files.valuesOf {people : List Person} (h : List.Forall₂ Files es people) (name : Bytes) :
    (valuesOf name es).map knownName = called name people := by
  induction h with
  | nil => rfl
  | @cons e p es people hfile _ ih =>
    obtain ⟨hlast, hfirst, hid, -, -⟩ := hfile
    by_cases hname : p.last = name
    · simp only [MassBFT.valuesOf, called, filterMap_cons, filter_cons, hlast, hname,
        decide_true, if_true, map_cons]
      refine congrArg₂ List.cons ?_ ih
      rw [knownName, hfirst, hid, Option.getD_some]
    · simp only [MassBFT.valuesOf, called, filterMap_cons, filter_cons, hlast, hname,
        decide_false, if_false]
      exact ih

/-- Whatever is in the map is a customer there. -/
theorem Files.exists_of_mem
    {people : List Person} (h : List.Forall₂ Files es people) {e} (he : e ∈ es) :
    ∃ p, Files e p := by
  induction h with
  | nil => cases he
  | @cons e' p es people hfile _ ih =>
    rcases mem_cons.mp he with rfl | he
    · exact ⟨p, hfile⟩
    · exact ih he

namespace Holds

variable {customerMap : CustomerMap} {people : List Person}

theorem nil : Holds [] [] := ⟨[], .nil, .nil⟩

variable (h : Holds customerMap people)
include h

theorem pushBack {p : Person} {c_first : Varchar TrackedByte 16}
    (hfile : Files (p.last, c_first, p.id) p) :
    Holds (pushBack p.last (c_first, p.id) customerMap) (people ++ [p]) := by
  obtain ⟨es, hgroups, hfiles⟩ := h
  refine ⟨es ++ [(p.last, c_first, p.id)], hgroups.pushBack _ _, ?_⟩
  exact rel_append hfiles (.cons hfile .nil)

theorem sorted : Holds (sortedMap customerMap) people := by
  obtain ⟨es, hgroups, hfiles⟩ := h
  exact ⟨es, hgroups.map_lists fun l => mergeSort_perm l _, hfiles⟩

theorem of_perm {customerMap' : CustomerMap}
    (hperm : customerMap'.Perm customerMap) : Holds customerMap' people := by
  obtain ⟨es, hgroups, hfiles⟩ := h
  exact ⟨es, hgroups.of_perm hperm, hfiles⟩

/-- Names are known, ids are valid. -/
theorem of_mem {it} (hit : it ∈ customerMap) {c} (hc : c ∈ it.2) :
    ∃ p, Files (it.1, c) p := by
  obtain ⟨es, hgroups, hfiles⟩ := h
  have hmem := mem_valuesOf.mp ((hgroups.perm it.1 it.2 hit).mem_iff.mp hc)
  exact Files.exists_of_mem hfiles hmem

theorem known :
    ∀ it ∈ customerMap, ∀ c ∈ it.2, ∃ str, c.1.known = some str := fun _ hit _ hc =>
  (h.of_mem hit hc).elim fun p hp => ⟨p.first, hp.2.1⟩

theorem ne_nil {it} (hit : it ∈ customerMap) : it.2 ≠ [] := by
  obtain ⟨es, hgroups, -⟩ := h
  exact hgroups.ne_nil it.1 it.2 hit

theorem exists_iff {name : Bytes} :
    (∃ l, (name, l) ∈ customerMap) ↔ called name people ≠ [] := by
  obtain ⟨es, hgroups, hfiles⟩ := h
  rw [hgroups.exists_iff, ← Files.valuesOf hfiles]
  simp

/-- In the sorted map the id that is entered is that of the customer in the middle. -/
theorem middle_eq {it} (hit : it ∈ sortedMap customerMap) :
    (it.2[(it.2.length - 1) / 2]?).map Prod.snd = middle (called it.1 people) := by
  obtain ⟨es, hgroups, hfiles⟩ := h
  obtain ⟨it', hit', rfl⟩ := mem_map.mp hit
  have hperm : (it'.2.map knownName).Perm (called it'.1 people) := by
    rw [← Files.valuesOf hfiles]
    exact (hgroups.perm it'.1 it'.2 hit').map knownName
  have hsort : (it'.2.mergeSort fun a b => byName (knownName a) (knownName b)).map knownName =
      (it'.2.map knownName).mergeSort byName := map_mergeSort fun _ _ _ _ => rfl
  have hindex : (it'.2.length - 1) / 2 = ((it'.2.map knownName).length + 1) / 2 - 1 := by
    rw [length_map]
    have hpos : 0 < it'.2.length := length_pos_iff.mpr (hgroups.ne_nil it'.1 it'.2 hit')
    omega
  rw [← middle_perm hperm, middle, ← hsort, ← hindex, getElem?_map, Option.map_map,
    length_mergeSort]
  rfl

end Holds

/-! ## One customer -/

section

variable {σ α : Type} (lib : Library σ α)

/-- The number of a random last name, and what it leaves of the generator. -/
def lastNameDraw (rand : σ) : Nat × σ :=
  let (a, rand) := lib.uniform 0 255 rand
  let (b, rand) := lib.uniform 0 999 rand
  (((a ||| b) + 157) % 1000, rand)

/-- The customer `j` gets the last name of `n`. -/
def NumberDrawn (j : Nat) (rand : σ) (n : Nat) (rand' : σ) : Prop :=
  ∃ r r', Drawn lib rand r ∧ Drawn lib r' rand' ∧
    if j < 1000 then n = j - 1 ∧ r' = r else lastNameDraw lib r = (n, r')

/-- How the generator has given the customers of the list their last names: every customer is given
by the district and the id. -/
inductive Naming : List (Nat × Nat) → σ → List Person → σ → Prop
  | nil (rand : σ) : Naming [] rand [] rand
  | customer {done rand people r n r'} (d j : Nat) (p : Person) : Naming done rand people r →
      NumberDrawn lib j r n r' → lastName n = some p.last → p.d_id = Int32.ofNat d →
      Naming (done ++ [(d, j)]) rand (people ++ [p]) r'
  | drawn {done rand people r r'} : Naming done rand people r → Drawn lib r r' →
      Naming done rand people r'

variable {lib}

theorem NumberDrawn.lt {j n : Nat} {rand rand' : σ} (h : NumberDrawn lib j rand n rand') :
    n < 1000 := by
  obtain ⟨r, r', -, -, h⟩ := h
  split_ifs at h with hj
  · omega
  · have hn : (lastNameDraw lib r).1 = n := by rw [h]
    rw [← hn]
    exact Nat.mod_lt _ (by decide)

/-- Other draws before and after make no difference. -/
theorem NumberDrawn.extend {j n : Nat} {rand rand₁ rand₂ rand' : σ}
    (h : NumberDrawn lib j rand₁ n rand₂) (hbefore : Drawn lib rand rand₁)
    (hafter : Drawn lib rand₂ rand') : NumberDrawn lib j rand n rand' := by
  obtain ⟨r, r', hr, hr', hn⟩ := h
  exact ⟨r, r', hbefore.trans hr, hr'.trans hafter, hn⟩

/-- The number of a customer: nothing is inserted. -/
theorem ends_number (j : Nat) (s : Load σ α) :
    Ends (fun _ : Env => lastNameNumber lib j) s fun n s' =>
      NumberDrawn lib j s.rand n s'.rand ∧ s'.rows = s.rows ∧ s'.ticks = s.ticks := by
  unfold lastNameNumber
  by_cases hj : j < 1000
  · simp only [if_pos hj]
    exact .pure ⟨⟨s.rand, s.rand, .refl, .refl, by simp [hj]⟩, rfl, rfl⟩
  · simp only [if_neg hj]
    exact ⟨_, _, fun _ => rfl, ⟨s.rand, _, .refl, .refl, by rw [if_neg hj]; rfl⟩, rfl, rfl⟩

variable [IntCast α]

/-- The stems of a customer and of their history. -/
def OfCustomer (w_id d_id : Int32) (j : Nat) (x : Stem) : Prop :=
  x.w_id = w_id ∧ x.d_id = d_id ∧ x.id = Int32.ofNat j ∧ (x.table = .CUSTOMER ∨ x.table = .HISTORY)

/-- A customer has been loaded. -/
structure NewCustomer (lib : Library σ α) (w_id : Int32) (d j : Nat)
    (customerMap customerMap' : CustomerMap) (s s' : Load σ α)
    (added : List (Row TrackedByte Nat α)) (p : Person) (n : Nat) : Prop where
  w_id_eq : p.w_id = w_id
  d_id_eq : p.d_id = Int32.ofNat d
  drawn : NumberDrawn lib j s.rand n s'.rand
  last : lastName n = some p.last
  map : ∃ c_first, Files (p.last, c_first, p.id) p ∧
    customerMap' = pushBack p.last (c_first, p.id) customerMap
  views : Views added [p] []
  loads : Loads s s' 2 (OfCustomer w_id (Int32.ofNat d) j) added

theorem ends_customer {partitionID : Int32} {d j : Nat} (customerMap : CustomerMap) (s : Load σ α)
    (hj : (0 : Int32) < Int32.ofNat j) :
    Ends (fun env => customer lib env partitionID d customerMap j) s fun customerMap' s' =>
      ∃ added p n,
        NewCustomer lib (partitionID + 1) d j customerMap customerMap' s s' added p n := by
  refine (yields_twoChars lib 79 69).andThen fun c_middle s₁ _ q₁ => ?_
  refine (yields_randomOf (by decide)).andThen fun c_first s₂ hfirst q₂ => ?_
  refine (yields_randomOf (by decide)).andThen fun c_street_1 s₃ _ q₃ => ?_
  refine (yields_randomOf (by decide)).andThen fun c_street_2 s₄ _ q₄ => ?_
  refine (yields_randomOf (by decide)).andThen fun c_city s₅ _ q₅ => ?_
  refine (yields_newVarchar lib 2).andThen fun v s₆ _ q₆ => ?_
  refine (yields_randomString v 2 (by decide)).andThen fun c_state s₇ _ q₇ => ?_
  refine yields_randomZipCode.andThen fun c_zip s₈ _ q₈ => ?_
  refine (yields_newVarchar lib 16).andThen fun v s₉ _ q₉ => ?_
  refine (yields_randomString v 16 (by decide)).andThen fun c_phone s₁₀ _ q₁₀ => ?_
  have hstart : Quiet lib s s₁₀ := q₁.trans <| q₂.trans <| q₃.trans <| q₄.trans <| q₅.trans <|
    q₆.trans <| q₇.trans <| q₈.trans <| q₉.trans q₁₀
  refine ends_now ?_
  refine (yields_randomDouble 0 (1 / 2)).andThen fun c_discount s₁₁ _ q₁₁ => ?_
  refine (yields_randomOf (by decide)).andThen fun c_data s₁₂ _ q₁₂ => ?_
  refine .bind ((ends_number j s₁₂).mono fun n s₁₃ hnumber => ?_)
  obtain ⟨hdrawn, hrows, hticks⟩ := hnumber
  refine (yields_generateLastName lib hdrawn.lt).andThen fun c_last s₁₄ hlast q₁₄ => ?_
  obtain ⟨name, hname, hknown⟩ := hlast
  refine yields_credit.andThen fun c_credit s₁₅ _ q₁₅ => ?_
  refine ends_insert ?_
  refine .bind (.lift (fun env => Varchar.toString_of_known hknown env.mem) ?_)
  refine ends_now ?_
  refine (yields_randomOf (by decide)).andThen fun h_data s₁₆ _ q₁₆ => ?_
  refine ends_insert ?_
  refine .pure ?_
  obtain ⟨first, hfirst⟩ := hfirst
  -- what was there when the first row was inserted, and when the second was
  have hrows₁ : s₁₅.rows = s.rows := by
    rw [q₁₅.rows, q₁₄.rows, hrows, q₁₂.rows, q₁₁.rows, hstart.rows]
  have hticks₁ : s₁₅.ticks = s.ticks + 1 := by
    rw [q₁₅.ticks, q₁₄.ticks, hticks, q₁₂.ticks, q₁₁.ticks, hstart.ticks]
  refine ⟨_, ⟨partitionID + 1, Int32.ofNat d, Int32.ofNat j, first, name⟩, n,
    { w_id_eq := rfl
      d_id_eq := rfl
      drawn := hdrawn.extend (hstart.rand.trans (q₁₁.rand.trans q₁₂.rand))
        (q₁₄.rand.trans (q₁₅.rand.trans q₁₆.rand))
      last := hname
      map := ⟨c_first, ⟨rfl, hfirst, rfl, hj, length_lastName hname⟩, rfl⟩
      views := ?_
      loads := ((Loads.insert hrows₁ hticks₁ rfl ?_).append
        (Loads.insert q₁₆.rows q₁₆.ticks rfl rfl) ?_).mono ?_ }⟩
  · intro env
    simp [Row.person, Row.entry, Row.read, Row.map, Key.map, Value.map, Customer.map,
      Varchar.toString_of_known hfirst, Varchar.toString_of_known hknown]
  · show [s₁₀.ticks] = [s.ticks]
    rw [hstart.ticks]
  · rintro x rfl heq
    cases heq
  · rintro x (rfl | rfl)
    · exact ⟨rfl, rfl, rfl, .inl rfl⟩
    · exact ⟨rfl, rfl, rfl, .inr rfl⟩

end

/-! ## The entries of a district -/

section

variable {σ α : Type} {lib : Library σ α} {customerMap : CustomerMap}

/-- The entry that is made of a name and its sorted list. -/
def entryOf (w_id d_id : Int32) (it : Bytes × List (Varchar TrackedByte 16 × Int32)) :
    Option Entry :=
  ((it.2[(it.2.length - 1) / 2]?).map Prod.snd).map fun c_id => ⟨w_id, d_id, it.1, c_id⟩

/-- The name fits, and the id is valid. -/
def CanEnter (it : Bytes × List (Varchar TrackedByte 16 × Int32)) : Prop :=
  it.1.length ≤ 16 ∧ ∃ c, it.2[(it.2.length - 1) / 2]? = some c ∧ 0 < c.2

theorem ends_lastNameEntry (lib : Library σ α) {partitionID : Int32} {d : Nat}
    {it : Bytes × List (Varchar TrackedByte 16 × Int32)} (hit : CanEnter it) (s : Load σ α) :
    Ends (fun _ : Env => lastNameEntry partitionID d it) s fun _ s' => Drawn lib s.rand s'.rand ∧
      ∃ r, Loads s s' 0 (· = ⟨.CUSTOMER_WDL, partitionID + 1, Int32.ofNat d, 0, it.1⟩) [r] ∧
        Views [r] [] (entryOf (partitionID + 1) (Int32.ofNat d) it).toList := by
  obtain ⟨hlen, c, hc, hpos⟩ := hit
  refine (yields_storage lib).andThen fun blank s₁ _ q₁ => ?_
  obtain ⟨c_last, hlast, hknown⟩ := Varchar.exists_ofContainer (n := 16) blank hlen (by decide)
  refine .bind (.lift (fun _ => hlast) ?_)
  refine .bind (.lift (fun _ => hc) ?_)
  refine .bind (.lift (fun _ => if_pos hpos) ?_)
  refine ⟨_, _, fun _ => rfl, q₁.rand, _, .insert q₁.rows q₁.ticks ?_ rfl, fun env => ?_⟩
  · simp [Row.stem, Key.stem, hknown]
  · simp [Row.person, Row.entry, Row.read, Row.map, Key.map, Value.map, entryOf, hc,
      Varchar.toString_of_known hknown]

/-- All entries, in the order of the map. -/
theorem ends_entries (lib : Library σ α) {partitionID : Int32} {d : Nat}
    (hnodup : (customerMap.map Prod.fst).Nodup) (henter : ∀ it ∈ customerMap, CanEnter it)
    (s : Load σ α) :
    Ends (fun _ : Env => customerMap.forM (lastNameEntry partitionID d)) s fun _ s' =>
      Drawn lib s.rand s'.rand ∧ ∃ added, Loads s s' 0
        (fun x => ∃ it ∈ customerMap,
          x = ⟨.CUSTOMER_WDL, partitionID + 1, Int32.ofNat d, 0, it.1⟩) added ∧
        Views added [] (customerMap.filterMap (entryOf (partitionID + 1) (Int32.ofNat d))) := by
  refine Ends.forM (fun done s' => Drawn lib s.rand s'.rand ∧ ∃ added, Loads s s' 0
    (fun x => ∃ it ∈ done, x = ⟨.CUSTOMER_WDL, partitionID + 1, Int32.ofNat d, 0, it.1⟩) added ∧
    Views added [] (done.filterMap (entryOf (partitionID + 1) (Int32.ofNat d))))
    ⟨.refl, [], .nil s, .nil⟩ ?_
  rintro done it rest s' rfl ⟨hdrawn, added, hloads, hviews⟩
  -- the name at hand is not among those that are done
  have hnot : ∀ it' ∈ done, it'.1 ≠ it.1 := by
    intro it' hit'
    rw [map_append, nodup_append] at hnodup
    exact hnodup.2.2 _ (mem_map_of_mem hit') _ (by simp)
  refine (ends_lastNameEntry lib (henter it (by simp)) s').mono
    fun _ s'' ⟨hdrawn', r, hr, hview⟩ => ?_
  refine ⟨hdrawn.trans hdrawn', added ++ [r], (hloads.append hr ?_).mono ?_, ?_⟩
  · rintro x ⟨it', hit', rfl⟩ heq
    exact hnot it' hit' (Stem.mk.inj heq).2.2.2.2
  · rintro x (⟨it', hit', rfl⟩ | rfl)
    · exact ⟨it', mem_append_left _ hit', rfl⟩
    · exact ⟨it, by simp, rfl⟩
  · have hone : [it].filterMap (entryOf (partitionID + 1) (Int32.ofNat d)) =
        (entryOf (partitionID + 1) (Int32.ofNat d) it).toList := by
      cases h : entryOf (partitionID + 1) (Int32.ofNat d) it <;> simp [h]
    rw [filterMap_append, hone]
    exact hviews.append hview

/-- What is entered for the customers that the map holds. -/
theorem Holds.mem_entries {people : List Person}
    (h : Holds customerMap people) {w_id d_id : Int32} {e : Entry} :
    e ∈ (sortedMap customerMap).filterMap (entryOf w_id d_id) ↔
      e.w_id = w_id ∧ e.d_id = d_id ∧ middle (called e.c_last people) = some e.c_id := by
  rw [mem_filterMap]
  constructor
  · rintro ⟨it, hit, hentry⟩
    obtain ⟨c_id, hc, rfl⟩ := Option.map_eq_some_iff.mp hentry
    exact ⟨rfl, rfl, by rw [← h.middle_eq hit, hc]⟩
  · rintro ⟨rfl, rfl, hmiddle⟩
    -- the group is not empty, so the map has the name
    have hne : called e.c_last people ≠ [] := by
      intro hnil
      rw [hnil, middle_nil] at hmiddle
      cases hmiddle
    obtain ⟨l, hl⟩ := h.sorted.exists_iff.mpr hne
    refine ⟨(e.c_last, l), hl, ?_⟩
    rw [entryOf, h.middle_eq hl, hmiddle]
    rfl

/-- Everything in the sorted map can be entered. -/
theorem Holds.canEnter {people : List Person}
    (h : Holds customerMap people) {it} (hit : it ∈ customerMap) : CanEnter it := by
  have hpos : 0 < it.2.length := length_pos_iff.mpr (h.ne_nil hit)
  have hlt : (it.2.length - 1) / 2 < it.2.length := by omega
  obtain ⟨p, hp⟩ := h.of_mem hit (getElem_mem hlt)
  obtain ⟨hlast, -, hid, hvalid, hlen⟩ := hp
  exact ⟨hlast ▸ hlen, _, getElem?_eq_getElem hlt, hid ▸ hvalid⟩

end

/-! ## The districts, one after another -/

section

variable {σ α : Type} {lib : Library σ α}

/-- The customers of the districts up to `d`. -/
def upTo (d : Nat) (people : List Person) : List Person :=
  people.filter fun p => p.d_id ≤ Int32.ofNat d

/-- The stems of the customers in `done`, and of the entries of the districts in `finished`. -/
def OfWarehouse (w_id : Int32) (done : List (Nat × Nat)) (finished : List Nat) (x : Stem) : Prop :=
  (∃ t ∈ done, OfCustomer w_id (Int32.ofNat t.1) t.2 x) ∨
    (x.table = .CUSTOMER_WDL ∧ x.w_id = w_id ∧ ∃ d ∈ finished, x.d_id = Int32.ofNat d)

/-- `initCustomer` has loaded the customers in `done`, given by district and id, and the entries of
the districts in `finished`. -/
structure Progress (lib : Library σ α) (w_id : Int32) (s₀ s : Load σ α) (done : List (Nat × Nat))
    (finished : List Nat) (customerMap : CustomerMap) (people : List Person)
    (entries : List Entry) : Prop where
  bound : ∀ t ∈ done, t.1 < 2 ^ 31 ∧ t.2 < 2 ^ 31
  loads : ∃ added, Loads s₀ s (2 * done.length) (OfWarehouse w_id done finished) added ∧
    Views added people entries
  holds : Holds customerMap people
  naming : Naming lib done s₀.rand people s.rand
  ids : ∀ p ∈ people, p.w_id = w_id ∧ ∃ t ∈ done, p.d_id = Int32.ofNat t.1
  entered : ∀ e ∈ entries, ∃ d ∈ finished, e.d_id = Int32.ofNat d
  index : ∀ d ∈ finished, ∀ name c_id, ⟨w_id, Int32.ofNat d, name, c_id⟩ ∈ entries ↔
    middle (called name (upTo d people)) = some c_id

namespace Progress

variable {w_id : Int32} {s₀ s s' : Load σ α} {done : List (Nat × Nat)} {finished : List Nat}
  {customerMap customerMap' : CustomerMap} {people : List Person} {entries : List Entry} {d : Nat}
  {added : List (Row TrackedByte Nat α)}

theorem start (lib : Library σ α) (w_id : Int32) (s : Load σ α) :
    Progress lib w_id s s [] [] [] [] [] where
  bound := nofun
  loads := ⟨[], .nil s, .nil⟩
  holds := .nil
  naming := .nil s.rand
  ids := nofun
  entered := nofun
  index := nofun

/-- One more customer, of a district that is not finished. -/
theorem customer (h : Progress lib w_id s₀ s done finished customerMap people entries) {j n : Nat}
    {p : Person} (hd : d < 2 ^ 31) (hj : j < 2 ^ 31)
    (hnew : (d, j) ∉ done) (hlater : ∀ d' ∈ finished, d' < d)
    (hc : NewCustomer lib w_id d j customerMap customerMap' s s' added p n) :
    Progress lib w_id s₀ s' (done ++ [(d, j)]) finished customerMap' (people ++ [p]) entries := by
  obtain ⟨added₀, hloads, hviews⟩ := h.loads
  obtain ⟨c_first, hfile, hmap⟩ := hc.map
  constructor
  case bound =>
    intro t ht
    rcases mem_append.mp ht with ht | ht
    · exact h.bound t ht
    · rw [mem_singleton.mp ht]
      exact ⟨hd, hj⟩
  case loads =>
    refine ⟨added₀ ++ added, ?_, ?_⟩
    · rw [length_append, length_singleton, Nat.mul_add]
      refine (hloads.append hc.loads ?_).mono ?_
      · rintro x (⟨t, ht, -, htd, htj, -⟩ | ⟨htable, -, -⟩) ⟨-, hxd, hxj, hx⟩
        · -- the same district and id are the same customer
          have hd' := ofNat_inj (h.bound t ht).1 hd (htd.symm.trans hxd)
          have hj' := ofNat_inj (h.bound t ht).2 hj (htj.symm.trans hxj)
          exact hnew (by rwa [← hd', ← hj'])
        · rw [htable] at hx
          rcases hx with hx | hx <;> cases hx
      · rintro x ((⟨t, ht, hx⟩ | hx) | hx)
        · exact .inl ⟨t, mem_append_left _ ht, hx⟩
        · exact .inr hx
        · exact .inl ⟨(d, j), by simp, hx⟩
    · have happend := hviews.append hc.views
      rwa [append_nil] at happend
  case holds =>
    rw [hmap]
    exact h.holds.pushBack hfile
  case naming => exact .customer d j p h.naming hc.drawn hc.last hc.d_id_eq
  case ids =>
    intro q hq
    rcases mem_append.mp hq with hq | hq
    · obtain ⟨hw, t, ht, hqd⟩ := h.ids q hq
      exact ⟨hw, t, mem_append_left _ ht, hqd⟩
    · rw [mem_singleton.mp hq]
      exact ⟨hc.w_id_eq, (d, j), by simp, hc.d_id_eq⟩
  case entered => exact h.entered
  case index =>
    intro d' hd' name c_id
    -- the customer is of a later district
    have hlt : d' < d := hlater d' hd'
    have hout : ¬ p.d_id ≤ Int32.ofNat d' := by
      rw [hc.d_id_eq, ofNat_le_iff hd (hlt.trans hd)]
      exact Nat.not_le.mpr hlt
    have hsame : upTo d' (people ++ [p]) = upTo d' people := by
      simp [upTo, hout]
    rw [hsame]
    exact h.index d' hd' name c_id

/-- The entries of a district: they are made of all customers so far. -/
theorem finish (h : Progress lib w_id s₀ s done finished customerMap people entries)
    (hd : d < 2 ^ 31) (hupTo : ∀ t ∈ done, t.1 ≤ d) (hlater : ∀ d' ∈ finished, d' < d)
    {entries' : List Entry} (hdrawn : Drawn lib s.rand s'.rand)
    (hloads : Loads s s' 0 (fun x => x.table = .CUSTOMER_WDL ∧ x.w_id = w_id ∧
      x.d_id = Int32.ofNat d) added)
    (hviews : Views added [] entries')
    (hentries : ∀ e, e ∈ entries' ↔ e.w_id = w_id ∧ e.d_id = Int32.ofNat d ∧
      middle (called e.c_last people) = some e.c_id) :
    Progress lib w_id s₀ s' done (finished ++ [d]) (sortedMap customerMap) people
      (entries ++ entries') := by
  obtain ⟨added₀, hloads₀, hviews₀⟩ := h.loads
  have hne : ∀ d' ∈ finished, Int32.ofNat d' ≠ Int32.ofNat d := fun d' hd' heq =>
    (hlater d' hd').ne (ofNat_inj ((hlater d' hd').trans hd) hd heq)
  constructor
  case bound => exact h.bound
  case loads =>
    refine ⟨added₀ ++ added, (hloads₀.append hloads ?_).mono ?_, ?_⟩
    · rintro x (⟨t, -, -, -, -, hx⟩ | ⟨-, -, d', hd', hx⟩) ⟨htable, -, hxd⟩
      · rw [htable] at hx
        rcases hx with hx | hx <;> cases hx
      · exact hne d' hd' (hx.symm.trans hxd)
    · rintro x ((hx | ⟨htable, hw, d', hd', hx⟩) | ⟨htable, hw, hx⟩)
      · exact .inl hx
      · exact .inr ⟨htable, hw, d', mem_append_left _ hd', hx⟩
      · exact .inr ⟨htable, hw, d, by simp, hx⟩
    · have happend := hviews₀.append hviews
      rwa [append_nil] at happend
  case holds => exact h.holds.sorted
  case naming => exact h.naming.drawn hdrawn
  case ids => exact h.ids
  case entered =>
    intro e he
    rcases mem_append.mp he with he | he
    · obtain ⟨d', hd', hed⟩ := h.entered e he
      exact ⟨d', mem_append_left _ hd', hed⟩
    · exact ⟨d, by simp, ((hentries e).mp he).2.1⟩
  case index =>
    intro d' hd' name c_id
    rw [mem_append]
    rcases mem_append.mp hd' with hd' | hd'
    · -- an entry of an earlier district is not among the new ones
      rw [← h.index d' hd' name c_id]
      refine or_iff_left fun he => hne d' hd' ?_
      exact ((hentries _).mp he).2.1
    · rw [mem_singleton.mp hd']
      -- the customers so far are those of the districts up to this one
      have hall : upTo d people = people := by
        refine filter_eq_self.mpr fun p hp => decide_eq_true ?_
        obtain ⟨-, t, ht, hpd⟩ := h.ids p hp
        rw [hpd, ofNat_le_iff (h.bound t ht).1 hd]
        exact hupTo t ht
      have hold : ⟨w_id, Int32.ofNat d, name, c_id⟩ ∉ entries := by
        intro he
        obtain ⟨d'', hd'', heq⟩ := h.entered _ he
        exact hne d'' hd'' heq.symm
      rw [hall, or_iff_right hold, hentries]
      simp

variable [IntCast α] {partitionID : Int32}

section

variable (h : Progress lib (partitionID + 1) s₀ s done finished customerMap people entries)
  (hd : d < 2 ^ 31) (hnew : ∀ t ∈ done, t.1 < d) (hlater : ∀ d' ∈ finished, d' < d)
include h hd hnew hlater

/-- The customers of a district. -/
theorem ends_customers :
    Ends (fun env => (List.range' 1 3000).foldlM (TPCC.customer lib env partitionID d) customerMap)
      s fun customerMap' s' => ∃ people', Progress lib (partitionID + 1) s₀ s'
        (done ++ (List.range' 1 3000).map fun j => (d, j)) finished customerMap' people'
        entries := by
  refine Ends.foldlM (fun js customerMap' s' => ∃ people', Progress lib (partitionID + 1) s₀ s'
    (done ++ js.map fun j => (d, j)) finished customerMap' people' entries)
    ⟨people, by simpa using h⟩ ?_
  rintro js j rest customerMap' s' hjs ⟨people', hp⟩
  have hmem : j ∈ List.range' 1 3000 := by simp [hjs]
  have hj : 1 ≤ j ∧ j < 3001 := by simpa [mem_range'_1] using hmem
  have hj' : j < 2 ^ 31 := by omega
  have hpos : (0 : Int32) < Int32.ofNat j := by
    rw [Int32.lt_iff_toInt_lt, Int32.toInt_ofNat_of_lt hj']
    exact Int.natCast_pos.mpr hj.1
  -- an id comes once in the loop, and the district has not come before
  have hnot : (d, j) ∉ done ++ js.map fun j => (d, j) := by
    have hnodup : (js ++ j :: rest).Nodup := hjs ▸ nodup_range'
    intro hdj
    rcases mem_append.mp hdj with hdj | hdj
    · exact absurd (hnew _ hdj) (lt_irrefl d)
    · obtain ⟨j', hj', heq⟩ := mem_map.mp hdj
      rw [(Prod.mk.inj heq).2] at hj'
      exact (nodup_append.mp hnodup).2.2 j hj' j (mem_cons_self ..) rfl
  refine (ends_customer customerMap' s' hpos).mono fun customerMap'' s'' ⟨added, p, n, hc⟩ => ?_
  refine ⟨people' ++ [p], ?_⟩
  rw [map_append, ← append_assoc]
  exact hp.customer hd hj' hnot hlater hc

/-- A district: its customers, and then its entries. -/
theorem ends_districtCustomers :
    Ends (fun env => districtCustomers lib env partitionID customerMap d) s fun customerMap' s' =>
      ∃ people' entries', Progress lib (partitionID + 1) s₀ s'
        (done ++ (List.range' 1 3000).map fun j => (d, j)) (finished ++ [d]) customerMap' people'
        entries' := by
  refine .bind ((h.ends_customers hd hnew hlater).mono fun customerMap₁ s₁ ⟨people₁, h₁⟩ => ?_)
  refine .bind (.lift (fun env => sortLists_eq h₁.holds.known env) ?_)
  have hperm := lib.order_perm (sortedMap customerMap₁)
  have hsorted : Holds (lib.order (sortedMap customerMap₁)) people₁ := h₁.holds.sorted.of_perm hperm
  obtain ⟨es, hgroups, -⟩ := hsorted
  refine .bind ((ends_entries lib hgroups.nodup
    (fun it hit => h₁.holds.sorted.canEnter (hperm.mem_iff.mp hit)) s₁).mono
      fun _ s₂ ⟨hdrawn, added, hloads, hviews⟩ => ?_)
  refine .pure ⟨people₁, _, h₁.finish hd ?_ hlater hdrawn (hloads.mono ?_) hviews fun e => ?_⟩
  · intro t ht
    rcases mem_append.mp ht with ht | ht
    · exact (hnew t ht).le
    · obtain ⟨j, -, rfl⟩ := mem_map.mp ht
      exact le_refl d
  · rintro x ⟨it, -, rfl⟩
    exact ⟨rfl, rfl, rfl⟩
  · rw [(hperm.filterMap _).mem_iff]
    exact h₁.holds.mem_entries

end

end Progress

variable [IntCast α]

/-- The customers of a list of districts, in the order of the loops. -/
def customersIn (ds : List Nat) : List (Nat × Nat) :=
  ds.flatMap fun d => (List.range' 1 3000).map fun j => (d, j)

/-- **`initCustomer` loads the customers of all districts, and the entries of a district are those
of the customers up to that district.** -/
theorem ends_initCustomer (lib : Library σ α) {nDistrict partitionID : Int32}
    (hn : 0 < nDistrict) (hp : 0 ≤ partitionID) (s : Load σ α) :
    Ends (fun env => initCustomer lib env nDistrict partitionID) s fun ok s' => ok = true ∧
      ∃ customerMap people entries, Progress lib (partitionID + 1) s s'
        (customersIn (districts nDistrict)) (districts nDistrict) customerMap people entries := by
  simp only [initCustomer, if_neg (valid_arguments hn hp)]
  refine .bind ((Ends.foldlM (fun ds customerMap s' => ∃ people entries,
    Progress lib (partitionID + 1) s s' (customersIn ds) ds customerMap people entries)
    ⟨[], [], .start lib _ s⟩ ?_).mono fun customerMap s' ⟨people, entries, h⟩ =>
      .pure ⟨rfl, customerMap, people, entries, h⟩)
  rintro ds d rest customerMap s' hds ⟨people, entries, h⟩
  have hd : d < 2 ^ 31 := mem_districts_lt (show d ∈ districts nDistrict by simp [hds])
  -- the districts before are smaller
  have hlater : ∀ d' ∈ ds, d' < d := by
    have hsorted : (districts nDistrict).Pairwise (· < ·) := pairwise_lt_range'
    rw [hds, pairwise_append] at hsorted
    exact fun d' hd' => hsorted.2.2 d' hd' d (mem_cons_self ..)
  have hnew : ∀ t ∈ customersIn ds, t.1 < d := by
    intro t ht
    obtain ⟨d', hd', ht⟩ := mem_flatMap.mp ht
    obtain ⟨j, -, rfl⟩ := mem_map.mp ht
    exact hlater d' hd'
  refine (h.ends_districtCustomers hd hnew hlater).mono fun customerMap' s'' hp' => ?_
  rw [customersIn, flatMap_append, flatMap_singleton]
  exact hp'

end

end MassBFT.TPCC
