import MassBFT.TPCC.Loader

/-!
# What the parts of the loader do

A part that makes a string or a number does not fail, inserts no row and reads no clock
(`Yields`). A part that inserts rows adds them behind those that are there, with the clock readings
it has made, and no two of its rows have the same stem (`Loads`). Both are closed under sequence and
loops, so the functions of the loader are put together from their parts.
-/

set_option autoImplicit false

namespace MassBFT.TPCC

open List
open Build (TrackedByte)

/-! ## Parts that insert nothing -/

section

variable {σ α β δ : Type} (lib : Library σ α)

/-- A draw that is not the one for a last name, which has a range of its own. -/
def Draw (rand rand' : σ) : Prop :=
  (∃ lb ub, ub ≠ 999 ∧ rand' = (lib.uniform lb ub rand).2) ∨
    (∃ lb ub, rand' = (lib.real lb ub rand).2) ∨ ∃ ids, rand' = (lib.shuffle ids rand).2

abbrev Drawn : σ → σ → Prop := Relation.ReflTransGen (Draw lib)

/-- Nothing but draws and new objects. -/
structure Quiet (s s' : Load σ α) : Prop where
  rows : s'.rows = s.rows
  ticks : s'.ticks = s.ticks
  rand : Drawn lib s.rand s'.rand

/-- The part ends from every state, quietly, with a value that has `Q`. -/
def Yields (m : Loader σ α β) (Q : β → Prop) : Prop :=
  ∀ s, Ends (fun _ : Env => m) s fun b s' => Q b ∧ Quiet lib s s'

variable {lib}

theorem Quiet.refl (s : Load σ α) : Quiet lib s s := ⟨rfl, rfl, .refl⟩

theorem Quiet.trans {s s' s'' : Load σ α} (h : Quiet lib s s') (h' : Quiet lib s' s'') :
    Quiet lib s s'' :=
  ⟨h'.rows.trans h.rows, h'.ticks.trans h.ticks, h.rand.trans h'.rand⟩

namespace Yields

variable {m : Loader σ α β} {f : β → Loader σ α δ} {Q : β → Prop} {R : δ → Prop}

theorem pure {b : β} (h : Q b) : Yields lib (Pure.pure b) Q := fun s => .pure ⟨h, .refl s⟩

theorem lift {o : Option β} {b : β} (ho : o = some b) (h : Q b) : Yields lib (StateT.lift o) Q :=
  fun s => .lift (fun _ => ho) ⟨h, .refl s⟩

theorem mono {Q' : β → Prop} (h : Yields lib m Q) (himp : ∀ b, Q b → Q' b) : Yields lib m Q' :=
  fun s => (h s).mono fun b _ hb => ⟨himp b hb.1, hb.2⟩

theorem bind (h : Yields lib m Q) (hf : ∀ b, Q b → Yields lib (f b) R) :
    Yields lib (m >>= f) R := by
  intro s
  refine .bind ((h s).mono fun b s' hb => ?_)
  exact (hf b hb.1 s').mono fun c s'' hc => ⟨hc.1, hb.2.trans hc.2⟩

/-- A quiet part, and then one that may look at the environment. -/
theorem andThen {f : Env → β → Loader σ α δ} {s : Load σ α} {post : δ → Load σ α → Prop}
    (h : Yields lib m Q) (hf : ∀ b s', Q b → Quiet lib s s' → Ends (fun env => f env b) s' post) :
    Ends (fun env => m >>= f env) s post :=
  .bind ((h s).mono fun b s' hb => hf b s' hb.1 hb.2)

end Yields

theorem yields_uniform {lb ub : Nat} (h : lb ≤ ub ∧ ub ≠ 999) :
    Yields lib (uniform lib lb ub) fun n => lb ≤ n ∧ n ≤ ub := by
  intro s
  refine ⟨_, _, fun _ => rfl, lib.uniform_mem lb ub s.rand h.1, rfl, rfl, ?_⟩
  exact .single (.inl ⟨lb, ub, h.2, rfl⟩)

theorem yields_randomDouble (lb ub : Rat) : Yields lib (randomDouble lib lb ub) fun _ => True :=
  fun _ => ⟨_, _, fun _ => rfl, trivial, rfl, rfl, .single (.inr (.inl ⟨lb, ub, rfl⟩))⟩

theorem yields_shuffle (ids : List Int32) :
    Yields lib (shuffle lib ids) fun ids' => ids'.Perm ids := fun s =>
  ⟨_, _, fun _ => rfl, lib.shuffle_perm ids s.rand, rfl, rfl, .single (.inr (.inr ⟨ids, rfl⟩))⟩

theorem yields_storage (lib : Library σ α) : Yields lib storage fun _ => True :=
  fun _ => ⟨_, _, fun _ => rfl, trivial, rfl, rfl, .refl⟩

end

/-! ## Strings -/

namespace Varchar

variable {γ : Type} {n : Nat}

theorem exists_append {v : Varchar γ n} (h : v.size < n) (hn : n < 2 ^ 32) (x : γ) :
    ∃ v', v.append x = some v' ∧ v'.size = v.size + 1 := by
  refine ⟨_, if_pos h, ?_⟩
  have hlt : v.length.toNat + 1 < 2 ^ 32 := lt_of_le_of_lt (Nat.succ_le_of_lt h) hn
  show (v.length + 1).toNat = v.length.toNat + 1
  rw [UInt32.toNat_add]
  exact Nat.mod_eq_of_lt hlt

theorem exists_resize (v : Varchar γ n) {size : Nat} (h : size ≤ n) (hn : n < 2 ^ 32) :
    ∃ v', v.resize size = some v' ∧ v'.size = size ∧ v'.data = v.data :=
  ⟨_, if_pos h, UInt32.toNat_ofNat_of_lt' (lt_of_le_of_lt h hn), rfl⟩

theorem exists_plus {v : Varchar γ n} {rhs : List γ} (blank : Nat → γ)
    (h : v.size + rhs.length ≤ n) : ∃ v', plus blank v rhs = some v' := ⟨_, dif_pos h⟩

theorem exists_ofContainer {str : Bytes} (blank : Nat → TrackedByte) (h : str.length ≤ n)
    (hn : n < 2 ^ 32) : ∃ v : Varchar TrackedByte n,
      ofContainer blank (str.map .assigned) = some v ∧ v.known = some str := by
  have hlen : (str.map Tracked.assigned : List TrackedByte).length ≤ n := by simpa using h
  refine ⟨_, dif_pos hlen, known_iff.mpr ?_⟩
  have hsize : (UInt32.ofNat (str.map Tracked.assigned : List TrackedByte).length).toNat =
      str.length := by
    rw [length_map]
    exact UInt32.toNat_ofNat_of_lt' (lt_of_le_of_lt h hn)
  simp only [toString, size, hsize, if_pos h, Option.some.injEq]
  simp [copyTo]

theorem exists_assign {v : Varchar γ n} {i : Nat} (hi : i < v.size) (hn : i < n) (x : γ) :
    ∃ v', v.assign i x = some v' ∧ v'.size = v.size ∧ v'.data = v.data.set i x :=
  ⟨_, if_pos ⟨hi, hn⟩, rfl, rfl⟩

end Varchar

section

variable {σ α : Type} {lib : Library σ α} {n : Nat}

theorem yields_newVarchar (lib : Library σ α) (n : Nat) :
    Yields lib (newVarchar n) fun v => v.size = 0 :=
  (yields_storage lib).bind fun _ _ => .pure rfl

theorem exists_alpha {i : Nat} (h : i ≤ 62) : ∃ x, alpha[i]? = some x :=
  ⟨_, getElem?_eq_getElem (show i < alpha.length from Nat.lt_succ_of_le h)⟩

/-- Every character of the used part has been assigned. -/
theorem yields_randomString (v : Varchar TrackedByte n) (length : Nat) (hn : n < 2 ^ 32) :
    Yields lib (randomString lib v length) fun v' =>
      (∃ str, v'.known = some str) ∧ v'.size = if n < length then n else length := by
  unfold randomString
  generalize hlen : (if n < length then n else length) = len
  have hle : len ≤ n := by
    rw [← hlen]
    split_ifs <;> omega
  obtain ⟨v₀, hresize, hsize, -⟩ := v.exists_resize hle hn
  refine .bind (.lift hresize rfl) fun v₁ hv₁ => ?_
  subst hv₁
  intro s
  -- after `done` characters these are known, and the length is as it was set
  let inv (done : List Nat) (v' : Varchar TrackedByte n) (s' : Load σ α) : Prop :=
    (v'.size = len ∧ ∃ str : Bytes, str.length = done.length ∧
      v'.data.take done.length = str.map .assigned) ∧ Quiet lib s s'
  have hstart : inv [] v₀ s := ⟨⟨hsize, [], rfl, by simp⟩, .refl s⟩
  refine (Ends.foldlM inv hstart ?_).mono ?_
  · rintro done i rest v' s' hdone ⟨⟨hsize', str, hstr, htake⟩, hquiet⟩
    -- the element at hand is the number of those before it
    have hi : i = done.length ∧ i < len := by
      have hget : (List.range len)[done.length]? = some i := by simp [hdone]
      obtain ⟨hlt, heq⟩ := List.getElem?_eq_some_iff.mp hget
      rw [getElem_range] at heq
      rw [length_range] at hlt
      exact ⟨heq.symm, heq ▸ hlt⟩
    refine (yields_uniform (by decide)).andThen fun k s₁ hk hquiet₁ => ?_
    obtain ⟨x, hx⟩ := exists_alpha hk.2
    refine .bind (.lift (fun _ => hx) ?_)
    obtain ⟨v₁, hv₁, hsize₁, hdata₁⟩ :=
      Varchar.exists_assign (hi.2.trans_eq hsize'.symm) (lt_of_lt_of_le hi.2 hle)
        (Tracked.assigned x)
    refine .lift (fun _ => hv₁) ⟨⟨hsize₁.trans hsize', str ++ [x], by simp [hstr], ?_⟩,
      hquiet.trans hquiet₁⟩
    have hbound : done.length < v'.data.length := by
      rw [v'.size_data, ← hi.1]
      exact lt_of_lt_of_le hi.2 hle
    rw [hdata₁, hi.1, length_append, length_singleton, take_add_one,
      take_set_of_le (le_refl _), htake, getElem?_set_self hbound]
    simp
  · rintro v' s' ⟨⟨hsize', str, hstr, htake⟩, hquiet⟩
    rw [length_range] at hstr htake
    refine ⟨⟨⟨str, Varchar.known_iff.mpr ?_⟩, hsize'⟩, hquiet⟩
    rw [Varchar.toString, if_pos (hsize'.trans_le hle), hsize', htake]

theorem yields_randomOf {n lb ub : Nat} (h : n < 2 ^ 32 ∧ lb ≤ ub ∧ ub ≠ 999) :
    Yields lib (randomOf lib n lb ub) fun v => ∃ str, v.known = some str :=
  (yields_newVarchar lib n).bind fun v _ => (yields_uniform h.2).bind fun length _ =>
    (yields_randomString v length h.1).mono fun _ hv => hv.1

/-- Appending a character that fits. -/
theorem yields_append {v : Varchar TrackedByte n} {k : Nat} (hsize : v.size = k) (hk : k < n)
    (hn : n < 2 ^ 32) (x : TrackedByte) :
    Yields lib (StateT.lift (v.append x)) fun v' => v'.size = k + 1 := by
  obtain ⟨v', hv', hsize'⟩ := Varchar.exists_append (hsize.trans_lt hk) hn x
  exact .lift hv' (by rw [hsize', hsize])

theorem yields_randomZipCode : Yields lib (randomZipCode lib) fun _ => True := by
  have h9 : 9 < 2 ^ 32 := by decide
  refine (yields_uniform (by decide)).bind fun id _ => ?_
  refine (yields_newVarchar lib 9).bind fun v hv => ?_
  refine (yields_append hv (by decide) h9 _).bind fun v hv => ?_
  refine (yields_append hv (by decide) h9 _).bind fun v hv => ?_
  refine (yields_append hv (by decide) h9 _).bind fun v hv => ?_
  refine (yields_append hv (by decide) h9 _).bind fun v hv => ?_
  refine (yields_storage lib).bind fun blank _ => ?_
  have hfits : v.size + (List.replicate 5 (Tracked.assigned 49 : TrackedByte)).length ≤ 9 := by
    rw [hv]
    decide
  obtain ⟨v', hv'⟩ := Varchar.exists_plus blank hfits
  exact .lift hv' trivial

theorem yields_twoChars (lib : Library σ α) (x y : UInt8) :
    Yields lib (twoChars x y) fun _ => True := by
  have h2 : 2 < 2 ^ 32 := by decide
  refine (yields_newVarchar lib 2).bind fun v hv => ?_
  refine (yields_append hv (by decide) h2 _).bind fun v hv => ?_
  exact (yields_append hv (by decide) h2 _).mono fun _ _ => trivial

theorem yields_originalString {lb ub : Nat} (h : 8 ≤ lb ∧ lb ≤ ub ∧ ub ≤ 50) :
    Yields lib (originalString lib lb ub) fun _ => True := by
  obtain ⟨hlb, hle, hub⟩ := h
  have h50 : 50 < 2 ^ 32 := by decide
  refine (yields_uniform ⟨hle, by omega⟩).bind fun dataLen hlen => ?_
  refine (yields_newVarchar lib 50).bind fun v _ => ?_
  refine (yields_randomString v dataLen h50).bind fun v _ => ?_
  refine (yields_uniform (by decide)).bind fun x _ => ?_
  split_ifs
  · have h8 : ORIGINAL_STR.length = 8 := rfl
    refine (yields_uniform ⟨Nat.zero_le _, by omega⟩).bind fun pos hpos => ?_
    obtain ⟨v', hv', hsize, -⟩ := v.exists_resize (show pos ≤ 50 by omega) h50
    refine .bind (.lift hv' rfl) fun v₁ hv₁ => ?_
    subst hv₁
    refine (yields_storage lib).bind fun blank _ => ?_
    have hfits : v'.size + ORIGINAL_STR.length ≤ 50 := by omega
    obtain ⟨v₂, hv₂⟩ := Varchar.exists_plus blank hfits
    exact .lift hv₂ trivial
  · exact .pure trivial

end

/-! ## Last names -/

section

variable {σ α : Type} {lib : Library σ α}

theorem exists_lastName {n : Nat} (h : n < 1000) : ∃ name, lastName n = some name := by
  have hsyllable : ∀ {k}, k < 10 → ∃ s, lastNames[k]? = some s := fun {k} hk =>
    ⟨_, getElem?_eq_getElem (show k < lastNames.length from hk)⟩
  obtain ⟨s1, h1⟩ := hsyllable (show n / 100 < 10 by omega)
  obtain ⟨s2, h2⟩ := hsyllable (show n / 10 % 10 < 10 by omega)
  obtain ⟨s3, h3⟩ := hsyllable (show n % 10 < 10 by omega)
  exact ⟨_, by rw [lastName, h1, h2, h3]; rfl⟩

theorem length_lastName {n : Nat} {name : Bytes} (h : lastName n = some name) :
    name.length ≤ 16 := by
  simp only [lastName, Option.bind_eq_bind, Option.bind_eq_some_iff] at h
  obtain ⟨s1, -, s2, -, s3, -, heq⟩ := h
  cases heq
  exact length_take_le 16 _

/-- The name is that of the number. -/
theorem yields_generateLastName (lib : Library σ α) {n : Nat} (hn : n < 1000) :
    Yields lib (generateLastName n) fun v =>
      ∃ name, lastName n = some name ∧ v.known = some name := by
  obtain ⟨name, hname⟩ := exists_lastName hn
  refine .bind (.lift hname rfl) fun _ heq => ?_
  subst heq
  refine (yields_storage lib).bind fun blank _ => ?_
  obtain ⟨v, hv, hknown⟩ := Varchar.exists_ofContainer (n := 16) blank (length_lastName hname)
    (by decide)
  exact .lift hv ⟨_, hname, hknown⟩

theorem yields_credit : Yields lib (credit lib) fun _ => True := by
  refine (yields_uniform (by decide)).bind fun x _ => ?_
  split_ifs
  · exact yields_twoChars lib 66 67
  · exact yields_twoChars lib 71 67

theorem yields_carrierId (j : Nat) : Yields lib (carrierId lib j) fun _ => True := by
  unfold carrierId
  split_ifs
  · exact (yields_uniform (by decide)).mono fun _ _ => trivial
  · exact .pure trivial

end

/-! ## Arguments and ids -/

/-- The loaders of a partition go on with these. -/
theorem valid_arguments {nDistrict partitionID : Int32} (hn : 0 < nDistrict)
    (hp : 0 ≤ partitionID) : ¬ (partitionID < 0 ∨ nDistrict ≤ 0) :=
  not_or.mpr ⟨Int32.not_lt.mpr hp, Int32.not_le.mpr hn⟩

theorem mem_districts_lt {nDistrict : Int32} {i : Nat} (h : i ∈ districts nDistrict) :
    i < 2 ^ 31 := by
  have hlt := (mem_range'_1.mp h).2
  have hbound := nDistrict.toNatClampNeg_lt
  omega

theorem ofNat_inj {a b : Nat} (ha : a < 2 ^ 31) (hb : b < 2 ^ 31)
    (h : Int32.ofNat a = Int32.ofNat b) : a = b := by
  have hint := congrArg Int32.toInt h
  rw [Int32.toInt_ofNat_of_lt ha, Int32.toInt_ofNat_of_lt hb] at hint
  exact_mod_cast hint

theorem ofNat_le_iff {a b : Nat} (ha : a < 2 ^ 31) (hb : b < 2 ^ 31) :
    Int32.ofNat a ≤ Int32.ofNat b ↔ a ≤ b := by
  rw [Int32.le_iff_toInt_le, Int32.toInt_ofNat_of_lt ha, Int32.toInt_ofNat_of_lt hb]
  exact Int.ofNat_le

/-! ## Parts that insert rows -/

section

variable {σ α β δ ι : Type}

/-- A clock reading, and what comes after it. -/
theorem ends_now {f : Env → Nat → Loader σ α δ} {s : Load σ α} {post : δ → Load σ α → Prop}
    (h : Ends (fun env => f env s.ticks) { s with ticks := s.ticks + 1 } post) :
    Ends (fun env => time_now_ns >>= f env) s post := .bind ⟨_, _, fun _ => rfl, h⟩

/-- A row, and what comes after it. -/
theorem ends_insert {key : Key TrackedByte Nat} {value : Value TrackedByte Nat α}
    {f : Env → Unit → Loader σ α δ} {s : Load σ α} {post : δ → Load σ α → Prop}
    (h : Ends (fun env => f env ()) { s with rows := s.rows ++ [⟨key, value⟩] } post) :
    Ends (fun env => insertIntoTable key value >>= f env) s post := .bind ⟨_, _, fun _ => rfl, h⟩

/-- The rows that a part has added, with the `k` clock readings that it has made. -/
structure Loads (s s' : Load σ α) (k : Nat) (P : Stem → Prop)
    (added : List (Row TrackedByte Nat α)) : Prop where
  rows : s'.rows = s.rows ++ added
  stems : ∀ r ∈ added, ∃ x, r.stem = some x ∧ P x
  nodup : (added.map Row.stem).Nodup
  ticks : s'.ticks = s.ticks + k
  times : added.flatMap Row.times = List.range' s.ticks k

namespace Loads

variable {s s' s'' : Load σ α} {k k' : Nat} {P P' : Stem → Prop}
  {added added' : List (Row TrackedByte Nat α)}

theorem nil (s : Load σ α) : Loads s s 0 P [] := by
  constructor <;> simp

theorem mono (h : Loads s s' k P added) (himp : ∀ x, P x → P' x) : Loads s s' k P' added :=
  { h with stems := fun r hr => (h.stems r hr).imp fun x hx => ⟨hx.1, himp x hx.2⟩ }

/-- One row, which has the clock readings since the start. -/
theorem insert {r : Row TrackedByte Nat α} {x : Stem} (hrows : s'.rows = s.rows)
    (hticks : s'.ticks = s.ticks + k) (hstem : r.stem = some x)
    (htimes : r.times = List.range' s.ticks k) :
    Loads s { s' with rows := s'.rows ++ [r] } k (· = x) [r] where
  rows := by rw [hrows]
  stems := by simp [hstem]
  nodup := nodup_singleton _
  ticks := hticks
  times := by simpa using htimes

/-- First the ones, then the others, if no stem can be of both. -/
theorem append (h : Loads s s' k P added) (h' : Loads s' s'' k' P' added')
    (hne : ∀ x, P x → ¬ P' x) : Loads s s'' (k + k') (fun x => P x ∨ P' x) (added ++ added') where
  rows := by rw [h'.rows, h.rows, append_assoc]
  stems r hr := by
    rcases mem_append.mp hr with hr | hr
    · exact (h.stems r hr).imp fun x hx => ⟨hx.1, .inl hx.2⟩
    · exact (h'.stems r hr).imp fun x hx => ⟨hx.1, .inr hx.2⟩
  nodup := by
    rw [map_append, nodup_append]
    refine ⟨h.nodup, h'.nodup, fun a ha b hb hab => ?_⟩
    obtain ⟨r, hr, rfl⟩ := mem_map.mp ha
    obtain ⟨r', hr', rfl⟩ := mem_map.mp hb
    obtain ⟨x, hx, hP⟩ := h.stems r hr
    obtain ⟨y, hy, hP'⟩ := h'.stems r' hr'
    rw [hx, hy, Option.some.injEq] at hab
    exact hne x hP (hab ▸ hP')
  ticks := by rw [h'.ticks, h.ticks, Nat.add_assoc]
  times := by rw [flatMap_append, h.times, h'.times, h.ticks, List.range'_append_1]

/-- What was quiet before makes no difference. -/
theorem of_quiet {lib : Library σ α} (hq : Quiet lib s s') (h : Loads s' s'' k P added) :
    Loads s s'' k P added where
  rows := by rw [h.rows, hq.rows]
  stems := h.stems
  nodup := h.nodup
  ticks := by rw [h.ticks, hq.ticks]
  times := by rw [h.times, hq.ticks]

end Loads

/-- The part inserts rows with stems in `P` and makes `k` clock readings, from every state; what it
returns has `Q`. -/
def Fills (m : Env → Loader σ α β) (Q : β → Prop) (k : Nat) (P : Stem → Prop) : Prop :=
  ∀ s, Ends m s fun b s' => Q b ∧ ∃ added, Loads s s' k P added

namespace Fills

variable {lib : Library σ α} {m : Env → Loader σ α β} {k k' : Nat} {P P' : Stem → Prop}
  {Q : β → Prop} {R : δ → Prop}

theorem mono (h : Fills m Q k P) (himp : ∀ x, P x → P' x) : Fills m Q k P' := fun s =>
  (h s).mono fun _ _ hb => ⟨hb.1, hb.2.imp fun _ hl => hl.mono himp⟩

/-- A quiet part before. -/
theorem after {m : Loader σ α β} {f : Env → β → Loader σ α δ} (h : Yields lib m Q)
    (hf : ∀ b, Q b → Fills (fun env => f env b) R k P) : Fills (fun env => m >>= f env) R k P := by
  intro s
  refine h.andThen fun b s' hb hquiet => ?_
  exact (hf b hb s').mono fun c s'' hc => ⟨hc.1, hc.2.imp fun _ hl => hl.of_quiet hquiet⟩

/-- A quiet part behind. -/
theorem returning {c : δ} (h : Fills m Q k P) (hc : R c) :
    Fills (fun env => m env >>= fun _ => Pure.pure c) R k P := fun s =>
  .bind ((h s).mono fun _ _ hb => .pure ⟨hc, hb.2⟩)

/-- One after the other. -/
theorem seq {f : Env → β → Loader σ α δ} (h : Fills m Q k P)
    (hf : ∀ b, Q b → Fills (fun env => f env b) R k' P') (hne : ∀ x, P x → ¬ P' x) :
    Fills (fun env => m env >>= f env) R (k + k') fun x => P x ∨ P' x := by
  intro s
  refine .bind ((h s).mono fun b s' ⟨hb, added, hl⟩ => ?_)
  refine (hf b hb s').mono fun c s'' ⟨hc, added', hl'⟩ => ?_
  exact ⟨hc, added ++ added', hl.append hl' hne⟩

/-- A part that has to succeed, and then the next. -/
theorem checked {m : Env → Loader σ α Bool} {f : Env → Loader σ α δ}
    (h : Fills m (· = true) k P) (failed : δ) (hf : Fills f R k' P') (hne : ∀ x, P x → ¬ P' x) :
    Fills (fun env => m env >>= fun ok => if (!ok) = true then Pure.pure failed else f env) R
      (k + k') fun x => P x ∨ P' x := by
  refine h.seq (fun ok hok => ?_) hne
  subst hok
  exact hf

theorem insert (key : Key TrackedByte Nat) (value : Value TrackedByte Nat α) {x : Stem}
    (hstem : key.stem Varchar.known = some x) (htimes : key.times ++ value.times = []) :
    Fills (fun _ => insertIntoTable key value : Env → Loader σ α Unit) (fun _ => True) 0 (· = x) :=
  fun _ => ⟨_, _, fun _ => rfl, trivial, [⟨key, value⟩], .insert rfl rfl hstem htimes⟩

/-- A loop whose accumulator has `Q` before and after every round, if no stem can be of two
rounds. -/
theorem foldlM {f : Env → β → ι → Loader σ α β} {P : ι → Stem → Prop} {l : List ι} {b : β}
    (hl : l.Nodup) (hP : ∀ i ∈ l, ∀ j ∈ l, ∀ x, P i x → P j x → i = j) (hb : Q b)
    (hf : ∀ i ∈ l, ∀ b, Q b → Fills (fun env => f env b i) Q k (P i)) :
    Fills (fun env => l.foldlM (f env) b) Q (l.length * k) fun x => ∃ i ∈ l, P i x := by
  intro s
  refine (Ends.foldlM (fun done b s' => Q b ∧ ∃ added, Loads s s' (done.length * k)
    (fun x => ∃ i ∈ done, P i x) added) ⟨hb, [], by simpa using .nil s⟩ ?_)
  rintro done i rest b s' rfl ⟨hb, added, hloads⟩
  have hmem : i ∈ done ++ i :: rest := by simp
  -- the round at hand is not among those that are done
  have hnot : i ∉ done := fun hi =>
    (nodup_append.mp hl).2.2 i hi i (mem_cons_self ..) rfl
  refine (hf i hmem b hb s').mono fun b' s'' ⟨hb', added', hloads'⟩ => ?_
  have happend := hloads.append hloads' fun x ⟨j, hj, hPj⟩ hPi =>
    hnot (hP j (mem_append_left _ hj) i hmem x hPj hPi ▸ hj)
  refine ⟨hb', added ++ added', ?_⟩
  rw [length_append, length_singleton, Nat.add_mul, Nat.one_mul]
  refine happend.mono fun x hx => ?_
  rcases hx with ⟨j, hj, hPj⟩ | hPi
  · exact ⟨j, mem_append_left _ hj, hPj⟩
  · exact ⟨i, mem_append_right _ (mem_singleton.mpr rfl), hPi⟩

/-- A loop without an accumulator. -/
theorem forM {f : ι → Loader σ α PUnit} {P : ι → Stem → Prop} {l : List ι} (hl : l.Nodup)
    (hP : ∀ i ∈ l, ∀ j ∈ l, ∀ x, P i x → P j x → i = j)
    (hf : ∀ i ∈ l, Fills (fun _ => f i) (fun _ => True) k (P i)) :
    Fills (fun _ => l.forM f) (fun _ => True) (l.length * k) fun x => ∃ i ∈ l, P i x := by
  simp only [forM_eq_foldlM]
  exact foldlM hl hP trivial fun i hi _ _ => hf i hi

/-- A loop that inserts one row in every round and reads no clock. -/
theorem table {f : ι → Loader σ α PUnit} {stem : ι → Stem} {l : List ι} (hl : l.Nodup)
    (hstem : ∀ i ∈ l, ∀ j ∈ l, stem i = stem j → i = j)
    (hf : ∀ i ∈ l, Fills (fun _ => f i) (fun _ => True) 0 (· = stem i))
    (hP : ∀ i ∈ l, P (stem i)) : Fills (fun _ => l.forM f) (fun _ => True) 0 P := by
  have hrows := forM hl (fun i hi j hj x hx hx' => hstem i hi j hj (hx.symm.trans hx')) hf
  rw [Nat.mul_zero] at hrows
  exact hrows.mono fun x ⟨i, hi, hx⟩ => hx ▸ hP i hi

end Fills

end

end MassBFT.TPCC
