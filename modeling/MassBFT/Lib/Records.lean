import MassBFT.Lib.Wire

/-!
# Codecs that carry every value

Machine integers have fixed-width types here, so a format that inverts carries all of their values,
and a record of such fields carries every record (`Codec.Total`). **A total codec never writes a
value as the empty string if there is another value** (`Codec.Total.put_ne_nil`); if there is none,
it may.
-/

set_option autoImplicit false

namespace MassBFT

instance nontrivialUInt8 : Nontrivial UInt8 := ⟨0, 1, by decide⟩

instance intCastInt32 : IntCast Int32 := ⟨Int32.ofInt⟩

namespace Codec

variable {α β : Type} {c : Codec α}

/-- Every value is carried. -/
def Total (c : Codec α) : Prop := ∀ a, c.Carries a

theorem Total.pair {d : Codec β} (hc : c.Total) (hd : d.Total) : (c.pair d).Total :=
  fun _ => .pair (hc _) (hd _)

theorem Total.conv {wrap : α → β} {unwrap : β → α} (hc : c.Total)
    (h : ∀ b, wrap (unwrap b) = b) : (c.conv wrap unwrap).Total :=
  fun b => .conv (hc _) (h b)

theorem Total.array (n : Nat) : (array n).Total := carries_array

/-- What is written is read back, and nothing is left. -/
theorem Carries.get_put {a : α} (h : c.Carries a) : c.get (c.put a) = some (a, []) := by
  have hread := h []
  rwa [List.append_nil] at hread

theorem Total.put_append_inj (hc : c.Total) {a b : α} {rest rest' : Bytes} :
    c.put a ++ rest = c.put b ++ rest' ↔ a = b ∧ rest = rest' := by
  constructor
  · intro h
    have hread := hc a rest
    rw [h, hc b rest'] at hread
    cases hread
    exact ⟨rfl, rfl⟩
  · rintro ⟨rfl, rfl⟩
    rfl

theorem Total.put_inj (hc : c.Total) {a b : α} : c.put a = c.put b ↔ a = b := by
  have h := @Total.put_append_inj α c hc a b [] []
  simpa using h

/-- Two values cannot both be carried if one of them is the empty string. -/
theorem Total.put_ne_nil (hc : c.Total) {a b : α} (hb : b ≠ a) : c.put a ≠ [] := by
  intro h
  have hread := hc a (c.put b)
  rw [h, List.nil_append, (hc b).get_put, Option.some.injEq, Prod.mk.injEq] at hread
  exact hb hread.1

/-- A truth value in one byte. -/
def bool : Codec Bool := byte.conv (· ≠ 0) fun b => if b then 1 else 0

/-- Nothing is written for a type without fields. -/
def unit : Codec Unit := ⟨fun _ => [], fun bs => some ((), bs)⟩

end Codec

namespace Wire

variable {w : Wire}

def ofUInt32 (w : Wire) : Codec UInt32 := w.uint32.conv UInt32.ofNat UInt32.toNat

def ofUInt64 (w : Wire) : Codec UInt64 := w.uint64.conv UInt64.ofNat UInt64.toNat

def ofInt32 (w : Wire) : Codec Int32 := w.int32.conv Int32.ofInt Int32.toInt

namespace Inverts

theorem ofUInt32 (hw : w.Inverts) : w.ofUInt32.Total := fun n =>
  .conv (hw.uint32 _ n.toNat_lt) UInt32.ofNat_toNat

theorem ofUInt64 (hw : w.Inverts) : w.ofUInt64.Total := fun n =>
  .conv (hw.uint64 _ n.toNat_lt) UInt64.ofNat_toNat

theorem ofInt32 (hw : w.Inverts) : w.ofInt32.Total := fun z =>
  .conv (hw.int32 _ ⟨z.le_toInt, z.toInt_lt⟩) (Int32.ofInt_toInt z)

end Inverts

end Wire

end MassBFT
