import PluginHost.Leb128
import PluginHost.Proofs.Results

/-! # Readers of bytes, and the sizes they read

A reader takes a front part of its input and hands the rest on.  `Reads` ties a reader to
a grammar, which says of a value what it looks like: the reader answers with a value and a
rest exactly when the input is a spelling of the value and then the rest.  So it takes
neither less nor more than the spelling, whatever follows.

`Leb128.decode` is such a reader (`Leb128.reads_decode`), and it reads back what
`Leb128.encode` writes (`Leb128.decode_encode`). -/
namespace PluginHost

/-- A reader answers with a value exactly when the input starts with a spelling of it, and
what is left follows the spelling. -/
def Reads {ε α : Type} (spells : α → List UInt8 → Prop)
    (read : List UInt8 → Except ε (α × List UInt8)) : Prop :=
  ∀ bytes a rest, read bytes = .ok (a, rest) ↔ ∃ front, spells a front ∧ bytes = front ++ rest

namespace Leb128

variable {limit n : Nat}

/-- Bytes that are read as a number, all of them. -/
def Spells (size : UInt32) (bytes : List UInt8) : Prop := decode bytes = .ok (size, [])

/-- What follows the encoding of a number is left. -/
theorem value_append {bytes rest : List UInt8} (h : value limit bytes = .ok (n, rest))
    (more : List UInt8) : value limit (bytes ++ more) = .ok (n, rest ++ more) := by
  fun_induction value limit bytes generalizing n rest with
  | case1 => cases h
  | case2 b r hb =>
    obtain ⟨rfl, rfl⟩ := Prod.mk.inj (Except.ok.inj h)
    rw [List.cons_append, value, if_pos hb]
  | case3 => cases h
  | case4 limit b r hb =>
    obtain ⟨rfl, rfl⟩ := Prod.mk.inj (Except.ok.inj h)
    rw [List.cons_append, value, if_pos hb]
  | case5 limit b r hb ih =>
    obtain ⟨⟨m, rest'⟩, hm, heq⟩ := map_eq_ok_iff.mp h
    obtain ⟨rfl, rfl⟩ := Prod.mk.inj heq
    rw [List.cons_append, value, if_neg hb, ih hm]
    rfl

/-- A number that is read has an encoding at the start of the input. -/
theorem exists_of_value {bytes rest : List UInt8} (h : value limit bytes = .ok (n, rest)) :
    ∃ front, value limit front = .ok (n, []) ∧ bytes = front ++ rest := by
  fun_induction value limit bytes generalizing n rest with
  | case1 => cases h
  | case2 b r hb =>
    obtain ⟨rfl, rfl⟩ := Prod.mk.inj (Except.ok.inj h)
    exact ⟨[b], by rw [value, if_pos hb], rfl⟩
  | case3 => cases h
  | case4 limit b r hb =>
    obtain ⟨rfl, rfl⟩ := Prod.mk.inj (Except.ok.inj h)
    exact ⟨[b], by rw [value, if_pos hb], rfl⟩
  | case5 limit b r hb ih =>
    obtain ⟨⟨m, rest'⟩, hm, heq⟩ := map_eq_ok_iff.mp h
    obtain ⟨rfl, rfl⟩ := Prod.mk.inj heq
    obtain ⟨front, hfront, rfl⟩ := ih hm
    exact ⟨b :: front, by rw [value, if_neg hb, hfront]; rfl, rfl⟩

/-- Sizes are read from their encodings. -/
theorem reads_decode : Reads Spells decode := by
  intro bytes size rest
  constructor
  · intro h
    obtain ⟨⟨n, rest'⟩, hn, heq⟩ := map_eq_ok_iff.mp h
    obtain ⟨rfl, rfl⟩ := Prod.mk.inj heq
    obtain ⟨front, hfront, rfl⟩ := exists_of_value hn
    exact ⟨front, by rw [Spells, decode, hfront]; rfl, rfl⟩
  · rintro ⟨front, hfront, rfl⟩
    obtain ⟨⟨n, rest'⟩, hn, heq⟩ := map_eq_ok_iff.mp hfront
    obtain ⟨rfl, rfl⟩ := Prod.mk.inj heq
    rw [decode, value_append hn]
    rfl

/-! ## Writing and reading -/

/-- A number is read back from its shortest encoding if that is not too long. -/
theorem value_encode (h : n < Nat.pow 128 (limit + 1)) : value limit (encode n) = .ok (n, []) := by
  have hlast (k : Nat) (hk : k < 128) : UInt8.ofNat k < 128 ∧ (UInt8.ofNat k).toNat = k := by
    rw [UInt8.lt_iff_toNat_lt, UInt8.toNat_ofNat']
    simp; omega
  induction limit generalizing n with
  | zero =>
    have hn : n < 128 := h
    rw [encode, if_pos hn, value, if_pos (hlast n hn).1, (hlast n hn).2]
  | succ limit ih =>
    rw [encode]
    split
    · rename_i hn
      rw [value, if_pos (hlast n hn).1, (hlast n hn).2]
    · have hmore : ¬ UInt8.ofNat (n % 128 + 128) < 128 := by
        rw [UInt8.lt_iff_toNat_lt, UInt8.toNat_ofNat']
        simp; omega
      have hbits : (UInt8.ofNat (n % 128 + 128)).toNat % 128 = n % 128 := by
        rw [UInt8.toNat_ofNat']; omega
      have hrest : n / 128 < Nat.pow 128 (limit + 1) :=
        (Nat.div_lt_iff_lt_mul (by decide)).mpr h
      rw [value, if_neg hmore, ih hrest, Except.map, hbits]
      dsimp only
      rw [Nat.mod_add_div]

/-- A size below 2^32 is read back from its shortest encoding. -/
theorem spells_encode (h : n < UInt32.size) : Spells (UInt32.ofNat n) (encode n) := by
  have hlimit : n < Nat.pow 128 (4 + 1) := Nat.lt_trans h (by decide)
  rw [Spells, decode, value_encode hlimit]
  rfl

end Leb128
end PluginHost
