import Mathlib.Data.String.Basic
import PluginHost.Text.Utf8

/-! # The order of bytes

Texts are compared character by character.  Their UTF-8 bytes are in the same order
(`encode_lt_encode`): the first byte of a character tells how many there are, a character with
more bytes is greater, and of two characters with as many bytes the greater one has the greater
digits. -/
namespace PluginHost
namespace Utf8

theorem toNat_lt_of_char (c : Char) : c.val.toNat < 1114112 := by
  obtain h | h := c.valid
  · exact Nat.lt_trans h (by decide)
  · exact h.2

/-- Of two characters the greater has the greater bytes, whatever is behind them. -/
theorem utf8EncodeChar_append_lt {c d : Char} (h : c < d) (bytes bytes' : List UInt8) :
    String.utf8EncodeChar c ++ bytes < String.utf8EncodeChar d ++ bytes' := by
  have hlt : c.val.toNat < d.val.toNat := h
  have hbound := toNat_lt_of_char d
  unfold String.utf8EncodeChar
  generalize c.val.toNat = v at hlt ⊢
  generalize d.val.toNat = w at hlt hbound ⊢
  -- The bytes are digits to the base 64, and the first in which the numbers differ decides.
  have hdigits : v / 4096 < w / 4096 ∨ v / 4096 = w / 4096 ∧ v / 64 % 64 < w / 64 % 64 ∨
      v / 4096 = w / 4096 ∧ v / 64 % 64 = w / 64 % 64 ∧ v % 64 < w % 64 := by
    omega
  have hfirst (n : Nat) : n / 262144 = n / 4096 / 64 := (Nat.div_div_eq_div_mul n 4096 64).symm
  dsimp only
  split_ifs
  all_goals
    simp only [List.cons_append, List.nil_append, List.cons_lt_cons_iff, UInt8.lt_iff_toNat_lt,
      ← UInt8.toNat_inj, UInt8.toNat_ofNat', hfirst]
    omega

/-- **Texts are in the order of their bytes.** -/
theorem encode_lt_encode {s t : String} (h : s < t) : encode s < encode t := by
  have hchars : ∀ {cs ds : List Char}, cs < ds →
      cs.flatMap String.utf8EncodeChar < ds.flatMap String.utf8EncodeChar := by
    intro cs ds hlt
    induction hlt with
    | @nil d ds =>
      obtain ⟨byte, bytes, hbytes⟩ :=
        List.exists_cons_of_ne_nil (String.utf8EncodeChar_ne_nil (c := d))
      rw [List.flatMap_nil, List.flatMap_cons, hbytes]
      exact List.nil_lt_cons _ _
    | cons _ ih =>
      rw [List.flatMap_cons, List.flatMap_cons]
      exact List.append_left_lt ih
    | rel hfirst =>
      rw [List.flatMap_cons, List.flatMap_cons]
      exact utf8EncodeChar_append_lt hfirst _ _
  have hs := encode_ofList s.toList
  have ht := encode_ofList t.toList
  rw [String.ofList_toList] at hs ht
  rw [hs, ht]
  exact hchars (String.lt_iff_toList_lt.mp h)

end Utf8
end PluginHost
