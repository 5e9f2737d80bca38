import PluginHost.Json
import PluginHost.Json.Token

/-! # Strings that are read back

`Json.quoted` escapes a text character by character, and `JsonToken.stringBody` reads the
bytes of what was written, each as a character.  `SpellsBytes bytes cs` says that the reader
finds `bytes` in the characters `cs`, whatever stands behind them.  It is kept when strings
are put together (`SpellsBytes.append`), so one look at each way to write a character is
enough (`spellsBytes_escape`), and `stringBody_written` follows for whole strings. -/
namespace PluginHost
namespace JsonToken

/-! ## Bytes as characters -/

theorem toNat_ofNat {n : Nat} (h : n < 256) : (Char.ofNat n).toNat = n := by
  have hvalid : n.isValidChar := .inl (by omega)
  rw [Char.ofNat, dif_pos hvalid]
  rfl

/-- The character of a byte stands for this byte. -/
theorem toUInt8_ofNat (b : UInt8) : (Char.ofNat b.toNat).toUInt8 = b := by
  have hcode : (Char.ofNat b.toNat).toNat = b.toNat := toNat_ofNat b.toNat_lt
  rw [← UInt8.toNat_inj]
  show (Char.ofNat b.toNat).toNat % 256 = b.toNat
  rw [hcode]
  exact Nat.mod_eq_of_lt b.toNat_lt

/-- The characters, one a byte, that are read where a text was written. -/
def byteChars (cs : List Char) : List Char := charsOfBytes (cs.flatMap String.utf8EncodeChar)

theorem charsOfBytes_encode (cs : List Char) :
    charsOfBytes (Utf8.encode (String.ofList cs)) = byteChars cs := by
  rw [Utf8.encode_ofList, byteChars]

@[simp] theorem byteChars_nil : byteChars [] = [] := rfl

theorem byteChars_append (cs ds : List Char) :
    byteChars (cs ++ ds) = byteChars cs ++ byteChars ds := by
  rw [byteChars, List.flatMap_append]
  exact List.map_append

theorem utf8EncodeChar_ascii {c : Char} (h : c.toNat < 128) :
    String.utf8EncodeChar c = [UInt8.ofNat c.toNat] := if_pos (Nat.le_of_lt_succ h)

/-- An ASCII character is read as it was written. -/
theorem byteChars_cons {c : Char} (h : c.toNat < 128) (cs : List Char) :
    byteChars (c :: cs) = c :: byteChars cs := by
  have hbyte : (UInt8.ofNat c.toNat).toNat = c.toNat :=
    UInt8.toNat_ofNat_of_lt' (Nat.lt_trans h (by decide))
  rw [byteChars, List.flatMap_cons, utf8EncodeChar_ascii h]
  show Char.ofNat (UInt8.ofNat c.toNat).toNat :: byteChars cs = c :: byteChars cs
  rw [hbyte, Char.ofNat_toNat]

/-- ASCII text is read as it was written. -/
theorem byteChars_ascii {cs : List Char} (h : ∀ c ∈ cs, c.toNat < 128) : byteChars cs = cs := by
  induction cs with
  | nil => rfl
  | cons c cs ih =>
    rw [byteChars_cons (h c List.mem_cons_self), ih fun d hd => h d (List.mem_cons_of_mem c hd)]

/-- The bytes of a character behind the ASCII characters stand for no ASCII character. -/
theorem le_of_mem_utf8EncodeChar {c : Char} (h : ¬ c.toNat < 128) {b : UInt8}
    (hb : b ∈ String.utf8EncodeChar c) : 128 ≤ b.toNat := by
  have hhigh (n : Nat) (hlow : 128 ≤ n) (hlimit : n < 256) : 128 ≤ (UInt8.ofNat n).toNat := by
    rwa [UInt8.toNat_ofNat_of_lt' hlimit]
  have hascii : ¬ c.val.toNat ≤ 127 := fun hle => h (Nat.lt_succ_of_le hle)
  unfold String.utf8EncodeChar at hb
  rw [if_neg hascii] at hb
  split at hb
  · simp only [List.mem_cons, List.not_mem_nil, or_false] at hb
    rcases hb with rfl | rfl <;> exact hhigh _ (by omega) (by omega)
  split at hb
  · simp only [List.mem_cons, List.not_mem_nil, or_false] at hb
    rcases hb with rfl | rfl | rfl <;> exact hhigh _ (by omega) (by omega)
  · simp only [List.mem_cons, List.not_mem_nil, or_false] at hb
    rcases hb with rfl | rfl | rfl | rfl <;> exact hhigh _ (by omega) (by omega)

/-! ## Parts of strings -/

/-- Characters of a string in which the reader finds the bytes, whatever follows. -/
def SpellsBytes (bytes : List UInt8) (cs : List Char) : Prop :=
  ∃ pieces, (∀ rest, stringBody (cs ++ rest) =
      (stringBody rest).map fun (behind, rest) => (pieces ++ behind, rest)) ∧
    ∀ behind, bytesOf (pieces ++ behind) = (bytes ++ ·) <$> bytesOf behind

theorem SpellsBytes.nil : SpellsBytes [] [] :=
  ⟨[], fun _ => by simp, fun _ => by simp⟩

theorem SpellsBytes.append {first second : List UInt8} {cs ds : List Char}
    (h : SpellsBytes first cs) (h' : SpellsBytes second ds) :
    SpellsBytes (first ++ second) (cs ++ ds) := by
  obtain ⟨pieces, hread, hbytes⟩ := h
  obtain ⟨pieces', hread', hbytes'⟩ := h'
  refine ⟨pieces ++ pieces', ?_, ?_⟩
  · intro rest
    rw [List.append_assoc, hread, hread', Option.map_map]
    simp only [Function.comp_def, List.append_assoc]
  · intro behind
    rw [List.append_assoc, hbytes, hbytes', Functor.map_map]
    simp only [List.append_assoc]

/-- One part that the reader takes off the front. -/
theorem SpellsBytes.piece {bytes : List UInt8} {cs : List Char} (piece : Piece)
    (hread : ∀ rest, stringBody (cs ++ rest) =
      (stringBody rest).map fun (behind, rest) => (piece :: behind, rest))
    (hbytes : ∀ behind, bytesOf (piece :: behind) = (bytes ++ ·) <$> bytesOf behind) :
    SpellsBytes bytes cs := ⟨[piece], hread, hbytes⟩

/-- A byte that needs no escape stands for itself. -/
theorem spellsBytes_byte {b : UInt8} (hcontrol : 0x20 ≤ b.toNat) (hquote : b.toNat ≠ '"'.toNat)
    (hbackslash : b.toNat ≠ '\\'.toNat) : SpellsBytes [b] [Char.ofNat b.toNat] := by
  have hcode : (Char.ofNat b.toNat).toNat = b.toNat := toNat_ofNat b.toNat_lt
  have hne {c : Char} (h : b.toNat ≠ c.toNat) : Char.ofNat b.toNat ≠ c :=
    fun heq => h (by rw [← hcode, heq])
  refine .piece (.byte b) ?_ fun behind => rfl
  intro rest
  rw [List.singleton_append, stringBody]
  · rw [hcode, toUInt8_ofNat]
    simp only [if_neg (Nat.not_lt.mpr hcontrol)]
    cases stringBody rest <;> rfl
  · exact hne hquote
  · exact fun _ _ _ _ _ h => absurd h (hne hbackslash)
  · exact fun _ _ h => absurd h (hne hbackslash)

/-- A short escape stands for its character. -/
theorem spellsBytes_shortEscape {e c : Char} (h : shortEscape? e = some c) :
    SpellsBytes [c.toUInt8] ['\\', e] := by
  have hcode : e ≠ 'u' := by
    rintro rfl
    cases h
  refine .piece (.byte c.toUInt8) ?_ fun behind => rfl
  intro rest
  rw [List.cons_append, List.singleton_append, stringBody]
  · rw [h]
    cases stringBody rest <;> rfl
  · intro _ _ _ _ _ heq _
    exact hcode heq

/-- A code that is no half of a pair stands for its character. -/
theorem bytesOf_unit {u : Nat} (h : u < 0xD800) (behind : List Piece) :
    bytesOf (.unit u :: behind) =
      (Utf8.encode (String.singleton (Char.ofNat u)) ++ ·) <$> bytesOf behind := by
  have hlead : isLead u = false := by simp [isLead]; omega
  have htrail : isTrail u = false := by simp [isTrail]; omega
  rcases behind with _ | ⟨_ | v, behind⟩ <;> simp [bytesOf, hlead, htrail]

/-- The code of a control character is read from its two digits. -/
theorem unit?_hexDigit :
    ∀ n < 0x20, unit? '0' '0' (Json.hexDigit (n / 16)) (Json.hexDigit (n % 16)) = some n := by
  decide

/-- A control character is written by its code. -/
theorem spellsBytes_code {c : Char} (h : c.toNat < 0x20) : SpellsBytes (String.utf8EncodeChar c)
    ['\\', 'u', '0', '0', Json.hexDigit (c.toNat / 16), Json.hexDigit (c.toNat % 16)] := by
  refine .piece (.unit c.toNat) ?_ ?_
  · intro rest
    show stringBody ('\\' :: 'u' :: '0' :: '0' :: _ :: _ :: rest) = _
    rw [stringBody, unit?_hexDigit c.toNat h]
    cases stringBody rest <;> rfl
  · intro behind
    have hencode : Utf8.encode (String.singleton c) = String.utf8EncodeChar c := by
      rw [String.singleton_eq_ofList, Utf8.encode_ofList, List.flatMap_singleton]
    rw [bytesOf_unit (by omega), Char.ofNat_toNat, hencode]

/-! ## Strings -/

/-- Bytes that need no escape stand for themselves. -/
theorem spellsBytes_plain {bytes : List UInt8} (h : ∀ b ∈ bytes,
    0x20 ≤ b.toNat ∧ b.toNat ≠ '"'.toNat ∧ b.toNat ≠ '\\'.toNat) :
    SpellsBytes bytes (charsOfBytes bytes) := by
  induction bytes with
  | nil => exact .nil
  | cons b bytes ih =>
    obtain ⟨hcontrol, hquote, hbackslash⟩ := h b List.mem_cons_self
    exact (spellsBytes_byte hcontrol hquote hbackslash).append
      (ih fun b' hb' => h b' (List.mem_cons_of_mem b hb'))

/-- **A character is read back from the way it is written**, whether that is a short escape,
its code, or its bytes. -/
theorem spellsBytes_escape (c : Char) :
    SpellsBytes (String.utf8EncodeChar c) (byteChars (Json.escape c)) := by
  have hshort (e : Char) (h : shortEscape? e = some c) (hc : c.toNat < 128)
      (he : e.toNat < 128) :
      SpellsBytes (String.utf8EncodeChar c) (byteChars ['\\', e]) := by
    have hascii : ∀ d ∈ ['\\', e], d.toNat < 128 := by simp [he]
    rw [utf8EncodeChar_ascii hc, byteChars_ascii hascii]
    exact spellsBytes_shortEscape h
  unfold Json.escape
  split
  · subst c; exact hshort '"' rfl (by decide) (by decide)
  split
  · subst c; exact hshort '\\' rfl (by decide) (by decide)
  split
  · subst c; exact hshort 'b' rfl (by decide) (by decide)
  split
  · subst c; exact hshort 't' rfl (by decide) (by decide)
  split
  · subst c; exact hshort 'n' rfl (by decide) (by decide)
  split
  · subst c; exact hshort 'f' rfl (by decide) (by decide)
  split
  · subst c; exact hshort 'r' rfl (by decide) (by decide)
  split
  · rename_i hcontrol
    have hdigit : ∀ n < 16, (Json.hexDigit n).toNat < 128 := by decide
    have hhigh := hdigit (c.toNat / 16) (by omega)
    have hlow := hdigit (c.toNat % 16) (by omega)
    rw [byteChars_ascii (by simp [hhigh, hlow])]
    exact spellsBytes_code hcontrol
  · rename_i hquote hbackslash _ _ _ _ _ hcontrol
    have hne {d : Char} (h : c ≠ d) : c.toNat ≠ d.toNat := by
      intro heq
      rw [← Char.ofNat_toNat c, heq, Char.ofNat_toNat] at h
      exact h rfl
    have hplain : ∀ b ∈ String.utf8EncodeChar c,
        0x20 ≤ b.toNat ∧ b.toNat ≠ '"'.toNat ∧ b.toNat ≠ '\\'.toNat := by
      intro b hb
      by_cases hascii : c.toNat < 128
      · rw [utf8EncodeChar_ascii hascii, List.mem_singleton] at hb
        rw [hb, UInt8.toNat_ofNat_of_lt' (Nat.lt_trans hascii (by decide))]
        exact ⟨Nat.not_lt.mp hcontrol, hne hquote, hne hbackslash⟩
      · have hlarge := le_of_mem_utf8EncodeChar hascii hb
        have hquote : '"'.toNat < 128 := by decide
        have hbackslash : '\\'.toNat < 128 := by decide
        exact ⟨by omega, by omega, by omega⟩
    rw [byteChars, List.flatMap_singleton]
    exact spellsBytes_plain hplain

/-- A text is read back from its escaped characters. -/
theorem spellsBytes_flatMap_escape (cs : List Char) :
    SpellsBytes (cs.flatMap String.utf8EncodeChar) (byteChars (cs.flatMap Json.escape)) := by
  induction cs with
  | nil => exact .nil
  | cons c cs ih =>
    rw [List.flatMap_cons, List.flatMap_cons, byteChars_append]
    exact (spellsBytes_escape c).append ih

/-- **A written string is read up to its closing quote, as the text that was written.** -/
theorem stringBody_written (s : String) (rest : List Char) :
    ∃ pieces, stringBody (byteChars (s.toList.flatMap Json.escape) ++ '"' :: rest) =
      some (pieces, rest) ∧ textOf? pieces = some s := by
  obtain ⟨pieces, hread, hbytes⟩ := spellsBytes_flatMap_escape s.toList
  refine ⟨pieces, ?_, ?_⟩
  · rw [hread, stringBody]
    simp
  · have hall : bytesOf pieces = some (Utf8.encode s) := by
      have h := hbytes []
      rw [List.append_nil, ← Utf8.encode_ofList, String.ofList_toList] at h
      rw [h, bytesOf]
      simp
    rw [textOf?, hall]
    exact Utf8.decode?_encode s

end JsonToken
end PluginHost
