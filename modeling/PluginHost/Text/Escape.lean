/-! # Escapes in quoted text

Quoted texts of configuration name characters by escapes: a backslash and a
letter, or a backslash, `u` or `U` and a code in four or eight hexadecimal
digits.  `length_escape?` says that an escape uses something up. -/
namespace PluginHost
namespace Text

/-- The value of a hexadecimal digit. -/
def hexValue? (c : Char) : Option Nat :=
  if c.isDigit then some (c.toNat - '0'.toNat)
  else if 'a' ≤ c && c ≤ 'f' then some (c.toNat - 'a'.toNat + 10)
  else if 'A' ≤ c && c ≤ 'F' then some (c.toNat - 'A'.toNat + 10)
  else none

/-- The character whose code is written in `count` digits, and what follows. -/
def code? (count : Nat) (cs : List Char) : Option (Char × List Char) := do
  let digits ← (cs.take count).mapM hexValue?
  let value := digits.foldl (fun n d => n * 16 + d) 0
  if digits.length = count ∧ value.isValidChar then return (Char.ofNat value, cs.drop count)
  else none

/-- The character that a backslash and a letter stand for. -/
def letterEscape? : Char → Option Char
  | '"' => some '"'
  | '\\' => some '\\'
  | 'b' => some '\x08'
  | 'f' => some '\x0c'
  | 'n' => some '\n'
  | 'r' => some '\r'
  | 't' => some '\t'
  | _ => none

/-- The character of an escape whose backslash has been read, and what follows. -/
def escape? : List Char → Option (Char × List Char)
  | 'u' :: cs => code? 4 cs
  | 'U' :: cs => code? 8 cs
  | c :: cs => (letterEscape? c).map (·, cs)
  | [] => none

theorem length_code? {count : Nat} {cs rest : List Char} {c : Char}
    (h : code? count cs = some (c, rest)) : rest.length ≤ cs.length := by
  obtain ⟨digits, -, h⟩ := Option.bind_eq_some_iff.mp h
  dsimp only at h
  split at h
  · obtain ⟨-, rfl⟩ := Prod.mk.inj (Option.some.inj h)
    simp
  · simp at h

theorem length_escape? {cs rest : List Char} {c : Char} (h : escape? cs = some (c, rest)) :
    rest.length < cs.length := by
  unfold escape? at h
  split at h
  · exact Nat.lt_succ_of_le (length_code? h)
  · exact Nat.lt_succ_of_le (length_code? h)
  · obtain ⟨d, -, h⟩ := Option.map_eq_some_iff.mp h
    obtain ⟨-, rfl⟩ := Prod.mk.inj h
    simp
  · simp at h

end Text
end PluginHost
