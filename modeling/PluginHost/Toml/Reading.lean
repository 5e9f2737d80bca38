import PluginHost.Decimal.Numeral
import PluginHost.Text.Reader
import PluginHost.Toml
import PluginHost.Toml.Text

/-! # Reading TOML

`TomlTable.ofText?` reads a text: it is cut into pieces, one a line unless a
value goes over several, and the pieces are put together.  Dates and times are
not read. -/
namespace PluginHost
namespace TomlText

/-- How deeply values may be nested and how many names a key may have. -/
def maxDepth : Nat := 79

/-! ## Numbers and truth values -/

/-- Digits, with single underscores between them. -/
def isGrouped (isDigit : Char → Bool) (cs : List Char) : Bool :=
  (cs.splitOn '_').all fun group => !group.isEmpty && group.all isDigit

/-- Grouped digits that start with zero only if there is no other. -/
def isWhole (cs : List Char) : Bool :=
  isGrouped Char.isDigit cs && (cs.head? != some '0' || cs.length == 1)

/-- An integer that fits 64 bits. -/
def integer? (value : Int) : Option Toml :=
  if -Int.pow 2 63 ≤ value ∧ value < Int.pow 2 63 then some (.integer value) else none

/-- An integer in another base than ten. -/
def ofBase? (base : Nat) (cs : List Char) : Option Toml :=
  if isGrouped (fun c => (Text.hexValue? c).any (· < base)) cs then
    integer? ((cs.filterMap Text.hexValue?).foldl (fun n d => n * base + d) 0 : Nat)
  else none

/-- A number in base ten.  Doubles do not reach every positive number. -/
def number? (cs : List Char) : Option Toml :=
  let n := Numeral.ofChars cs
  let digits := n.withoutGroups
  if !isWhole n.whole then none
  else if n.fraction.isNone && n.exponent.isNone then integer? digits.toInt
  else if n.fraction.all (isGrouped Char.isDigit)
      && n.exponent.all (fun e => isGrouped Char.isDigit e.2) then
    let x := digits.toFloat
    -- Out of reach is an error for positive numbers only.
    if x.isInf && !n.negative then none else some (.float x)
  else none

/-- The value that a word stands for. -/
def word? (cs : List Char) : Option Toml :=
  match cs with
  | ['t', 'r', 'u', 'e'] => some (.boolean true)
  | ['f', 'a', 'l', 's', 'e'] => some (.boolean false)
  | ['i', 'n', 'f'] | ['+', 'i', 'n', 'f'] => some (.float Decimal.infinity)
  | ['-', 'i', 'n', 'f'] => some (.float (-Decimal.infinity))
  | ['n', 'a', 'n'] | ['+', 'n', 'a', 'n'] | ['-', 'n', 'a', 'n'] => some (.float (0 / 0))
  | '0' :: 'x' :: cs => ofBase? 16 cs
  | '0' :: 'o' :: cs => ofBase? 8 cs
  | '0' :: 'b' :: cs => ofBase? 2 cs
  | cs => number? cs

/-- The characters of words. -/
def isWordChar (c : Char) : Bool :=
  c.isAlphanum || c == '_' || c == '+' || c == '-' || c == '.'

/-! ## Keys -/

/-- The characters of a name without quotes. -/
def isBareChar (c : Char) : Bool := c.isAlphanum || c == '_' || c == '-'

/-- The name without quotes that a text starts with. -/
def bareName? (cs : List Char) : Option (List Char × List Char) :=
  if (cs.takeWhile isBareChar).isEmpty then none
  else some (cs.takeWhile isBareChar, cs.dropWhile isBareChar)

/-- The name that a text starts with. -/
def name? : List Char → Option (List Char × List Char)
  | '"' :: rest => basic? rest
  | '\'' :: rest => literal? rest
  | cs => bareName? cs

/-- The text without the blanks it starts with. -/
def skipSpaces (cs : List Char) : List Char := cs.dropWhile isSpace

theorem length_skipSpaces (cs : List Char) : (skipSpaces cs).length ≤ cs.length :=
  (List.dropWhile_sublist isSpace).length_le

theorem length_bareName? {cs text rest : List Char} (h : bareName? cs = some (text, rest)) :
    rest.length < cs.length := by
  unfold bareName? at h
  split at h
  · simp at h
  · rename_i hne
    obtain ⟨-, rfl⟩ := Prod.mk.inj (Option.some.inj h)
    have heq := congrArg List.length (List.takeWhile_append_dropWhile (p := isBareChar) (l := cs))
    rw [List.length_append] at heq
    have : 0 < (cs.takeWhile isBareChar).length := by
      simpa [List.length_pos_iff, List.isEmpty_iff] using hne
    omega

theorem length_name? {cs text rest : List Char} (h : name? cs = some (text, rest)) :
    rest.length < cs.length := by
  unfold name? at h
  split at h
  · exact Nat.lt_succ_of_lt (length_basic? h)
  · exact Nat.lt_succ_of_lt (length_literal? h)
  · exact length_bareName? h

/-- The dotted key that a text starts with, and what is left behind blanks. -/
def key? (cs : List Char) : Option (TomlKey × List Char) :=
  match hn : name? (skipSpaces cs) with
  | none => none
  | some (name, back) =>
    match hb : skipSpaces back with
    | '.' :: rest =>
      have : rest.length < cs.length := by
        have h₁ := length_skipSpaces cs
        have h₂ := length_name? hn
        have h₃ := hb ▸ length_skipSpaces back
        simp only [List.length_cons] at h₃
        omega
      (key? rest).map fun (key, rest) => (⟨String.ofList name :: key.parents, key.name⟩, rest)
    | rest => some (⟨[], String.ofList name⟩, rest)
termination_by cs.length

theorem length_key? {cs rest : List Char} {key : TomlKey} (h : key? cs = some (key, rest)) :
    rest.length < cs.length := by
  fun_induction key? cs generalizing key rest with
  | case1 => simp at h
  | case2 cs name back hn r hb lt ih =>
    obtain ⟨⟨k, r'⟩, hk, h⟩ := Option.map_eq_some_iff.mp h
    obtain ⟨-, rfl⟩ := Prod.mk.inj h
    exact Nat.lt_trans (ih hk) lt
  | case3 cs name back hn r =>
    obtain ⟨-, rfl⟩ := Prod.mk.inj (Option.some.inj h)
    have h₁ := length_skipSpaces cs
    have h₂ := length_name? hn
    have h₃ := length_skipSpaces back
    omega

/-- A key that has not too many names. -/
def shortKey? (cs : List Char) : Option (TomlKey × List Char) :=
  (key? cs).filter fun (key, _) => key.names.length ≤ maxDepth

/-! ## Values -/

/-- What follows blanks, line ends and comments. -/
def skipFiller : (inComment : Bool) → List Char → List Char
  | _, [] => []
  | _, '\n' :: rest => skipFiller false rest
  | _, '\r' :: '\n' :: rest => skipFiller false rest
  | true, c :: rest => if isPlain c then skipFiller true rest else c :: rest
  | false, c :: rest =>
    if isSpace c then skipFiller false rest
    else if c == '#' then skipFiller true rest
    else c :: rest

theorem length_skipFiller (inComment : Bool) (cs : List Char) :
    (skipFiller inComment cs).length ≤ cs.length := by
  fun_induction skipFiller inComment cs <;> grind

/-- How arrays are written. -/
def arrayForm : ListForm := ⟨']', true, skipFiller false, length_skipFiller false⟩

/-- How tables between braces are written. -/
def bracesForm : ListForm := ⟨'\x7d', false, skipSpaces, length_skipSpaces⟩

/-- A key, the mark `=` and a value. -/
def setting (value : Reader Toml) : Reader (TomlKey × Toml) where
  read cs :=
    match shortKey? cs with
    | some (key, '=' :: rest) =>
      (value.read (skipSpaces rest)).map fun (v, rest) => ((key, v), rest)
    | _ => none
  length_le h := by
    split at h
    · rename_i key back hk
      obtain ⟨⟨v, r⟩, hv, h⟩ := Option.map_eq_some_iff.mp h
      obtain ⟨-, rfl⟩ := Prod.mk.inj h
      have h₁ := length_key? (Option.filter_eq_some_iff.mp hk).1
      have h₂ := length_skipSpaces back
      have h₃ := value.length_le hv
      simp only [List.length_cons] at h₁
      omega
    · simp at h

/-- A value, whose parts `part` reads.  Without that it has none. -/
def valueOf (part : Option (Reader Toml)) : Reader Toml where
  read cs :=
    match cs with
    | '[' :: rest => do
      let (items, rest) ← arrayForm.read (← part) true rest
      return (.array items, rest)
    | '{' :: rest => do
      let (settings, rest) ← bracesForm.read (setting (← part)) true rest
      return (.table .braces (← TomlTable.ofSettings settings), rest)
    | cs =>
      if cs.head? = some '"' ∨ cs.head? = some '\'' then
        (read? cs).map fun (text, rest) => (.string (String.ofList text), rest)
      else (word? (cs.takeWhile isWordChar)).map fun v => (v, cs.dropWhile isWordChar)
  length_le h := by
    split at h
    · obtain ⟨part, -, h⟩ := Option.bind_eq_some_iff.mp h
      obtain ⟨⟨items, r⟩, hi, h⟩ := Option.bind_eq_some_iff.mp h
      obtain ⟨-, rfl⟩ := Prod.mk.inj (Option.some.inj h)
      exact Nat.le_succ_of_le (arrayForm.length_read part hi)
    · obtain ⟨part, -, h⟩ := Option.bind_eq_some_iff.mp h
      obtain ⟨⟨settings, r⟩, hs, h⟩ := Option.bind_eq_some_iff.mp h
      obtain ⟨members, -, h⟩ := Option.bind_eq_some_iff.mp h
      obtain ⟨-, rfl⟩ := Prod.mk.inj (Option.some.inj h)
      exact Nat.le_succ_of_le (bracesForm.length_read (setting part) hs)
    · split at h
      · obtain ⟨⟨text, r⟩, ht, h⟩ := Option.map_eq_some_iff.mp h
        obtain ⟨-, rfl⟩ := Prod.mk.inj h
        exact Nat.le_of_lt (length_read? ht)
      · obtain ⟨v, -, h⟩ := Option.map_eq_some_iff.mp h
        obtain ⟨-, rfl⟩ := Prod.mk.inj h
        exact (List.dropWhile_sublist isWordChar).length_le

/-- A value with so many levels of parts at most. -/
def value : (depth : Nat) → Reader Toml
  | 0 => valueOf none
  | depth + 1 => valueOf (some (value depth))

/-! ## Pieces -/

/-- What follows the end of a line, in front of which a comment may stand. -/
def lineRest? (cs : List Char) : Option (List Char) :=
  match skipComment (skipSpaces cs) with
  | [] => some []
  | '\n' :: rest => some rest
  | '\r' :: '\n' :: rest => some rest
  | _ => none
where
  /-- What follows a comment. -/
  skipComment : List Char → List Char
    | '#' :: rest => rest.dropWhile isPlain
    | cs => cs

/-- The header whose first bracket has been read. -/
def header? : List Char → Option (TomlPiece × List Char)
  | '[' :: rest =>
    match shortKey? rest with
    | some (key, ']' :: ']' :: rest) => some (.item key, rest)
    | _ => none
  | rest =>
    match shortKey? rest with
    | some (key, ']' :: rest) => some (.header key, rest)
    | _ => none

/-- The header or setting that a line starts with. -/
def piece? (cs : List Char) : Option (TomlPiece × List Char) :=
  match skipSpaces cs with
  | '[' :: rest => header? rest
  | cs => ((setting (value maxDepth)).read cs).map fun ((key, v), rest) => (.setting key v, rest)

/-- The first line, which may be empty, and the lines behind it. -/
def line? (cs : List Char) : Option (Option TomlPiece × List Char) :=
  match lineRest? cs with
  | some rest => some (none, rest)
  | none => do
    let (piece, rest) ← piece? cs
    return (some piece, ← lineRest? rest)

theorem length_skipComment (cs : List Char) :
    (lineRest?.skipComment cs).length ≤ cs.length := by
  unfold lineRest?.skipComment
  split
  · exact Nat.le_succ_of_le (List.dropWhile_sublist isPlain).length_le
  · exact Nat.le_refl _

theorem length_lineRest? {cs rest : List Char} (h : lineRest? cs = some rest) :
    rest.length ≤ cs.length - 1 := by
  have h₁ := length_skipSpaces cs
  have h₂ := length_skipComment (skipSpaces cs)
  unfold lineRest? at h
  split at h
  · obtain rfl := Option.some.inj h
    exact Nat.zero_le _
  · rename_i heq
    obtain rfl := Option.some.inj h
    rw [heq] at h₂
    simp only [List.length_cons] at h₂
    omega
  · rename_i heq
    obtain rfl := Option.some.inj h
    rw [heq] at h₂
    simp only [List.length_cons] at h₂
    omega
  · simp at h

theorem length_header? {cs rest : List Char} {piece : TomlPiece}
    (h : header? cs = some (piece, rest)) : rest.length ≤ cs.length := by
  unfold header? at h
  split at h
  all_goals
    split at h
    · rename_i hk
      obtain ⟨-, rfl⟩ := Prod.mk.inj (Option.some.inj h)
      have := length_key? (Option.filter_eq_some_iff.mp hk).1
      simp only [List.length_cons] at *
      omega
    · simp at h

theorem length_piece? {cs rest : List Char} {piece : TomlPiece}
    (h : piece? cs = some (piece, rest)) : rest.length ≤ cs.length := by
  have h₁ := length_skipSpaces cs
  unfold piece? at h
  split at h
  · rename_i heq
    rw [heq] at h₁
    have := length_header? h
    simp only [List.length_cons] at h₁
    omega
  · obtain ⟨⟨s, r⟩, hs, h⟩ := Option.map_eq_some_iff.mp h
    obtain ⟨-, rfl⟩ := Prod.mk.inj h
    have := (setting (value maxDepth)).length_le hs
    omega

theorem length_line? {cs rest : List Char} {piece : Option TomlPiece} (hne : cs ≠ [])
    (h : line? cs = some (piece, rest)) : rest.length < cs.length := by
  have h₁ := List.length_pos_iff.mpr hne
  unfold line? at h
  split at h
  · rename_i hr
    obtain ⟨-, rfl⟩ := Prod.mk.inj (Option.some.inj h)
    have := length_lineRest? hr
    omega
  · obtain ⟨⟨p, back⟩, hp, h⟩ := Option.bind_eq_some_iff.mp h
    obtain ⟨r, hr, h⟩ := Option.bind_eq_some_iff.mp h
    obtain ⟨-, rfl⟩ := Prod.mk.inj (Option.some.inj h)
    have h₂ := length_piece? hp
    have h₃ := length_lineRest? hr
    omega

/-- The pieces of a text. -/
def pieces? (cs : List Char) : Option (List TomlPiece) :=
  if hne : cs = [] then some []
  else
    match h : line? cs with
    | none => none
    | some (piece, rest) =>
      have := length_line? hne h
      (pieces? rest).map (piece.toList ++ ·)
termination_by cs.length

/-- A text without the byte order mark it may start with. -/
def skipMark : List Char → List Char
  | '\uFEFF' :: cs => cs
  | cs => cs

end TomlText

/-- The table that a text describes. -/
def TomlTable.ofText? (text : String) : Option TomlTable :=
  (TomlText.pieces? (TomlText.skipMark text.toList)).bind TomlTable.ofPieces

end PluginHost
