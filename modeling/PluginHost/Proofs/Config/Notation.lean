import PluginHost.Proofs.Config.Numerals
import PluginHost.Proofs.Text.Trimming

/-! # Which texts of variables are texts

A variable is read as a value first, and what is written as no value is a text.  So a text
without blanks at its ends is what a variable sets just when it has no notation of its own
(`ConfigVariable.valueOf_eq_string_iff`): truth values, numbers, quoted texts, lists and
tables have one (`ConfigVariable.HasNotation`).  Blanks around a text that begins with a digit
do not change what it is (`ConfigVariable.valueOf_of_digit`). -/
namespace PluginHost
namespace ConfigVariable

variable {cs : List Char}

theorem isBlank_of_isSpace {c : Char} (h : isSpace c = true) : Text.isBlank c = true := by
  simp only [isSpace, Bool.or_eq_true, beq_iff_eq] at h
  rcases h with (((rfl | rfl) | rfl) | rfl) | rfl <;> decide

theorem skipSpaces_eq_self (h : ∀ c ∈ cs.head?, Text.isBlank c = false) : skipSpaces cs = cs := by
  cases cs with
  | nil => rfl
  | cons c cs =>
    have hc := h c rfl
    rw [skipSpaces, List.dropWhile_cons_of_neg]
    intro hspace
    rw [isBlank_of_isSpace hspace] at hc
    cases hc

/-- White space at the end of a trimmed text is none. -/
theorem eq_nil_of_skipSpaces (front : List Char) {back : List Char}
    (htrim : Text.trim (front ++ back) = front ++ back) (h : skipSpaces back = []) : back = [] := by
  have hspaces : ∀ c ∈ back, isSpace c = true := List.dropWhile_eq_nil_iff.mp h
  cases hlast : back.getLast? with
  | none => exact List.getLast?_eq_none_iff.mp hlast
  | some c =>
    have hmem : c ∈ (front ++ back).getLast? := by
      rw [List.getLast?_append, hlast]
      rfl
    have hblank := (Text.trim_eq_self_iff.mp htrim).2 c hmem
    rw [isBlank_of_isSpace (hspaces c (List.mem_of_getLast? hlast))] at hblank
    cases hblank

theorem trim_skipSpaces (cs : List Char) : Text.trim (skipSpaces cs) = Text.trim cs := by
  induction cs with
  | nil => rfl
  | cons c cs ih =>
    by_cases hc : isSpace c = true
    · have hblank : Text.trim (c :: cs) = Text.trim cs :=
        congrArg Text.trimEnd (Text.trimStart_of_blank (isBlank_of_isSpace hc) cs)
      rw [skipSpaces, List.dropWhile_cons_of_pos hc, hblank]
      exact ih
    · rw [skipSpaces, List.dropWhile_cons_of_neg hc]

/-! ## Notations -/

/-- The texts that a variable does not take as they are: words for truth values, numbers, a
character between single quotes, a text between double quotes, a list between brackets and a
table between braces, each written to its end. -/
inductive HasNotation : List Char → Prop where
  | yes : HasNotation ['t', 'r', 'u', 'e']
  | no : HasNotation ['f', 'a', 'l', 's', 'e']
  | number {cs : List Char} : IsNumeral cs → HasNotation cs
  | character (c : Char) : HasNotation ['\'', c, '\'']
  | quoted {cs text back : List Char} : TomlText.basic? cs = some (text, back) →
    skipSpaces back = [] → HasNotation ('"' :: cs)
  | list {cs : List Char} {value : ConfigValue} :
    (reader (cs.length + 1)).read ('[' :: cs) = some (value, []) → HasNotation ('[' :: cs)
  | table {cs : List Char} {value : ConfigValue} :
    (reader (cs.length + 1)).read ('\x7b' :: cs) = some (value, []) → HasNotation ('\x7b' :: cs)

/-- What reads the parts of a value. -/
def partReader : (depth : Nat) → Option (Reader ConfigValue)
  | 0 => none
  | depth + 1 => some (reader depth)

theorem read_reader (depth : Nat) (cs : List Char) : (reader depth).read cs =
    (first? (partReader depth) (skipSpaces cs)).map fun (v, rest) => (v, skipSpaces rest) := by
  cases depth <;> rfl

/-- Marks that a value may begin with which is no text without quotes. -/
def isOpening (c : Char) : Bool :=
  c == 't' || c == 'f' || c == '\x7b' || c == '[' || c == '"' || c == '\''

theorem first?_of_not_opening (part : Option (Reader ConfigValue))
    (h : ∀ c ∈ cs.head?, isOpening c = false) :
    first? part cs = some (bare (Text.trim (cs.takeWhile isBare)), cs.dropWhile isBare) := by
  unfold first?
  split
  all_goals first | rfl | exact absurd (h _ rfl) (by decide)

/-- One more character is read. -/
theorem eq_cons_of_map_push {c : Char} {read : Option (List Char × List Char)}
    {text rest : List Char} (h : read.map (TomlText.push c) = some (text, rest)) :
    ∃ others, read = some (others, rest) ∧ text = c :: others := by
  obtain ⟨⟨others, rest'⟩, hread, h⟩ := Option.map_eq_some_iff.mp h
  obtain ⟨rfl, rfl⟩ := Prod.mk.inj h
  exact ⟨others, hread, rfl⟩

theorem isBare_of_isBlank {c : Char} (h : Text.isBlank c = true) : isBare c = true := by
  refine Bool.not_eq_false _ ▸ fun hbare => ?_
  simp only [isBare, Bool.not_eq_false', Bool.or_eq_true, beq_iff_eq] at hbare
  rcases hbare with (((rfl | rfl) | rfl) | rfl) | rfl <;> exact absurd h (by decide)

theorem not_isOpening_of_isBlank {c : Char} (h : Text.isBlank c = true) :
    isOpening c = false := by
  refine Bool.eq_false_iff.mpr fun hopening => ?_
  simp only [isOpening, Bool.or_eq_true, beq_iff_eq] at hopening
  rcases hopening with ((((rfl | rfl) | rfl) | rfl) | rfl) | rfl <;> exact absurd h (by decide)

theorem isBare_of_isNumeralChar {c : Char} (h : isNumeralChar c = true) : isBare c = true := by
  refine Bool.not_eq_false _ ▸ fun hbare => ?_
  simp only [isBare, Bool.not_eq_false', Bool.or_eq_true, beq_iff_eq] at hbare
  rcases hbare with (((rfl | rfl) | rfl) | rfl) | rfl <;> exact absurd h (by decide)

theorem not_isOpening_of_isNumeralChar {c : Char} (h : isNumeralChar c = true) :
    isOpening c = false := by
  refine Bool.eq_false_iff.mpr fun hopening => ?_
  simp only [isOpening, Bool.or_eq_true, beq_iff_eq] at hopening
  rcases hopening with ((((rfl | rfl) | rfl) | rfl) | rfl) | rfl <;> exact absurd h (by decide)

/-- What is quoted is shorter than with its quotes. -/
theorem length_add_lt_of_basic? {cs text rest : List Char}
    (h : TomlText.basic? cs = some (text, rest)) : text.length + rest.length < cs.length := by
  fun_induction TomlText.basic? cs generalizing text rest with
  | case1 => cases h
  | case2 =>
    obtain ⟨rfl, rfl⟩ := Prod.mk.inj (Option.some.inj h)
    simp
  | case3 => cases h
  | case4 back c rest' hescape hlt ih =>
    obtain ⟨others, hread, rfl⟩ := eq_cons_of_map_push h
    have hshort := ih hread
    simp only [List.length_cons]
    omega
  | case5 c cs _ _ _ ih =>
    obtain ⟨others, hread, rfl⟩ := eq_cons_of_map_push h
    have hshort := ih hread
    simp only [List.length_cons]
    omega
  | case6 => cases h

/-- What a trimmed text is read as to its end. -/
theorem read_eq_nil_iff (htrim : Text.trim cs = cs) {depth : Nat} {value : ConfigValue} :
    (reader depth).read cs = some (value, []) ↔
      ∃ back, first? (partReader depth) cs = some (value, back) ∧ skipSpaces back = [] := by
  rw [read_reader, skipSpaces_eq_self (Text.trim_eq_self_iff.mp htrim).1]
  simp

/-- What is written between brackets or braces is no text. -/
theorem ne_string_of_bracket {part : Option (Reader ConfigValue)} {c : Char}
    (hc : c = '[' ∨ c = '\x7b') {back : List Char} {value : ConfigValue}
    (h : first? part (c :: cs) = some (value, back)) (text : String) : value ≠ .string text := by
  rcases hc with rfl | rfl
  all_goals
    obtain ⟨part, -, h⟩ := Option.bind_eq_some_iff.mp h
    obtain ⟨⟨items, rest⟩, -, h⟩ := Option.bind_eq_some_iff.mp h
    obtain ⟨rfl, -⟩ := Prod.mk.inj (Option.some.inj h)
    simp

theorem first?_of_isNumeral (h : IsNumeral cs) (part : Option (Reader ConfigValue)) :
    first? part cs = some (bare (Text.trim cs), []) := by
  have hbare : ∀ c ∈ cs, isBare c = true := fun c hc =>
    isBare_of_isNumeralChar (h.isNumeralChar c hc)
  have hopening : ∀ c ∈ cs.head?, isOpening c = false := fun c hc =>
    not_isOpening_of_isNumeralChar (h.isNumeralChar c (List.mem_of_mem_head? hc))
  rw [first?_of_not_opening part hopening, List.takeWhile_eq_self_iff.mpr hbare,
    List.dropWhile_eq_nil_iff.mpr hbare]

/-- What has a notation is read to its end as another value than itself. -/
theorem HasNotation.exists_read (h : HasNotation cs) (htrim : Text.trim cs = cs) :
    ∃ value, (reader cs.length).read cs = some (value, []) ∧
      value ≠ .string (String.ofList cs) := by
  simp only [read_eq_nil_iff htrim]
  cases h with
  | yes => exact ⟨.boolean true, ⟨[], rfl, rfl⟩, by simp⟩
  | no => exact ⟨.boolean false, ⟨[], rfl, rfl⟩, by simp⟩
  | number h =>
    refine ⟨bare cs, ⟨[], ?_, rfl⟩, fun heq => (bare_eq_string_iff.mp heq).1 h⟩
    rw [first?_of_isNumeral h, htrim]
  | character c =>
    refine ⟨.string (String.singleton c), ⟨[], rfl, rfl⟩, fun heq => ?_⟩
    have htexts := congrArg String.toList (ConfigValue.string.inj heq)
    simp at htexts
  | @quoted cs text back h hback =>
    refine ⟨.string (String.ofList text), ⟨back, congrArg (Option.map _) h, hback⟩, fun heq => ?_⟩
    have htexts := congrArg String.toList (ConfigValue.string.inj heq)
    have hshort := length_add_lt_of_basic? h
    rw [String.toList_ofList, String.toList_ofList] at htexts
    rw [htexts, List.length_cons] at hshort
    omega
  | list h =>
    obtain ⟨back, hfirst, hback⟩ := (read_eq_nil_iff htrim).mp h
    exact ⟨_, ⟨back, hfirst, hback⟩, ne_string_of_bracket (.inl rfl) hfirst _⟩
  | table h =>
    obtain ⟨back, hfirst, hback⟩ := (read_eq_nil_iff htrim).mp h
    exact ⟨_, ⟨back, hfirst, hback⟩, ne_string_of_bracket (.inr rfl) hfirst _⟩

/-- What is read to its end as another value than itself has the notation it is read by. -/
theorem hasNotation_of_read (htrim : Text.trim cs = cs) {value : ConfigValue}
    (hread : (reader cs.length).read cs = some (value, []))
    (hne : value ≠ .string (String.ofList cs)) : HasNotation cs := by
  obtain ⟨back, hfirst, hback⟩ := (read_eq_nil_iff htrim).mp hread
  unfold first? at hfirst
  split at hfirst
  · rename_i rest
    obtain ⟨-, rfl⟩ := Prod.mk.inj (Option.some.inj hfirst)
    obtain rfl := eq_nil_of_skipSpaces ['t', 'r', 'u', 'e'] htrim hback
    exact .yes
  · rename_i rest
    obtain ⟨-, rfl⟩ := Prod.mk.inj (Option.some.inj hfirst)
    obtain rfl := eq_nil_of_skipSpaces ['f', 'a', 'l', 's', 'e'] htrim hback
    exact .no
  · exact .table hread
  · exact .list hread
  · obtain ⟨⟨text, rest⟩, hquoted, hfirst⟩ := Option.map_eq_some_iff.mp hfirst
    obtain ⟨-, rfl⟩ := Prod.mk.inj hfirst
    exact .quoted hquoted hback
  · rename_i c rest
    obtain ⟨-, rfl⟩ := Prod.mk.inj (Option.some.inj hfirst)
    obtain rfl := eq_nil_of_skipSpaces ['\'', c, '\''] htrim hback
    exact .character c
  · cases hfirst
  · obtain ⟨rfl, rfl⟩ := Prod.mk.inj (Option.some.inj hfirst)
    have happend := List.takeWhile_append_dropWhile (p := isBare) (l := cs)
    have hdrop := eq_nil_of_skipSpaces (cs.takeWhile isBare) (happend.symm ▸ htrim) hback
    rw [hdrop, List.append_nil] at happend
    rw [happend, htrim] at hne
    by_cases hnumeral : IsNumeral cs
    · exact .number hnumeral
    · exact absurd (bare_eq_string_iff.mpr ⟨hnumeral, rfl⟩) hne

/-- A trimmed text has a notation just when it is read to its end as another value than
itself. -/
theorem hasNotation_iff (htrim : Text.trim cs = cs) : HasNotation cs ↔
    ∃ value, (reader cs.length).read cs = some (value, []) ∧
      value ≠ .string (String.ofList cs) :=
  ⟨fun h => h.exists_read htrim, fun ⟨_, hread, hne⟩ => hasNotation_of_read htrim hread hne⟩

theorem valueOf_of_read {v : String} {value : ConfigValue}
    (h : (reader v.length).read v.toList = some (value, [])) : valueOf v = value := by
  unfold valueOf
  rw [h]

theorem valueOf_of_not_read {v : String}
    (h : ∀ value, (reader v.length).read v.toList ≠ some (value, [])) : valueOf v = .string v := by
  unfold valueOf
  split
  · rename_i value hread
    exact absurd hread (h value)
  · rfl

/-- **A trimmed text without a notation of its own is the text that a variable sets**, and no
other is. -/
theorem valueOf_eq_string_iff {v : String} (htrim : Text.trim v.toList = v.toList) :
    valueOf v = .string v ↔ ¬HasNotation v.toList := by
  rw [hasNotation_iff htrim, String.ofList_toList, String.length_toList]
  by_cases hread : ∃ value, (reader v.length).read v.toList = some (value, [])
  · obtain ⟨value, hread⟩ := hread
    rw [valueOf_of_read hread, hread]
    simp
  · have hnone := fun value h => hread ⟨value, h⟩
    rw [valueOf_of_not_read hnone]
    exact iff_of_true rfl fun ⟨value, h, _⟩ => hnone value h

/-! ## Texts that begin with a digit -/

/-- Blanks around a text that begins with a digit do not matter: it is a number or a text as
it is without them. -/
theorem valueOf_of_digit {v : String} {d : Char} {ds : List Char}
    (hv : Text.trim v.toList = d :: ds) (hd : d.isDigit = true) :
    (IsNumeral (d :: ds) → ∀ w, valueOf v ≠ .string w) ∧
    (¬IsNumeral (d :: ds) → ∃ w, valueOf v = .string w ∧ Text.trim w.toList = d :: ds) := by
  have htrim : Text.trim (skipSpaces v.toList) = d :: ds := (trim_skipSpaces _).trans hv
  have hread : (reader v.length).read v.toList =
      (first? (partReader v.length) (skipSpaces v.toList)).map fun (v, rest) =>
        (v, skipSpaces rest) := read_reader _ _
  generalize skipSpaces v.toList = cs at htrim hread
  have hopening : ∀ c ∈ cs.head?, isOpening c = false := by
    intro c hc
    obtain ⟨front, back, heq, hfront, -⟩ := Text.exists_trim cs
    rw [heq, htrim] at hc
    cases front with
    | nil =>
      obtain rfl := Option.some.inj hc
      exact not_isOpening_of_isNumeralChar (isNumeralChar_of_isDigit hd)
    | cons b front =>
      obtain rfl := Option.some.inj hc
      exact not_isOpening_of_isBlank (hfront _ List.mem_cons_self)
  rw [first?_of_not_opening _ hopening, Option.map_some] at hread
  by_cases hbare : ∀ c ∈ cs, isBare c = true
  · -- All of the text is read as one value.
    rw [List.takeWhile_eq_self_iff.mpr hbare, List.dropWhile_eq_nil_iff.mpr hbare, htrim] at hread
    rw [valueOf_of_read hread]
    refine ⟨fun h w heq => (bare_eq_string_iff.mp heq).1 h, fun h => ?_⟩
    refine ⟨_, bare_eq_string_iff.mpr ⟨h, rfl⟩, ?_⟩
    rw [String.toList_ofList, ← hv, Text.trim_trim]
  · have hrest : skipSpaces (cs.dropWhile isBare) ≠ [] := by
      intro h
      have hspaces := List.dropWhile_eq_nil_iff.mp h
      cases hdrop : cs.dropWhile isBare with
      | nil => exact hbare (List.dropWhile_eq_nil_iff.mp hdrop)
      | cons c rest =>
        have hc := List.head?_dropWhile_not isBare cs
        rw [hdrop] at hc hspaces
        have hblank := isBlank_of_isSpace (hspaces c List.mem_cons_self)
        exact Bool.eq_false_iff.mp hc (isBare_of_isBlank hblank)
    have hvalue : valueOf v = .string v := by
      refine valueOf_of_not_read fun value h => hrest ?_
      rw [hread] at h
      exact (Prod.mk.inj (Option.some.inj h)).2
    refine ⟨fun h => ?_, fun _ => ⟨v, hvalue, hv⟩⟩
    refine absurd (fun c hc => ?_) hbare
    rcases Text.isBlank_or_mem_trim hc with hblank | hmem
    · exact isBare_of_isBlank hblank
    · exact isBare_of_isNumeralChar (h.isNumeralChar c (htrim ▸ hmem))

end ConfigVariable
end PluginHost
