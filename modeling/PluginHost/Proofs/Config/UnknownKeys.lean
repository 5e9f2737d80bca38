import PluginHost.Proofs.Config.Faults
import PluginHost.Proofs.Config.KeyPlaces
import PluginHost.Proofs.Text.Trimming

/-! # Where unknown keys are pointed at

A document is a text of lines, each of which sets a bare key to a text, is the header of a
section, or holds a comment at most, and in which the text of a header stands nowhere but on the
line of this header (`IsDocument`).

The search for an unknown key is given the section and the key behind it as a path, and takes
the first of the names for that of the section.  Below the header of this section the first line
that sets the key is the only one there, because keys are set once, and so an unknown key of a
section is pointed at (`IsDocument.find?_eq_some`).  A key at the top is its own path, so the
search begins behind a header with the name of the key, and where there is none such a key is
pointed at nowhere (`Config.points_at_unknown_key`). -/
namespace PluginHost

/-! ## Documents -/

/-- A line of a document: its characters with its end, and what it says. -/
structure DocumentLine where
  chars : List Char
  content : LineContent
deriving DecidableEq, Repr

/-- Nothing but a comment stands in a text, blanks aside. -/
def IsRemark (cs : List Char) : Prop := ∀ c ∈ (Text.trimStart cs).head?, c = '#'

instance (cs : List Char) : Decidable (IsRemark cs) :=
  decidable_of_iff ((Text.trimStart cs).head?.all (· == '#') = true) <| by
    simp [IsRemark, Option.all_eq_true]

/-- What a line says is written on it: a bare key with the mark behind it, or a header with
nothing but a comment behind it. -/
inductive DocumentLine.IsWritten : DocumentLine → Prop where
  | nothing {chars : List Char} (hremark : IsRemark chars) : IsWritten ⟨chars, .nothing⟩
  | setting {chars : List Char} {key text : String} (hbare : TomlText.IsBareName key.toList)
    (hsets : KeyPlace.SetsKey key.toList chars) : IsWritten ⟨chars, .setting key text⟩
  | header {chars behind : List Char} {name : String}
    (hheader : Text.trimStart chars = KeyPlace.header name ++ behind) (hbehind : IsRemark behind) :
    IsWritten ⟨chars, .header name⟩

/-- A text is made of lines that say what is read from it, and each header stands in it once. -/
structure IsDocument (text : String) (lines : List DocumentLine) : Prop where
  divided : Text.EndsDivided text.toList (lines.map (·.chars))
  read : TomlText.pieces? (TomlText.skipMark text.toList) =
    some ((lines.map (·.content)).filterMap LineContent.piece?)
  written : ∀ line ∈ lines, line.IsWritten
  headers : ∀ line ∈ lines, ∀ name, line.content = .header name →
    Text.OccursOnce (KeyPlace.header name) text.toList

/-- A line of a document sets a key in a section, or at the top. -/
structure IsSetBy (lines before : List DocumentLine) (line : DocumentLine)
    (table : Option String) (key : String) : Prop where
  stands : ∃ after, lines = before ++ line :: after
  sets : ∃ text, line.content = .setting key text
  inTable : LineContent.openTable (before.map (·.content)) = table

variable {text : String} {lines before : List DocumentLine} {line : DocumentLine}
  {table : Option String} {name key : String}

/-- A key is set among the contents of lines by one of the lines. -/
theorem exists_isSetBy_iff :
    (∃ before line, IsSetBy lines before line table key) ↔
      LineContent.Sets (lines.map (·.content)) table key := by
  constructor
  · rintro ⟨before, line, ⟨after, rfl⟩, ⟨text, hcontent⟩, htable⟩
    exact ⟨before.map (·.content), text, after.map (·.content),
      by rw [List.map_append, List.map_cons, hcontent], htable⟩
  · rintro ⟨front, text, back, hcontents, htable⟩
    obtain ⟨before, others, rfl, rfl, hothers⟩ := List.map_eq_append_iff.mp hcontents
    obtain ⟨line, after, rfl, hcontent, -⟩ := List.map_eq_cons_iff.mp hothers
    exact ⟨before, line, ⟨after, rfl⟩, ⟨text, hcontent⟩, htable⟩

/-- A line that sets a key in a section stands below the header of this section, with no other
header between them. -/
theorem IsSetBy.exists_header (h : IsSetBy lines before line (some name) key) :
    ∃ front head between after text, before = front ++ head :: between ∧
      lines = front ++ head :: (between ++ line :: after) ∧ head.content = .header name ∧
      line.content = .setting key text ∧ ∀ l ∈ between, l.content.begun? = none := by
  obtain ⟨⟨after, rfl⟩, ⟨text, htext⟩, htable⟩ := h
  obtain ⟨_, _, hcontents, hback⟩ := LineContent.exists_header_of_openTable htable
  obtain ⟨front, others, rfl, rfl, hothers⟩ := List.map_eq_append_iff.mp hcontents
  obtain ⟨head, between, rfl, hhead, rfl⟩ := List.map_eq_cons_iff.mp hothers
  refine ⟨front, head, between, after, text, rfl, ?_, hhead, htext, List.forall_mem_map.mp hback⟩
  rw [List.append_assoc, List.cons_append]

/-! ## Lines that set keys -/

section Lines

variable {cs : List Char} {bare other : List Char}

theorem isBlank_of_isBareChar {c : Char} (h : TomlText.isBareChar c = true) :
    Text.isBlank c = false := by
  rcases Bool.or_eq_true_iff.mp h with h | h
  · rcases Bool.or_eq_true_iff.mp h with h | h
    · exact Text.isBlank_of_isAlphanum h
    · rw [beq_iff_eq.mp h]
      decide
  · rw [beq_iff_eq.mp h]
    decide

/-- A line that sets a bare key begins with a character of the key, blanks aside. -/
theorem exists_head_of_setsKey (hbare : TomlText.IsBareName bare) (h : KeyPlace.SetsKey bare cs) :
    ∃ c, (Text.trimStart cs).head? = some c ∧ TomlText.isBareChar c = true := by
  obtain ⟨gap, behind, hcs, -⟩ := h
  obtain ⟨hne, hchars⟩ := hbare
  obtain ⟨c, rest, rfl⟩ := List.exists_cons_of_ne_nil hne
  exact ⟨c, by rw [hcs]; rfl, hchars c List.mem_cons_self⟩

theorem IsRemark.not_setsKey (h : IsRemark cs) (hbare : TomlText.IsBareName bare) :
    ¬KeyPlace.SetsKey bare cs := by
  intro hsets
  obtain ⟨c, hhead, hc⟩ := exists_head_of_setsKey hbare hsets
  obtain rfl := h c hhead
  exact absurd hc (by decide)

/-- A line sets one bare key. -/
theorem eq_of_setsKey (hbare : TomlText.IsBareName bare) (hother : TomlText.IsBareName other)
    (h : KeyPlace.SetsKey bare cs) (h' : KeyPlace.SetsKey other cs) : bare = other := by
  have hstop {gap : List Char} (behind : List Char) (hgap : ∀ c ∈ gap, Text.isBlank c = true) :
      ∀ c ∈ (gap ++ '=' :: behind).head?, TomlText.isBareChar c = false := by
    intro c hc
    cases gap with
    | nil =>
      obtain rfl := Option.some.inj hc
      decide
    | cons blank gap =>
      obtain rfl := Option.some.inj hc
      refine Bool.eq_false_iff.mpr fun hbare => ?_
      have hblank := hgap blank List.mem_cons_self
      rw [isBlank_of_isBareChar hbare] at hblank
      cases hblank
  obtain ⟨gap, behind, hcs, hgap⟩ := h
  obtain ⟨gap', behind', hcs', hgap'⟩ := h'
  have hread := TomlText.bareName?_append hbare (hstop behind hgap)
  have hread' := TomlText.bareName?_append hother (hstop behind' hgap')
  rw [← hcs] at hread
  rw [← hcs', hread] at hread'
  exact (Prod.mk.inj (Option.some.inj hread')).1

end Lines

namespace DocumentLine.IsWritten

/-- Only the header of a table begins one. -/
theorem not_beginsTable (h : line.IsWritten) (hcontent : line.content.begun? = none) :
    ¬KeyPlace.BeginsTable line.chars := by
  intro hbegins
  cases h with
  | nothing hremark => exact absurd (hremark '[' hbegins) (by decide)
  | setting hbare hsets =>
    obtain ⟨c, hhead, hc⟩ := exists_head_of_setsKey hbare hsets
    obtain rfl := Option.some.inj (hhead.symm.trans hbegins)
    exact absurd hc (by decide)
  | header => cases hcontent

/-- A line that says something else does not set a key. -/
theorem not_setsKey (h : line.IsWritten) (hcontent : line.content.begun? = none)
    (hnot : ∀ text, line.content ≠ .setting key text) (hkey : TomlText.IsBareName key.toList) :
    ¬KeyPlace.SetsKey key.toList line.chars := by
  intro hsetsKey
  cases h with
  | nothing hremark => exact hremark.not_setsKey hkey hsetsKey
  | @setting _ other text hbare hsets =>
    have hsame := String.toList_inj.mp (eq_of_setsKey hbare hkey hsets hsetsKey)
    exact hnot text (hsame ▸ rfl)
  | header => cases hcontent

theorem setsKey (h : line.IsWritten) (hcontent : line.content = .setting key text) :
    TomlText.IsBareName key.toList ∧ KeyPlace.SetsKey key.toList line.chars := by
  cases h with
  | setting hbare hsets =>
    cases hcontent
    exact ⟨hbare, hsets⟩
  | nothing | header => cases hcontent

theorem exists_header (h : line.IsWritten) (hcontent : line.content = .header name) :
    ∃ behind, Text.trimStart line.chars = KeyPlace.header name ++ behind ∧ IsRemark behind := by
  cases h with
  | header hheader hbehind =>
    cases hcontent
    exact ⟨_, hheader, hbehind⟩
  | nothing | setting => cases hcontent

end DocumentLine.IsWritten

/-- Behind a header with a comment at most, the first line that sets a key is found if none of
the lines before it is another header or sets the key. -/
theorem firstSets_of_isWritten {behind : List Char} {between : List DocumentLine}
    (hbehind : IsRemark behind) (hline : line.IsWritten)
    (hcontent : line.content = .setting key text)
    (hbetween : ∀ l ∈ between, l.IsWritten ∧ l.content.begun? = none ∧
      ∀ other, l.content ≠ .setting key other) :
    KeyPlace.FirstSets key.toList true (behind :: between.map (·.chars)) line.chars := by
  obtain ⟨hbare, hsets⟩ := hline.setsKey hcontent
  refine ⟨hsets, ?_, ?_⟩
  · rw [List.forall_mem_cons, List.forall_mem_map]
    refine ⟨hbehind.not_setsKey hbare, fun l hl => ?_⟩
    obtain ⟨hwritten, hnone, hother⟩ := hbetween l hl
    exact hwritten.not_setsKey hnone hother hbare
  · have hcounted : KeyPlace.counted true (behind :: between.map (·.chars) ++ [line.chars]) =
        (between ++ [line]).map (·.chars) := by
      rw [List.map_append]
      rfl
    rw [hcounted, List.forall_mem_map]
    intro l hl
    rcases List.mem_append.mp hl with hl | hl
    · obtain ⟨hwritten, hnone, -⟩ := hbetween l hl
      exact hwritten.not_beginsTable hnone
    · obtain rfl := List.mem_singleton.mp hl
      exact hline.not_beginsTable (by rw [hcontent]; rfl)

/-! ## The place of a key in a section -/

namespace IsDocument

theorem toList_eq (h : IsDocument text lines) : text.toList = lines.flatMap (·.chars) := by
  rw [List.flatMap_def, h.divided.flatten_eq]

/-- What is read from a document is put together from what its lines say. -/
theorem ofText?_eq (h : IsDocument text lines) : TomlTable.ofText? text =
    TomlTable.ofPieces ((lines.map (·.content)).filterMap LineContent.piece?) := by
  rw [TomlTable.ofText?, h.read]
  rfl

/-- Below a header the search goes over the rest of its line, which is a comment at most, and the
lines behind it. -/
theorem begins_behind_header {head : DocumentLine} {others : List DocumentLine}
    (h : IsDocument text (before ++ head :: others)) (hhead : head.content = .header name)
    (hothers : others ≠ []) (names : List String) : ∃ lead behind, IsRemark behind ∧
      head.chars = lead ++ KeyPlace.header name ++ behind ∧
      KeyPlace.BeginsAt text.toList (name :: names)
        (before.flatMap (·.chars) ++ lead ++ KeyPlace.header name)
        (behind ++ others.flatMap (·.chars)) ∧
      Text.EndsDivided (behind ++ others.flatMap (·.chars)) (behind :: others.map (·.chars)) := by
  have hmem : head ∈ before ++ head :: others := List.mem_append_right before List.mem_cons_self
  obtain ⟨behind, hheader, hbehind⟩ := (h.written head hmem).exists_header hhead
  have honce := h.headers head hmem name hhead
  have hchars := KeyPlace.indent_append head.chars
  rw [hheader, ← List.append_assoc] at hchars
  generalize KeyPlace.indent head.chars = lead at hchars
  have htext : text.toList = before.flatMap (·.chars) ++ lead ++ KeyPlace.header name ++
      (behind ++ others.flatMap (·.chars)) := by
    rw [h.toList_eq, List.flatMap_append, List.flatMap_cons, ← hchars]
    simp only [List.append_assoc]
  refine ⟨lead, behind, hbehind, hchars.symm, .behind htext fun front back heq => ?_, ?_⟩
  · exact Nat.le_of_eq (congrArg List.length (honce htext heq))
  · have hdivided := h.divided
    rw [List.map_append] at hdivided
    have hsuffix := hdivided.suffix
    rw [List.map_cons, ← hchars] at hsuffix
    have hlast : (lead ++ KeyPlace.header name).getLast? ≠ some '\n' := by
      rw [KeyPlace.header, ← List.append_assoc, List.getLast?_concat]
      decide
    exact hsuffix.behind (by simpa using hothers) hlast

/-- Between the header of a section and a line that sets a key there, no line sets it. -/
theorem ne_setting_of_mem {head : DocumentLine} {between after : List DocumentLine}
    (h : IsDocument text (before ++ head :: (between ++ line :: after))) {t : TomlTable}
    (ht : TomlTable.ofText? text = some t) (hhead : head.content = .header name) {value : String}
    (hvalue : line.content = .setting key value)
    (hbetween : ∀ l ∈ between, l.content.begun? = none) {l : DocumentLine} (hl : l ∈ between)
    (other : String) : l.content ≠ .setting key other := by
  intro hother
  have hpieces := h.ofText?_eq.symm.trans ht
  rw [← List.cons_append, ← List.append_assoc, List.map_append, List.map_append, List.map_cons,
    List.map_cons, hhead, hvalue] at hpieces
  exact LineContent.not_set_between hpieces rfl (List.forall_mem_map.mpr hbetween) other
    (hother ▸ List.mem_map_of_mem hl)

/-- **A key of a section is found on the line that sets it there.**  No line between the header
and this one begins another section or sets the key, and the header is the first of its text. -/
theorem find?_eq_some (h : IsDocument text lines) {t : TomlTable}
    (ht : TomlTable.ofText? text = some t) (hset : IsSetBy lines before line (some name) key)
    (names : List String) : KeyPlace.find? text (name :: names) key =
      some (Text.byteCount (before.flatMap (·.chars) ++ KeyPlace.indent line.chars)) := by
  obtain ⟨front, head, between, after, value, rfl, rfl, hhead, hvalue, hbetween⟩ :=
    hset.exists_header
  obtain ⟨lead, behind, hbehind, hchars, hbegins, hdivided⟩ :=
    h.begins_behind_header hhead (by simp) names
  have hfirst := firstSets_of_isWritten hbehind (h.written line (by simp)) hvalue fun l hl =>
    ⟨h.written l (by simp [hl]), hbetween l hl, h.ne_setting_of_mem ht hhead hvalue hbetween hl⟩
  rw [List.map_append, List.map_cons] at hdivided
  rw [KeyPlace.find?_eq_some_iff]
  refine ⟨_, _, behind :: between.map _, line.chars, after.map _, hbegins, hdivided, hfirst, ?_⟩
  rw [List.flatMap_append, List.flatMap_cons, hchars]
  simp only [List.append_assoc, List.flatten_cons, List.flatMap_def]

end IsDocument

/-! ## Where unknown keys are pointed at -/

/-- A span of a text selects a key where it stands on a line. -/
structure SourceSpan.Selects (span : SourceSpan) (text : String) (before : List DocumentLine)
    (line : DocumentLine) (key : String) : Prop where
  source : span.source = "<inline>"
  offset : span.offset = Text.byteCount (before.flatMap (·.chars) ++ KeyPlace.indent line.chars)
  length : span.length = key.utf8ByteSize
  stands : Text.StandsAt key text span.offset

namespace Config

theorem placeOf?_inlineSource (text : String) (path : List String) (key : String) :
    ConfigError.placeOf? [inlineSource text] path key none =
      (KeyPlace.find? text path key).map fun offset =>
        ⟨"<inline>", offset, Text.byteCount key.toList⟩ := by
  rw [Option.map_eq_bind]
  rfl

/-- **Unknown keys of sections are pointed at in the text.**  An unknown key that a document is
refused for is set by one of its lines, in a section or at the top, or is the name of a section.
Where it is set in a section, the error has a span, which selects the key on the line that sets it
there.  Where it is not, and no header has its name, the error has none. -/
theorem points_at_unknown_key {errors : List ConfigError} {known : List String}
    {place : Option SourceSpan} (hdoc : IsDocument text lines)
    (h : ofText text = .error errors) (hmem : .unknownKey key known place ∈ errors) :
    ∃ table, (table, known) ∈ tables ∧ key ∉ known ∧
      ((∃ before line, IsSetBy lines before line table key) ∨
        table = none ∧ ∃ line ∈ lines, line.content = .header key) ∧
      (∀ name before line, table = some name → IsSetBy lines before line table key →
        ∃ span, place = some span ∧ span.Selects text before line key) ∧
      (table = none → (∀ front back, text.toList ≠ front ++ KeyPlace.header key ++ back) →
        place = none) := by
  obtain ⟨t, table, ht, htable, hkey, hholds, rfl⟩ := unknownKey_of_ofText h hmem
  refine ⟨table, htable, hkey, ?_, ?_, ?_⟩
  · have hpieces := hdoc.ofText?_eq.symm.trans ht
    rcases (LineContent.holds_iff hpieces table key).mp hholds with hsets | ⟨rfl, hheader⟩
    · exact .inl (exists_isSetBy_iff.mpr hsets)
    · exact .inr ⟨rfl, List.mem_map.mp hheader⟩
  · rintro name before line rfl hset
    have hfind : KeyPlace.find? text ((some name).toList ++ [key]) key = some _ :=
      hdoc.find?_eq_some ht hset [key]
    refine ⟨_, by rw [placeOf?_inlineSource, hfind, Option.map_some], rfl, rfl, ?_, ?_⟩
    · exact Text.byteCount_toList key
    · exact KeyPlace.standsAt_of_find? hfind
  · rintro rfl hnone
    have hfind : KeyPlace.find? text ((none : Option String).toList ++ [key]) key = none := by
      show KeyPlace.find? text [key] key = none
      rw [KeyPlace.find?, Text.cutAt?_eq_none_iff.mpr hnone]
      rfl
    rw [placeOf?_inlineSource, hfind, Option.map_none]

/-! ### A key of a section and a key at the top -/

/-- A text that sets one key in two sections, the second of which has no such key. -/
def sectionKeyText : String := "[log]\nlevel = \"é\"\n[host]\nlevel = \"x\"\n"

/-- The lines before that of the unknown key. -/
def sectionKeyBefore : List DocumentLine :=
  [⟨"[log]\n".toList, .header "log"⟩, ⟨"level = \"é\"\n".toList, .setting "level" "é"⟩,
    ⟨"[host]\n".toList, .header "host"⟩]

/-- The line of the unknown key. -/
def sectionKeyLine : DocumentLine := ⟨"level = \"x\"\n".toList, .setting "level" "x"⟩

theorem isDocument_sectionKeyText :
    IsDocument sectionKeyText (sectionKeyBefore ++ [sectionKeyLine]) := by
  have hlog : TomlText.IsBareName "log".toList := by decide
  have hhost : TomlText.IsBareName "host".toList := by decide
  have hlevel : TomlText.IsBareName "level".toList := by decide
  refine ⟨Text.endedLines_eq_iff.mp (by decide +kernel), ?_, ?_, ?_⟩
  · have hspells := (((TomlText.spells_header hlog).append
      (TomlText.spells_setting hlevel "é".toList)).append (TomlText.spells_header hhost)).append
        (TomlText.spells_setting hlevel "x".toList)
    exact hspells.pieces?_eq
  · have hbreak : IsRemark ['\n'] := by decide
    have hsets : KeyPlace.SetsKey "level".toList sectionKeyLine.chars :=
      KeyPlace.setsKey_iff.mp (by decide +kernel)
    simp only [sectionKeyBefore, List.cons_append, List.nil_append, List.forall_mem_cons]
    exact ⟨.header rfl hbreak, .setting hlevel (KeyPlace.setsKey_iff.mp (by decide +kernel)),
      .header rfl hbreak, .setting hlevel hsets, fun _ h => by cases h⟩
  · intro line hline name hcontent
    have hname : name = "log" ∨ name = "host" := by
      rcases List.mem_append.mp hline with hline | hline
      · simp only [sectionKeyBefore, List.mem_cons, List.not_mem_nil, or_false] at hline
        rcases hline with rfl | rfl | rfl
        · cases hcontent
          exact .inl rfl
        · cases hcontent
        · cases hcontent
          exact .inr rfl
      · rw [List.mem_singleton.mp hline] at hcontent
        cases hcontent
    rcases hname with rfl | rfl
    · exact Text.occursOnce_of_not_again (by decide +kernel)
    · exact Text.occursOnce_of_not_again (by decide +kernel)

/-- The unknown key that an error tells of, with the keys that there are, and its place. -/
def unknownKey? : ConfigError → Option (String × List String × Option SourceSpan)
  | .unknownKey key known place => some (key, known, place)
  | .invalidType _ _ _ | .violation _ | .malformed | .unreadable _ _ => none

/-- What each error of an answer tells of unknown keys. -/
def unknownKeys : Except (List ConfigError) Config →
    List (Option (String × List String × Option SourceSpan))
  | .ok _ => []
  | .error errors => errors.map unknownKey?

theorem eq_error_of_unknownKeys {answer : Except (List ConfigError) Config} {known : List String}
    {place : Option SourceSpan} (h : unknownKeys answer = [some (key, known, place)]) :
    answer = .error [.unknownKey key known place] := by
  cases answer with
  | ok c => cases h
  | error errors =>
    obtain ⟨error, rfl, herror⟩ := List.map_eq_singleton_iff.mp h
    cases error with
    | unknownKey =>
      cases herror
      rfl
    | invalidType | violation | malformed | unreadable => cases herror

/-- The key is pointed at in the section that does not know it, and not in the one before. -/
theorem points_at_unknown_key_of_section : ∃ span,
    ofText sectionKeyText = .error [.unknownKey "level" ["runtime", "version"] (some span)] ∧
      IsSetBy (sectionKeyBefore ++ [sectionKeyLine]) sectionKeyBefore sectionKeyLine
        (some "host") "level" ∧
      span.Selects sectionKeyText sectionKeyBefore sectionKeyLine "level" := by
  have hread : ofText sectionKeyText =
      .error [.unknownKey "level" ["runtime", "version"] (some ⟨"<inline>", 26, 5⟩)] :=
    eq_error_of_unknownKeys (by decide +kernel)
  have hset : IsSetBy (sectionKeyBefore ++ [sectionKeyLine]) sectionKeyBefore sectionKeyLine
      (some "host") "level" := ⟨⟨[], rfl⟩, ⟨"x", rfl⟩, rfl⟩
  obtain ⟨table, htable, -, -, hselects, -⟩ :=
    points_at_unknown_key isDocument_sectionKeyText hread List.mem_cons_self
  have hhost : ∀ entry ∈ tables, entry.2 = ["runtime", "version"] → entry.1 = some "host" := by
    decide
  obtain rfl := hhost _ htable rfl
  obtain ⟨span, hspan, hselects⟩ := hselects "host" sectionKeyBefore sectionKeyLine rfl hset
  exact ⟨span, hspan ▸ hread, hset, hselects⟩

/-- A text that sets an unknown key at the top. -/
def topKeyText : String := "foo = \"x\"\n"

/-- The line of this text. -/
def topKeyLine : DocumentLine := ⟨"foo = \"x\"\n".toList, .setting "foo" "x"⟩

/-- A key at the top is pointed at nowhere. -/
theorem top_key_pointed_at_nowhere : IsDocument topKeyText [topKeyLine] ∧
    IsSetBy [topKeyLine] [] topKeyLine none "foo" ∧
    ofText topKeyText = .error [.unknownKey "foo" ["host", "discovery", "log"] none] := by
  have hfoo : TomlText.IsBareName "foo".toList := by decide
  have hsets : KeyPlace.SetsKey "foo".toList topKeyLine.chars :=
    KeyPlace.setsKey_iff.mp (by decide +kernel)
  refine ⟨⟨Text.endedLines_eq_iff.mp (by decide +kernel), ?_, ?_, ?_⟩,
    ⟨⟨[], rfl⟩, ⟨"x", rfl⟩, rfl⟩, ?_⟩
  · exact (TomlText.spells_setting hfoo "x".toList).pieces?_eq
  · exact List.forall_mem_singleton.mpr (.setting hfoo hsets)
  · refine List.forall_mem_singleton.mpr fun name hcontent => ?_
    cases hcontent
  · exact eq_error_of_unknownKeys (by decide +kernel)

end Config
end PluginHost
