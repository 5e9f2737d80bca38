import Mathlib.Data.List.TakeWhile
import PluginHost.Config.KeyPlace
import PluginHost.Proofs.Text.Lines
import PluginHost.Proofs.Text.Positions

/-! # The place of a key is the first where it is set

The search for a key begins behind the header of its table, or at the start of the text
(`KeyPlace.BeginsAt`), and goes over the lines from there, of which the first may be the rest of
a line.  It ends at the first line that sets the key, unless a header stands on that line or on
one before it, the first line aside (`KeyPlace.FirstSets`).

The lines before the one that is looked at, and the blanks it starts with, make up the place that
is answered (`KeyPlace.amongLines_eq_some_iff`), whatever characters they hold.  So the key stands
at its place (`KeyPlace.finds_first_place`). -/
namespace PluginHost
namespace KeyPlace

variable {key line : List Char} {lines before : List (List Char)}

/-! ## Lines -/

/-- A line sets a key: blanks in front aside, it begins with the key, behind which there is the
mark, blanks before it aside. -/
def SetsKey (key line : List Char) : Prop :=
  ∃ gap behind, Text.trimStart line = key ++ (gap ++ '=' :: behind) ∧
    ∀ c ∈ gap, Text.isBlank c = true

/-- A line begins a table: blanks in front aside, it starts with a bracket. -/
def BeginsTable (line : List Char) : Prop := (Text.trimStart line).head? = some '['

theorem head?_trimStart_eq_iff {cs : List Char} {mark : Char} (hmark : Text.isBlank mark = false) :
    (Text.trimStart cs).head? = some mark ↔
      ∃ gap behind, cs = gap ++ mark :: behind ∧ ∀ c ∈ gap, Text.isBlank c = true := by
  constructor
  · intro h
    obtain ⟨behind, hbehind⟩ := List.head?_eq_some_iff.mp h
    refine ⟨cs.takeWhile Text.isBlank, behind, ?_, fun c hc => List.mem_takeWhile_imp hc⟩
    rw [← hbehind, Text.trimStart, List.takeWhile_append_dropWhile]
  · rintro ⟨gap, behind, rfl, hgap⟩
    rw [Text.trimStart, List.dropWhile_append_of_pos hgap,
      List.dropWhile_cons_of_neg (Bool.eq_false_iff.mp hmark)]
    rfl

theorem setsKey_iff : setsKey key (Text.trimStart line) = true ↔ SetsKey key line := by
  unfold setsKey SetsKey
  rw [Bool.and_eq_true, List.isPrefixOf_iff_prefix, beq_iff_eq, head?_trimStart_eq_iff rfl]
  constructor
  · rintro ⟨⟨rest, hrest⟩, gap, behind, hbehind, hgap⟩
    rw [← hrest, List.drop_left] at hbehind
    exact ⟨gap, behind, by rw [← hrest, hbehind], hgap⟩
  · rintro ⟨gap, behind, hline, hgap⟩
    exact ⟨⟨_, hline.symm⟩, gap, behind, by rw [hline, List.drop_left], hgap⟩

/-- The lines on which a header ends the search. -/
def counted (first : Bool) (lines : List (List Char)) : List (List Char) :=
  if first then lines.tail else lines

/-- A line is the first that sets a key, and no header is on it or on the lines before, where
headers count. -/
structure FirstSets (key : List Char) (first : Bool) (before : List (List Char))
    (line : List Char) : Prop where
  sets : SetsKey key line
  earlier : ∀ l ∈ before, ¬SetsKey key l
  headers : ∀ l ∈ counted first (before ++ [line]), ¬BeginsTable l

/-- The blanks that a line starts with. -/
def indent (line : List Char) : List Char := line.takeWhile Text.isBlank

theorem indent_append (line : List Char) : indent line ++ Text.trimStart line = line :=
  List.takeWhile_append_dropWhile

theorem byteCount_sub_trimStart (line : List Char) :
    Text.byteCount line - Text.byteCount (Text.trimStart line) = Text.byteCount (indent line) := by
  have happend := congrArg Text.byteCount (indent_append line)
  rw [Text.byteCount_append] at happend
  rw [← happend, Nat.add_sub_cancel]

theorem firstSets_nil_iff {first : Bool} :
    FirstSets key first [] line ↔ SetsKey key line ∧ (first = true ∨ ¬BeginsTable line) := by
  constructor
  · rintro ⟨hsets, -, hheaders⟩
    refine ⟨hsets, ?_⟩
    cases first with
    | true => exact .inl rfl
    | false => exact .inr (hheaders line List.mem_cons_self)
  · rintro ⟨hsets, hheader⟩
    refine ⟨hsets, fun _ h => absurd h List.not_mem_nil, fun l hl => ?_⟩
    cases first with
    | true => cases hl
    | false =>
      obtain rfl := List.mem_singleton.mp hl
      exact hheader.resolve_left Bool.false_ne_true

theorem firstSets_cons_iff {first : Bool} {head : List Char} :
    FirstSets key first (head :: before) line ↔
      ¬SetsKey key head ∧ (first = true ∨ ¬BeginsTable head) ∧ FirstSets key false before line := by
  constructor
  · rintro ⟨hsets, hearlier, hheaders⟩
    obtain ⟨hhead, hbefore⟩ := List.forall_mem_cons.mp hearlier
    cases first with
    | true => exact ⟨hhead, .inl rfl, hsets, hbefore, hheaders⟩
    | false =>
      obtain ⟨hheader, hothers⟩ := List.forall_mem_cons.mp hheaders
      exact ⟨hhead, .inr hheader, hsets, hbefore, hothers⟩
  · rintro ⟨hhead, hheader, hsets, hbefore, hothers⟩
    refine ⟨hsets, List.forall_mem_cons.mpr ⟨hhead, hbefore⟩, ?_⟩
    cases first with
    | true => exact hothers
    | false =>
      exact List.forall_mem_cons.mpr ⟨hheader.resolve_left Bool.false_ne_true, hothers⟩

/-- A line is found at a place among lines that begin at `offset`. -/
def FoundAt (key : List Char) (first : Bool) (offset : Nat) (lines : List (List Char))
    (place : Nat) : Prop :=
  ∃ before line after, lines = before ++ line :: after ∧ FirstSets key first before line ∧
    place = offset + Text.byteCount (before.flatten ++ indent line)

/-- The line that is found is the first, or it is found behind the first. -/
theorem foundAt_cons_iff {first : Bool} {head : List Char} {offset place : Nat} :
    FoundAt key first offset (head :: lines) place ↔ (first = true ∨ ¬BeginsTable head) ∧
      (SetsKey key head ∧ place = offset + Text.byteCount (indent head) ∨
        ¬SetsKey key head ∧ FoundAt key false (offset + Text.byteCount head) lines place) := by
  have hoffset (before : List (List Char)) (line : List Char) :
      offset + Text.byteCount ((head :: before).flatten ++ indent line) =
        offset + Text.byteCount head + Text.byteCount (before.flatten ++ indent line) := by
    rw [List.flatten_cons, List.append_assoc, Text.byteCount_append head, Nat.add_assoc]
  constructor
  · rintro ⟨_ | ⟨head', before⟩, line, after, heq, hfirst, hplace⟩
    · obtain ⟨rfl, rfl⟩ := List.cons.inj heq
      obtain ⟨hsets, hheader⟩ := firstSets_nil_iff.mp hfirst
      exact ⟨hheader, .inl ⟨hsets, hplace⟩⟩
    · obtain ⟨rfl, hlines⟩ := List.cons.inj heq
      obtain ⟨hnot, hheader, hfirst⟩ := firstSets_cons_iff.mp hfirst
      exact ⟨hheader, .inr ⟨hnot, before, line, after, hlines, hfirst,
        hplace.trans (hoffset before line)⟩⟩
  · rintro ⟨hheader, ⟨hsets, hplace⟩ | ⟨hnot, before, line, after, hlines, hfirst, hplace⟩⟩
    · exact ⟨[], head, lines, rfl, firstSets_nil_iff.mpr ⟨hsets, hheader⟩, hplace⟩
    · exact ⟨head :: before, line, after, congrArg (head :: ·) hlines,
        firstSets_cons_iff.mpr ⟨hnot, hheader, hfirst⟩, hplace.trans (hoffset before line).symm⟩

/-- **Among lines the first that sets the key is found**, and its place is told by all that is
before it. -/
theorem amongLines_eq_some_iff {first : Bool} {offset place : Nat} :
    amongLines key first offset lines = some place ↔ FoundAt key first offset lines place := by
  induction lines generalizing first offset with
  | nil => simp [amongLines, FoundAt]
  | cons head rest ih =>
    have hcond : (!first && (Text.trimStart head).head? == some '[') = true ↔
        ¬(first = true ∨ ¬BeginsTable head) := by
      simp [BeginsTable, not_or]
    rw [foundAt_cons_iff, amongLines]
    by_cases hheader : first = true ∨ ¬BeginsTable head
    · rw [if_neg fun h => hcond.mp h hheader, and_iff_right hheader]
      by_cases hsets : SetsKey key head
      · rw [if_pos (setsKey_iff.mpr hsets), byteCount_sub_trimStart, Option.some_inj]
        simp [hsets, eq_comm]
      · rw [if_neg fun h => hsets (setsKey_iff.mp h), ih]
        simp [hsets]
    · rw [if_pos (hcond.mpr hheader)]
      simp [hheader]

/-! ## Where the search begins -/

/-- The search in a text begins at its start, or behind the first header of the table. -/
inductive BeginsAt (cs : List Char) : List String → List Char → List Char → Prop where
  | start : BeginsAt cs [] [] cs
  | behind {name : String} {names : List String} {before rest : List Char}
    (heq : cs = before ++ header name ++ rest)
    (hfirst : ∀ before' rest', cs = before' ++ header name ++ rest' →
      before.length ≤ before'.length) :
    BeginsAt cs (name :: names) (before ++ header name) rest

theorem BeginsAt.append_eq {cs front rest : List Char} {path : List String}
    (h : BeginsAt cs path front rest) : cs = front ++ rest := by
  cases h with
  | start => rfl
  | behind heq _ => exact heq

theorem find?_eq_amongLines {text : String} {path : List String} {key : String} {place : Nat} :
    find? text path key = some place ↔ ∃ front rest, BeginsAt text.toList path front rest ∧
      amongLines key.toList true (Text.byteCount front) (Text.endedLines rest) = some place := by
  cases path with
  | nil =>
    constructor
    · exact fun h => ⟨[], _, .start, h⟩
    · rintro ⟨front, rest, hbegins, h⟩
      cases hbegins
      exact h
  | cons name names =>
    rw [find?]
    constructor
    · intro h
      obtain ⟨⟨before, rest⟩, hcut, h⟩ := Option.bind_eq_some_iff.mp h
      obtain ⟨heq, hfirst⟩ := Text.cutAt?_eq_some_iff.mp hcut
      exact ⟨_, rest, .behind heq hfirst, h⟩
    · rintro ⟨front, rest, hbegins, h⟩
      cases hbegins with
      | behind heq hfirst =>
        rw [Text.cutAt?_eq_some_iff.mpr ⟨heq, hfirst⟩]
        exact h

/-- The place that is found is that of the key on the first line that sets it. -/
theorem find?_eq_some_iff {text : String} {path : List String} {key : String} {place : Nat} :
    find? text path key = some place ↔
      ∃ front rest before line after, BeginsAt text.toList path front rest ∧
        Text.EndsDivided rest (before ++ line :: after) ∧
        FirstSets key.toList true before line ∧
        place = Text.byteCount (front ++ before.flatten ++ indent line) := by
  rw [find?_eq_amongLines]
  simp only [amongLines_eq_some_iff, FoundAt, Text.endedLines_eq_iff, ← Text.byteCount_append,
    ← List.append_assoc]
  constructor
  · rintro ⟨front, rest, hbegins, before, line, after, hlines, hfirst, hplace⟩
    exact ⟨front, rest, before, line, after, hbegins, hlines, hfirst, hplace⟩
  · rintro ⟨front, rest, before, line, after, hbegins, hlines, hfirst, hplace⟩
    exact ⟨front, rest, hbegins, before, line, after, hlines, hfirst, hplace⟩

theorem standsAt_of_find? {text : String} {path : List String} {key : String} {place : Nat}
    (h : find? text path key = some place) : Text.StandsAt key text place := by
  obtain ⟨front, rest, before, line, after, hbegins, hlines, hfirst, rfl⟩ :=
    find?_eq_some_iff.mp h
  obtain ⟨gap, behind, hline, -⟩ := hfirst.sets
  -- The text is what is before the line, its blanks, the key, and what is behind.
  have htext : text.toList = front ++ before.flatten ++ indent line ++ key.toList ++
      (gap ++ '=' :: behind ++ after.flatten) := by
    rw [hbegins.append_eq, ← hlines.flatten_eq, List.flatten_append, List.flatten_cons]
    nth_rewrite 1 [← indent_append line]
    rw [hline]
    simp only [List.append_assoc]
  exact Text.standsAt_of_append htext

/-- **A key is found at the first place where it is set.**  A place is answered just when the
search begins somewhere in the text and, among the lines from there, there is a first that sets
the key, with no header on it or on a line before, the first line aside.  The place is that of
the key on this line: it and the end of the key are boundaries of characters inside the text, and
the bytes between them are the key. -/
theorem finds_first_place (text : String) (path : List String) (key : String) :
    (∀ place, find? text path key = some place ↔
      ∃ front rest before line after, BeginsAt text.toList path front rest ∧
        Text.EndsDivided rest (before ++ line :: after) ∧
        FirstSets key.toList true before line ∧
        place = Text.byteCount (front ++ before.flatten ++ indent line)) ∧
    ∀ place, find? text path key = some place → Text.StandsAt key text place :=
  ⟨fun _ => find?_eq_some_iff, fun _ => standsAt_of_find?⟩

/-- A text in which a key is indented with blanks of three bytes, below lines with characters of
two bytes and with both ends of lines. -/
def indentedText : String := "é = 'x'\n[host]\r\n\u3000\u3000versio\t= '1'\n"

/-- The place of a key counts the bytes of all that is before it. -/
theorem finds_first_place_of_indented : find? indentedText ["host"] "versio" = some 23 ∧
    Text.StandsAt "versio" indentedText 23 := by
  have hfind : find? indentedText ["host"] "versio" = some 23 := by decide +kernel
  exact ⟨hfind, (finds_first_place indentedText ["host"] "versio").2 23 hfind⟩

end KeyPlace
end PluginHost
