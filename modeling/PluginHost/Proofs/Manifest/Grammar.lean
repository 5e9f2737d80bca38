import PluginHost.Manifest
import PluginHost.Proofs.Text.Lines
import PluginHost.Proofs.Text.Trimming

/-! # The grammar of manifests

What a line of a manifest names is told by the positions of its characters: the `#` that starts
the comment is the first that no backslash stands right before (`Manifest.startsComment`), and
in front of it each character stands for itself, but for the backslashes
(`Manifest.respelled`).  Reading a line character by character comes to the same
(`Manifest.uncomment_eq`), so a text has the entries that the grammar gives its lines, or none
at all if a line looks like markup (`Manifest.entries_of_grammar`). -/
namespace PluginHost
namespace Manifest

/-! ## The text of a line -/

/-- Whether a comment starts at a position: with a `#` that no backslash stands right before. -/
def startsComment (cs : List Char) (i : Nat) : Bool :=
  cs[i]? == some '#' && (i == 0 || cs[i - 1]? != some '\\')

/-- Where the comment of a line starts, or the end of the line if there is none. -/
def commentStart (line : List Char) : Nat :=
  (List.range line.length).findIdx (startsComment line)

/-- The line with the backslashes that stand right before a `#` left out, and all other
backslashes made slashes. -/
def respelled (cs : List Char) : List Char :=
  cs.zipIdx.flatMap fun (c, i) =>
    if c = '\\' then if cs[i + 1]? = some '#' then [] else ['/'] else [c]

/-- What a line names: its text in front of the comment, with the backslashes respelled and
without the blanks at the ends. -/
def patternOf (line : List Char) : List Char :=
  Text.trim (respelled (line.take (commentStart line)))

/-- A line that begins with `<` behind some blanks. -/
def BeginsMarkup (line : List Char) : Prop :=
  ∃ blanks rest, line = blanks ++ '<' :: rest ∧ ∀ c ∈ blanks, Text.isBlank c = true

/-! ## Reading a line -/

variable {c : Char} {line rest : List Char}

theorem startsComment_cons_zero : startsComment (c :: rest) 0 = (c == '#') := by
  simp [startsComment]

/-- Whether a comment starts does not depend on what stands in front, but for an escape. -/
theorem startsComment_cons_succ (h : c = '\\' → rest.head? ≠ some '#') (i : Nat) :
    startsComment (c :: rest) (i + 1) = startsComment rest i := by
  cases i with
  | succ i => simp [startsComment]
  | zero =>
    by_cases hc : c = '\\'
    · have hrest := h hc
      rw [List.head?_eq_getElem?] at hrest
      simp [startsComment, hrest]
    · simp [startsComment, hc]

/-- No comment starts at a backslash, nor at a `#` right behind one. -/
theorem startsComment_escaped (i : Nat) :
    startsComment ('\\' :: '#' :: rest) (i + 2) = startsComment rest i := by
  cases i <;> simp [startsComment]

/-- A comment starts at once, or it is looked for behind the first character. -/
theorem commentStart_cons_eq (c : Char) (rest : List Char) :
    commentStart (c :: rest) = if c = '#' then 0 else
      (List.range rest.length).findIdx (fun i => startsComment (c :: rest) (i + 1)) + 1 := by
  rw [commentStart, List.length_cons, List.range_succ_eq_map, List.findIdx_cons,
    startsComment_cons_zero, List.findIdx_map]
  by_cases hc : c = '#'
  · rw [if_pos hc, beq_iff_eq.mpr hc]
    rfl
  · rw [if_neg hc, beq_eq_false_iff_ne.mpr hc]
    rfl

theorem commentStart_hash : commentStart ('#' :: rest) = 0 := by
  rw [commentStart_cons_eq, if_pos rfl]

theorem commentStart_cons (hc : c ≠ '#') (h : c = '\\' → rest.head? ≠ some '#') :
    commentStart (c :: rest) = commentStart rest + 1 := by
  rw [commentStart_cons_eq, if_neg hc, commentStart]
  simp only [startsComment_cons_succ h]

theorem commentStart_escaped :
    commentStart ('\\' :: '#' :: rest) = commentStart rest + 2 := by
  have hhash : startsComment ('\\' :: '#' :: rest) 1 = false := by simp [startsComment]
  have hbehind : (fun i => startsComment ('\\' :: '#' :: rest) (i + 1)) ∘ Nat.succ =
      startsComment rest := funext startsComment_escaped
  rw [commentStart_cons_eq, if_neg (by decide), List.length_cons, List.range_succ_eq_map,
    List.findIdx_cons, List.findIdx_map, hbehind, hhash]
  rfl

/-- A character has no part in how those behind it are respelled. -/
theorem respelled_cons_eq (c : Char) (rest : List Char) :
    respelled (c :: rest) =
      (if c = '\\' then if rest.head? = some '#' then [] else ['/'] else [c]) ++
        respelled rest := by
  rw [respelled, List.zipIdx_cons, List.flatMap_cons, List.zipIdx_succ, List.flatMap_map,
    List.head?_eq_getElem?]
  rfl

/-- **Reading a line follows the grammar.** -/
theorem uncomment_eq (line : List Char) :
    uncomment line = respelled (line.take (commentStart line)) := by
  fun_induction uncomment line with
  | case1 rest ih =>
    rw [commentStart_escaped, List.take_succ_cons, List.take_succ_cons, respelled_cons_eq,
      respelled_cons_eq, ih]
    rfl
  | case2 rest => rw [commentStart_hash]; rfl
  | case3 rest hhash ih =>
    have hnext : rest.head? ≠ some '#' := by
      intro h
      obtain ⟨behind, rfl⟩ := List.head?_eq_some_iff.mp h
      exact hhash behind rfl
    have htake : (rest.take (commentStart rest)).head? ≠ some '#' := by
      rw [List.head?_take]
      split
      · exact Option.some_ne_none _ |>.symm
      · exact hnext
    rw [commentStart_cons (by decide) fun _ => hnext, List.take_succ_cons, respelled_cons_eq,
      if_pos rfl, if_neg htake, ih]
    rfl
  | case4 c rest hescape hhash hback ih =>
    rw [commentStart_cons hhash fun h => absurd h hback, List.take_succ_cons,
      respelled_cons_eq, if_neg hback, ih]
    rfl
  | case5 => rfl

/-- What a line names has no backslash. -/
theorem not_mem_uncomment (line : List Char) : '\\' ∉ uncomment line := by
  fun_induction uncomment line with
  | case1 rest ih => exact List.not_mem_cons_of_ne_of_not_mem (by decide) ih
  | case2 rest => exact List.not_mem_nil
  | case3 rest hhash ih => exact List.not_mem_cons_of_ne_of_not_mem (by decide) ih
  | case4 c rest hescape hhash hback ih =>
    exact List.not_mem_cons_of_ne_of_not_mem (Ne.symm hback) ih
  | case5 => exact List.not_mem_nil

theorem normalize_eq (line : List Char) : normalize line = patternOf line := by
  rw [normalize, uncomment_eq, patternOf]

/-! ## Reading a text -/

/-- A line is markup when it begins as markup does. -/
theorem isMarkup_iff : isMarkup line = true ↔ BeginsMarkup line := by
  rw [isMarkup, beq_iff_eq]
  constructor
  · intro h
    obtain ⟨rest, hrest⟩ := List.head?_eq_some_iff.mp h
    refine ⟨line.takeWhile Text.isBlank, rest, ?_, fun c hc => List.mem_takeWhile_imp hc⟩
    rw [← hrest, Text.trimStart, List.takeWhile_append_dropWhile]
  · rintro ⟨blanks, rest, rfl, hblanks⟩
    induction blanks with
    | nil => rw [List.nil_append, Text.trimStart_of_not_blank (by decide)]; rfl
    | cons c blanks ih =>
      obtain ⟨hc, hblanks⟩ := List.forall_mem_cons.mp hblanks
      rw [List.cons_append, Text.trimStart_of_blank hc]
      exact ih hblanks

instance (line : List Char) : Decidable (BeginsMarkup line) :=
  decidable_of_iff (isMarkup line = true) isMarkup_iff

/-- A byte order mark in front is left out, and nothing else. -/
theorem withoutMark_cases (cs : List Char) :
    cs = '\ufeff' :: withoutMark cs ∨
      cs = withoutMark cs ∧ (withoutMark cs).head? ≠ some '\ufeff' := by
  unfold withoutMark
  split
  · exact .inl rfl
  · rename_i hmark
    refine .inr ⟨rfl, fun h => ?_⟩
    obtain ⟨rest, hrest⟩ := List.head?_eq_some_iff.mp h
    exact hmark rest hrest

/-- The entry of a line by the grammar. -/
theorem entryOf_eq (line : List Char) (i : Nat) :
    entryOf line i = if patternOf line = [] then none else
      some { line := i + 1, raw := String.ofList line,
             text := String.ofList (patternOf line) } := by
  rw [entryOf, normalize_eq]

variable {content : String} {listed : List ManifestEntry} {e : ManifestEntry}

/-- An entry is what a line names. -/
theorem exists_line_of_mem (h : parse? content = some listed) (he : e ∈ listed) :
    ∃ line i, entryOf line i = some e := by
  unfold parse? at h
  dsimp only at h
  split at h
  · cases h
  · obtain rfl := Option.some.inj h
    obtain ⟨⟨line, i⟩, -, hentry⟩ := List.mem_filterMap.mp he
    exact ⟨line, i, hentry⟩

/-- What an entry names is not empty, has no blanks at its ends and no backslash. -/
theorem text_of_mem (h : parse? content = some listed) (he : e ∈ listed) :
    e.text ≠ "" ∧ Text.trimmed e.text = e.text ∧ '\\' ∉ e.text.toList := by
  obtain ⟨line, i, hentry⟩ := exists_line_of_mem h he
  unfold entryOf at hentry
  split at hentry
  · cases hentry
  · rename_i hne
    obtain rfl := Option.some.inj hentry
    refine ⟨by simpa using hne, ?_, ?_⟩
    · rw [Text.trimmed, String.toList_ofList, normalize, Text.trim_trim]
    · rw [String.toList_ofList]
      exact fun h => not_mem_uncomment line (Text.mem_of_mem_trim h)

/-- The same for the entries of any text, markup included. -/
theorem text_of_mem_entries (he : e ∈ entries content) :
    e.text ≠ "" ∧ Text.trimmed e.text = e.text ∧ '\\' ∉ e.text.toList := by
  unfold entries at he
  cases hlisted : parse? content with
  | none =>
    rw [hlisted] at he
    cases he
  | some listed =>
    rw [hlisted] at he
    exact text_of_mem hlisted he

/-- **The grammar of manifests.**  A text without its byte order mark is divided into lines.  If
one of them begins as markup, there are no entries.  Otherwise there is, in their order, one
entry for each line that names something, with the number of the line, the line as it is and
what it names.  So what entries name is never empty, has no blanks at its ends and no
backslash. -/
theorem entries_of_grammar (content : String) :
    ∃ text lines,
      (content.toList = '\ufeff' :: text ∨
        content.toList = text ∧ text.head? ≠ some '\ufeff') ∧
      Text.Divided text lines ∧
      ((∃ line ∈ lines, BeginsMarkup line) → entries content = []) ∧
      ((∀ line ∈ lines, ¬BeginsMarkup line) →
        entries content = lines.zipIdx.filterMap fun (line, i) =>
          if patternOf line = [] then none else
            some { line := i + 1, raw := String.ofList line,
                   text := String.ofList (patternOf line) }) ∧
      ∀ e ∈ entries content,
        e.text ≠ "" ∧ Text.trimmed e.text = e.text ∧ '\\' ∉ e.text.toList := by
  refine ⟨withoutMark content.toList, Text.lines (withoutMark content.toList),
    withoutMark_cases _, Text.divided_lines _, ?_, ?_, ?_⟩
  · rintro ⟨line, hline, hmarkup⟩
    have hany : (Text.lines (withoutMark content.toList)).any isMarkup = true :=
      List.any_eq_true.mpr ⟨line, hline, isMarkup_iff.mpr hmarkup⟩
    rw [entries, parse?, if_pos hany]
    rfl
  · intro hplain
    have hnone : ¬(Text.lines (withoutMark content.toList)).any isMarkup = true := by
      intro h
      obtain ⟨line, hline, hmarkup⟩ := List.any_eq_true.mp h
      exact hplain line hline (isMarkup_iff.mp hmarkup)
    rw [entries, parse?, if_neg hnone]
    simp only [entryOf_eq, Option.getD_some]
  · intro e he
    rw [entries] at he
    cases h : parse? content with
    | none => rw [h] at he; cases he
    | some listed => rw [h] at he; exact text_of_mem h he

/-- Of two backslashes in front of a `#` the second one escapes it, and in a comment nothing is
escaped. -/
theorem entries_of_grammar_of_backslashes :
    entries "\ufeffa\\\\#b\\ # c\\#\r\n \\\n\\ #" =
      [⟨1, "a\\\\#b\\ # c\\#", "a/#b/"⟩, ⟨2, " \\", "/"⟩, ⟨3, "\\ #", "/"⟩] := by
  have hmarked : "\ufeffa\\\\#b\\ # c\\#\r\n \\\n\\ #".toList =
      '\ufeff' :: "a\\\\#b\\ # c\\#\r\n \\\n\\ #".toList := by
    decide +kernel
  obtain ⟨text, lines, hmark, hdivided, -, hplain, -⟩ :=
    entries_of_grammar "\ufeffa\\\\#b\\ # c\\#\r\n \\\n\\ #"
  rw [hmarked] at hmark
  obtain rfl : text = "a\\\\#b\\ # c\\#\r\n \\\n\\ #".toList := by
    rcases hmark with heq | ⟨rfl, hnot⟩
    · exact (List.cons.inj heq).2.symm
    · exact absurd rfl hnot
  obtain rfl := Text.lines_eq_iff.mpr hdivided
  rw [hplain (by decide)]
  decide

end Manifest
end PluginHost
