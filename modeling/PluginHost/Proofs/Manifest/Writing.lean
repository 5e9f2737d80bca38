import PluginHost.Proofs.Manifest.Grammar

/-! # Writing manifests

Every list of paths can be written as a manifest, a line for each path, if the paths are not
empty, have no blanks at their ends, no line feeds and no backslashes, and do not begin with
`<`, nor the first of them with a byte order mark.  Only a `#` needs a backslash.  Whatever ends
the lines, and with a byte order mark in front or without, the manifest names the paths again
(`Manifest.written_reads_back`). -/
namespace PluginHost
namespace Manifest

/-- What a line of a manifest can name as it is. -/
structure IsListable (path : List Char) : Prop where
  ne_nil : path ≠ []
  trimmed : Text.trim path = path
  feed : '\n' ∉ path
  backslash : '\\' ∉ path
  markup : path.head? ≠ some '<'

instance (path : List Char) : Decidable (IsListable path) :=
  decidable_of_iff
    (path ≠ [] ∧ Text.trim path = path ∧ '\n' ∉ path ∧ '\\' ∉ path ∧ path.head? ≠ some '<')
    ⟨fun ⟨hne, htrim, hfeed, hback, hmarkup⟩ => ⟨hne, htrim, hfeed, hback, hmarkup⟩,
      fun h => ⟨h.ne_nil, h.trimmed, h.feed, h.backslash, h.markup⟩⟩

/-- A path as it is written on a line. -/
def escape (path : List Char) : List Char :=
  path.flatMap fun c => if c = '#' then ['\\', '#'] else [c]

/-- The lines of a manifest that lists paths, with their ends. -/
def writtenLines (items : List (String × Text.LineEnd)) : List Char :=
  items.flatMap fun (path, ending) => escape path.toList ++ ending.chars

/-- The text of a manifest that lists paths, with a byte order mark or without. -/
def written (mark : Bool) (items : List (String × Text.LineEnd)) : String :=
  String.ofList (if mark then '\ufeff' :: writtenLines items else writtenLines items)

/-! ## A line -/

variable {path : List Char}

theorem escape_cons (c : Char) (path : List Char) :
    escape (c :: path) = (if c = '#' then ['\\', '#'] else [c]) ++ escape path := List.flatMap_cons

/-- A path without backslashes is read back from its line. -/
theorem uncomment_escape (h : '\\' ∉ path) : uncomment (escape path) = path := by
  induction path with
  | nil => rfl
  | cons c path ih =>
    obtain ⟨hback, hpath⟩ := List.ne_and_not_mem_of_not_mem_cons h
    rw [escape_cons]
    by_cases hhash : c = '#'
    · rw [if_pos hhash, List.cons_append, List.singleton_append, uncomment, ih hpath, hhash]
    · rw [if_neg hhash, List.singleton_append, uncomment, ih hpath]
      · rintro behind rfl -
        exact hback rfl
      · exact hhash
      · exact Ne.symm hback

theorem mem_of_mem_escape {c : Char} (hc : c ≠ '\\') (h : c ∈ escape path) : c ∈ path := by
  obtain ⟨d, hd, hmem⟩ := List.mem_flatMap.mp h
  split at hmem
  · rename_i hhash
    rcases List.mem_cons.mp hmem with rfl | hmem
    · exact absurd rfl hc
    · rwa [List.mem_singleton.mp hmem, ← hhash]
  · rwa [List.mem_singleton.mp hmem]

/-- A line begins as its path does, or with a backslash. -/
theorem head?_escape {c : Char} (hc : c ≠ '\\') (h : (escape path).head? = some c) :
    path.head? = some c := by
  cases path with
  | nil => exact h
  | cons d path =>
    rw [escape_cons] at h
    split at h
    · exact absurd (Option.some.inj h).symm hc
    · exact h

/-- A line ends as its path does. -/
theorem getLast?_escape (path : List Char) : (escape path).getLast? = path.getLast? := by
  induction path with
  | nil => rfl
  | cons c path ih =>
    rw [escape_cons, List.getLast?_append, ih, List.getLast?_cons]
    split
    · rename_i hhash
      subst hhash
      cases path.getLast? <;> rfl
    · cases path.getLast? <;> rfl

namespace IsListable

theorem normalize_escape (h : IsListable path) : normalize (escape path) = path := by
  rw [normalize, uncomment_escape h.backslash, h.trimmed]

theorem not_mem_escape (h : IsListable path) : '\n' ∉ escape path :=
  fun hmem => h.feed (mem_of_mem_escape (by decide) hmem)

/-- No line ends with a carriage return, which is a blank. -/
theorem getLast?_escape_ne (h : IsListable path) : (escape path).getLast? ≠ some '\r' := by
  rw [getLast?_escape]
  intro hlast
  have hblank := (Text.trim_eq_self_iff.mp h.trimmed).2 '\r' hlast
  exact absurd hblank (by decide)

/-- No line is markup, as it begins with no blank and no `<`. -/
theorem isMarkup_escape (h : IsListable path) : isMarkup (escape path) = false := by
  cases hline : escape path with
  | nil => rfl
  | cons c rest =>
    have hhead (hc : c ≠ '\\') : path.head? = some c :=
      head?_escape hc (congrArg List.head? hline)
    have hblank : Text.isBlank c = false := by
      by_cases hc : c = '\\'
      · rw [hc]
        decide
      · exact (Text.trim_eq_self_iff.mp h.trimmed).1 c (hhead hc)
    rw [isMarkup, Text.trimStart_of_not_blank hblank, List.head?_cons, beq_eq_false_iff_ne]
    intro hmarkup
    obtain rfl := Option.some.inj hmarkup
    exact h.markup (hhead (by decide))

/-- The entry of a line names its path. -/
theorem entryOf_escape {path : String} (h : IsListable path.toList) (i : Nat) :
    entryOf (escape path.toList) i =
      some { line := i + 1, raw := String.ofList (escape path.toList), text := path } := by
  rw [entryOf, h.normalize_escape, if_neg h.ne_nil, String.ofList_toList]

end IsListable

/-! ## The text -/

variable {items : List (String × Text.LineEnd)}

/-- The lines of the text are the paths as they are written. -/
theorem lines_writtenLines (h : ∀ item ∈ items, IsListable item.1.toList) :
    Text.lines (writtenLines items) = items.map fun item => escape item.1.toList := by
  induction items with
  | nil => rfl
  | cons item items ih =>
    obtain ⟨hitem, hitems⟩ := List.forall_mem_cons.mp h
    rw [writtenLines, List.flatMap_cons, List.append_assoc, ← writtenLines,
      Text.lines_append _ item.2 hitem.not_mem_escape fun _ => hitem.getLast?_escape_ne,
      ih hitems, List.map_cons]

/-- The lines begin with a byte order mark only if the first path does. -/
theorem head?_writtenLines (hfirst : ∀ item ∈ items.head?,
    item.1.toList.head? ≠ some '\ufeff') : (writtenLines items).head? ≠ some '\ufeff' := by
  cases items with
  | nil => exact (Option.some_ne_none _).symm
  | cons item items =>
    rw [writtenLines, List.flatMap_cons, List.append_assoc]
    cases hline : escape item.1.toList with
    | nil => cases item.2 <;> exact fun h => absurd (Option.some.inj h) (by decide)
    | cons c rest =>
      intro h
      obtain rfl := Option.some.inj h
      exact hfirst item rfl (head?_escape (by decide) (congrArg List.head? hline))

/-- Only what is put in front of the lines is taken for a byte order mark. -/
theorem withoutMark_written (mark : Bool) (hfirst : ∀ item ∈ items.head?,
    item.1.toList.head? ≠ some '\ufeff') :
    withoutMark (written mark items).toList = writtenLines items := by
  rw [written, String.toList_ofList]
  cases mark with
  | true => rfl
  | false =>
    rcases withoutMark_cases (writtenLines items) with h | ⟨h, -⟩
    · exact absurd (congrArg List.head? h) (head?_writtenLines hfirst)
    · exact h.symm

/-- **Every list of paths can be written as a manifest.**  Its entries name the paths in their
order, the first on line 1 and each on a line of its own. -/
theorem written_reads_back (mark : Bool) (items : List (String × Text.LineEnd))
    (h : ∀ item ∈ items, IsListable item.1.toList)
    (hfirst : ∀ item ∈ items.head?, item.1.toList.head? ≠ some '\ufeff') :
    entries (written mark items) = items.mapIdx fun i item =>
      { line := i + 1, raw := String.ofList (escape item.1.toList), text := item.1 } := by
  have hplain : ((items.map fun item => escape item.1.toList).any isMarkup) = false := by
    rw [List.any_map, List.any_eq_false]
    intro item hitem
    exact Bool.eq_false_iff.mp (h item hitem).isMarkup_escape
  rw [entries, parse?, withoutMark_written mark hfirst, lines_writtenLines h, hplain,
    if_neg Bool.false_ne_true, Option.getD_some, List.zipIdx_map, List.filterMap_map,
    List.mapIdx_eq_zipIdx_map]
  refine List.filterMap_eq_map_iff_forall_eq_some.mpr fun numbered hmem => ?_
  rw [Function.comp_apply]
  exact (h numbered.1 (List.fst_mem_of_mem_zipIdx hmem)).entryOf_escape numbered.2

/-- What would end a line or start a comment elsewhere is a part of these paths. -/
def oddItems : List (String × Text.LineEnd) :=
  [("#a##/", .feed), ("b\r#c", .returnFeed), ("d\u0085e\u2028f#", .feed)]

/-- Signs within the paths do not cut them. -/
theorem written_reads_back_of_oddItems :
    (∀ item ∈ oddItems, IsListable item.1.toList) ∧
    (∀ item ∈ oddItems.head?, item.1.toList.head? ≠ some '\ufeff') ∧
    entries (written true oddItems) =
      [⟨1, "\\#a\\#\\#/", "#a##/"⟩, ⟨2, "b\r\\#c", "b\r#c"⟩,
        ⟨3, "d\u0085e\u2028f\\#", "d\u0085e\u2028f#"⟩] := by
  have hlistable : ∀ item ∈ oddItems, IsListable item.1.toList := by decide +kernel
  have hfirst : ∀ item ∈ oddItems.head?, item.1.toList.head? ≠ some '\ufeff' := by decide +kernel
  refine ⟨hlistable, hfirst, ?_⟩
  rw [written_reads_back true oddItems hlistable hfirst]
  decide +kernel

end Manifest
end PluginHost
