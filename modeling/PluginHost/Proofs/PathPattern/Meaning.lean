import Mathlib.Data.List.Basic
import PluginHost.Proofs.FileSystem.Contents
import PluginHost.Proofs.Lists
import PluginHost.Proofs.PathPattern.Resolving

/-! # What a pattern names

`Leads` says where one part of a pattern leads from one directory, and `Names` where
a sequence of parts leads.  Neither knows of lists of directories that grow and
shrink.  A resolver that answers, answers with the places that are named and no other,
each once (`mem_foldl_advance`, `nodup_foldl_advance`), and whether it answers
depends on the texts alone (`readDirectories_fails_iff`, `readFiles_fails_iff`). -/
namespace PluginHost

namespace PathPattern

/-- The parts that are not matched against names. -/
def isSpecial (part : List Char) : Bool :=
  part = [] ∨ part = ['.'] ∨ part = ['.', '.'] ∨ part = ['*', '*']

/-- Whether the name of an entry matches a text that can be read as a glob. -/
def Matches (text : List Char) (name : String) : Prop :=
  ∃ glob, Glob.ofText (String.ofList text) = .ok glob ∧
    Glob.matchesChars glob.tokens name.toList = true

/-- Where one part of a pattern leads from a directory. -/
inductive Leads (fs : FileSystem) : List Char → Place → Place → Prop
  | empty (d : Place) : Leads fs [] d d
  | dot (d : Place) : Leads fs ['.'] d d
  | up {d parent : Place} (hparent : d.parent? = some parent) : Leads fs ['.', '.'] d parent
  | self (d : Place) : Leads fs ['*', '*'] d d
  /-- A directory below this one, at any depth, that no link leads to. -/
  | below {d : Place} {names : Location} {top : Node} {entries : Entries} (hne : names ≠ [])
      (htop : fs.node d.path = .ok top)
      (hbelow : Node.descend? names top = some (.directory entries)) :
      Leads fs ['*', '*'] d (d.descendant names)
  /-- A directory in this one, over a link or not, whose name matches. -/
  | child {part : List Char} {d : Place} {name : String} (hpart : isSpecial part = false)
      (hname : name ∈ fs.names d.path) (hmatch : Matches part name)
      (hdirectory : fs.isDirectory (d.child name).path = true) :
      Leads fs part d (d.child name)

/-- Where a sequence of parts leads from a directory. -/
inductive Names (fs : FileSystem) : List (List Char) → Place → Place → Prop
  | done (d : Place) : Names fs [] d d
  | next {part : List Char} {parts : List (List Char)} {d e f : Place}
      (hpart : Leads fs part d e) (hparts : Names fs parts e f) : Names fs (part :: parts) d f

/-- Whether a text names a directory from `start`: from the root that the text names
itself, or else from where `start` is. -/
def Named (fs : FileSystem) (start : Path) (text : List Char) (d : Place) : Prop :=
  Names fs ((splitRoot text).2.splitOn '/') ((splitRoot text).1.getD (startPlace fs start)) d

/-! ## Reading parts -/

/-- How a part is read. -/
theorem ofChars_cases (part : List Char) :
    ((part = [] ∨ part = ['.']) ∧ PathStep.ofChars part = .ok .stay) ∨
    (part = ['.', '.'] ∧ PathStep.ofChars part = .ok .up) ∨
    (part = ['*', '*'] ∧ PathStep.ofChars part = .ok .deep) ∨
    (isSpecial part = false ∧
      PathStep.ofChars part = (PathStep.readGlob part).map PathStep.wild) := by
  unfold PathStep.ofChars
  split
  · rename_i hstay
    exact .inl ⟨hstay, rfl⟩
  · rename_i hstay
    split
    · rename_i hup
      exact .inr (.inl ⟨hup, rfl⟩)
    · rename_i hup
      split
      · rename_i hdeep
        exact .inr (.inr (.inl ⟨hdeep, rfl⟩))
      · rename_i hdeep
        exact .inr (.inr (.inr ⟨by simp_all [isSpecial], rfl⟩))

theorem readGlob_eq_ok {text : List Char} {glob : Glob} :
    PathStep.readGlob text = .ok glob ↔ Glob.ofText (String.ofList text) = .ok glob := by
  unfold PathStep.readGlob
  cases Glob.ofText (String.ofList text) with
  | ok other => simp
  | error e => simp

/-- Whether a text can be read as a glob. -/
def Unreadable (text : List Char) : Prop := ∃ e, Glob.ofText (String.ofList text) = .error e

theorem readGlob_fails_iff {text : List Char} :
    (∃ e, PathStep.readGlob text = .error e) ↔ Unreadable text := by
  unfold PathStep.readGlob Unreadable
  cases Glob.ofText (String.ofList text) with
  | ok glob => simp
  | error e => simp

/-- A part cannot be read when it is to match names and is no glob. -/
theorem part_fails_iff {part : List Char} :
    (∃ e, PathStep.ofChars part = .error e) ↔ isSpecial part = false ∧ Unreadable part := by
  obtain ⟨rfl | rfl, h⟩ | ⟨rfl, h⟩ | ⟨rfl, h⟩ | ⟨hpart, h⟩ := ofChars_cases part
  · simp [h, isSpecial]
  · simp [h, isSpecial]
  · simp [h, isSpecial]
  · simp [h, isSpecial]
  · rw [h, ← readGlob_fails_iff]
    cases PathStep.readGlob part with
    | ok glob => simp [Except.map]
    | error e => simp [Except.map, hpart]

variable {fs : FileSystem} {start : Path}

/-! ## One step -/

theorem matches_iff {text : List Char} {glob : Glob}
    (h : Glob.ofText (String.ofList text) = .ok glob) {name : String} :
    glob.isMatch name = true ↔ Matches text name := by
  rw [Glob.isMatch_eq]
  constructor
  · exact fun hmatch => ⟨glob, h, hmatch⟩
  · rintro ⟨other, hother, hmatch⟩
    obtain rfl := Except.ok.inj (h.symm.trans hother)
    exact hmatch

theorem leads_stay_iff {part : List Char} (hpart : part = [] ∨ part = ['.']) {d e : Place} :
    Leads fs part d e ↔ e = d := by
  constructor
  · intro h
    cases h with
    | empty => rfl
    | dot => rfl
    | up => simp at hpart
    | self => simp at hpart
    | below => simp at hpart
    | child hspecial => obtain rfl | rfl := hpart <;> cases hspecial
  · rintro rfl
    obtain rfl | rfl := hpart
    · exact .empty e
    · exact .dot e

theorem leads_up_iff {d e : Place} : Leads fs ['.', '.'] d e ↔ d.parent? = some e := by
  constructor
  · intro h
    cases h with
    | up hparent => exact hparent
    | child hspecial => cases hspecial
  · exact fun hparent => .up hparent

theorem leads_deep_iff {d e : Place} :
    Leads fs ['*', '*'] d e ↔ e = d ∨ ∃ names ∈ fs.below d.path, d.descendant names = e := by
  constructor
  · intro h
    cases h with
    | self => exact .inl rfl
    | below hne htop hbelow =>
      exact .inr ⟨_, FileSystem.mem_below_iff.mpr ⟨hne, _, _, htop, hbelow⟩, rfl⟩
    | child hspecial => cases hspecial
  · rintro (rfl | ⟨names, hnames, rfl⟩)
    · exact .self e
    · obtain ⟨hne, top, entries, htop, hbelow⟩ := FileSystem.mem_below_iff.mp hnames
      exact .below hne htop hbelow

theorem leads_child_iff {part : List Char} (hpart : isSpecial part = false) {d e : Place} :
    Leads fs part d e ↔ (∃ name, (name ∈ fs.names d.path ∧ Matches part name) ∧
      d.child name = e) ∧ fs.isDirectory e.path = true := by
  constructor
  · intro h
    cases h with
    | child _ hname hmatch hdirectory => exact ⟨⟨_, ⟨hname, hmatch⟩, rfl⟩, hdirectory⟩
    | empty => cases hpart
    | dot => cases hpart
    | up => cases hpart
    | self => cases hpart
    | below => cases hpart
  · rintro ⟨⟨name, ⟨hname, hmatch⟩, rfl⟩, hdirectory⟩
    exact .child hpart hname hmatch hdirectory

/-- A step goes from a directory exactly where its part leads. -/
theorem mem_expand_iff {part : List Char} {step : PathStep}
    (h : PathStep.ofChars part = .ok step) {d e : Place} :
    e ∈ step.expand fs d ↔ Leads fs part d e := by
  obtain ⟨hpart, hread⟩ | ⟨rfl, hread⟩ | ⟨rfl, hread⟩ | ⟨hpart, hread⟩ := ofChars_cases part
  · obtain rfl := Except.ok.inj (hread.symm.trans h)
    rw [PathStep.expand, List.mem_singleton, leads_stay_iff hpart]
  · obtain rfl := Except.ok.inj (hread.symm.trans h)
    rw [PathStep.expand, Option.mem_toList, leads_up_iff]
  · obtain rfl := Except.ok.inj (hread.symm.trans h)
    rw [PathStep.expand, List.mem_cons, List.mem_map, leads_deep_iff]
  · obtain ⟨glob, hglob, rfl⟩ := map_eq_ok_iff.mp (hread.symm.trans h)
    rw [PathStep.expand, List.mem_filter, List.mem_map, leads_child_iff hpart]
    simp only [List.mem_filter, matches_iff (readGlob_eq_ok.mp hglob)]

/-! ## All steps -/

theorem mem_advance_iff {part : List Char} {step : PathStep}
    (h : PathStep.ofChars part = .ok step) {frontier : List Place} {e : Place} :
    e ∈ advance fs frontier step ↔ ∃ d ∈ frontier, Leads fs part d e := by
  rw [advance, List.mem_eraseDups, List.mem_flatMap]
  simp only [mem_expand_iff h]

/-- **The steps of a pattern lead to what its parts name**, from any of several
directories. -/
theorem mem_foldl_advance {parts : List (List Char)} {steps : List PathStep}
    (h : parts.mapM PathStep.ofChars = .ok steps) {frontier : List Place} {e : Place} :
    e ∈ steps.foldl (advance fs) frontier ↔ ∃ d ∈ frontier, Names fs parts d e := by
  induction parts generalizing steps frontier with
  | nil =>
    obtain rfl := Except.ok.inj h
    constructor
    · exact fun hmem => ⟨e, hmem, .done e⟩
    · rintro ⟨d, hd, hnames⟩
      cases hnames
      exact hd
  | cons part parts ih =>
    rw [List.mapM_cons] at h
    obtain ⟨step, hstep, h⟩ := bind_eq_ok h
    obtain ⟨rest, hrest, h⟩ := bind_eq_ok h
    obtain rfl := Except.ok.inj h
    rw [List.foldl_cons, ih hrest]
    simp only [mem_advance_iff hstep]
    constructor
    · rintro ⟨d', ⟨d, hd, hleads⟩, hnames⟩
      exact ⟨d, hd, .next hleads hnames⟩
    · rintro ⟨d, hd, hnames⟩
      cases hnames with
      | next hleads hnames => exact ⟨_, ⟨d, hd, hleads⟩, hnames⟩

/-- No place is led to twice. -/
theorem nodup_foldl_advance (steps : List PathStep) {frontier : List Place}
    (h : frontier.Nodup) : (steps.foldl (advance fs) frontier).Nodup := by
  induction steps generalizing frontier with
  | nil => exact h
  | cons step steps ih => exact ih (Lists.nodup_eraseDups _)

/-- A pattern is resolved to the directories that its text names. -/
theorem mem_resolve_iff {text : List Char} {p : PathPattern}
    (h : PathPattern.ofChars text = .ok p) {d : Place} :
    d ∈ resolve fs start p ↔ Named fs start text d := by
  obtain ⟨hbase, hsteps⟩ := ofChars_eq_ok h
  rw [resolve, mem_foldl_advance hsteps, hbase, Named]
  simp only [List.mem_singleton, exists_eq_left]

theorem nodup_resolve (p : PathPattern) : (resolve fs start p).Nodup :=
  nodup_foldl_advance _ (List.pairwise_singleton _ _)

/-! ## Whether a pattern can be read -/

/-- A text is no pattern for directories when one of its parts is to match names and is no
glob. -/
def Malformed (text : List Char) : Prop :=
  ∃ part ∈ (splitRoot text).2.splitOn '/', isSpecial part = false ∧ Unreadable part

theorem ofChars_fails_iff {text : List Char} :
    (∃ e, PathPattern.ofChars text = .error e) ↔ Malformed text := by
  simp only [Malformed, ← part_fails_iff, ← mapM_fails_iff]
  exact bind_pure_fails_iff

/-- What is resolved is neither empty nor resolved from nowhere. -/
theorem check_fails_iff {pattern : String} :
    (∃ e, check start pattern = .error e) ↔ pattern = "" ∨ start.text = "" := by
  unfold check
  by_cases hp : pattern = ""
  · simp [hp]
  · by_cases hs : start.text = ""
    · simp [hs, hp]
    · simp [hs, hp]

/-! ## The last part -/

/-- A text consists of directories, up to its last slash, and of a name. -/
structure Divides (text front name : List Char) : Prop where
  append : text = front ++ name
  no_slash : '/' ∉ name
  ends : front = [] ∨ front.getLast? = some '/'

theorem divides_of_splitLast (text : List Char) :
    Divides text ((splitLast text).getD ([], text)).1 ((splitLast text).getD ([], text)).2 := by
  have hsplit : text = (text.reverse.dropWhile (· != '/')).reverse ++
      (text.reverse.takeWhile (· != '/')).reverse := by
    rw [← List.reverse_append, List.takeWhile_append_dropWhile, List.reverse_reverse]
  have hname : '/' ∉ (text.reverse.takeWhile (· != '/')).reverse := fun hmem => by
    have hall := List.all_eq_true.mp (List.all_takeWhile (p := (· != '/')) (l := text.reverse))
    simpa using hall '/' (List.mem_reverse.mp hmem)
  unfold splitLast
  cases hfront : text.reverse.dropWhile (· != '/') with
  | nil =>
    rw [hfront] at hsplit
    exact ⟨rfl, hsplit ▸ hname, .inl rfl⟩
  | cons c front =>
    rw [hfront] at hsplit
    refine ⟨hsplit, hname, .inr ?_⟩
    have hlast := List.head?_dropWhile_not (· != '/') text.reverse
    rw [hfront] at hlast
    simpa [List.getLast?_reverse] using hlast

/-- The directories of a pattern for files, up to its last slash, and the name behind it. -/
def divided (pattern : String) : List Char × List Char :=
  (splitLast (slashed pattern.toList)).getD ([], slashed pattern.toList)

/-! ## Reading comes first -/

/-- What is read of a pattern for directories. -/
def readDirectories (start : Path) (pattern : String) : Except PatternError PathPattern := do
  check start pattern
  PathPattern.ofChars (slashed pattern.toList)

/-- What is read of a pattern for files. -/
def readFiles (start : Path) (pattern : String) : Except PatternError (PathPattern × Glob) := do
  check start pattern
  let p ← PathPattern.ofChars (divided pattern).1
  return (p, ← PathStep.readGlob (divided pattern).2)

theorem directories_eq (fs : FileSystem) (start : Path) (pattern : String) :
    directories fs start pattern = (readDirectories start pattern).map (resolve fs start) := by
  unfold directories readDirectories
  cases check start pattern with
  | error e => rfl
  | ok checked => cases PathPattern.ofChars (slashed pattern.toList) <;> rfl

theorem files_eq (fs : FileSystem) (start : Path) (pattern : String) :
    files fs start pattern = (readFiles start pattern).map fun (p, glob) =>
      ((resolve fs start p).flatMap (filesIn fs glob)).eraseDups := by
  unfold files readFiles divided
  cases check start pattern with
  | error e => rfl
  | ok checked =>
    cases splitLast (slashed pattern.toList) with
    | some parts =>
      cases hp : PathPattern.ofChars parts.1 with
      | error e => simp [hp, bind, Except.bind, Except.map]
      | ok p =>
        cases hglob : PathStep.readGlob parts.2 with
        | error e => simp [hp, hglob, bind, Except.bind, pure, Except.pure, Except.map]
        | ok glob => simp [hp, hglob, bind, Except.bind, pure, Except.pure, Except.map]
    | none =>
      -- A pattern without a slash is resolved as if it began with `./`.
      have hempty : PathPattern.ofChars [] = .ok ⟨none, [.stay]⟩ := by decide +kernel
      have hstay : resolve fs start ⟨none, [.stay]⟩ = [startPlace fs start] := by
        simp [resolve, advance, PathStep.expand, List.eraseDups_cons]
      simp only [Option.getD_none, hempty]
      cases hglob : PathStep.readGlob (slashed pattern.toList) with
      | error e => simp [hglob, bind, Except.bind, pure, Except.pure, Except.map]
      | ok glob => simp [hglob, hstay, bind, Except.bind, pure, Except.pure, Except.map]

theorem readDirectories_fails_iff {pattern : String} :
    (∃ e, readDirectories start pattern = .error e) ↔
      pattern = "" ∨ start.text = "" ∨ Malformed (slashed pattern.toList) := by
  rw [← or_assoc, ← check_fails_iff, ← ofChars_fails_iff]
  exact bind_fails_iff fun _ => Iff.rfl

theorem readFiles_fails_iff {pattern : String} :
    (∃ e, readFiles start pattern = .error e) ↔
      pattern = "" ∨ start.text = "" ∨
        Malformed (divided pattern).1 ∨ Unreadable (divided pattern).2 := by
  rw [← or_assoc, ← check_fails_iff, ← ofChars_fails_iff, ← readGlob_fails_iff]
  exact bind_fails_iff fun _ => bind_fails_iff fun _ => bind_pure_fails_iff

/-! ## What is named -/

theorem mem_files_iff {front name : List Char} {p : PathPattern} {glob : Glob} {f : Place}
    (hp : PathPattern.ofChars front = .ok p) (hglob : PathStep.readGlob name = .ok glob) :
    f ∈ ((resolve fs start p).flatMap (filesIn fs glob)).eraseDups ↔
      ∃ d entry, Named fs start front d ∧ entry ∈ fs.names d.path ∧ Matches name entry ∧
        f = d.child entry ∧ fs.isFile f.path = true := by
  simp only [List.mem_eraseDups, List.mem_flatMap, mem_resolve_iff hp, filesIn, List.mem_filter,
    List.mem_map, matches_iff (readGlob_eq_ok.mp hglob)]
  constructor
  · rintro ⟨d, hd, ⟨entry, ⟨hentry, hmatch⟩, rfl⟩, hfile⟩
    exact ⟨d, entry, hd, hentry, hmatch, rfl, hfile⟩
  · rintro ⟨d, entry, hd, hentry, hmatch, rfl, hfile⟩
    exact ⟨d, hd, ⟨entry, ⟨hentry, hmatch⟩, rfl⟩, hfile⟩

/-- The answer about directories. -/
theorem directories_named {pattern : String} {places : List Place}
    (h : directories fs start pattern = .ok places) :
    places.Nodup ∧ ∀ d, d ∈ places ↔ Named fs start (slashed pattern.toList) d := by
  obtain ⟨p, hp, rfl⟩ := directories_eq_ok h
  exact ⟨nodup_resolve p, fun d => mem_resolve_iff hp⟩

/-- The answer about files. -/
theorem files_named {pattern : String} {places : List Place}
    (h : files fs start pattern = .ok places) : places.Nodup ∧
      ∀ f, f ∈ places ↔ ∃ d entry, Named fs start (divided pattern).1 d ∧
        entry ∈ fs.names d.path ∧ Matches (divided pattern).2 entry ∧ f = d.child entry ∧
          fs.isFile f.path = true := by
  rw [files_eq, map_eq_ok_iff] at h
  obtain ⟨⟨p, glob⟩, hread, rfl⟩ := h
  obtain ⟨_, -, hread⟩ := bind_eq_ok hread
  obtain ⟨_, hp, hread⟩ := bind_eq_ok hread
  obtain ⟨_, hglob, hread⟩ := bind_eq_ok hread
  obtain ⟨rfl, rfl⟩ := Prod.mk.inj (Except.ok.inj hread)
  exact ⟨Lists.nodup_eraseDups _, fun f => mem_files_iff hp hglob⟩

/-- **Resolving is exact.**  An answer about directories has each directory that the
pattern names from the start once, and nothing else; an answer about files has each file
once that lies in a directory named by what stands in front of the last slash and whose
name matches what stands behind it.  A resolver fails when the pattern or the start is
empty or a part that is to match names is no glob, and it fails alike in every tree. -/
theorem resolution_exact (fs : FileSystem) (start : Path) (pattern : String) :
    (∀ places, directories fs start pattern = .ok places → places.Nodup ∧
      ∀ d, d ∈ places ↔ Named fs start (slashed pattern.toList) d) ∧
    ((∃ e, directories fs start pattern = .error e) ↔
      pattern = "" ∨ start.text = "" ∨ Malformed (slashed pattern.toList)) ∧
    (∃ front name, Divides (slashed pattern.toList) front name ∧
      (∀ places, files fs start pattern = .ok places → places.Nodup ∧
        ∀ f, f ∈ places ↔ ∃ d entry, Named fs start front d ∧ entry ∈ fs.names d.path ∧
          Matches name entry ∧ f = d.child entry ∧ fs.isFile f.path = true) ∧
      ((∃ e, files fs start pattern = .error e) ↔
        pattern = "" ∨ start.text = "" ∨ Malformed front ∨ Unreadable name)) ∧
    ∀ fs' e, (directories fs start pattern = .error e ↔ directories fs' start pattern = .error e) ∧
      (files fs start pattern = .error e ↔ files fs' start pattern = .error e) := by
  have hdirectories (fs : FileSystem) (e : PatternError) :
      directories fs start pattern = .error e ↔ readDirectories start pattern = .error e := by
    rw [directories_eq, map_eq_error_iff]
  have hfiles (fs : FileSystem) (e : PatternError) :
      files fs start pattern = .error e ↔ readFiles start pattern = .error e := by
    rw [files_eq, map_eq_error_iff]
  simp only [hdirectories, hfiles]
  exact ⟨fun _ => directories_named, readDirectories_fails_iff, ⟨(divided pattern).1,
    (divided pattern).2, divides_of_splitLast _, fun _ => files_named, readFiles_fails_iff⟩,
    fun _ _ => ⟨trivial, trivial⟩⟩

end PathPattern
end PluginHost
