import PluginHost.Proofs.Manifest.Grammar
import PluginHost.Proofs.PathPattern.Parts
import PluginHost.Walk

/-! # Entries that are written out

A part without wildcards matches no name but itself (`matches_plain_iff`), so from a directory
it leads to one place at most, where the same segment of a path leads (`Leads.eq_fold`).  The parts
of a pattern are the segments of a path, and an entry without wildcards leads to one place at
most, where the path that it spells leads (`written_out_names_one`). -/
namespace PluginHost

/-- Characters that stand for themselves use up nothing but themselves. -/
theorem Glob.matchesChars_literal {cs name : List Char} :
    matchesChars (cs.map .literal) name = true ↔ name = cs := by
  induction cs generalizing name with
  | nil => simp [matchesChars]
  | cons c cs ih =>
    cases name with
    | nil => simp [matchesChars, GlobToken.rests, restAfter]
    | cons d name =>
      by_cases hd : d = c
      · simp [matchesChars, GlobToken.rests, restAfter, hd, ih]
      · simp [matchesChars, GlobToken.rests, restAfter, hd]

namespace PathPattern

variable {fs : FileSystem} {base : Path} {names : Location} {d : Place}
  {part text front : List Char}

/-- A text without wildcards matches no name but itself. -/
theorem matches_plain_iff (h : Plain text) {name : String} :
    Matches text name ↔ name = String.ofList text := by
  rw [← matches_iff (readGlob_eq_ok.mp (PathStep.readGlob_of_plain h)), Glob.isMatch_eq,
    Glob.matchesChars_literal, ← String.toList_inj, String.toList_ofList]

/-! ## One part -/

/-- **One part** without wildcards leads where the same segment of a path leads. -/
theorem Leads.eq_fold (h : Leads fs part (.absolute names) d) (hplain : Plain part) :
    d = .absolute (Path.fold names (String.ofList part)) := by
  cases h with
  | empty => rfl
  | dot => rfl
  | up hparent =>
    obtain rfl | ⟨front, name, rfl⟩ := List.eq_nil_or_concat names
    · cases hparent
    · rw [List.concat_eq_append] at hparent ⊢
      rw [Place.parent?_concat] at hparent
      have hfold : Path.fold (front ++ [name]) (String.ofList ['.', '.']) = front :=
        List.dropLast_concat
      rw [hfold]
      exact (Option.some.inj hparent).symm
  | self => exact absurd rfl (hplain.ne_star '*' List.mem_cons_self)
  | below => exact absurd rfl (hplain.ne_star '*' List.mem_cons_self)
  | child _ hname hmatch =>
    rw [← (matches_plain_iff hplain).mp hmatch,
      Path.fold_of_properName (FileSystem.properName_of_mem_names hname)]
    rfl

/-! ## All parts -/

/-- **Parts** without wildcards lead where the same segments of a path lead. -/
theorem Names.eq_foldl {parts : List (List Char)} (h : Names fs parts (.absolute names) d)
    (hplain : ∀ part ∈ parts, Plain part) :
    d = .absolute ((parts.map String.ofList).foldl Path.fold names) := by
  induction parts generalizing names with
  | nil =>
    cases h
    rfl
  | cons part parts ih =>
    cases h with
    | next hpart hparts =>
      obtain rfl := hpart.eq_fold (hplain part List.mem_cons_self)
      exact ih hparts fun part hpart => hplain part (List.mem_cons_of_mem _ hpart)

theorem onDrive_append (h : OnDrive front) (back : List Char) : OnDrive (front ++ back) := by
  obtain ⟨letter, hletter⟩ := h
  unfold splitRoot at hletter
  split at hletter
  · cases hletter
  · rename_i first rest hfirst
    split at hletter
    · rename_i halpha
      refine ⟨first, ?_⟩
      rw [List.cons_append, List.cons_append, List.cons_append, splitRoot, if_pos halpha]
      exact hfirst
    · cases hletter
  · cases hletter

/-- A text without wildcards names the place that it spells as a path. -/
theorem Named.eq_lexical (h : Named fs base text d) (hstart : startPlace fs base = .absolute names)
    (hdrive : ¬ OnDrive text) (hplain : Plain text) :
    d = .absolute (Path.lexical names ⟨String.ofList text⟩) := by
  have hparts : ∀ part ∈ text.splitOn '/', Plain part := fun part hpart =>
    hplain.mono fun c hc => mem_of_mem_splitOn hpart hc
  rw [Named, hstart] at h
  rw [Path.lexical, Path.segments, Path.isAbsolute, String.toList_ofList]
  obtain ⟨rest, rfl, hsplit⟩ | ⟨hroot, hsplit⟩ := splitRoot_of_not_onDrive hdrive
  · -- The empty segment in front of the first slash stays at the root.
    have hsegments : ('/' :: rest).splitOn '/' = [] :: rest.splitOn '/' := by
      simp [List.splitOn_cons_eq_if_modifyHead]
    rw [hsplit] at h
    rw [hsegments] at hparts ⊢
    exact h.eq_foldl fun part hpart => hparts part (List.mem_cons_of_mem _ hpart)
  · rw [hsplit] at h
    rw [if_neg (by simpa using hroot)]
    exact h.eq_foldl hparts

/-! ## The last part -/

/-- What stands in front of the last slash of a text and a name behind it spell the entry of that
name. -/
theorem lexical_of_divides {name : List Char} (h : Divides text front name)
    (hname : ProperName (String.ofList name)) (names : Location) :
    Path.lexical names ⟨String.ofList text⟩ =
      Path.lexical names ⟨String.ofList front⟩ ++ [String.ofList name] := by
  have hsegments := Path.segments_of_no_slash hname.no_slash
  obtain ⟨rfl, -, rfl | hends⟩ := h
  · obtain ⟨c, name, rfl⟩ := List.exists_cons_of_ne_nil fun hnil : name = [] =>
      hname.ne_empty (by rw [hnil])
    have hslash : (c == '/') = false := by
      refine beq_eq_false_iff_ne.mpr fun hc => hname.no_slash ?_
      rw [String.toList_ofList, hc]
      exact List.mem_cons_self
    have habsolute : Path.isAbsolute ⟨String.ofList (c :: name)⟩ = false := by
      simpa [Path.isAbsolute] using hslash
    rw [List.nil_append, Path.lexical, hsegments, habsolute]
    exact Path.fold_of_properName hname names
  · have hne : (Path.mk (String.ofList front)).text ≠ "" := by
      intro hempty
      rw [String.ofList_eq_empty_iff.mp hempty] at hends
      cases hends
    have hchild : (Path.mk (String.ofList front)).child (String.ofList name) =
        ⟨String.ofList (front ++ name)⟩ := by
      rw [Path.child, Path.endsOpen, String.toList_ofList, hends, String.ofList_append]
      rfl
    rw [← hchild, Path.lexical_child hne, hsegments]
    exact Path.fold_of_properName hname _

/-- A file that a pattern without wildcards names is the one that the pattern spells as a path. -/
theorem eq_lexical_of_file {name : List Char} (h : Divides text front name)
    (hstart : startPlace fs base = .absolute names) (hdrive : ¬ OnDrive text)
    (hplain : Plain text) {entry : String} (hd : Named fs base front d)
    (hentry : entry ∈ fs.names d.path) (hmatch : Matches name entry) :
    d.child entry = .absolute (Path.lexical names ⟨String.ofList text⟩) := by
  have hfront : Plain front := hplain.mono fun c hc => h.append ▸ List.mem_append_left _ hc
  have hname : Plain name := hplain.mono fun c hc => h.append ▸ List.mem_append_right _ hc
  have hoff : ¬ OnDrive front := fun hon => hdrive (h.append ▸ onDrive_append hon name)
  obtain rfl := (matches_plain_iff hname).mp hmatch
  obtain rfl := hd.eq_lexical hstart hoff hfront
  rw [lexical_of_divides h (FileSystem.properName_of_mem_names hentry)]
  rfl

/-! ## Entries -/

/-- Text without backslashes has its slashes already. -/
theorem slashed_of_not_mem (h : '\\' ∉ text) : slashed text = text := by
  refine (List.map_congr_left fun c hc => if_neg ?_).trans (List.map_id text)
  rintro rfl
  exact h hc

/-- Where a path leads as seen from a directory in normal form. -/
theorem startPlace_join (hproper : ∀ name ∈ names, ProperName name) (text : String) :
    startPlace fs ((Path.ofLocation names).join ⟨text⟩) =
      .absolute (Path.lexical names ⟨text⟩) := by
  rw [startPlace, Path.lexical_join (Path.text_ofLocation_ne_empty names),
    Path.lexical_ofLocation hproper]

/-- What is grounded from the root is a directory, and so is the root. -/
theorem isDirectory_of_grounded_root (h : d.Grounded fs []) : fs.isDirectory d.path = true := by
  cases h with
  | directory _ dir => exact dir
  | above _ front =>
    rw [List.prefix_nil.mp front]
    rfl

variable {entry : ManifestEntry}

/-- **The directory of an entry** that is written out. -/
theorem directories_of_written (fs : FileSystem) (hentry : Plain entry.text.toList)
    (htext : entry.text ≠ "") (hslashes : '\\' ∉ entry.text.toList)
    (hdrive : startsAtDrive entry.text = false) (hproper : ∀ name ∈ names, ProperName name)
    (hbase : fs.isDirectory (.ofLocation names) = true) :
    ∃ found : Option Place, directories fs (.ofLocation names) entry.text = .ok found.toList ∧
      ∀ place ∈ found, place = .absolute (Path.lexical names ⟨entry.text⟩) ∧
        fs.isDirectory place.path = true := by
  have hstart : startPlace fs (.ofLocation names) = .absolute names :=
    startPlace_ofLocation hproper
  have hoff := not_onDrive hdrive
  rw [slashed_of_not_mem hslashes] at hoff
  obtain ⟨places, hplaces⟩ := directories_of_plain fs
    (Path.text_ofLocation_ne_empty names) htext hentry
  obtain ⟨hnodup, hnamed⟩ := directories_named hplaces
  rw [slashed_of_not_mem hslashes] at hnamed
  have hspelled : ∀ place ∈ places, place = .absolute (Path.lexical names ⟨entry.text⟩) := by
    intro place hplace
    have h := ((hnamed place).mp hplace).eq_lexical hstart hoff hentry
    rwa [String.ofList_toList] at h
  obtain ⟨found, rfl⟩ := Lists.eq_toList_of_forall_eq hnodup hspelled
  refine ⟨found, hplaces, fun place hplace => ?_⟩
  have hmem : place ∈ found.toList := Option.mem_toList.mpr hplace
  have hgrounded : (startPlace fs (.ofLocation names)).Grounded fs [] :=
    hstart ▸ .directory hproper hbase
  exact ⟨hspelled place hmem, isDirectory_of_grounded_root
    (grounded_of_mem_directories hgrounded hdrive hplaces place hmem)⟩

/-- **The file of an entry** that is written out. -/
theorem files_of_written (fs : FileSystem) (hentry : Plain entry.text.toList)
    (htext : entry.text ≠ "") (hslashes : '\\' ∉ entry.text.toList)
    (hdrive : startsAtDrive entry.text = false) (hproper : ∀ name ∈ names, ProperName name) :
    ∃ found : Option Place, files fs (.ofLocation names) entry.text = .ok found.toList ∧
      ∀ place ∈ found, place = .absolute (Path.lexical names ⟨entry.text⟩) ∧
        fs.isFile place.path = true := by
  have hstart : startPlace fs (.ofLocation names) = .absolute names :=
    startPlace_ofLocation hproper
  have hoff := not_onDrive hdrive
  have hdivides := divides_of_splitLast (slashed entry.text.toList)
  rw [slashed_of_not_mem hslashes] at hdivides hoff
  obtain ⟨places, hplaces⟩ := files_of_plain fs
    (Path.text_ofLocation_ne_empty names) htext hentry
  obtain ⟨hnodup, hnamed⟩ := files_named hplaces
  rw [divided, slashed_of_not_mem hslashes] at hnamed
  have hspelled : ∀ place ∈ places, place = .absolute (Path.lexical names ⟨entry.text⟩) := by
    intro place hplace
    obtain ⟨d, child, hd, hchild, hmatch, rfl, -⟩ := (hnamed place).mp hplace
    have h := eq_lexical_of_file hdivides hstart hoff hentry hd hchild hmatch
    rwa [String.ofList_toList] at h
  obtain ⟨found, rfl⟩ := Lists.eq_toList_of_forall_eq hnodup hspelled
  refine ⟨found, hplaces, fun place hplace => ?_⟩
  have hmem : place ∈ found.toList := Option.mem_toList.mpr hplace
  exact ⟨hspelled place hmem, isFile_of_mem_files hplaces hmem⟩

/-- **An entry that is written out names one path at most.**  From a directory in normal form an
entry of a manifest that has no wildcard and starts at no drive is always resolved: to nothing, or
to the one path that the entry spells from that directory, and there is what the entry says, a
directory or a file.  So the entry leads a walk nowhere but to that path, and to no fault. -/
theorem written_out_names_one (here : Surroundings) {content : String} {entry : ManifestEntry}
    (hentry : entry ∈ Manifest.entries content) (hplain : entry.hasWildcard = false)
    (hdrive : startsAtDrive entry.text = false) {base : Path} (hnormal : base.IsNormal)
    (hbase : here.fs.isDirectory base = true) :
    (entry.namesDirectories = true → ∃ found : Option Place,
      directories here.fs base entry.text = .ok found.toList ∧ ∀ place ∈ found,
        place = startPlace here.fs (base.join ⟨entry.text⟩) ∧
          here.fs.isDirectory place.path = true) ∧
    (entry.namesDirectories = false → ∃ found : Option Place,
      files here.fs base entry.text = .ok found.toList ∧ ∀ place ∈ found,
        place = startPlace here.fs (base.join ⟨entry.text⟩) ∧
          here.fs.isFile place.path = true) ∧
    ∀ manifest wild, ∀ task ∈ here.entryTasks base manifest wild entry,
      task = .directory (startPlace here.fs (base.join ⟨entry.text⟩)).path wild ∨
        task = .candidate (startPlace here.fs (base.join ⟨entry.text⟩)).path wild := by
  obtain ⟨names, hproper, rfl⟩ := hnormal
  obtain ⟨htext, -, hslashes⟩ := Manifest.text_of_mem_entries hentry
  have hentry := ManifestEntry.plain_of_not_hasWildcard hplain
  have hdirectories := directories_of_written here.fs hentry htext hslashes hdrive hproper hbase
  have hfiles := files_of_written here.fs hentry htext hslashes hdrive hproper
  rw [← startPlace_join hproper] at hdirectories hfiles
  refine ⟨fun _ => hdirectories, fun _ => hfiles, fun manifest wild task htask => ?_⟩
  unfold Surroundings.entryTasks at htask
  obtain ⟨dirs, hdirs, honly⟩ := hdirectories
  obtain ⟨found, hfound, honlyFile⟩ := hfiles
  rw [hplain, Bool.or_false, hdirs, hfound] at htask
  split at htask
  · obtain ⟨place, hplace, rfl⟩ := List.mem_map.mp htask
    rw [(honly place (Option.mem_toList.mp hplace)).1]
    exact .inl rfl
  · obtain ⟨place, hplace, rfl⟩ := List.mem_map.mp htask
    rw [(honlyFile place (Option.mem_toList.mp hplace)).1]
    exact .inr rfl

/-- The entries of a tree whose directory `n` holds a link, and whose directory with braces in its
name holds a file that is called as a bracket is closed. -/
def braceEntries : Entries :=
  [("n", .directory [("up", .link ⟨"../\x7bm\x7d"⟩)]), ("\x7bm\x7d", .directory [("]", .file [])])]

theorem wellFormed_braceEntries : Node.AllWellFormed braceEntries := by
  simp only [braceEntries, Node.AllWellFormed, Node.WellFormed, List.forall_mem_cons]
  decide +kernel

def braceTree : FileSystem := ⟨braceEntries, wellFormed_braceEntries, [], isEntryName_root⟩

/-- The way over the link goes back to `n`, and what looks like a part of a wildcard is the name
of an entry. -/
theorem written_out_names_one_of_braceTree :
    ∃ found : Option Place,
      files braceTree (.ofLocation ["n"]) "up/../../\x7bm\x7d/./]" = .ok found.toList ∧
      found = some (.absolute ["\x7bm\x7d", "]"]) ∧ ∀ place ∈ found,
        place = startPlace braceTree ((Path.ofLocation ["n"]).join ⟨"up/../../\x7bm\x7d/./]"⟩) ∧
          braceTree.isFile place.path = true := by
  have hnormal : (Path.ofLocation ["n"]).IsNormal := by
    refine ⟨["n"], fun name hname => ?_, rfl⟩
    rw [List.mem_singleton.mp hname]
    exact isEntryName_iff.mp (by decide +kernel)
  have hentry : (⟨1, "up\\..\\../\x7bm\x7d/./]", "up/../../\x7bm\x7d/./]"⟩ : ManifestEntry) ∈
      Manifest.entries "up\\..\\../\x7bm\x7d/./]" := by decide +kernel
  obtain ⟨-, hfile, -⟩ := written_out_names_one
    ⟨braceTree, MetadataSource.modules braceTree, ⟨[.star]⟩, ⟨[.star]⟩⟩ hentry
    (by decide +kernel) (by decide +kernel) hnormal (by decide +kernel)
  obtain ⟨found, hfound, hplace⟩ := hfile (by decide +kernel)
  have hone : files braceTree (.ofLocation ["n"]) "up/../../\x7bm\x7d/./]" =
      .ok [.absolute ["\x7bm\x7d", "]"]] := eq_ok_of_toOption (by decide +kernel)
  refine ⟨found, hfound, ?_, hplace⟩
  have hlist : found.toList = [.absolute ["\x7bm\x7d", "]"]] :=
    Except.ok.inj (hfound.symm.trans hone)
  cases found with
  | none => cases hlist
  | some place => rw [List.singleton_inj.mp hlist]

end PathPattern
end PluginHost
