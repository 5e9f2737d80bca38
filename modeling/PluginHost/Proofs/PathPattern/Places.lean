import PluginHost.Proofs.FileSystem.LinkFree
import PluginHost.Proofs.PathPattern.Resolving

/-! # Where places lie

Without links a pattern for directories leads to directories only
(`hasDirectory_of_mem_directories`), even over `..` and over a drive that is not there.
`Place.Sound` is what the steps of a pattern keep: a place is a directory, or the root
of a drive, or the empty path.

A pattern is resolved from where its start leads and not from how the start is written
(`directories_eq_of_locate`, `files_eq_of_locate`). -/
namespace PluginHost

variable {fs : FileSystem}

/-! ## The locations of places -/

namespace Place

/-- The location that a place names, which the empty path does not. -/
def location? (fs : FileSystem) : Place → Option Location
  | .absolute names => some names
  | .relative [] => none
  | .relative (name :: names) => some (fs.workingDirectory ++ name :: names)
  | .drive letter => some (fs.workingDirectory ++ [driveName letter])

theorem location?_child {place : Place} {loc : Location} (h : place.location? fs = some loc)
    (name : String) : (place.child name).location? fs = some (loc ++ [name]) := by
  cases place with
  | absolute names => rw [← Option.some.inj h]; rfl
  | relative names =>
    cases names with
    | nil => cases h
    | cons first names =>
      obtain rfl := Option.some.inj h
      simp [child, location?]
  | drive letter =>
    obtain rfl := Option.some.inj h
    simp [child, location?]

theorem location?_descendant {place : Place} {loc : Location} (h : place.location? fs = some loc)
    (more : List String) : (place.descendant more).location? fs = some (loc ++ more) := by
  induction more generalizing place loc with
  | nil => rw [List.append_nil]; exact h
  | cons name more ih =>
    rw [List.append_cons]
    exact ih (location?_child h name)

/-- One step up from a place lies one step up, or is the empty path. -/
theorem location?_parent {place up : Place} {loc : Location} (h : place.location? fs = some loc)
    (hup : place.parent? = some up) :
    up = .relative [] ∨ up.location? fs = some loc.dropLast := by
  cases place with
  | absolute names =>
    obtain rfl := Option.some.inj h
    cases names with
    | nil => cases hup
    | cons name names =>
      rw [← Option.some.inj hup]
      exact .inr rfl
  | relative names =>
    cases names with
    | nil => cases hup
    | cons name names =>
      obtain rfl := Option.some.inj h
      obtain rfl := Option.some.inj hup
      cases names with
      | nil => exact .inl rfl
      | cons other names =>
        refine .inr ?_
        rw [List.dropLast_append_of_ne_nil (List.cons_ne_nil _ _)]
        rfl
  | drive letter =>
    rw [← Option.some.inj hup]
    exact .inl rfl

theorem properName_drive {letter : Char} (h : letter ≠ '/') : ProperName (driveName letter) := by
  have hlist : (driveName letter).toList = [letter, ':'] := String.toList_ofList
  refine ⟨fun he => ?_, fun he => ?_, fun he => ?_, by simp [hlist, h.symm]⟩
  all_goals
    rw [he] at hlist
    simp at hlist

theorem segments_drive {letter : Char} (h : letter ≠ '/') :
    (Place.drive letter).path.segments = [driveName letter, ""] := by
  have hname : Path.segments ⟨driveName letter⟩ = [driveName letter] :=
    Path.segments_of_no_slash (properName_drive h).no_slash
  have hslash := Path.segments_append_slash (driveName letter) ""
  rw [String.append_empty, hname] at hslash
  exact hslash

theorem isAbsolute_drive {letter : Char} (h : letter ≠ '/') :
    (Place.drive letter).path.isAbsolute = false := by
  simp [Path.isAbsolute, path, driveName, String.toList_append, h]

theorem text_drive_ne_empty (letter : Char) : (Place.drive letter).path.text ≠ "" := by
  simp [path]

/-- The path of a place leads to its location, if something is there. -/
theorem locate_path (hfree : fs.LinkFree) {place : Place} {loc : Location} {node : Node}
    (h : place.location? fs = some loc) (hnode : fs.nodeAt loc = some node)
    (hdrive : ∀ letter, place = .drive letter → fs.hasDirectory loc = true) :
    fs.locate place.path = .ok loc := by
  cases place with
  | absolute names =>
    obtain rfl := Option.some.inj h
    exact hfree.locate_ofLocation hnode
  | relative names =>
    cases names with
    | nil => cases h
    | cons name names =>
      obtain rfl := Option.some.inj h
      exact hfree.locate_intercalate (List.cons_ne_nil _ _) hnode
  | drive letter =>
    obtain rfl := Option.some.inj h
    have hletter : letter ≠ '/' := by
      rintro rfl
      have hproper := FileSystem.properName_of_nodeAt hnode (driveName '/') (by simp)
      exact hproper.no_slash (by decide)
    have hstay : fs.stepTo (fs.workingDirectory ++ [driveName letter]) "" =
        .ok (fs.workingDirectory ++ [driveName letter]) := by
      simp [FileSystem.stepTo, hdrive letter rfl, Path.isStep]
    rw [hfree.locate_eq (text_drive_ne_empty letter), isAbsolute_drive hletter,
      segments_drive hletter, ← List.singleton_append, List.foldlM_append]
    simp only [Bool.false_eq_true, if_false]
    rw [FileSystem.foldlM_stepTo_of_nodeAt _ hnode]
    change (fs.stepTo _ "" >>= pure) = _
    rw [hstay]
    rfl

/-! ## What the steps of a pattern keep -/

/-- The places that patterns for directories lead to. -/
inductive Sound (fs : FileSystem) : Place → Prop where
  | directory {place : Place} {loc : Location} (lies : place.location? fs = some loc)
      (dir : fs.hasDirectory loc = true) : Sound fs place
  /-- The root of a drive, which may not be there. -/
  | drive {letter : Char} (proper : letter ≠ '/') : Sound fs (.drive letter)
  /-- The empty path, one step up from a drive. -/
  | empty : Sound fs (.relative [])

/-- A place that leads somewhere leads to the directory where it lies. -/
theorem Sound.lies (hfree : fs.LinkFree) {place : Place} (h : place.Sound fs) {loc : Location}
    (hloc : fs.locate place.path = .ok loc) :
    place.location? fs = some loc ∧ fs.hasDirectory loc = true := by
  cases h with
  | @directory _ loc' lies dir =>
    obtain ⟨entries, hn⟩ := FileSystem.hasDirectory_iff.mp dir
    have hlocate := locate_path hfree lies hn fun _ _ => dir
    obtain rfl : loc' = loc := Except.ok.inj (hlocate.symm.trans hloc)
    exact ⟨lies, dir⟩
  | @drive letter proper =>
    have hspelled := hfree.lexical_eq hloc
    rw [hfree.locate_eq (text_drive_ne_empty letter), segments_drive proper,
      ← List.singleton_append, List.foldlM_append] at hloc
    obtain ⟨last, -, hlast⟩ := bind_eq_ok hloc
    obtain ⟨next, hnext, hdone⟩ := bind_eq_ok hlast
    obtain rfl := Except.ok.inj hdone
    obtain ⟨hdir, hstay⟩ := FileSystem.stepTo_eq_ok hnext
    have hsame : last = next := hstay
    refine ⟨?_, hsame ▸ hdir⟩
    rw [← hspelled, Path.lexical, segments_drive proper, isAbsolute_drive proper,
      List.foldl_cons, Path.fold_of_properName (properName_drive proper)]
    rfl
  | empty => cases hloc

/-- An entry of a place that is a directory is sound. -/
theorem Sound.child (hfree : fs.LinkFree) {place : Place} (h : place.Sound fs) {name : String}
    (hname : name ∈ fs.names place.path)
    (hdir : fs.isDirectory (place.child name).path = true) : (place.child name).Sound fs := by
  obtain ⟨loc, hloc, -⟩ := FileSystem.hasDirectory_of_mem_names hname
  have hlies := location?_child (h.lies hfree hloc).1 name
  rw [FileSystem.names_of_locate hloc] at hname
  obtain ⟨node, hnode⟩ := FileSystem.mem_namesAt_iff.mp hname
  have hchild : fs.locate (place.child name).path = .ok (loc ++ [name]) := by
    refine locate_path hfree hlies hnode fun letter he => ?_
    cases place <;> cases he
  obtain ⟨loc', hloc', hd⟩ := FileSystem.isDirectory_iff.mp hdir
  rw [hchild] at hloc'
  exact .directory hlies (Except.ok.inj hloc' ▸ hd)

/-- One step from a sound place leads to sound places. -/
theorem Sound.expand (hfree : fs.LinkFree) {place : Place} (h : place.Sound fs) {step : PathStep}
    {next : Place} (hnext : next ∈ step.expand fs place) : next.Sound fs := by
  cases step with
  | stay =>
    rw [List.mem_singleton.mp hnext]
    exact h
  | up =>
    rw [PathStep.expand, Option.mem_toList] at hnext
    cases h with
    | directory lies dir =>
      rcases location?_parent lies hnext with rfl | hup
      · exact .empty
      · exact .directory hup (FileSystem.hasDirectory_dropLast dir)
    | drive proper =>
      obtain rfl := Option.some.inj hnext
      exact .empty
    | empty => cases hnext
  | deep =>
    rw [PathStep.expand] at hnext
    rcases List.mem_cons.mp hnext with rfl | hnext
    · exact h
    · obtain ⟨more, hmore, rfl⟩ := List.mem_map.mp hnext
      obtain ⟨loc, hloc, -, hdir⟩ := FileSystem.hasDirectory_of_mem_below hmore
      exact .directory (location?_descendant (h.lies hfree hloc).1 more) hdir
  | wild glob =>
    rw [PathStep.expand, List.mem_filter] at hnext
    obtain ⟨hnext, hdir⟩ := hnext
    obtain ⟨name, hname, rfl⟩ := List.mem_map.mp hnext
    exact h.child hfree (List.mem_filter.mp hname).1 hdir

end Place

/-! ## Patterns that are resolved from a directory -/

namespace PathPattern

variable {start : Path} {loc : Location} {pattern : String} {places : List Place}

/-- The place that a pattern starts from is sound. -/
theorem sound_base {cs : List Char} {p : PathPattern} (h : PathPattern.ofChars cs = .ok p)
    {base : Place} (hbase : p.base? = some base) : base.Sound fs := by
  rw [(ofChars_eq_ok h).1] at hbase
  rcases splitRoot_cases cs with hroot | hroot | ⟨letter, hletter, hroot⟩
  · rw [hroot] at hbase
    cases hbase
  · rw [hroot] at hbase
    rw [← Option.some.inj hbase]
    exact .directory rfl (FileSystem.hasDirectory_root fs)
  · rw [hroot] at hbase
    rw [← Option.some.inj hbase]
    exact .drive hletter

theorem startPlace_of_locate (hfree : fs.LinkFree) (h : fs.locate start = .ok loc) :
    startPlace fs start = .absolute loc := by
  rw [startPlace, hfree.lexical_eq h]

/-- **A pattern for directories leads to directories**, or nowhere. -/
theorem hasDirectory_of_mem_directories (hfree : fs.LinkFree) (hstart : fs.locate start = .ok loc)
    (hdir : fs.hasDirectory loc = true) (h : directories fs start pattern = .ok places)
    {place : Place} (hplace : place ∈ places) {loc' : Location}
    (hloc' : fs.locate place.path = .ok loc') : fs.hasDirectory loc' = true := by
  obtain ⟨p, hp, rfl⟩ := directories_eq_ok h
  have hsound : ∀ place ∈ resolve fs start p, place.Sound fs := by
    refine forall_mem_resolve ?_ fun _ _ hplace _ hnext => hplace.expand hfree hnext
    cases hb : p.base? with
    | some base => exact sound_base hp hb
    | none =>
      rw [Option.getD_none, startPlace_of_locate hfree hstart]
      exact .directory rfl hdir
  exact ((hsound place hplace).lies hfree hloc').2

theorem check_eq_of_ne_empty {other : Path} (hs : start.text ≠ "") (ho : other.text ≠ "") :
    check start pattern = check other pattern := by
  rw [check, check, if_neg (c := start.text.isEmpty = true) (by simpa using hs),
    if_neg (c := other.text.isEmpty = true) (by simpa using ho)]

/-- A pattern for directories is resolved from where its start leads. -/
theorem directories_eq_of_locate (hfree : fs.LinkFree) {other : Path}
    (hstart : fs.locate start = .ok loc) (hother : fs.locate other = .ok loc) :
    directories fs start pattern = directories fs other pattern := by
  have hcheck : check start pattern = check other pattern :=
    check_eq_of_ne_empty (FileSystem.text_ne_empty_of_locate hstart)
      (FileSystem.text_ne_empty_of_locate hother)
  simp only [directories, hcheck, resolve, startPlace_of_locate hfree hstart,
    startPlace_of_locate hfree hother]

/-- A pattern for files is resolved from where its start leads. -/
theorem files_eq_of_locate (hfree : fs.LinkFree) {other : Path}
    (hstart : fs.locate start = .ok loc) (hother : fs.locate other = .ok loc) :
    files fs start pattern = files fs other pattern := by
  have hcheck : check start pattern = check other pattern :=
    check_eq_of_ne_empty (FileSystem.text_ne_empty_of_locate hstart)
      (FileSystem.text_ne_empty_of_locate hother)
  simp only [files, hcheck, resolve, startPlace_of_locate hfree hstart,
    startPlace_of_locate hfree hother]

end PathPattern
end PluginHost
