import PluginHost.Proofs.FileSystem.LinkFree
import PluginHost.Proofs.Lists
import PluginHost.Proofs.PathPattern.Places
import PluginHost.Proofs.Walk.Itineraries

/-! # What can be reached

`Surroundings.Reached` and `Surroundings.Found` say by rules which directories can be
reached from a directory and which modules are found there, with the mark or without
it.  The rules speak of locations and know no walk: nothing in them is visited, and no
rule comes before another.

Without links a directory leads to the same whatever path it was found by:
`manifests`, the entries of manifests (`lists_iff`) and what they are resolved to are
those of its location. -/
namespace PluginHost
namespace Surroundings

variable (here : Surroundings)

/-! ## Rules -/

/-- The names of the files in a directory that a glob matches, in ascending order. -/
def filesAt (glob : Glob) (loc : Location) : List String :=
  ((here.fs.namesAt loc).filter glob.isMatch).filter fun name => here.fs.hasFile (loc ++ [name])

/-- The names of the manifests of a directory, up to the first that cannot be read. -/
def legibleAt (loc : Location) : List String :=
  (here.filesAt here.manifestGlob loc).takeWhile fun name => (here.fs.textAt (loc ++ [name])).isSome

/-- An entry of these manifests.  A manifest that is markup has none. -/
def ListsAt (loc : Location) (entry : ManifestEntry) : Prop :=
  ∃ name ∈ here.legibleAt loc, ∃ text, here.fs.textAt (loc ++ [name]) = some text ∧
    entry ∈ Manifest.entries text

/-- The directories that can be reached from `home`.  The flag says that a wildcard led
there. -/
inductive Reached (home : Location) : Location → Bool → Prop where
  | start : Reached home home false
  /-- An entry that names directories leads to them. -/
  | entry {loc next : Location} {wild : Bool} {entry : ManifestEntry} {places : List Place}
      {place : Place} (dir : Reached home loc wild) (listed : here.ListsAt loc entry)
      (names : entry.namesDirectories = true)
      (resolved : PathPattern.directories here.fs (.ofLocation loc) entry.text = .ok places)
      (mem : place ∈ places) (leads : here.fs.locate place.path = .ok next) :
      Reached home next (wild || entry.hasWildcard)

/-- The modules that are found from `home`. -/
inductive Found (home : Location) : Location → Bool → Prop where
  /-- An entry that names files leads to them. -/
  | entry {loc next : Location} {wild : Bool} {entry : ManifestEntry} {places : List Place}
      {place : Place} (dir : here.Reached home loc wild) (listed : here.ListsAt loc entry)
      (names : entry.namesDirectories = false)
      (resolved : PathPattern.files here.fs (.ofLocation loc) entry.text = .ok places)
      (mem : place ∈ places) (leads : here.fs.locate place.path = .ok next) :
      Found home next (wild || entry.hasWildcard)
  /-- A directory without a manifest leads to its modules, as a wildcard does. -/
  | bare {loc : Location} {wild : Bool} {name : String} (dir : here.Reached home loc wild)
      (none : here.filesAt here.manifestGlob loc = [])
      (mem : name ∈ here.filesAt here.moduleGlob loc) :
      Found home (loc ++ [name]) true

/-- A directory that can be reached without the mark has a manifest that cannot be
read. -/
def Illegible (home : Location) : Prop :=
  ∃ loc, here.Reached home loc false ∧
    ∃ name ∈ here.filesAt here.manifestGlob loc, here.fs.textAt (loc ++ [name]) = none

variable {here} {dir : Path} {loc home : Location}

theorem mem_filesAt {glob : Glob} {name : String} (h : name ∈ here.filesAt glob loc) :
    (∃ node, here.fs.nodeAt (loc ++ [name]) = some node) ∧
      here.fs.hasFile (loc ++ [name]) = true := by
  rw [filesAt, List.mem_filter] at h
  exact ⟨FileSystem.mem_namesAt_iff.mp (List.mem_filter.mp h.1).1, h.2⟩

/-- What is found are files. -/
theorem Found.hasFile {wild : Bool} (h : here.Found home loc wild) :
    here.fs.hasFile loc = true := by
  cases h with
  | entry dir listed names resolved mem leads =>
    obtain ⟨loc', hloc', hfile⟩ :=
      FileSystem.isFile_iff.mp (PathPattern.isFile_of_mem_files resolved mem)
    rw [leads] at hloc'
    rw [Except.ok.inj hloc']
    exact hfile
  | bare dir none mem => exact (mem_filesAt mem).2

/-! ## Paths of one directory -/

/-- The path of an entry leads to the entry. -/
theorem locate_child_of_mem_filesAt (hfree : here.fs.LinkFree) (hdir : here.fs.locate dir = .ok loc)
    {glob : Glob} {name : String} (h : name ∈ here.filesAt glob loc) :
    here.fs.locate (dir.child name) = .ok (loc ++ [name]) := by
  obtain ⟨⟨node, hnode⟩, -⟩ := mem_filesAt h
  exact hfree.locate_child hdir hnode

/-- The files in a directory are the files at its location. -/
theorem filesMatching_eq (hfree : here.fs.LinkFree) (hdir : here.fs.locate dir = .ok loc)
    (glob : Glob) : here.filesMatching glob dir = (here.filesAt glob loc).map dir.child := by
  rw [filesMatching, filesAt, List.filter_map, FileSystem.names_of_locate hdir]
  congr 1
  refine List.filter_congr fun name hname => ?_
  obtain ⟨node, hnode⟩ := FileSystem.mem_namesAt_iff.mp (List.mem_filter.mp hname).1
  have hchild := hfree.locate_child hdir hnode
  rw [Function.comp_apply, Bool.eq_iff_iff, FileSystem.isFile_iff]
  constructor
  · rintro ⟨loc', hloc', hfile⟩
    rw [hchild] at hloc'
    rw [Except.ok.inj hloc']
    exact hfile
  · exact fun hfile => ⟨_, hchild, hfile⟩

theorem legible_eq (here : Surroundings) (manifest : Path) :
    here.legible manifest = (here.fs.readText manifest).toOption.isSome := by
  unfold legible
  cases here.fs.readText manifest <;> rfl

theorem legibleManifests_eq (hfree : here.fs.LinkFree) (hdir : here.fs.locate dir = .ok loc) :
    here.legibleManifests dir = (here.legibleAt loc).map dir.child := by
  rw [legibleManifests, manifests, filesMatching_eq hfree hdir, List.takeWhile_map, legibleAt]
  congr 1
  refine Lists.takeWhile_congr fun name hname => ?_
  rw [Function.comp_apply, legible_eq,
    FileSystem.readText_of_locate (locate_child_of_mem_filesAt hfree hdir hname)]

/-- **The entries of a directory are those of its location.** -/
theorem lists_iff (hfree : here.fs.LinkFree) (hdir : here.fs.locate dir = .ok loc)
    {entry : ManifestEntry} :
    (∃ manifest, here.Lists dir manifest entry) ↔ here.ListsAt loc entry := by
  have htext : ∀ {name}, name ∈ here.legibleAt loc →
      (here.fs.readText (dir.child name)).toOption = here.fs.textAt (loc ++ [name]) := fun h =>
    FileSystem.readText_of_locate
      (locate_child_of_mem_filesAt hfree hdir ((List.takeWhile_sublist _).mem h))
  constructor
  · rintro ⟨manifest, hmem, text, entries, hread, hparse, hentry⟩
    rw [legibleManifests_eq hfree hdir] at hmem
    obtain ⟨name, hname, rfl⟩ := List.mem_map.mp hmem
    refine ⟨name, hname, text, ?_, ?_⟩
    · rw [← htext hname, hread]
      rfl
    · rw [Manifest.entries, hparse]
      exact hentry
  · rintro ⟨name, hname, text, hread, hentry⟩
    refine ⟨dir.child name, ?_, text, Manifest.entries text, ?_, ?_, hentry⟩
    · rw [legibleManifests_eq hfree hdir]
      exact List.mem_map_of_mem hname
    · exact eq_ok_of_toOption ((htext hname).trans hread)
    · unfold Manifest.entries at hentry ⊢
      cases hparse : Manifest.parse? text with
      | none =>
        rw [hparse] at hentry
        cases hentry
      | some entries => rfl

end Surroundings
end PluginHost
