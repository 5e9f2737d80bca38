import PluginHost.Proofs.Discovery.Calls
import PluginHost.Proofs.FileSystem.Preorder
import PluginHost.Proofs.Walk.Visits

/-! # A discovery ends and visits nothing twice

A call of `collect` ends whatever the tree and its manifests hold, links that lead in
circles included, and it enters or reads no place twice with the same mark
(`Discovery.visits_at_most_once`).

The directories of the tree bound what is entered, unless the start is spelled over links
and `..` where there is no directory: patterns are resolved from where the start is
spelled, and what is not there is entered in vain (`Discovery.enters_what_is_astray`). -/
namespace PluginHost
namespace Discovery

/-- The log of a call that starts in a directory is the log of its walk. -/
theorem log_collect {d : Discovery} {fs : FileSystem} {source : MetadataSource} {start : Path}
    (hstart : fs.isDirectory start = true) :
    (d.collect fs source start).log = (d.walkFrom fs source start).1.log := by
  rw [collect, if_pos hstart]

/-- **A call ends and visits nothing twice.**  Its walk ends after some turns.  What it
enters and what it reads are the visits that the walk remembers, at distinct places as far
as they have the same mark; what it reads are files, so each is read at most twice.  Unless
a manifest names the root of a drive, a call enters each directory at most twice, and
nothing else but paths that stand above the place that the start spells, or there, and lead
to no directory.  When the start is spelled where there is a directory, there are none of
these. -/
theorem visits_at_most_once (d : Discovery) (fs : FileSystem) (source : MetadataSource)
    (start : Path) :
    (∃ turns, (d.surroundings fs source).walkWithin turns [.directory start false]
      { index := .empty d.index.host } = some (d.walkFrom fs source start)) ∧
    (∃ entered reads : List (Path × Bool),
      (d.collect fs source start).log.filterMap Event.entered? = entered.map Prod.fst ∧
      (d.collect fs source start).reads = reads.map Prod.fst ∧
      ((entered ++ reads).map fun v => (fs.spot v.1, v.2)).Nodup ∧
      (fs.isDirectory start = true → ((entered ++ reads).map fun v => (fs.spot v.1, v.2)).Perm
        (d.walkFrom fs source start).1.visited) ∧
      (∀ read ∈ reads, fs.isFile read.1 = true) ∧
      (∀ loc, (reads.countP fun read => fs.spot read.1 == .location loc) ≤ 2) ∧
      ((d.surroundings fs source).DriveFree →
        entered.length ≤ 2 * (fs.directories.length + (PathPattern.strays fs start).length) ∧
        (fs.isDirectory (PathPattern.startPlace fs start).path = true →
          entered.length ≤ 2 * fs.directories.length))) ∧
    fs.directories.Nodup ∧ ∀ loc, loc ∈ fs.directories ↔ fs.hasDirectory loc = true := by
  refine ⟨Surroundings.exists_walkWithin ((d.surroundings fs source).run_walk _ _), ?_,
    fs.nodup_directories, fun _ => FileSystem.mem_directories_iff⟩
  cases hstart : fs.isDirectory start with
  | false =>
    have hlog : (d.collect fs source start).log = [] := by simp [collect, hstart]
    have hreads : (d.collect fs source start).reads = [] := by simp [collect, hstart]
    exact ⟨[], [], by simp [hlog], by simp [hreads], by simp, by simp, by simp, by simp,
      by simp⟩
  | true =>
    have hreads : (d.collect fs source start).reads =
        (d.walkFrom fs source start).1.reads.map Prod.fst := by
      simp [collect, hstart]
    obtain ⟨entered, honce, henterable⟩ :=
      (d.surroundings fs source).visitedOnce_walk start (.empty d.index.host)
    have hbound (hfree : (d.surroundings fs source).DriveFree) : entered.length ≤
        2 * (fs.directories.length + (PathPattern.strays fs start).length) :=
      honce.length_le fun v hv => (henterable hfree v hv).isDirectory_or_mem_strays hstart
    refine ⟨entered, (d.walkFrom fs source start).1.reads, ?_, hreads, honce.nodup,
      fun _ => honce.visits, Surroundings.isFile_of_mem_reads _,
      fun loc => honce.countP_reads_le _, fun hfree => ⟨hbound hfree, fun hspelled => ?_⟩⟩
    · rw [log_collect hstart]
      exact honce.told
    · have hle := hbound hfree
      rw [PathPattern.strays_eq_nil hspelled] at hle
      simpa using hle

/-! ## A start that is astray -/

/-- What the only manifest of the tree lists. -/
def strayManifest : String := "./\n**/\n../\n../a/\n../**/"

/-- A tree with a link beside a directory. -/
def strayTree : FileSystem where
  entries := [("a", .directory [("b", .directory
      [("list.addins", .file (Utf8.encode strayManifest))])]), ("link", .link ⟨"a/b"⟩)]
  wellFormed := by
    have hlink : "a" < "link" := by decide +kernel
    have hnone : ∀ name : String, ∀ e ∈ ([] : Entries), name < e.1 := fun _ e he =>
      absurd he List.not_mem_nil
    refine ⟨by decide +kernel, ⟨by decide +kernel, ⟨by decide +kernel, trivial, hnone _, trivial⟩,
      hnone _, trivial⟩, fun e he => ?_, by decide +kernel, trivial, hnone _, trivial⟩
    rw [List.mem_singleton.mp he]
    exact hlink
  workingDirectory := []
  isEntryName_here := isEntryName_root

/-- Something below a directory is below one of its entries, or is one. -/
theorem exists_entry_of_descend? {loc : Location} {entries : Entries} {content : List UInt8}
    (h : Node.descend? loc (.directory entries) = some (.file content)) :
    ∃ name child rest, (name, child) ∈ entries ∧
      Node.descend? rest child = some (.file content) := by
  cases loc with
  | nil => cases h
  | cons name rest =>
    obtain ⟨child, hchild, hnode⟩ := Option.bind_eq_some_iff.mp h
    exact ⟨name, child, rest, Node.mem_of_lookup hchild, hnode⟩

/-- The manifest is the only file of the tree. -/
theorem content_of_strayTree {loc : Location} {content : List UInt8}
    (h : strayTree.nodeAt loc = some (.file content)) : content = Utf8.encode strayManifest := by
  obtain ⟨_, top, rest, hmem, h⟩ := exists_entry_of_descend? h
  simp only [strayTree, List.mem_cons, Prod.mk.injEq, List.not_mem_nil, or_false] at hmem
  obtain ⟨-, rfl⟩ | ⟨-, rfl⟩ := hmem
  · obtain ⟨_, middle, rest, hmem, h⟩ := exists_entry_of_descend? h
    obtain ⟨-, rfl⟩ := Prod.mk.inj (List.mem_singleton.mp hmem)
    obtain ⟨_, last, rest, hmem, h⟩ := exists_entry_of_descend? h
    obtain ⟨-, rfl⟩ := Prod.mk.inj (List.mem_singleton.mp hmem)
    cases rest with
    | nil => exact (Node.file.inj (Option.some.inj h)).symm
    | cons name rest => cases h
  · cases rest <;> cases h

theorem driveFree_strayTree :
    (initial.surroundings strayTree (.table strayTree [])).DriveFree := by
  rintro dir manifest entry ⟨-, text, entries, hread, hparse, hentry⟩
  have hlisted : ((Manifest.parse? strayManifest).all fun entries =>
      entries.all fun entry => !PathPattern.startsAtDrive entry.text) = true := by
    decide +kernel
  -- What is read as a manifest is the text of the only file.
  have htext : text = strayManifest := by
    obtain ⟨bytes, hbytes, hdecoded⟩ := bind_eq_ok hread
    obtain ⟨node, hnode, hfile⟩ := bind_eq_ok hbytes
    obtain ⟨loc, -, hat⟩ := FileSystem.node_eq_ok hnode
    cases node with
    | directory entries => cases hfile
    | link target => cases hfile
    | file content =>
      obtain rfl := Except.ok.inj hfile
      rw [content_of_strayTree hat, Utf8.decode?_encode] at hdecoded
      exact (Except.ok.inj hdecoded).symm
  rw [← htext, hparse] at hlisted
  simpa using List.all_eq_true.mp hlisted entry hentry

/-- The tree is entered through the link. -/
theorem enters_what_is_astray :
    (initial.surroundings strayTree (.table strayTree [])).DriveFree ∧
    strayTree.isDirectory ⟨"/link/../b"⟩ = true ∧
    2 * strayTree.directories.length <
      ((initial.collect strayTree (.table strayTree []) ⟨"/link/../b"⟩).log.filterMap
        Event.entered?).length := by
  have hstart : strayTree.isDirectory ⟨"/link/../b"⟩ = true := by decide +kernel
  have hwalk : ((initial.surroundings strayTree (.table strayTree [])).walkWithin 60
      [.directory ⟨"/link/../b"⟩ false] { index := .empty .core }).any (fun ended =>
        2 * strayTree.directories.length < (ended.1.log.filterMap Event.entered?).length) =
      true := by
    decide +kernel
  obtain ⟨ended, hended, hmany⟩ := (Option.any_eq_true _ _).mp hwalk
  have hlog : (initial.collect strayTree (.table strayTree []) ⟨"/link/../b"⟩).log =
      ended.1.log := by
    rw [log_collect hstart, walkFrom, ← Surroundings.walk_eq_of_walkWithin _ hended]
    rfl
  exact ⟨driveFree_strayTree, hstart, by rw [hlog]; simpa using hmany⟩

/-- From the start that is astray all the visits that can be made are made: each of the three
directories is entered twice, and so is the path that leads to none. -/
theorem visits_at_most_once_of_strayTree :
    (initial.surroundings strayTree (.table strayTree [])).DriveFree ∧
    PathPattern.strays strayTree ⟨"/link/../b"⟩ = [⟨"/b"⟩] ∧
    ((initial.collect strayTree (.table strayTree []) ⟨"/link/../b"⟩).log.filterMap
      Event.entered?).length ≤ 8 ∧
    strayTree.isDirectory (PathPattern.startPlace strayTree ⟨"/link"⟩).path = true ∧
    ((initial.collect strayTree (.table strayTree []) ⟨"/link"⟩).log.filterMap
      Event.entered?).length ≤ 6 := by
  have hstrays : PathPattern.strays strayTree ⟨"/link/../b"⟩ = [⟨"/b"⟩] := by decide +kernel
  have hdirectories : strayTree.directories.length = 3 := by decide +kernel
  have hspelled :
      strayTree.isDirectory (PathPattern.startPlace strayTree ⟨"/link"⟩).path = true := by
    decide +kernel
  obtain ⟨-, ⟨astray, -, htold, -, -, -, -, -, hbound⟩, -⟩ :=
    visits_at_most_once initial strayTree (.table strayTree []) ⟨"/link/../b"⟩
  obtain ⟨-, ⟨entered, -, htold', -, -, -, -, -, hbound'⟩, -⟩ :=
    visits_at_most_once initial strayTree (.table strayTree []) ⟨"/link"⟩
  have hle := (hbound driveFree_strayTree).1
  have hle' := (hbound' driveFree_strayTree).2 hspelled
  rw [hstrays, hdirectories] at hle
  rw [hdirectories] at hle'
  refine ⟨driveFree_strayTree, hstrays, ?_, hspelled, ?_⟩
  · rw [htold, List.length_map]
    exact hle
  · rw [htold', List.length_map]
    exact hle'

end Discovery
end PluginHost
