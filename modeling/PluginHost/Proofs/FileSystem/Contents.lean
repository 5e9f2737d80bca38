import PluginHost.FileSystem.Directories
import PluginHost.Proofs.Path.Segments
import PluginHost.Proofs.Results

/-! # What is where

`FileSystem.nodeAt` looks below locations one name at a time (`nodeAt_concat`): what
something lies below is a directory (`hasDirectory_of_nodeAt`), and the names of a
location are proper (`properName_of_nodeAt`).  What `isFile`, `isDirectory`,
`names` and `below` say of a path is said of the location it leads to. -/
namespace PluginHost

/-! ## Entries -/

namespace Node

theorem descend?_append (loc more : Location) (node : Node) :
    descend? (loc ++ more) node = (descend? loc node).bind (descend? more) := by
  induction loc generalizing node with
  | nil => rfl
  | cons name loc ih =>
    cases node with
    | file content => rfl
    | link target => rfl
    | directory entries =>
      rw [List.cons_append, descend?, descend?, Option.bind_assoc]
      exact congrArg _ (funext ih)

mutual
/-- What is listed below an entry are directories below it. -/
theorem descend?_of_mem_directoriesBelow {node : Node} (h : node.WellFormed) {loc : Location}
    (hloc : loc ∈ node.directoriesBelow) :
    loc ≠ [] ∧ ∃ entries, descend? loc node = some (.directory entries) := by
  cases node with
  | file content => simp [directoriesBelow] at hloc
  | link target => simp [directoriesBelow] at hloc
  | directory entries =>
    rw [directoriesBelow] at hloc
    rw [WellFormed] at h
    obtain ⟨name, node, back, hmem, rfl, hback⟩ := exists_of_mem_allDirectoriesBelow h hloc
    refine ⟨List.cons_ne_nil _ _, ?_⟩
    rw [descend?, (h.of_mem hmem).2.2]
    exact hback

/-- What is listed below entries leads to directories over one of the entries. -/
theorem exists_of_mem_allDirectoriesBelow {entries : Entries} (h : AllWellFormed entries)
    {loc : Location} (hloc : loc ∈ allDirectoriesBelow entries) :
    ∃ name node back, (name, node) ∈ entries ∧ loc = name :: back ∧
      ∃ below, descend? back node = some (.directory below) := by
  cases entries with
  | nil => simp [allDirectoriesBelow] at hloc
  | cons e rest =>
    obtain ⟨name, node⟩ := e
    rw [AllWellFormed] at h
    rw [allDirectoriesBelow, List.mem_append, List.mem_append] at hloc
    rcases hloc with (hloc | hloc) | hloc
    · cases node with
      | directory below =>
        have hself : loc = [name] := by simpa [isDirectory] using hloc
        exact ⟨name, .directory below, [], List.mem_cons_self, hself, below, rfl⟩
      | file content => simp [isDirectory] at hloc
      | link target => simp [isDirectory] at hloc
    · obtain ⟨back, hback, rfl⟩ := List.mem_map.mp hloc
      obtain ⟨-, below, hbelow⟩ := descend?_of_mem_directoriesBelow h.2.1 hback
      exact ⟨name, node, back, List.mem_cons_self, rfl, below, hbelow⟩
    · obtain ⟨other, node', back, hmem, rfl, hbelow⟩ :=
        exists_of_mem_allDirectoriesBelow h.2.2.2 hloc
      exact ⟨other, node', back, List.mem_cons_of_mem _ hmem, rfl, hbelow⟩
end

end Node

namespace FileSystem

variable {fs : FileSystem} {loc : Location}

/-! ## Locations -/

theorem nodeAt_append (loc more : Location) :
    fs.nodeAt (loc ++ more) = (fs.nodeAt loc).bind (Node.descend? more) :=
  Node.descend?_append loc more fs.root

theorem nodeAt_concat (loc : Location) (name : String) :
    fs.nodeAt (loc ++ [name]) = (fs.nodeAt loc).bind fun
      | .directory entries => entries.lookup name
      | _ => none := by
  rw [nodeAt_append]
  refine congrArg _ (funext fun node => ?_)
  cases node with
  | file content => rfl
  | link target => rfl
  | directory entries =>
    change (entries.lookup name).bind (Node.descend? []) = entries.lookup name
    cases entries.lookup name <;> rfl

theorem hasDirectory_iff :
    fs.hasDirectory loc = true ↔ ∃ entries, fs.nodeAt loc = some (.directory entries) := by
  unfold hasDirectory
  cases fs.nodeAt loc with
  | none => simp
  | some node => cases node <;> simp [Node.isDirectory]

theorem hasDirectory_root (fs : FileSystem) : fs.hasDirectory [] = true := rfl

/-- What something lies below is a directory. -/
theorem hasDirectory_of_nodeAt {name : String} {more : Location} {node : Node}
    (h : fs.nodeAt (loc ++ name :: more) = some node) : fs.hasDirectory loc = true := by
  rw [nodeAt_append] at h
  obtain ⟨here, hhere, hnode⟩ := Option.bind_eq_some_iff.mp h
  cases here with
  | file content => cases hnode
  | link target => cases hnode
  | directory entries => exact hasDirectory_iff.mpr ⟨entries, hhere⟩

/-- One step up from a directory is a directory. -/
theorem hasDirectory_dropLast (h : fs.hasDirectory loc = true) :
    fs.hasDirectory loc.dropLast = true := by
  rcases List.eq_nil_or_concat loc with rfl | ⟨front, name, rfl⟩
  · exact h
  · rw [List.concat_eq_append] at h ⊢
    obtain ⟨entries, hentries⟩ := hasDirectory_iff.mp h
    rw [List.dropLast_concat]
    exact hasDirectory_of_nodeAt hentries

/-- The names of a location are proper. -/
theorem properName_of_nodeAt {node : Node} (h : fs.nodeAt loc = some node) :
    ∀ name ∈ loc, ProperName name :=
  fun name hname => isEntryName_iff.mp ((wellFormed_nodeAt h).2 name hname)

/-- The names on the way to the working directory are proper. -/
theorem properName_here (fs : FileSystem) : ∀ name ∈ fs.workingDirectory, ProperName name :=
  fun name hname => isEntryName_iff.mp (fs.isEntryName_here name hname)

/-- Every directory is listed, and nothing else. -/
theorem mem_directories_iff : loc ∈ fs.directories ↔ fs.hasDirectory loc = true := by
  refine ⟨fun h => ?_, mem_directories⟩
  obtain rfl | h := List.mem_cons.mp h
  · exact hasDirectory_root fs
  · obtain ⟨-, entries, hentries⟩ :=
      Node.descend?_of_mem_directoriesBelow (wellFormed_root fs) h
    exact hasDirectory_iff.mpr ⟨entries, hentries⟩

/-- The entries of a directory are what lies one name below it. -/
theorem mem_entries_iff {entries : Entries} (h : fs.nodeAt loc = some (.directory entries))
    {name : String} {node : Node} :
    (name, node) ∈ entries ↔ fs.nodeAt (loc ++ [name]) = some node := by
  have hwell := (wellFormed_nodeAt h).1
  rw [Node.WellFormed] at hwell
  rw [nodeAt_concat, h]
  exact ⟨fun hmem => (hwell.of_mem hmem).2.2, Node.mem_of_lookup⟩

/-! ## Paths that lead to locations -/

section

variable {p : Path}

/-- The empty path leads nowhere. -/
theorem text_ne_empty_of_locate (h : fs.locate p = .ok loc) : p.text ≠ "" := by
  intro he
  rw [locate, if_pos (by rw [he]; rfl)] at h
  cases h

theorem node_of_locate (h : fs.locate p = .ok loc) :
    fs.node p = match fs.nodeAt loc with
      | some node => .ok node
      | none => .error .notFound := by
  unfold node
  rw [h]
  simp only [bind, Except.bind]
  cases fs.nodeAt loc <;> rfl

theorem node_of_locate_error {e : FileError} (h : fs.locate p = .error e) :
    fs.node p = .error e := by
  unfold node
  rw [h]
  rfl

/-- What a path to nothing leads to. -/
theorem node_eq_ok {node : Node} (h : fs.node p = .ok node) :
    ∃ loc, fs.locate p = .ok loc ∧ fs.nodeAt loc = some node := by
  cases hl : fs.locate p with
  | error e => rw [node_of_locate_error hl] at h; cases h
  | ok loc =>
    rw [node_of_locate hl] at h
    cases hn : fs.nodeAt loc with
    | none => rw [hn] at h; cases h
    | some other =>
      rw [hn] at h
      exact ⟨loc, rfl, by rw [← Except.ok.inj h]; exact hn⟩

theorem isDirectory_iff :
    fs.isDirectory p = true ↔ ∃ loc, fs.locate p = .ok loc ∧ fs.hasDirectory loc = true := by
  unfold isDirectory
  constructor
  · intro h
    split at h
    · rename_i entries hnode
      obtain ⟨loc, hl, hn⟩ := node_eq_ok hnode
      exact ⟨loc, hl, hasDirectory_iff.mpr ⟨entries, hn⟩⟩
    · cases h
  · rintro ⟨loc, hl, hd⟩
    obtain ⟨entries, hn⟩ := hasDirectory_iff.mp hd
    rw [node_of_locate hl, hn]

/-- Whether a location holds a file. -/
def hasFile (fs : FileSystem) (loc : Location) : Bool :=
  match fs.nodeAt loc with
  | some (.file _) => true
  | _ => false

theorem hasFile_iff :
    fs.hasFile loc = true ↔ ∃ content, fs.nodeAt loc = some (.file content) := by
  unfold hasFile
  constructor
  · intro h
    split at h
    · exact ⟨_, by assumption⟩
    · cases h
  · rintro ⟨content, h⟩
    rw [h]

/-- No file is a directory. -/
theorem not_hasDirectory_of_hasFile (h : fs.hasFile loc = true) : fs.hasDirectory loc = false := by
  obtain ⟨content, hn⟩ := hasFile_iff.mp h
  rw [hasDirectory, hn]
  rfl

theorem isFile_iff :
    fs.isFile p = true ↔ ∃ loc, fs.locate p = .ok loc ∧ fs.hasFile loc = true := by
  unfold isFile
  constructor
  · intro h
    split at h
    · rename_i content hnode
      obtain ⟨loc, hl, hn⟩ := node_eq_ok hnode
      exact ⟨loc, hl, hasFile_iff.mpr ⟨content, hn⟩⟩
    · cases h
  · rintro ⟨loc, hl, hf⟩
    obtain ⟨content, hn⟩ := hasFile_iff.mp hf
    rw [node_of_locate hl, hn]

/-- The names of the entries of a location. -/
def namesAt (fs : FileSystem) (loc : Location) : List String :=
  match fs.nodeAt loc with
  | some (.directory entries) => entries.map Prod.fst
  | _ => []

theorem names_of_locate (h : fs.locate p = .ok loc) : fs.names p = fs.namesAt loc := by
  unfold names namesAt
  rw [node_of_locate h]
  cases fs.nodeAt loc with
  | none => rfl
  | some node => cases node <;> rfl

theorem names_of_locate_error {e : FileError} (h : fs.locate p = .error e) : fs.names p = [] := by
  rw [names, node_of_locate_error h]

/-- The names in a directory are those of what lies below it. -/
theorem mem_namesAt_iff {name : String} :
    name ∈ fs.namesAt loc ↔ ∃ node, fs.nodeAt (loc ++ [name]) = some node := by
  unfold namesAt
  split
  · rename_i entries hn
    simp only [← mem_entries_iff hn, List.mem_map, Prod.exists, exists_and_right, exists_eq_right]
  · rename_i hn
    refine ⟨fun h => absurd h List.not_mem_nil, ?_⟩
    rintro ⟨node, h⟩
    obtain ⟨entries, hentries⟩ := hasDirectory_iff.mp (hasDirectory_of_nodeAt h)
    exact absurd hentries (hn entries)

theorem properName_of_mem_names {name : String} (h : name ∈ fs.names p) : ProperName name := by
  cases hl : fs.locate p with
  | error e =>
    rw [names_of_locate_error hl] at h
    cases h
  | ok loc =>
    rw [names_of_locate hl] at h
    obtain ⟨node, hnode⟩ := mem_namesAt_iff.mp h
    exact properName_of_nodeAt hnode name (by simp)

/-- The text of the file at a location, if it is one and holds text. -/
def textAt (fs : FileSystem) (loc : Location) : Option String :=
  match fs.nodeAt loc with
  | some (.file content) => Utf8.decode? content
  | _ => none

theorem readText_of_locate (h : fs.locate p = .ok loc) :
    (fs.readText p).toOption = fs.textAt loc := by
  unfold readText read textAt
  rw [node_of_locate h]
  simp only [bind, Except.bind]
  cases fs.nodeAt loc with
  | none => rfl
  | some node =>
    cases node with
    | file content =>
      simp only [pure, Except.pure]
      cases Utf8.decode? content <;> rfl
    | directory entries => rfl
    | link target => rfl

/-- What is listed below a path is every directory that lies below where it leads, links not
followed. -/
theorem mem_below_iff {more : Location} : more ∈ fs.below p ↔ more ≠ [] ∧
    ∃ top entries, fs.node p = .ok top ∧ Node.descend? more top = some (.directory entries) := by
  rw [below]
  cases hnode : fs.node p with
  | error e => simp
  | ok top =>
    obtain ⟨loc, -, hat⟩ := node_eq_ok hnode
    constructor
    · intro hmem
      obtain ⟨hne, entries, hentries⟩ :=
        Node.descend?_of_mem_directoriesBelow (wellFormed_nodeAt hat).1 hmem
      exact ⟨hne, top, entries, rfl, hentries⟩
    · rintro ⟨hne, top', entries, htop, hentries⟩
      obtain rfl := Except.ok.inj htop
      exact (Node.mem_directoriesBelow hentries).resolve_left fun h => hne h.1

/-- What is listed below a path lies below the location it leads to. -/
theorem hasDirectory_of_mem_below {more : Location} (h : more ∈ fs.below p) :
    ∃ loc, fs.locate p = .ok loc ∧ more ≠ [] ∧ fs.hasDirectory (loc ++ more) = true := by
  obtain ⟨hne, top, entries, htop, hentries⟩ := mem_below_iff.mp h
  obtain ⟨loc, hloc, hat⟩ := node_eq_ok htop
  refine ⟨loc, hloc, hne, hasDirectory_iff.mpr ⟨entries, ?_⟩⟩
  rw [nodeAt_append, hat]
  exact hentries

/-- A directory that holds nothing but a link to itself. -/
def selfLinked : FileSystem where
  entries := [("a", .directory [("up", .link ⟨"."⟩)])]
  wellFormed :=
    ⟨by decide, ⟨by decide, trivial, List.forall_mem_nil _, trivial⟩,
      List.forall_mem_nil _, trivial⟩
  workingDirectory := []
  isEntryName_here := isEntryName_root

-- Paths lead over links, and what is listed below them does not.
example : selfLinked.names ⟨"/a/up/up"⟩ = ["up"] ∧ selfLinked.below ⟨"/a/up"⟩ = [] ∧
    selfLinked.below ⟨"/"⟩ = [["a"]] := by
  decide +kernel

end

end FileSystem
end PluginHost
