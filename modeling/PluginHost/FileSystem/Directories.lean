import PluginHost.FileSystem

/-! # All directories of a file system

`FileSystem.directories` lists the location of every directory:
`mem_directories` says that none is missing. -/
namespace PluginHost
namespace Node

/-- An entry that is a directory is listed, and so is what is listed below it. -/
theorem mem_allDirectoriesBelow {name : String} {node : Node} {loc : Location}
    {entries : List (String × Node)} (hmem : (name, node) ∈ entries)
    (hloc : loc = [] ∧ node.isDirectory = true ∨ loc ∈ node.directoriesBelow) :
    name :: loc ∈ allDirectoriesBelow entries := by
  induction entries with
  | nil => simp at hmem
  | cons e rest ih =>
    obtain ⟨n, other⟩ := e
    rw [allDirectoriesBelow, List.mem_append, List.mem_append]
    rcases List.mem_cons.mp hmem with h | h
    · obtain ⟨rfl, rfl⟩ := Prod.mk.inj h
      rcases hloc with ⟨rfl, hd⟩ | hb
      · exact .inl (.inl (by simp [hd]))
      · exact .inl (.inr (List.mem_map.mpr ⟨loc, hb, rfl⟩))
    · exact .inr (ih h)

/-- A directory that can be reached from an entry is the entry or is listed. -/
theorem mem_directoriesBelow {loc : Location} {node : Node} {entries : Entries}
    (h : descend? loc node = some (.directory entries)) :
    loc = [] ∧ node.isDirectory = true ∨ loc ∈ node.directoriesBelow := by
  induction loc generalizing node with
  | nil =>
    rw [descend?] at h
    rw [Option.some.inj h]
    exact .inl ⟨rfl, rfl⟩
  | cons name loc ih =>
    cases node with
    | file content => simp [descend?] at h
    | link target => simp [descend?] at h
    | directory below =>
      rw [descend?] at h
      obtain ⟨child, hc, hd⟩ := Option.bind_eq_some_iff.mp h
      obtain ⟨front, back, rfl, -⟩ := List.lookup_eq_some_iff.mp hc
      exact .inr (mem_allDirectoriesBelow (by simp) (ih hd))

end Node

namespace FileSystem

/-- Every directory is listed. -/
theorem mem_directories {fs : FileSystem} {loc : Location} (h : fs.hasDirectory loc = true) :
    loc ∈ fs.directories := by
  rw [hasDirectory, Option.any_eq_true_iff_get] at h
  obtain ⟨hs, hd⟩ := h
  cases hn : (fs.nodeAt loc).get hs with
  | file content => simp [hn, Node.isDirectory] at hd
  | link target => simp [hn, Node.isDirectory] at hd
  | directory entries =>
    have := Node.mem_directoriesBelow (Option.eq_some_of_isSome hs |>.trans (congrArg some hn))
    rcases this with ⟨rfl, -⟩ | hb
    · exact List.mem_cons_self
    · exact List.mem_cons_of_mem _ hb

/-- What holds names is a directory. -/
theorem hasDirectory_of_mem_names {fs : FileSystem} {path : Path} {name : String}
    (h : name ∈ fs.names path) :
    ∃ loc, fs.locate path = .ok loc ∧ fs.hasDirectory loc = true := by
  unfold names node at h
  cases hl : fs.locate path with
  | error e => simp [hl, bind, Except.bind] at h
  | ok loc =>
    refine ⟨loc, rfl, ?_⟩
    cases hn : fs.nodeAt loc with
    | none => simp [hl, hn, bind, Except.bind] at h
    | some node =>
      cases node with
      | directory entries => simp [hasDirectory, hn, Node.isDirectory]
      | file content => simp [hl, hn, bind, Except.bind, pure, Except.pure] at h
      | link target => simp [hl, hn, bind, Except.bind, pure, Except.pure] at h

end FileSystem
end PluginHost
