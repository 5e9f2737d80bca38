import PluginHost.Manifest
import PluginHost.PathPattern
import PluginHost.Proofs.FileSystem.LinkFree

/-! # Trees with rearranged manifests

Two file systems are `Rearranged` when they are the same but for texts that list the
same entries in another order.  Paths lead to the same locations in both
(`locate_eq`), patterns are resolved to the same places (`directories_eq`, `files_eq`),
and what can be read in one can be read in the other (`textAt_isSome_eq`), with the same
entries up to their order (`exists_entry`). -/
namespace PluginHost

/-- Two contents of a manifest: the same, or two texts that list the same patterns,
each as often, in any order. -/
def Manifest.SameEntries (content content' : List UInt8) : Prop :=
  content = content' ∨
    ∃ text text' entries entries', Utf8.decode? content = some text ∧
      Utf8.decode? content' = some text' ∧ Manifest.parse? text = some entries ∧
      Manifest.parse? text' = some entries' ∧
      (entries.map ManifestEntry.text).Perm (entries'.map ManifestEntry.text)

theorem Manifest.SameEntries.symm {content content' : List UInt8}
    (h : SameEntries content content') : SameEntries content' content := by
  rcases h with rfl | ⟨text, text', entries, entries', ht, ht', hp, hp', hperm⟩
  · exact .inl rfl
  · exact .inr ⟨text', text, entries', entries, ht', ht, hp', hp, hperm.symm⟩

namespace Node

mutual
/-- Two entries that are the same but for the order in which manifests list things. -/
def Rearranged : Node → Node → Prop
  | .file content, .file content' => Manifest.SameEntries content content'
  | .link target, .link target' => target = target'
  | .directory entries, .directory entries' => AllRearranged entries entries'
  | _, _ => False

/-- The entries have the same names and are rearranged one by one. -/
def AllRearranged : List (String × Node) → List (String × Node) → Prop
  | [], [] => True
  | (name, node) :: rest, (name', node') :: rest' =>
    name = name' ∧ node.Rearranged node' ∧ AllRearranged rest rest'
  | _, _ => False
end

mutual
theorem Rearranged.symm {node node' : Node} (h : node.Rearranged node') :
    node'.Rearranged node := by
  cases node <;> cases node' <;> simp only [Rearranged] at h ⊢
  · exact h.symm
  · exact h.symm
  · exact AllRearranged.symm h

theorem AllRearranged.symm {entries entries' : Entries} (h : AllRearranged entries entries') :
    AllRearranged entries' entries := by
  match entries, entries' with
  | [], [] => trivial
  | [], _ :: _ => simp [AllRearranged] at h
  | _ :: _, [] => simp [AllRearranged] at h
  | (name, node) :: rest, (name', node') :: rest' =>
    rw [AllRearranged] at h ⊢
    exact ⟨h.1.symm, Rearranged.symm h.2.1, AllRearranged.symm h.2.2⟩
end

theorem AllRearranged.map_fst {entries entries' : Entries} (h : AllRearranged entries entries') :
    entries.map Prod.fst = entries'.map Prod.fst := by
  match entries, entries' with
  | [], [] => rfl
  | [], _ :: _ => simp [AllRearranged] at h
  | _ :: _, [] => simp [AllRearranged] at h
  | (name, node) :: rest, (name', node') :: rest' =>
    rw [AllRearranged] at h
    rw [List.map_cons, List.map_cons, AllRearranged.map_fst h.2.2]
    exact congrArg (· :: _) h.1

/-- Under each name there is a rearranged entry, or none in either. -/
theorem AllRearranged.lookup {entries entries' : Entries} (h : AllRearranged entries entries')
    (name : String) : Option.Rel Rearranged (entries.lookup name) (entries'.lookup name) := by
  match entries, entries' with
  | [], [] => exact .none
  | [], _ :: _ => simp [AllRearranged] at h
  | _ :: _, [] => simp [AllRearranged] at h
  | (first, node) :: rest, (first', node') :: rest' =>
    rw [AllRearranged] at h
    obtain ⟨rfl, hnode, hrest⟩ := h
    rw [List.lookup_cons, List.lookup_cons]
    split
    · exact .some hnode
    · exact AllRearranged.lookup hrest name

/-- Every location leads to a rearranged entry, or to none in either. -/
theorem Rearranged.descend? {node node' : Node} (h : node.Rearranged node') (loc : Location) :
    Option.Rel Rearranged (descend? loc node) (descend? loc node') := by
  induction loc generalizing node node' with
  | nil => exact .some h
  | cons name loc ih =>
    cases node with
    | file content =>
      cases node' <;> first | exact .none | (simp only [Rearranged] at h)
    | link target =>
      cases node' <;> first | exact .none | (simp only [Rearranged] at h)
    | directory entries =>
      cases node' with
      | file content => simp only [Rearranged] at h
      | link target => simp only [Rearranged] at h
      | directory entries' =>
        rw [Rearranged] at h
        rw [Node.descend?, Node.descend?]
        have hlookup := h.lookup name
        generalize entries.lookup name = child, entries'.lookup name = child' at hlookup ⊢
        cases hlookup with
        | none => exact .none
        | some hchild => exact ih hchild

theorem Rearranged.isDirectory_eq {node node' : Node} (h : node.Rearranged node') :
    node.isDirectory = node'.isDirectory := by
  cases node <;> cases node' <;> first | rfl | (simp only [Rearranged] at h)

mutual
theorem Rearranged.directoriesBelow_eq {node node' : Node} (h : node.Rearranged node') :
    node.directoriesBelow = node'.directoriesBelow := by
  cases node <;> cases node' <;> simp only [Rearranged] at h
  · rfl
  · rfl
  · exact AllRearranged.allDirectoriesBelow_eq h

theorem AllRearranged.allDirectoriesBelow_eq {entries entries' : Entries}
    (h : AllRearranged entries entries') :
    allDirectoriesBelow entries = allDirectoriesBelow entries' := by
  match entries, entries' with
  | [], [] => rfl
  | [], _ :: _ => simp [AllRearranged] at h
  | _ :: _, [] => simp [AllRearranged] at h
  | (name, node) :: rest, (name', node') :: rest' =>
    rw [AllRearranged] at h
    obtain ⟨rfl, hnode, hrest⟩ := h
    rw [allDirectoriesBelow, allDirectoriesBelow, hnode.isDirectory_eq,
      Rearranged.directoriesBelow_eq hnode, AllRearranged.allDirectoriesBelow_eq hrest]
end

end Node

namespace FileSystem

variable {fs fs' : FileSystem}

/-- Two file systems that are the same but for the order in which manifests list
things. -/
structure Rearranged (fs fs' : FileSystem) : Prop where
  entries : Node.AllRearranged fs.entries fs'.entries
  workingDirectory : fs.workingDirectory = fs'.workingDirectory

namespace Rearranged

theorem symm (h : fs.Rearranged fs') : fs'.Rearranged fs :=
  ⟨h.entries.symm, h.workingDirectory.symm⟩

/-! ## Locations and paths -/

theorem nodeAt_rel (h : fs.Rearranged fs') (loc : Location) :
    Option.Rel Node.Rearranged (fs.nodeAt loc) (fs'.nodeAt loc) := by
  have hroot : fs.root.Rearranged fs'.root := by
    rw [root, root, Node.Rearranged]
    exact h.entries
  exact hroot.descend? loc

theorem hasDirectory_eq (h : fs.Rearranged fs') (loc : Location) :
    fs.hasDirectory loc = fs'.hasDirectory loc := by
  rw [hasDirectory, hasDirectory]
  have hrel := h.nodeAt_rel loc
  generalize fs.nodeAt loc = there, fs'.nodeAt loc = there' at hrel ⊢
  cases hrel with
  | none => rfl
  | some hnode => exact hnode.isDirectory_eq

theorem hasFile_eq (h : fs.Rearranged fs') (loc : Location) : fs.hasFile loc = fs'.hasFile loc := by
  rw [hasFile, hasFile]
  have hrel := h.nodeAt_rel loc
  generalize fs.nodeAt loc = there, fs'.nodeAt loc = there' at hrel ⊢
  cases hrel with
  | none => rfl
  | @some node node' hnode =>
    cases node <;> cases node' <;> first | rfl | (simp only [Node.Rearranged] at hnode)

theorem namesAt_eq (h : fs.Rearranged fs') (loc : Location) : fs.namesAt loc = fs'.namesAt loc := by
  rw [namesAt, namesAt]
  have hrel := h.nodeAt_rel loc
  generalize fs.nodeAt loc = there, fs'.nodeAt loc = there' at hrel ⊢
  cases hrel with
  | none => rfl
  | @some node node' hnode =>
    cases node <;> cases node' <;> simp only [Node.Rearranged] at hnode
    · rfl
    · rfl
    · exact hnode.map_fst

theorem linkFree (h : fs.Rearranged fs') (hfree : fs.LinkFree) : fs'.LinkFree := by
  intro loc target hlink
  have hrel := h.nodeAt_rel loc
  rw [hlink] at hrel
  cases hnode : fs.nodeAt loc with
  | none => rw [hnode] at hrel; cases hrel
  | some node =>
    rw [hnode] at hrel
    cases hrel with
    | some hnode' =>
      cases node <;> simp only [Node.Rearranged] at hnode'
      exact hfree loc _ hnode

theorem followWith_eq (h : fs.Rearranged fs')
    (jump : Location → Path → List String → Except FileError Location) (here : Location)
    (segments : List String) :
    fs.followWith jump here segments = fs'.followWith jump here segments := by
  induction segments generalizing here with
  | nil => rw [followWith, followWith]
  | cons s rest ih =>
    rw [followWith, followWith, h.hasDirectory_eq here, ih, ih]
    have hrel := h.nodeAt_rel (here ++ [s])
    generalize fs.nodeAt (here ++ [s]) = there, fs'.nodeAt (here ++ [s]) = there' at hrel ⊢
    cases hrel with
    | none => rfl
    | @some node node' hnode =>
      cases node <;> cases node' <;> simp only [Node.Rearranged] at hnode
      · rw [ih]
      · rw [hnode]
      · rw [ih]

theorem follow_eq (h : fs.Rearranged fs') (hops : Nat) : fs.follow hops = fs'.follow hops := by
  induction hops with
  | zero =>
    funext here segments
    exact h.followWith_eq _ here segments
  | succ hops ih =>
    funext here segments
    rw [follow, follow, ih]
    exact h.followWith_eq _ here segments

/-- **Paths lead to the same locations.** -/
theorem locate_eq (h : fs.Rearranged fs') (p : Path) : fs.locate p = fs'.locate p := by
  rw [locate, locate, h.follow_eq, h.workingDirectory]

theorem names_eq (h : fs.Rearranged fs') (p : Path) : fs.names p = fs'.names p := by
  cases hl : fs.locate p with
  | error e => rw [names_of_locate_error hl, names_of_locate_error (h.locate_eq p ▸ hl)]
  | ok loc => rw [names_of_locate hl, names_of_locate (h.locate_eq p ▸ hl), h.namesAt_eq]

theorem isDirectory_eq (h : fs.Rearranged fs') (p : Path) :
    fs.isDirectory p = fs'.isDirectory p := by
  rw [Bool.eq_iff_iff, isDirectory_iff, isDirectory_iff, h.locate_eq]
  simp only [h.hasDirectory_eq]

theorem isFile_eq (h : fs.Rearranged fs') (p : Path) : fs.isFile p = fs'.isFile p := by
  rw [Bool.eq_iff_iff, isFile_iff, isFile_iff, h.locate_eq]
  simp only [h.hasFile_eq]

theorem below_eq (h : fs.Rearranged fs') (p : Path) : fs.below p = fs'.below p := by
  rw [below, below]
  cases hl : fs.locate p with
  | error e => rw [node_of_locate_error hl, node_of_locate_error (h.locate_eq p ▸ hl)]
  | ok loc =>
    rw [node_of_locate hl, node_of_locate (h.locate_eq p ▸ hl)]
    have hrel := h.nodeAt_rel loc
    generalize fs.nodeAt loc = there, fs'.nodeAt loc = there' at hrel ⊢
    cases hrel with
    | none => rfl
    | some hnode => exact hnode.directoriesBelow_eq

/-! ## Patterns -/

theorem expand_eq (h : fs.Rearranged fs') (step : PathStep) : step.expand fs = step.expand fs' := by
  funext place
  cases step with
  | stay => rfl
  | up => rfl
  | deep => rw [PathStep.expand, PathStep.expand, h.below_eq]
  | wild glob =>
    rw [PathStep.expand, PathStep.expand, h.names_eq]
    exact List.filter_congr fun place _ => h.isDirectory_eq place.path

theorem resolve_eq (h : fs.Rearranged fs') (start : Path) (pattern : PathPattern) :
    PathPattern.resolve fs start pattern = PathPattern.resolve fs' start pattern := by
  have hadvance : PathPattern.advance fs = PathPattern.advance fs' := by
    funext frontier step
    rw [PathPattern.advance, PathPattern.advance, h.expand_eq]
  rw [PathPattern.resolve, PathPattern.resolve, hadvance, PathPattern.startPlace,
    PathPattern.startPlace, h.workingDirectory]

/-- **Patterns for directories are resolved to the same places.** -/
theorem directories_eq (h : fs.Rearranged fs') (start : Path) (pattern : String) :
    PathPattern.directories fs start pattern = PathPattern.directories fs' start pattern := by
  simp only [PathPattern.directories, h.resolve_eq]

/-- **Patterns for files are resolved to the same places.** -/
theorem files_eq (h : fs.Rearranged fs') (start : Path) (pattern : String) :
    PathPattern.files fs start pattern = PathPattern.files fs' start pattern := by
  have hfiles : PathPattern.filesIn fs = PathPattern.filesIn fs' := by
    funext glob place
    rw [PathPattern.filesIn, PathPattern.filesIn, h.names_eq]
    exact List.filter_congr fun place _ => h.isFile_eq place.path
  simp only [PathPattern.files, h.resolve_eq, hfiles, PathPattern.startPlace, h.workingDirectory]

/-! ## Texts -/

theorem textAt_isSome_eq (h : fs.Rearranged fs') (loc : Location) :
    (fs.textAt loc).isSome = (fs'.textAt loc).isSome := by
  rw [textAt, textAt]
  have hrel := h.nodeAt_rel loc
  generalize fs.nodeAt loc = there, fs'.nodeAt loc = there' at hrel ⊢
  cases hrel with
  | none => rfl
  | @some node node' hnode =>
    cases node <;> cases node' <;> simp only [Node.Rearranged] at hnode
    · rcases hnode with rfl | ⟨text, text', -, -, ht, ht', -, -, -⟩
      · rfl
      · simp only [ht, ht', Option.isSome_some]
    · rfl
    · rfl

/-- What a text lists, the rearranged text lists as well. -/
theorem exists_entry (h : fs.Rearranged fs') {loc : Location} {text : String}
    {entry : ManifestEntry} (htext : fs.textAt loc = some text)
    (hentry : entry ∈ Manifest.entries text) :
    ∃ text' entry', fs'.textAt loc = some text' ∧ entry' ∈ Manifest.entries text' ∧
      entry'.text = entry.text := by
  rw [textAt] at htext ⊢
  have hrel := h.nodeAt_rel loc
  generalize fs.nodeAt loc = there, fs'.nodeAt loc = there' at hrel htext ⊢
  cases hrel with
  | none => cases htext
  | @some node node' hnode =>
    cases node <;> cases node' <;> simp only [Node.Rearranged] at hnode
    · rcases hnode with rfl | ⟨read, read', entries, entries', ht, ht', hp, hp', hperm⟩
      · exact ⟨text, entry, htext, hentry, rfl⟩
      · obtain rfl : read = text := Option.some.inj (ht.symm.trans htext)
        rw [Manifest.entries, hp] at hentry
        obtain ⟨entry', hmem, hsame⟩ :=
          List.mem_map.mp (hperm.mem_iff.mp (List.mem_map_of_mem hentry))
        refine ⟨read', entry', ht', ?_, hsame⟩
        rw [Manifest.entries, hp']
        exact hmem
    · cases htext
    · cases htext

end Rearranged
end FileSystem
end PluginHost
