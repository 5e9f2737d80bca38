import PluginHost.FileSystem

/-! # Changing file systems

`put` and `erase` change the entries of one directory, and `FileSystem.write`,
`makeDirectory`, `makeLink` and `remove` are built from them.  Each keeps the
names of every directory in ascending order, which the lemmas before it say. -/
namespace PluginHost
namespace Node

/-- The entries with `node` under `name`, in place of what was there. -/
def put (name : String) (node : Node) : Entries → Entries
  | [] => [(name, node)]
  | e :: rest =>
    if name < e.1 then (name, node) :: e :: rest
    else if name = e.1 then (name, node) :: rest
    else e :: put name node rest

/-- The entries without the one under `name`. -/
def erase (name : String) (entries : Entries) : Entries := entries.filter (·.1 ≠ name)

/-- The entries with `change` applied in the directory that `loc` leads to. -/
def changeAt (change : Entries → Entries) : Location → Entries → Entries
  | [], entries => change entries
  | name :: loc, entries => entries.map fun e =>
    match e with
    | (n, .directory below) =>
      if n = name then (n, .directory (changeAt change loc below)) else (n, .directory below)
    | e => e

theorem mem_put {name : String} {node : Node} {e : String × Node} :
    ∀ {entries : Entries}, e ∈ put name node entries → e = (name, node) ∨ e ∈ entries
  | [], h => by simpa [put] using h
  | f :: rest, h => by
    rw [put] at h
    split at h
    · simpa using h
    · split at h
      · rcases List.mem_cons.mp h with h | h
        · exact .inl h
        · exact .inr (List.mem_cons_of_mem _ h)
      · rcases List.mem_cons.mp h with h | h
        · exact .inr (h ▸ List.mem_cons_self)
        · exact (mem_put h).imp id (List.mem_cons_of_mem _)

theorem AllWellFormed.put {name : String} {node : Node} (hname : isEntryName name = true)
    (hnode : node.WellFormed) :
    ∀ {entries : Entries}, AllWellFormed entries → AllWellFormed (put name node entries)
  | [], _ => by simp [Node.put, AllWellFormed, hname, hnode]
  | (n, other) :: rest, h => by
    obtain ⟨hn, hother, hlt, hrest⟩ := h
    rw [Node.put]
    split
    · rename_i hlt'
      refine ⟨hname, hnode, ?_, hn, hother, hlt, hrest⟩
      intro e he
      rcases List.mem_cons.mp he with rfl | he
      · exact hlt'
      · exact String.lt_trans hlt' (hlt e he)
    · split
      · rename_i heq
        exact ⟨hname, hnode, fun e he => heq ▸ hlt e he, hrest⟩
      · rename_i hnl hne
        refine ⟨hn, hother, ?_, AllWellFormed.put hname hnode hrest⟩
        intro e he
        rcases mem_put he with rfl | he
        · rcases Std.lt_trichotomy name n with h | h | h
          · exact absurd h hnl
          · exact absurd h hne
          · exact h
        · exact hlt e he

theorem AllWellFormed.erase (name : String) :
    ∀ {entries : Entries}, AllWellFormed entries → AllWellFormed (erase name entries)
  | [], _ => by simp [Node.erase, AllWellFormed]
  | (n, node) :: rest, h => by
    obtain ⟨hn, hnode, hlt, hrest⟩ := h
    have ih : AllWellFormed (Node.erase name rest) := AllWellFormed.erase name hrest
    rw [Node.erase, List.filter_cons]
    split
    · exact ⟨hn, hnode, fun e he => hlt e (List.mem_filter.mp he).1, ih⟩
    · exact ih

/-- `changeAt` keeps the names of the entries. -/
theorem map_fst_changeAt_cons (change : Entries → Entries) (name : String) (loc : Location)
    (entries : Entries) :
    (changeAt change (name :: loc) entries).map Prod.fst = entries.map Prod.fst := by
  rw [changeAt, List.map_map]
  refine List.map_congr_left fun e _ => ?_
  rcases e with ⟨n, node⟩
  cases node with
  | directory entries => simp; split <;> rfl
  | _ => simp

theorem AllWellFormed.changeAt {change : Entries → Entries}
    (hchange : ∀ {entries}, AllWellFormed entries → AllWellFormed (change entries)) :
    ∀ {loc : Location} {entries : Entries}, AllWellFormed entries →
      AllWellFormed (changeAt change loc entries)
  | [], _, h => hchange h
  | _ :: _, [], _ => by simp [Node.changeAt, AllWellFormed]
  | name :: loc, (n, node) :: rest, h => by
    obtain ⟨hn, hnode, hlt, hrest⟩ := h
    have ih : AllWellFormed (Node.changeAt change (name :: loc) rest) :=
      AllWellFormed.changeAt hchange hrest
    have hlt' : ∀ e ∈ Node.changeAt change (name :: loc) rest, n < e.1 := by
      intro e he
      have hmem : e.1 ∈ (Node.changeAt change (name :: loc) rest).map Prod.fst :=
        List.mem_map.mpr ⟨e, he, rfl⟩
      rw [map_fst_changeAt_cons] at hmem
      obtain ⟨f, hf, hfe⟩ := List.mem_map.mp hmem
      exact hfe ▸ hlt f hf
    rw [Node.changeAt, List.map_cons]
    cases node with
    | file content => exact ⟨hn, hnode, hlt', ih⟩
    | link target => exact ⟨hn, hnode, hlt', ih⟩
    | directory below =>
      simp only
      split
      · exact ⟨hn, AllWellFormed.changeAt hchange hnode, hlt', ih⟩
      · exact ⟨hn, hnode, hlt', ih⟩

end Node

namespace FileSystem

/-- The file system that holds nothing. -/
def empty : FileSystem := ⟨[], trivial, [], isEntryName_root⟩

/-- The file system as seen from the directory that `p` leads to.  Where there is
none, nothing changes. -/
def enter (fs : FileSystem) (p : Path) : FileSystem :=
  match fs.locate p with
  | .ok loc =>
    if h : fs.hasDirectory loc = true then
      { fs with workingDirectory := loc, isEntryName_here := isEntryName_of_hasDirectory h }
    else fs
  | .error _ => fs

/-- Puts `node` under `name` into the directory at `loc`. -/
def place (fs : FileSystem) (loc : Location) (name : String) (node : Node)
    (hnode : node.WellFormed) : FileSystem :=
  if hname : isEntryName name = true then
    { fs with
      entries := Node.changeAt (Node.put name node) loc fs.entries
      wellFormed := fs.wellFormed.changeAt fun h => h.put hname hnode }
  else fs

/-- Takes the entry under `name` out of the directory at `loc`. -/
def displace (fs : FileSystem) (loc : Location) (name : String) : FileSystem :=
  { fs with
    entries := Node.changeAt (Node.erase name) loc fs.entries
    wellFormed := fs.wellFormed.changeAt fun h => h.erase name }

/-- Makes the directories that `names` lead over from `loc` where nothing is,
and follows the links among them.  The answer says where they lead. -/
def makeWay (fs : FileSystem) (loc : Location) : List String → FileSystem × Location
  | [] => (fs, loc)
  | s :: rest =>
    if s == ".." then makeWay fs loc.dropLast rest
    else if !Path.isStep s then makeWay fs loc rest
    else match fs.nodeAt (loc ++ [s]) with
      | none => makeWay (fs.place loc s (.directory []) trivial) (loc ++ [s]) rest
      | some (.link _) =>
        match fs.locate (Path.ofLocation (loc ++ [s])) with
        | .ok target => makeWay fs target rest
        | .error _ => (fs, loc)
      | some _ => makeWay fs (loc ++ [s]) rest

/-- Makes the directory `p` and those above it. -/
def makeDirectory (fs : FileSystem) (p : Path) : FileSystem :=
  (fs.makeWay (if p.isAbsolute then [] else fs.workingDirectory) p.segments).1

/-- Makes the directories above `p`, and puts `node` there under the last
segment of `p`. -/
def makeEntry (fs : FileSystem) (p : Path) (node : Node) (hnode : node.WellFormed) :
    FileSystem :=
  match p.segments.getLast? with
  | none => fs
  | some name =>
    let (fs, loc) :=
      fs.makeWay (if p.isAbsolute then [] else fs.workingDirectory) p.segments.dropLast
    fs.place loc name node hnode

/-- Writes a file.  Where `p` is a link to a file, that file is written; a
directory is left alone. -/
def write (fs : FileSystem) (p : Path) (content : List UInt8) : FileSystem :=
  match fs.locate p with
  | .ok loc =>
    if fs.hasDirectory loc then fs
    else fs.makeEntry (Path.ofLocation loc) (.file content) trivial
  | .error _ => fs.makeEntry p (.file content) trivial

/-- Makes a link. -/
def makeLink (fs : FileSystem) (p : Path) (target : Path) : FileSystem :=
  fs.makeEntry p (.link target) trivial

/-- Removes the entry `p`, with all below it. -/
def remove (fs : FileSystem) (p : Path) : FileSystem :=
  match p.segments.getLast? with
  | none => fs
  | some name =>
    match fs.follow maxHops (if p.isAbsolute then [] else fs.workingDirectory)
        p.segments.dropLast with
    | .ok loc => fs.displace loc name
    | .error _ => fs

end FileSystem
end PluginHost
