import PluginHost.Path
import PluginHost.Text.Utf8

/-! # File systems

A file system is a value: a tree of named entries and a working directory.  Its
well-formedness is part of the type, so the entries of every directory are in
strictly ascending order of their names, and every name, also those on the way to
the working directory, can be written as a segment of a path.

Names are Unicode texts, as paths are.  A disk can hold entries with other names,
which are passed over where a directory is listed; they have no counterpart here.

`locate` follows a path through the tree, links included, and says where it
leads or why it leads nowhere. -/
namespace PluginHost

/-- An entry of a directory. -/
inductive Node where
  | file (content : List UInt8)
  | link (target : Path)
  | directory (entries : List (String × Node))

/-- The entries of a directory. -/
abbrev Entries := List (String × Node)

/-- A name that a directory can hold. -/
def isEntryName (name : String) : Bool :=
  name != "" && name != "." && name != ".." && !name.toList.contains '/'

/-- No names lead to the root. -/
theorem isEntryName_root : ∀ name ∈ ([] : Location), isEntryName name = true :=
  List.forall_mem_nil _

mutual
/-- Every directory below the entry is in order. -/
def Node.WellFormed : Node → Prop
  | .directory entries => Node.AllWellFormed entries
  | .file _ => True
  | .link _ => True

/-- The entries have proper names in strictly ascending order, and so have those
below them. -/
def Node.AllWellFormed : List (String × Node) → Prop
  | [] => True
  | (name, node) :: rest =>
    isEntryName name = true ∧ node.WellFormed ∧ (∀ e ∈ rest, name < e.1)
      ∧ Node.AllWellFormed rest
end

/-- What can be wrong with a path that should be followed or read. -/
inductive FileError where
  | notFound
  | notDirectory
  | isDirectory
  | tooManyLinks
  | notText
deriving DecidableEq, Repr

/-- The wording of a file error. -/
def FileError.message : FileError → String
  | .notFound => "No such file or directory (os error 2)"
  | .notDirectory => "Not a directory (os error 20)"
  | .isDirectory => "Is a directory (os error 21)"
  | .tooManyLinks => "Too many levels of symbolic links (os error 40)"
  | .notText => "stream did not contain valid UTF-8"

/-- A tree of entries and the directory that relative paths start from, which need
not be there any more. -/
structure FileSystem where
  entries : Entries
  wellFormed : Node.AllWellFormed entries
  workingDirectory : Location
  isEntryName_here : ∀ name ∈ workingDirectory, isEntryName name = true

namespace Node

/-- The entry that `loc` leads to, without following links. -/
def descend? : Location → Node → Option Node
  | [], node => some node
  | name :: loc, .directory entries => (entries.lookup name).bind (descend? loc)
  | _ :: _, _ => none

/-- What is found under a name is an entry. -/
theorem mem_of_lookup {entries : Entries} {name : String} {node : Node}
    (h : entries.lookup name = some node) : (name, node) ∈ entries := by
  obtain ⟨front, back, rfl, -⟩ := List.lookup_eq_some_iff.mp h
  exact List.mem_append_right _ List.mem_cons_self

/-- The entries of a directory in order. -/
theorem AllWellFormed.of_mem {entries : Entries} (h : AllWellFormed entries) {name : String}
    {node : Node} (hmem : (name, node) ∈ entries) :
    isEntryName name = true ∧ node.WellFormed ∧ entries.lookup name = some node := by
  induction entries with
  | nil => cases hmem
  | cons e rest ih =>
    obtain ⟨first, other⟩ := e
    rw [AllWellFormed] at h
    obtain ⟨hname, hnode, hlater, hrest⟩ := h
    rcases List.mem_cons.mp hmem with heq | hmem
    · obtain ⟨rfl, rfl⟩ := Prod.mk.inj heq
      exact ⟨hname, hnode, List.lookup_cons_self⟩
    · obtain ⟨hproper, hbelow, hlookup⟩ := ih hrest hmem
      refine ⟨hproper, hbelow, ?_⟩
      -- The names ascend, so the first name is another one.
      have hne : name ≠ first := (String.ne_of_lt (hlater _ hmem)).symm
      rw [List.lookup_cons, beq_eq_false_iff_ne.mpr hne]
      exact hlookup

/-- What lies below a directory in order is in order, and has proper names above it. -/
theorem wellFormed_of_descend? {loc : Location} {top node : Node} (h : top.WellFormed)
    (hd : descend? loc top = some node) :
    node.WellFormed ∧ ∀ name ∈ loc, isEntryName name = true := by
  induction loc generalizing top with
  | nil =>
    obtain rfl := Option.some.inj hd
    exact ⟨h, fun name hname => by cases hname⟩
  | cons first loc ih =>
    cases top with
    | file content => cases hd
    | link target => cases hd
    | directory entries =>
      rw [descend?] at hd
      obtain ⟨child, hc, hd⟩ := Option.bind_eq_some_iff.mp hd
      rw [WellFormed] at h
      obtain ⟨hproper, hchild, -⟩ := h.of_mem (mem_of_lookup hc)
      obtain ⟨hnode, hnames⟩ := ih hchild hd
      refine ⟨hnode, fun name hname => ?_⟩
      rcases List.mem_cons.mp hname with rfl | hname
      · exact hproper
      · exact hnames name hname

/-- Whether the entry is a directory itself. -/
def isDirectory : Node → Bool
  | .directory _ => true
  | _ => false

mutual
/-- The directories below an entry, depth first: each before those below it,
siblings in the order of their names.  Links are neither listed nor entered. -/
def directoriesBelow : Node → List Location
  | .directory entries => allDirectoriesBelow entries
  | .file _ => []
  | .link _ => []

/-- The directories among the entries and below them. -/
def allDirectoriesBelow : List (String × Node) → List Location
  | [] => []
  | (name, node) :: rest =>
    (if node.isDirectory then [[name]] else []) ++ (directoriesBelow node).map (name :: ·)
      ++ allDirectoriesBelow rest
end

end Node

namespace FileSystem

variable (fs : FileSystem)

/-- The root directory. -/
def root : Node := .directory fs.entries

/-- The entry at a location. -/
def nodeAt (loc : Location) : Option Node := Node.descend? loc fs.root

/-- Whether a location holds a directory. -/
def hasDirectory (loc : Location) : Bool := (fs.nodeAt loc).any Node.isDirectory

theorem wellFormed_root : fs.root.WellFormed := by
  rw [root, Node.WellFormed]
  exact fs.wellFormed

variable {fs} in
theorem wellFormed_nodeAt {loc : Location} {node : Node} (h : fs.nodeAt loc = some node) :
    node.WellFormed ∧ ∀ name ∈ loc, isEntryName name = true :=
  Node.wellFormed_of_descend? fs.wellFormed_root h

variable {fs} in
/-- The names on the way to a directory are proper. -/
theorem isEntryName_of_hasDirectory {loc : Location} (h : fs.hasDirectory loc = true) :
    ∀ name ∈ loc, isEntryName name = true := by
  rw [hasDirectory, Option.any_eq_true] at h
  obtain ⟨node, hnode, -⟩ := h
  exact (wellFormed_nodeAt hnode).2

/-! ## Following paths -/

/-- Where `segments` lead from `here`, when `jump` says where the target of a
link at a location leads, followed by the segments behind it. -/
def followWith (jump : Location → Path → List String → Except FileError Location) :
    Location → List String → Except FileError Location
  | here, [] => .ok here
  | here, s :: rest =>
    -- Even `.` and `..` are looked for in a directory.
    if !fs.hasDirectory here then .error .notDirectory
    else if s == ".." then followWith jump here.dropLast rest
    else if !Path.isStep s then followWith jump here rest
    else match fs.nodeAt (here ++ [s]) with
      | none => .error .notFound
      | some (.link target) => jump here target rest
      | some _ => followWith jump (here ++ [s]) rest

/-- Where `segments` lead from `here` over at most `hops` links. -/
def follow : (hops : Nat) → Location → List String → Except FileError Location
  | 0 => fs.followWith fun _ _ _ => .error .tooManyLinks
  | hops + 1 => fs.followWith fun here target rest =>
    if target.text.isEmpty then .error .notFound
    else follow hops (if target.isAbsolute then [] else here) (target.segments ++ rest)

/-- The number of links that one path may lead over. -/
def maxHops : Nat := 40

/-- Where a path leads. -/
def locate (p : Path) : Except FileError Location :=
  if p.text.isEmpty then .error .notFound
  else fs.follow maxHops (if p.isAbsolute then [] else fs.workingDirectory) p.segments

/-! ## Looking -/

/-- The entry a path leads to. -/
def node (p : Path) : Except FileError Node := do
  match fs.nodeAt (← fs.locate p) with
  | some node => return node
  | none => .error .notFound

/-- Whether a path leads to a directory. -/
def isDirectory (p : Path) : Bool :=
  match fs.node p with
  | .ok (.directory _) => true
  | _ => false

/-- Whether a path leads to a file. -/
def isFile (p : Path) : Bool :=
  match fs.node p with
  | .ok (.file _) => true
  | _ => false

/-- The names in the directory a path leads to, in ascending order.  What is no
directory holds none. -/
def names (p : Path) : List String :=
  match fs.node p with
  | .ok (.directory entries) => entries.map Prod.fst
  | _ => []

/-- The directories below the one a path leads to, in the order of
`Node.directoriesBelow`. -/
def below (p : Path) : List Location :=
  match fs.node p with
  | .ok node => node.directoriesBelow
  | .error _ => []

/-- The bytes of the file a path leads to. -/
def read (p : Path) : Except FileError (List UInt8) := do
  match ← fs.node p with
  | .file content => return content
  | .directory _ => .error .isDirectory
  | .link _ => .error .notFound

/-- The text of the file a path leads to. -/
def readText (p : Path) : Except FileError String := do
  match Utf8.decode? (← fs.read p) with
  | some text => return text
  | none => .error .notText

/-- The location of every directory, the root first. -/
def directories : List Location := [] :: fs.root.directoriesBelow

end FileSystem
end PluginHost
