/-! # Paths

A `Path` is a path as somebody wrote it: its text is kept, because messages
show it.  A `Location` is where a path leads, as the names below the root.  A
`Place` is what patterns are resolved to, a path in lexical normal form: no
segment of it is empty, `.` or `..`. -/
namespace PluginHost

/-- A path as written. -/
structure Path where
  text : String
deriving DecidableEq, Repr

/-- The names that lead from the root to an entry. -/
abbrev Location := List String

namespace Path

/-- The parts between slashes, empty ones included: joined by slashes they are
the text. -/
def segments (p : Path) : List String := (p.text.toList.splitOn '/').map String.ofList

/-- Whether the path starts at the root. -/
def isAbsolute (p : Path) : Bool := p.text.toList.head? == some '/'

/-- Whether a slash is needed before more segments. -/
def endsOpen (p : Path) : Bool :=
  match p.text.toList.getLast? with
  | none => false
  | some c => c != '/'

/-- The path of an entry called `name` in the directory `p`. -/
def child (p : Path) (name : String) : Path :=
  ⟨if p.endsOpen then p.text ++ "/" ++ name else p.text ++ name⟩

/-- `q` as seen from the directory `p`. -/
def join (p q : Path) : Path := if q.isAbsolute then q else p.child q.text

/-- A segment that names an entry. -/
def isStep (s : String) : Bool := s != "" && s != "."

/-- The parts that tell paths apart: repeated and final slashes do not count,
nor does `.` unless the path starts with it. -/
def components (p : Path) : List String :=
  let names := p.segments.filter isStep
  if p.isAbsolute then "/" :: names
  else if p.segments.head? == some "." then "." :: names
  else names

/-- One segment of a lexical walk: `..` takes back the last name. -/
def fold (names : Location) (s : String) : Location :=
  if s == ".." then names.dropLast
  else if isStep s then names ++ [s]
  else names

/-- The location that `p` spells from `base` when no name on the way is a link. -/
def lexical (base : Location) (p : Path) : Location :=
  p.segments.foldl fold (if p.isAbsolute then [] else base)

/-- The path to a location. -/
def ofLocation (loc : Location) : Path := ⟨"/" ++ "/".intercalate loc⟩

/-- The way from the components `base` to the components `path`: the common
start is left out, and each other component of `base` takes a step up. -/
def stepsBetween : (path base : List String) → List String
  | a :: path, b :: base =>
    if a == b then stepsBetween path base
    else ((b :: base).map fun _ => "..") ++ a :: path
  | path, base => (base.map fun _ => "..") ++ path

/-- A path as seen from the location `base`, unless it is as short as it is
written. -/
def relativeTo (p : Path) (base : Location) : Path :=
  let steps := stepsBetween p.components ("/" :: base)
  if p.isAbsolute && steps.length < p.components.length then ⟨"/".intercalate steps⟩ else p

end Path

/-- A path in lexical normal form. -/
inductive Place where
  /-- Names below the root. -/
  | absolute (names : List String)
  /-- Names below the working directory; without names, the empty path. -/
  | relative (names : List String)
  /-- The root `X:/` of a drive, which here is a name of the working directory. -/
  | drive (letter : Char)
deriving DecidableEq, Repr

namespace Place

/-- The name of a drive. -/
def driveName (letter : Char) : String := String.ofList [letter, ':']

/-- The path of a place. -/
def path : Place → Path
  | .absolute names => Path.ofLocation names
  | .relative names => ⟨"/".intercalate names⟩
  | .drive letter => ⟨driveName letter ++ "/"⟩

/-- The place one step up, which neither the root nor the empty path has. -/
def parent? : Place → Option Place
  | .absolute [] => none
  | .absolute names => some (.absolute names.dropLast)
  | .relative [] => none
  | .relative names => some (.relative names.dropLast)
  | .drive _ => some (.relative [])

/-- The place of an entry called `name` in the directory. -/
def child : Place → String → Place
  | .absolute names, name => .absolute (names ++ [name])
  | .relative names, name => .relative (names ++ [name])
  | .drive letter, name => .relative [driveName letter, name]

/-- The place of the entry that `names` lead to from the directory. -/
def descendant (place : Place) (names : List String) : Place := names.foldl child place

end Place
end PluginHost
