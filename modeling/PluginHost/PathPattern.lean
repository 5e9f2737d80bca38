import PluginHost.FileSystem
import PluginHost.Glob.Matching

/-! # Path patterns

A manifest names directories and files by patterns.  A pattern is a list of
parts between slashes, and each part is a step from a directory to directories:
the empty part and `.` stay, `..` goes to the parent, `**` goes to the directory
itself and to every directory nested below it, and any other part goes to the
directories directly below whose names it matches as a glob.

`PathStep.expand` is one step from one directory, and `PathPattern.directories`
takes the steps one after the other from a list of directories, in which each
place keeps its first position.  Reading a pattern is separate from resolving
it, so whether a pattern is an error never depends on the file system. -/
namespace PluginHost

/-- One part of a pattern. -/
inductive PathStep where
  | stay
  | up
  | deep
  | wild (glob : Glob)
deriving DecidableEq, Repr

/-- Why a pattern cannot be resolved. -/
inductive PatternError where
  | emptyPattern
  | emptyStart
  | badWildcard (part : String) (error : GlobError)
deriving DecidableEq, Repr

/-- The wording of a pattern error. -/
def PatternError.message : PatternError → String
  | .emptyPattern => "pattern must not be empty"
  | .emptyStart => "start directory must not be empty"
  | .badWildcard part error => "invalid wildcard `" ++ part ++ "`: " ++ error.message

/-- A pattern for directories: the place it starts from, when it names one, and
the steps from there. -/
structure PathPattern where
  base? : Option Place
  steps : List PathStep
deriving DecidableEq, Repr

namespace PathStep

/-- Reads the part of a pattern that is to match names. -/
def readGlob (part : List Char) : Except PatternError Glob :=
  match Glob.ofText (String.ofList part) with
  | .ok glob => .ok glob
  | .error e => .error (.badWildcard (String.ofList part) e)

/-- Reads one part of a pattern. -/
def ofChars (part : List Char) : Except PatternError PathStep :=
  if part = [] ∨ part = ['.'] then .ok .stay
  else if part = ['.', '.'] then .ok .up
  else if part = ['*', '*'] then .ok .deep
  else (readGlob part).map .wild

/-- The places one step leads to from a place. -/
def expand (fs : FileSystem) : PathStep → Place → List Place
  | .stay, d => [d]
  | .up, d => d.parent?.toList
  | .deep, d => d :: (fs.below d.path).map d.descendant
  | .wild glob, d =>
    (((fs.names d.path).filter glob.isMatch).map d.child).filter (fs.isDirectory ·.path)

end PathStep

namespace PathPattern

/-- Backslashes separate parts as well. -/
def slashed (cs : List Char) : List Char := cs.map fun c => if c = '\\' then '/' else c

/-- The place that a pattern names as its start, and the parts behind it: the
root, or the root of a drive. -/
def splitRoot : List Char → Option Place × List Char
  | '/' :: rest => (some (.absolute []), rest)
  | c :: ':' :: '/' :: rest =>
    if c.isAlpha then (some (.drive c), rest) else (none, c :: ':' :: '/' :: rest)
  | cs => (none, cs)

/-- Reads the steps of a pattern. -/
def readSteps (cs : List Char) : Except PatternError (List PathStep) :=
  (cs.splitOn '/').mapM PathStep.ofChars

/-- Reads a pattern for directories whose parts are separated by slashes. -/
def ofChars (cs : List Char) : Except PatternError PathPattern := do
  let (base?, rest) := splitRoot cs
  return ⟨base?, ← readSteps rest⟩

/-- Neither a pattern nor the directory it starts from is empty. -/
def check (start : Path) (pattern : String) : Except PatternError Unit :=
  if pattern.isEmpty then .error .emptyPattern
  else if start.text.isEmpty then .error .emptyStart
  else .ok ()

/-- The place a start directory spells. -/
def startPlace (fs : FileSystem) (start : Path) : Place :=
  .absolute (start.lexical fs.workingDirectory)

/-- The places one step leads to from a list of places. -/
def advance (fs : FileSystem) (frontier : List Place) (step : PathStep) : List Place :=
  (frontier.flatMap (step.expand fs)).eraseDups

/-- The places that the steps of a pattern lead to. -/
def resolve (fs : FileSystem) (start : Path) (pattern : PathPattern) : List Place :=
  pattern.steps.foldl (advance fs) [pattern.base?.getD (startPlace fs start)]

/-- The directories that a pattern names from the directory `start`. -/
def directories (fs : FileSystem) (start : Path) (pattern : String) :
    Except PatternError (List Place) := do
  check start pattern
  return resolve fs start (← ofChars (slashed pattern.toList))

/-- The text up to its last slash, slash included, and the text behind it. -/
def splitLast (cs : List Char) : Option (List Char × List Char) :=
  match cs.reverse.dropWhile (· != '/') with
  | [] => none
  | front => some (front.reverse, (cs.reverse.takeWhile (· != '/')).reverse)

/-- The files in a directory whose names a glob matches. -/
def filesIn (fs : FileSystem) (glob : Glob) (d : Place) : List Place :=
  (((fs.names d.path).filter glob.isMatch).map d.child).filter (fs.isFile ·.path)

/-- The files that a pattern names from the directory `start`: the part behind
the last slash is matched against the names of files. -/
def files (fs : FileSystem) (start : Path) (pattern : String) :
    Except PatternError (List Place) := do
  check start pattern
  let (places, name) ← match splitLast (slashed pattern.toList) with
    | some (front, name) => do pure (resolve fs start (← ofChars front), name)
    | none => pure ([startPlace fs start], slashed pattern.toList)
  -- The name is read last, so an error in front of it is the one that is told.
  let glob ← PathStep.readGlob name
  return (places.flatMap (filesIn fs glob)).eraseDups

end PathPattern
end PluginHost
