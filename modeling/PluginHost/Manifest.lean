import PluginHost.FileSystem
import PluginHost.Text.Blank
import PluginHost.Text.Lines

/-! # Manifests

A manifest lists directory patterns and file patterns, one a line.  A `#` starts
a comment unless a backslash stands directly before it, other backslashes
separate directories, and blanks at the ends of a line do not count.

A text with a line that starts with `<` is markup that happens to share the file
extension, and is no manifest at all. -/
namespace PluginHost

/-- One line of a manifest that names something. -/
structure ManifestEntry where
  /-- The number of the line, from one. -/
  line : Nat
  /-- The line as it stands in the file. -/
  raw : String
  /-- The pattern: no comment, no blanks at the ends, slashes only. -/
  text : String
deriving DecidableEq, Repr

namespace ManifestEntry

/-- A pattern that ends in a slash names directories, others name files. -/
def namesDirectories (e : ManifestEntry) : Bool := e.text.toList.getLast? == some '/'

/-- Whether a character belongs to a wildcard. -/
def isWildcardChar (c : Char) : Bool := c == '*' || c == '?' || c == '['

/-- Whether the pattern has wildcards, so that nobody wrote out what it finds. -/
def hasWildcard (e : ManifestEntry) : Bool := e.text.toList.any isWildcardChar

end ManifestEntry

namespace Manifest

/-- The text without a byte order mark. -/
def withoutMark : List Char → List Char
  | '\ufeff' :: cs => cs
  | cs => cs

/-- Whether a line starts with `<`. -/
def isMarkup (line : List Char) : Bool := (Text.trimStart line).head? == some '<'

/-- A line up to its comment, with the separators made slashes. -/
def uncomment : List Char → List Char
  | '\\' :: '#' :: rest => '#' :: uncomment rest
  | '#' :: _ => []
  | '\\' :: rest => '/' :: uncomment rest
  | c :: rest => c :: uncomment rest
  | [] => []

/-- The pattern of a line, which is empty when the line names nothing. -/
def normalize (line : List Char) : List Char := Text.trim (uncomment line)

/-- The entry of a line at an index from zero. -/
def entryOf (line : List Char) (index : Nat) : Option ManifestEntry :=
  if normalize line = [] then none
  else some ⟨index + 1, String.ofList line, String.ofList (normalize line)⟩

/-- The entries of a text, or nothing when the text is markup. -/
def parse? (content : String) : Option (List ManifestEntry) :=
  let lines := Text.lines (withoutMark content.toList)
  if lines.any isMarkup then none
  else some (lines.zipIdx.filterMap fun (line, index) => entryOf line index)

/-- The entries of a text: markup has none. -/
def entries (content : String) : List ManifestEntry := (parse? content).getD []

end Manifest
end PluginHost
