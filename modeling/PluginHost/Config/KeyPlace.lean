import PluginHost.Text.Blank
import PluginHost.Text.Lines
import PluginHost.Text.Search

/-! # Where a key stands in a file

A message about a key points at the place where the key is set.  The place is
found in the text of the file: among the lines behind the header of the table,
it is the first that starts with the key and the mark `=`, and the search ends
where the next header stands.  Places are counted in bytes. -/
namespace PluginHost
namespace KeyPlace

/-- Whether a line without the blanks in front sets a key. -/
def setsKey (key line : List Char) : Bool :=
  key.isPrefixOf line && (Text.trimStart (line.drop key.length)).head? == some '='

/-- The place of a key among lines, the first of which stands at `offset`.  A
header ends the search, except on the line that is `first`. -/
def amongLines (key : List Char) (first : Bool) (offset : Nat) : List (List Char) → Option Nat
  | [] => none
  | line :: lines =>
    let body := Text.trimStart line
    if !first && body.head? == some '[' then none
    else if setsKey key body then some (offset + (Text.byteCount line - Text.byteCount body))
    else amongLines key false (offset + Text.byteCount line) lines

/-- The header of a table. -/
def header (name : String) : List Char := '[' :: name.toList ++ [']']

/-- The place of a key in a text.  The first name of the path tells the header
behind which it is searched, and without a path the whole text is. -/
def find? (text : String) (path : List String) (key : String) : Option Nat :=
  match path with
  | [] => amongLines key.toList true 0 (Text.endedLines text.toList)
  | name :: _ => do
    let (front, rest) ← Text.cutAt? (header name) text.toList
    amongLines key.toList true (Text.byteCount (front ++ header name)) (Text.endedLines rest)

end KeyPlace
end PluginHost
