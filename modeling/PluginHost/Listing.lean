import PluginHost.FileSystem.Edit
import PluginHost.Program
import PluginHost.Text.Escape

/-! # Listings

The program looks at no disk and no environment of its own.  It is handed a
listing of what there is, so that a run can be repeated anywhere: entries of a
kind, a name and a content, each of the three followed by the character U+0000.
The content of a file is written in hexadecimal digits. -/
namespace PluginHost

/-- Something that a run can see. -/
inductive ListingEntry where
  | directory (path : Path)
  | file (path : Path) (content : List UInt8)
  | link (path target : Path)
  | variable (name value : String)
  | workingDirectory (path : Path)
  /-- The directory that holds the program. -/
  | programDirectory (path : Path)

/-- What a run can see. -/
abbrev Listing := List ListingEntry

namespace ListingEntry

/-- The bytes that pairs of digits stand for. -/
def bytes? : List Char → Option (List UInt8)
  | [] => some []
  | [_] => none
  | a :: b :: rest => do
    let high ← Text.hexValue? a
    let low ← Text.hexValue? b
    return UInt8.ofNat (high * 16 + low) :: (← bytes? rest)

/-- The entry of a kind. -/
def of? (kind name content : String) : Option ListingEntry :=
  match kind with
  | "directory" => some (.directory ⟨name⟩)
  | "file" => (bytes? content.toList).map (.file ⟨name⟩)
  | "link" => some (.link ⟨name⟩ ⟨content⟩)
  | "variable" => some (.variable name content)
  | "working" => some (.workingDirectory ⟨name⟩)
  | "program" => some (.programDirectory ⟨name⟩)
  | _ => none

end ListingEntry

namespace Listing

/-- The entries that fields make up, three each. -/
def ofFields? : List String → Option Listing
  | [] => some []
  | kind :: name :: content :: rest => do
    return (← ListingEntry.of? kind name content) :: (← ofFields? rest)
  | _ => none

/-- The fields of a text. -/
def fields (text : String) : List String :=
  ((text.toList.splitOn '\x00').map String.ofList).dropLast

/-- The listing that a text holds. -/
def ofText? (text : String) : Option Listing := ofFields? (fields text)

/-- Adds an entry to what a run starts with. -/
def add (launch : Launch) : ListingEntry → Launch
  | .directory path => { launch with files := launch.files.makeDirectory path }
  | .file path content => { launch with files := launch.files.write path content }
  | .link path target => { launch with files := launch.files.makeLink path target }
  | .variable name value => { launch with environment := launch.environment ++ [(name, value)] }
  | .workingDirectory path =>
    { launch with files := (launch.files.makeDirectory path).enter path }
  | .programDirectory path => { launch with programDirectory := path }

/-- A run that sees a listing. -/
def launch (listing : Listing) (arguments : List String) : Launch :=
  listing.foldl add { files := .empty, environment := [], programDirectory := ⟨"/"⟩, arguments }

end Listing
end PluginHost
