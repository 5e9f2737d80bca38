import PluginHost.Registry
import PluginHost.Text.Search

/-! # What every host offers

Five extension points are there before any module is looked at.  `Catalog.search`
finds them by a text in their paths or descriptions, in any case. -/
namespace PluginHost

/-- A point that the host declares itself. -/
structure HostCapability where
  path : String
  capability : TypeName
  description : String
deriving DecidableEq, Repr

/-- The point as it is registered. -/
def HostCapability.point (c : HostCapability) : ExtensionPoint where
  path := c.path
  capability := c.capability
  description := some c.description

/-- The capabilities that a host offers extensions for. -/
inductive Builtin where
  | driverFactory
  | projectLoader
  | resultWriter
  | eventListener
  | service
deriving DecidableEq, Repr

namespace Builtin

/-- Every built-in capability, in the order of the catalog. -/
def all : List Builtin := [.driverFactory, .projectLoader, .resultWriter, .eventListener, .service]

/-- The short name of the type that extensions implement. -/
def name : Builtin → String
  | .driverFactory => "DriverFactory"
  | .projectLoader => "ProjectLoader"
  | .resultWriter => "ResultWriter"
  | .eventListener => "EventListener"
  | .service => "Service"

/-- The type that extensions implement. -/
def type (b : Builtin) : TypeName := ⟨"gauntlet::" ++ b.name⟩

/-- What extensions are for. -/
def description : Builtin → String
  | .driverFactory => "Supplies drivers for test frameworks"
  | .projectLoader => "Recognizes and loads project files"
  | .resultWriter => "Writes test results in additional formats"
  | .eventListener => "Receives progress events during a test run"
  | .service => "Provides additional engine services"

/-- The point for the capability, at the default path of its type. -/
def capability (b : Builtin) : HostCapability := ⟨b.type.defaultPoint, b.type, b.description⟩

end Builtin

namespace Catalog

/-- The points that every host declares. -/
def builtins : List HostCapability := Builtin.all.map Builtin.capability

/-- The small letter of a character, as far as it matters for ASCII text: the
sign for kelvin is a capital `k`. -/
def foldChar (c : Char) : Char := if c = '\u212a' then 'k' else c.toLower

/-- A text without the difference of capital and small letters. -/
def fold (s : String) : List Char := s.toList.map foldChar

/-- Whether `part` stands somewhere in `text`, in any case. -/
def mentions (text part : String) : Bool := Text.occursIn (fold part) (fold text)

/-- The built-in points whose path or description mentions the query. -/
def search (query : String) : List HostCapability :=
  builtins.filter fun c => mentions c.path query || mentions c.description query

end Catalog
end PluginHost
