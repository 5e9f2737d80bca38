import PluginHost.Catalog
import PluginHost.Json

/-! # Reports

What a host found is shown to people and to programs: a `PointReport` is a point
and what is installed in it, without what only the host needs. -/
namespace PluginHost

/-- An installed extension as it is shown. -/
structure ExtensionReport where
  capability : String
  module : String
  version : String
  enabled : Bool
  fromWildcard : Bool
deriving DecidableEq, Repr

/-- A point as it is shown. -/
structure PointReport where
  path : String
  capability : String
  description : Option String
  extensions : List ExtensionReport
deriving DecidableEq, Repr

/-- How an extension is shown. -/
def ExtensionReport.of (node : Extension) : ExtensionReport where
  capability := node.capability.text
  module := node.modulePath.text
  version := node.moduleVersion.text
  enabled := node.enabled
  fromWildcard := node.fromWildcard

/-- How a point is shown, with disabled extensions only when `all`. -/
def PointReport.of (all : Bool) (point : ExtensionPoint) : PointReport where
  path := point.path
  capability := point.capability.text
  description := point.description
  extensions := (point.nodes.filter fun node => all || node.enabled).map .of

/-- All points of a registry, as they are shown. -/
def Registry.report (all : Bool) (r : Registry) : List PointReport := r.points.map (.of all)

/-! ## As JSON -/

def ExtensionReport.toJson (e : ExtensionReport) : Json :=
  .object [("capability", .string e.capability), ("module", .string e.module),
    ("version", .string e.version), ("enabled", .boolean e.enabled),
    ("from_wildcard", .boolean e.fromWildcard)]

def PointReport.toJson (p : PointReport) : Json :=
  .object [("path", .string p.path), ("capability", .string p.capability),
    ("description", .ofText? p.description),
    ("extensions", .array (p.extensions.map ExtensionReport.toJson))]

def HostCapability.toJson (c : HostCapability) : Json :=
  .object [("path", .string c.path), ("capability", .string c.capability.text),
    ("description", .string c.description)]

/-! ## As text -/

/-- A text in a column: at least `width` characters wide. -/
def column (width : Nat) (s : String) : String :=
  s ++ String.ofList (List.replicate (width - s.length) ' ')

/-- One line for an extension. -/
def ExtensionReport.line (e : ExtensionReport) : String :=
  "  " ++ (if e.enabled then "[on]" else "[off]") ++ " " ++ e.capability ++ " " ++ e.version
    ++ (if e.fromWildcard then "" else " [explicit]") ++ "  " ++ e.module ++ "\n"

/-- A point with the lines of its extensions. -/
def PointReport.paragraph (p : PointReport) : String :=
  p.path ++ " (" ++ p.capability ++ ")\n" ++ String.join (p.extensions.map (·.line)) ++ "\n"

/-- One line for a point, with the number of its extensions. -/
def PointReport.line (p : PointReport) : String :=
  column 48 p.path ++ " " ++ column 32 p.capability ++ " " ++ toString p.extensions.length ++ "\n"

/-- One line for a point that the host declares. -/
def HostCapability.line (c : HostCapability) : String :=
  column 48 c.path ++ " " ++ c.description ++ "\n"

namespace Report

/-- The points that hold extensions, and how many extensions there are. -/
def extensionsText (points : List PointReport) : String :=
  String.join ((points.filter (!·.extensions.isEmpty)).map (·.paragraph))
    ++ toString ((points.map (·.extensions.length)).foldl (· + ·) 0) ++ " extension(s) in "
    ++ toString points.length ++ " point(s)\n"

/-- All points, a line each. -/
def pointsText (points : List PointReport) : String := String.join (points.map (·.line))

/-- The points that the host declares, a line each. -/
def capabilitiesText (found : List HostCapability) : String :=
  if found.isEmpty then "no built-in capability matches\n"
  else String.join (found.map (·.line))

/-- A list as JSON, with a line end. -/
def jsonText {α : Type} (write : α → Json) (items : List α) : String :=
  (Json.array (items.map write)).pretty ++ "\n"

end Report
end PluginHost
