import PluginHost.Json
import PluginHost.Runtime
import PluginHost.TypeName

/-! # Module metadata

A module describes itself: its name and version, the runtime it was built for,
the extension points it declares, and its types with the relations between them
and their marks.  `Metadata.toJson` is the description as JSON. -/
namespace PluginHost

/-- A named value attached to an extension. -/
structure Property where
  name : String
  value : String
deriving DecidableEq, Repr

/-- The mark of a type that is an extension. -/
structure ExtensionMark where
  /-- The point the extension is for; without it the point is deduced. -/
  path : Option String := none
  description : Option String := none
  /-- An extension is enabled unless this says otherwise. -/
  enabled : Option Bool := none
  /-- The least host version the extension can be installed in. -/
  engineVersion : Option String := none
  properties : List Property := []
deriving DecidableEq, Repr

/-- The mark of a type that is an extension point for itself. -/
structure PointMark where
  path : Option String := none
  description : Option String := none
deriving DecidableEq, Repr

/-- A type that a module declares. -/
structure TypeDeclaration where
  name : TypeName
  /-- What the type implements, in the order of declaration. -/
  implements : List TypeName := []
  /-- The type it is derived from. -/
  base : Option TypeName := none
  point : Option PointMark := none
  extension : Option ExtensionMark := none
deriving DecidableEq, Repr

/-- An extension point that a module declares by itself. -/
structure PointDeclaration where
  path : String
  capability : TypeName
  description : Option String := none
deriving DecidableEq, Repr

/-- The description of a module. -/
structure Metadata where
  name : String
  version : String
  /-- The runtime the module was built for; without it the module is portable. -/
  runtime : Option RuntimeDescriptor := none
  points : List PointDeclaration := []
  types : List TypeDeclaration := []
deriving DecidableEq, Repr

/-! ## As JSON -/

/-- `null`, or the value as JSON. -/
def Json.ofOption {α : Type} (write : α → Json) : Option α → Json
  | none => .null
  | some a => write a

/-- A list as JSON. -/
def Json.ofList {α : Type} (write : α → Json) (items : List α) : Json := .array (items.map write)

def TypeName.toJson (name : TypeName) : Json := .string name.text

def RuntimeDescriptor.toJson (r : RuntimeDescriptor) : Json :=
  .object [("family", .string r.family.name), ("version", .ofText? r.version)]

def Property.toJson (p : Property) : Json :=
  .object [("name", .string p.name), ("value", .string p.value)]

def ExtensionMark.toJson (e : ExtensionMark) : Json :=
  .object [("path", .ofText? e.path), ("description", .ofText? e.description),
    ("enabled", .ofOption .boolean e.enabled), ("engine_version", .ofText? e.engineVersion),
    ("properties", .ofList Property.toJson e.properties)]

def PointMark.toJson (p : PointMark) : Json :=
  .object [("path", .ofText? p.path), ("description", .ofText? p.description)]

def TypeDeclaration.toJson (t : TypeDeclaration) : Json :=
  .object [("name", t.name.toJson), ("implements", .ofList TypeName.toJson t.implements),
    ("extends", .ofOption TypeName.toJson t.base),
    ("extension_point", .ofOption PointMark.toJson t.point),
    ("extension", .ofOption ExtensionMark.toJson t.extension)]

def PointDeclaration.toJson (p : PointDeclaration) : Json :=
  .object [("path", .string p.path), ("capability", p.capability.toJson),
    ("description", .ofText? p.description)]

/-- The description as JSON: every field is written, in the order of the type, and
what is absent is `null`. -/
def Metadata.toJson (m : Metadata) : Json :=
  .object [("name", .string m.name), ("version", .string m.version),
    ("target_runtime", .ofOption RuntimeDescriptor.toJson m.runtime),
    ("extension_points", .ofList PointDeclaration.toJson m.points),
    ("types", .ofList TypeDeclaration.toJson m.types)]

end PluginHost
