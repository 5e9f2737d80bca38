import PluginHost.Metadata
import PluginHost.WasmModule

/-! # Drafting modules

A module is described step by step: each step adds a declaration, or completes
the one that was added last.  `Metadata.toModule` is the module that carries the
description and nothing else. -/
namespace PluginHost

/-- The name of the custom section that holds the description of a module. -/
def metadataSection : String := "gauntlet.metadata"

namespace Metadata

/-- The description as bytes. -/
def payload (m : Metadata) : List UInt8 := Utf8.encode m.toJson.compact

/-- The module that carries the description and nothing else. -/
def toModule (m : Metadata) : List UInt8 := WasmModule.withSection metadataSection m.payload

/-- A module of a name and a version that declares nothing. -/
def draft (name version : String) : Metadata := { name, version }

/-- Names the family of runtimes the module was built for. -/
def forRuntime (family : RuntimeFamily) (m : Metadata) : Metadata :=
  { m with runtime := some ⟨family, none⟩ }

/-- Declares an extension point. -/
def addPoint (point : PointDeclaration) (m : Metadata) : Metadata :=
  { m with points := m.points ++ [point] }

/-- Declares a type. -/
def addType (type : TypeDeclaration) (m : Metadata) : Metadata :=
  { m with types := m.types ++ [type] }

/-- Changes the type that was declared last. -/
def completeType (change : TypeDeclaration → TypeDeclaration) (m : Metadata) : Metadata :=
  { m with types := m.types.dropLast ++ (m.types.getLast?.map change).toList }

/-- Names the type that the last type is derived from. -/
def setBase (base : TypeName) : Metadata → Metadata :=
  completeType fun type => { type with base := some base }

/-- Adds a property to the last type, if that is an extension. -/
def addProperty (property : Property) : Metadata → Metadata :=
  completeType fun type => { type with
    extension := type.extension.map fun mark =>
      { mark with properties := mark.properties ++ [property] } }

end Metadata
end PluginHost
