import PluginHost.Json.Record
import PluginHost.Metadata

/-! # Reading module metadata

Each type of the description has its `RecordFormat`: which fields there are, in
which order, which of them must be given, and what they hold.
`Metadata.ofPayload` reads a description from the bytes of a module. -/
namespace PluginHost
open JsonTree RecordField

/-- Reads the name of a type. -/
def TypeName.read (t : JsonTree) : Except JsonFault TypeName := (readText t).map TypeName.mk

/-- Reads the name of a family of runtimes. -/
def RuntimeFamily.read : JsonTree → Except JsonFault RuntimeFamily :=
  readVariant (RuntimeFamily.all.map fun family => (family.name, family))

def RuntimeDescriptor.format : RecordFormat RuntimeDescriptor where
  name := "RuntimeDescriptor"
  blank := ⟨.neutral, none⟩
  fields := [
    mandatory "family" RuntimeFamily.read fun x r => { r with family := x },
    optional "version" (readOption readText) fun x r => { r with version := x }]

def Property.format : RecordFormat Property where
  name := "ExtensionProperty"
  blank := ⟨"", ""⟩
  fields := [
    mandatory "name" readText fun x r => { r with name := x },
    mandatory "value" readText fun x r => { r with value := x }]

def ExtensionMark.format : RecordFormat ExtensionMark where
  name := "ExtensionAttribute"
  blank := {}
  fields := [
    optional "path" (readOption readText) fun x r => { r with path := x },
    optional "description" (readOption readText) fun x r => { r with description := x },
    optional "enabled" (readOption readFlag) fun x r => { r with enabled := x },
    optional "engine_version" (readOption readText) fun x r => { r with engineVersion := x },
    optional "properties" (readList Property.format.read) fun x r => { r with properties := x }]

def PointMark.format : RecordFormat PointMark where
  name := "TypedExtensionPointAttribute"
  blank := {}
  fields := [
    optional "path" (readOption readText) fun x r => { r with path := x },
    optional "description" (readOption readText) fun x r => { r with description := x }]

def TypeDeclaration.format : RecordFormat TypeDeclaration where
  name := "TypeMetadata"
  blank := { name := ⟨""⟩ }
  fields := [
    mandatory "name" TypeName.read fun x r => { r with name := x },
    optional "implements" (readList TypeName.read) fun x r => { r with implements := x },
    optional "extends" (readOption TypeName.read) fun x r => { r with base := x },
    optional "extension_point" (readOption PointMark.format.read) fun x r =>
      { r with point := x },
    optional "extension" (readOption ExtensionMark.format.read) fun x r =>
      { r with extension := x }]

def PointDeclaration.format : RecordFormat PointDeclaration where
  name := "ExtensionPointAttribute"
  blank := ⟨"", ⟨""⟩, none⟩
  fields := [
    mandatory "path" readText fun x r => { r with path := x },
    mandatory "capability" TypeName.read fun x r => { r with capability := x },
    optional "description" (readOption readText) fun x r => { r with description := x }]

def Metadata.format : RecordFormat Metadata where
  name := "ModuleMetadata"
  blank := { name := "", version := "" }
  fields := [
    mandatory "name" readText fun x r => { r with name := x },
    mandatory "version" readText fun x r => { r with version := x },
    optional "target_runtime" (readOption RuntimeDescriptor.format.read) fun x r =>
      { r with runtime := x },
    optional "extension_points" (readList PointDeclaration.format.read) fun x r =>
      { r with points := x },
    optional "types" (readList TypeDeclaration.format.read) fun x r => { r with types := x }]

/-- Reads the description that the bytes spell. -/
def Metadata.ofPayload (bytes : List UInt8) : Except JsonFault Metadata :=
  Metadata.format.readPayload bytes

end PluginHost
