import PluginHost.Error
import PluginHost.Metadata.Draft
import PluginHost.Metadata.Reading

/-! # Where metadata comes from

A source answers a path with the description of the module there.  Usually it
looks into the module; `MetadataSource.table` answers from a table instead, and
then no module is opened. -/
namespace PluginHost

/-- What answers a path with the description of the module there. -/
abbrev MetadataSource := Path → Except HostError Metadata

namespace Metadata

/-- The description that the payload of the module at `path` spells. -/
def ofPayloadAt (path : Path) (payload : List UInt8) : Except HostError Metadata :=
  match ofPayload payload with
  | .ok m => .ok m
  | .error fault => .error (.moduleRead path (.payload fault))

/-- The description in the module at `path`, which consists of these bytes. -/
def ofModuleAt (path : Path) (bytes : List UInt8) : Except HostError Metadata :=
  match WasmModule.findSection bytes metadataSection with
  | .error e => .error (.moduleRead path (.framing e))
  | .ok none => .error (.moduleRead path (.noSection metadataSection))
  | .ok (some payload) => ofPayloadAt path payload

end Metadata

namespace MetadataSource

/-- Looks into the modules. -/
def modules (fs : FileSystem) : MetadataSource := fun path =>
  match fs.read path with
  | .error e => .error (.moduleRead path (.unreadable e))
  | .ok bytes => Metadata.ofModuleAt path bytes

/-- A table of paths with a row for `path`: each path has one row. -/
def insert (path : Path) (m : Metadata) (rows : List (Path × Metadata)) :
    List (Path × Metadata) :=
  if rows.any (·.1.components == path.components) then
    rows.map fun row => if row.1.components == path.components then (row.1, m) else row
  else rows ++ [(path, m)]

/-- The row that tells of a module: the row of exactly this path, or else one
whose path leads to the same place. -/
def row? (fs : FileSystem) (rows : List (Path × Metadata)) (path : Path) :
    Option (Path × Metadata) :=
  (rows.find? (·.1.components == path.components)).or
    (match fs.locate path with
      | .error _ => none
      | .ok loc => rows.find? fun row =>
        match fs.locate row.1 with
        | .ok other => other == loc
        | .error _ => false)

/-- Looks into a table. -/
def table (fs : FileSystem) (rows : List (Path × Metadata)) : MetadataSource := fun path =>
  match row? fs rows path with
  | some row => .ok row.2
  | none => .error (.moduleRead path .unknown)

end MetadataSource
end PluginHost
