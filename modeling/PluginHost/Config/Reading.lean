import PluginHost.Config
import PluginHost.Config.Value

/-! # Giving settings their meaning

A `ConfigFormat` says which keys a table may have and what they set, and
`ConfigFormat.read` reads a record of settings.  Keys are looked at in ascending
order and the first fault is the answer, so a misspelt key is never passed over.
A record may also be a sequence of its fields in their order. -/
namespace PluginHost

/-- Why a value cannot be read. -/
inductive ConfigFault where
  /-- There is no such key beside the `known` ones.  The last name of the path
  is the key itself, and `file` is the one that set it. -/
  | unknownKey (path : List String) (key : String) (known : List String) (file : Option Path)
  | invalidType (path : List String) (found : ConfigValue) (expected : String)

/-- A field of records of type `α`. -/
structure ConfigField (α : Type) where
  name : String
  /-- Reads the value at a path into a record. -/
  store : List String → ConfigValue → α → Except ConfigFault α

/-- A field that holds a text, which messages call `expected`. -/
def ConfigField.text {α : Type} (name expected : String) (put : String → α → α) :
    ConfigField α where
  name
  store path value record :=
    match value with
    | .string text => .ok (put text record)
    | value => .error (.invalidType path value expected)

/-- What a table may hold, as settings of type `α`. -/
structure ConfigFormat (α : Type) where
  name : String
  /-- The settings when nothing is set. -/
  defaults : α
  fields : List (ConfigField α)

namespace ConfigFormat

variable {α : Type} (format : ConfigFormat α)

/-- The names of the fields. -/
def keys : List String := format.fields.map (·.name)

/-- Reads one member of a table. -/
def readMember (path : List String) (record : α) :
    String × Option Path × ConfigValue → Except ConfigFault α
  | (key, file, value) =>
    match format.fields.find? (·.name == key) with
    | some field => field.store (path ++ [key]) value record
    | none => .error (.unknownKey (path ++ [key]) key format.keys file)

/-- Reads a table. -/
def readTable (path : List String) (members : ConfigTable) : Except ConfigFault α :=
  members.foldlM (format.readMember path) format.defaults

/-- Reads a sequence of fields.  What follows the last field does not count. -/
def readItems (path : List String) (items : List ConfigValue) : Except ConfigFault α :=
  (format.fields.zip items).zipIdx.foldlM
    (fun record ((field, value), index) => field.store (path ++ [toString index]) value record)
    format.defaults

/-- Reads a record. -/
def read (path : List String) : ConfigValue → Except ConfigFault α
  | .table members => format.readTable path members
  | .sequence items => format.readItems path items
  | value => .error (.invalidType path value ("struct " ++ format.name))

/-- A field that holds a record. -/
def field {β : Type} (name : String) (put : α → β → β) : ConfigField β where
  name
  store path value record := (format.read path value).map (put · record)

end ConfigFormat

/-- The section `host`. -/
def HostConfig.format : ConfigFormat HostConfig where
  name := "HostConfig"
  defaults := {}
  fields :=
    [.text "runtime" "a string" fun s h => { h with runtime := s },
      .text "version" "a string" fun s h => { h with version := s }]

/-- The section `discovery`. -/
def DiscoveryConfig.format : ConfigFormat DiscoveryConfig where
  name := "DiscoveryConfig"
  defaults := {}
  fields :=
    [.text "start_directory" "path string" fun s d => { d with startDirectory := some ⟨s⟩ },
      .text "manifest_pattern" "a string" fun s d => { d with manifestPattern := s },
      .text "module_pattern" "a string" fun s d => { d with modulePattern := s }]

/-- The section `log`. -/
def LogConfig.format : ConfigFormat LogConfig where
  name := "LogConfig"
  defaults := {}
  fields := [.text "level" "a string" fun s _ => ⟨s⟩]

/-- All sections. -/
def Config.format : ConfigFormat Config where
  name := "Config"
  defaults := {}
  fields :=
    [HostConfig.format.field "host" fun h c => { c with host := h },
      DiscoveryConfig.format.field "discovery" fun d c => { c with discovery := d },
      LogConfig.format.field "log" fun l c => { c with log := l }]

/-- Reads all settings. -/
def Config.ofTable (settings : ConfigTable) : Except ConfigFault Config :=
  Config.format.readTable [] settings

end PluginHost
