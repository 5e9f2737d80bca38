import PluginHost.Config.Error
import PluginHost.Config.Printing
import PluginHost.Config.Variable
import PluginHost.FileSystem
import PluginHost.Toml.Reading

/-! # Loading the configuration

Settings come in layers: the defaults, the file of the system, that of the user,
the one of the working directory or the nearest above it, and the environment.
Each layer is laid onto those before it.

A configuration comes from a text alone (`Config.ofText`), from one file and the
environment (`Config.ofFile`), or from all layers (`Config.load`).  The answer
is valid, or all that is wrong.  What is only read, and not checked, comes from
`Config.readText`, `Config.readFile` and `Config.readAll`. -/
namespace PluginHost

/-- The name of the file in the working directory. -/
def localFile : Path := ⟨"gauntlet.toml"⟩

/-- The file of the system. -/
def systemFile : Path := ⟨"/etc/gauntlet/gauntlet.toml"⟩

/-- The directory of the user's settings, which a variable names, or which is a
directory of the user's home.  The home is named by a variable that is not empty; the
database of users, which may know of one as well, is not asked. -/
def userDirectory? (environment : Environment) : Option Path :=
  let directory? := (environment.lookup "XDG_CONFIG_HOME").map Path.mk
  let home? := (environment.lookup "HOME").filter (!·.isEmpty)
  directory?.filter Path.isAbsolute <|> home?.map fun home => (Path.mk home).join ⟨".config"⟩

/-- The file of the user. -/
def userFile? (environment : Environment) : Option Path :=
  (userDirectory? environment).map (·.join ⟨"gauntlet/gauntlet.toml"⟩)

/-- The directory at a location and those above it, from below. -/
def upward (loc : Location) : List Location :=
  (List.range (loc.length + 1)).map fun n => loc.take (loc.length - n)

/-- The file that a path means: a relative one is looked for in the working
directory and in those above it. -/
def FileSystem.nearest? (fs : FileSystem) (file : Path) : Option Path :=
  if file.isAbsolute then some file |>.filter fs.isFile
  else ((upward fs.workingDirectory).map fun loc => (Path.ofLocation loc).join file).find? fs.isFile

/-- What a layer sets, or why it cannot be read. -/
abbrev ConfigLayer := Except ConfigError ConfigTable

namespace ConfigLayer

/-- The settings of a text that stands in `file`. -/
def ofText (file : Option Path) (text : String) : ConfigLayer :=
  match TomlTable.ofText? text with
  | some t => .ok (.ofToml file t)
  | none => .error .malformed

/-- The settings of a file, of which there are none without the file. -/
def ofFile (fs : FileSystem) (file : Path) : ConfigLayer :=
  match fs.nearest? file with
  | none => .ok []
  | some found =>
    match fs.readText found with
    | .ok text => ofText (some found) text
    | .error e => .error (.unreadable (found.relativeTo fs.workingDirectory) e)

/-- What is wrong with a layer. -/
def error? : ConfigLayer → Option ConfigError
  | .ok _ => none
  | .error e => some e

/-- The settings of a layer. -/
def table : ConfigLayer → ConfigTable
  | .ok t => t
  | .error _ => []

end ConfigLayer

namespace Config

/-- What a configuration is when nothing is set. -/
def defaultTable : ConfigTable := .ofToml none (toml {})

/-- What layers set, each laid onto those before it, and the first onto the defaults. -/
def merged (layers : List ConfigLayer) : ConfigTable :=
  (layers.map ConfigLayer.table).foldl (fun lower upper => upper.onto lower) defaultTable

/-- The configuration that layers set, unchecked.  Places of unknown keys are looked
for in `sources`. -/
def readLayers (sources : List ConfigSource) (layers : List ConfigLayer) :
    Except (List ConfigError) Config :=
  match layers.filterMap ConfigLayer.error? with
  -- Nothing is made of the other layers when one cannot be read.
  | [] => (ofTable (merged layers)).mapError fun fault => [.ofFault sources fault]
  | errors => .error errors

/-- A configuration that is valid, or all that is wrong with it. -/
def checked (c : Config) : Except (List ConfigError) Config :=
  match c.violations with
  | [] => .ok c
  | violations => .error (violations.map .violation)

/-! ## A text alone -/

/-- The source that messages about a text name. -/
def inlineSource (text : String) : ConfigSource := ⟨"<inline>", text⟩

/-- The configuration of a text, unchecked. -/
def readText (text : String) : Except (List ConfigError) Config :=
  readLayers [inlineSource text] [.ofText none text]

/-- The configuration of a text. -/
def ofText (text : String) : Except (List ConfigError) Config := readText text >>= checked

/-! ## Files and the environment -/

/-- Those of several files that hold text. -/
def sources (fs : FileSystem) (files : List Path) : List ConfigSource :=
  files.filterMap fun file => (fs.readText file).toOption.map fun text => ⟨file.text, text⟩

/-- The configuration of a file, with the environment laid onto it, unchecked. -/
def readFile (fs : FileSystem) (environment : Environment) (file : Path) :
    Except (List ConfigError) Config :=
  readLayers (sources fs [file]) [.ofFile fs file, .ok (.ofEnvironment environment)]

/-- The configuration of a file, with the environment laid onto it. -/
def ofFile (fs : FileSystem) (environment : Environment) (file : Path) :
    Except (List ConfigError) Config :=
  readFile fs environment file >>= checked

/-- The configuration of all layers, unchecked. -/
def readAll (fs : FileSystem) (environment : Environment) : Except (List ConfigError) Config :=
  let user := (userFile? environment).toList
  let here := (Path.ofLocation fs.workingDirectory).join localFile
  readLayers (sources fs (here :: user ++ [systemFile]))
    ((systemFile :: user ++ [localFile]).map (ConfigLayer.ofFile fs) ++
      [.ok (.ofEnvironment environment)])

/-- The configuration of all layers. -/
def load (fs : FileSystem) (environment : Environment) :
    Except (List ConfigError) Config :=
  readAll fs environment >>= checked

end Config
end PluginHost
