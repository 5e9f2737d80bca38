import PluginHost.Json.Record
import PluginHost.Leb128
import PluginHost.PathPattern
import PluginHost.Runtime
import PluginHost.TypeName

/-! # Errors of the host

An error says what went wrong as a value; `HostError.message` is its wording.
The errors that come from a part of the host carry the error of that part. -/
namespace PluginHost

/-- How messages name a version that cannot be read. -/
def invalidVersionText (value : String) : String := "invalid version `" ++ value ++ "`"

/-- What can be wrong with a module. -/
inductive ModuleFault where
  | unreadable (error : FileError)
  | framing (error : FramingError)
  /-- There is no section of this name, which should hold the description. -/
  | noSection (name : String)
  | payload (fault : JsonFault)
  | unnamed
  | version (value : String)
  /-- An extension asks for a host version that is none. -/
  | engineVersion (extension : TypeName) (value : String)
  /-- Nobody has described the module. -/
  | unknown

/-- The wording of a module fault. -/
def ModuleFault.message : ModuleFault → String
  | .unreadable error => error.message
  | .framing error => error.message
  | .noSection name => "no `" ++ name ++ "` custom section"
  | .payload fault =>
    match fault.detail? with
    | none => "invalid metadata payload"
    | some detail => "invalid metadata payload: " ++ detail
  | .unnamed => "module name must not be empty"
  | .version value => invalidVersionText value
  | .engineVersion extension value =>
    "extension " ++ extension.text ++ ": " ++ invalidVersionText value
  | .unknown => "unknown module"

/-- What can be wrong with an argument. -/
inductive ArgumentError where
  | pattern (error : PatternError)
  | noStartDirectory (start : Path)
deriving DecidableEq, Repr

/-- The wording of an argument error. -/
def ArgumentError.message : ArgumentError → String
  | .pattern error => error.message
  | .noStartDirectory start => "start directory " ++ start.text ++ " does not exist"

/-- What can be wrong with the options of a host. -/
inductive OptionsError where
  | unknownRuntime (value : String)
  | neutralHost
  | badPattern (field pattern : String) (error : GlobError)
deriving DecidableEq, Repr

/-- The wording of an options error. -/
def OptionsError.message : OptionsError → String
  | .unknownRuntime value => "unknown host runtime `" ++ value ++ "`"
  | .neutralHost => "host runtime must be `desktop` or `core`, not `neutral`"
  | .badPattern field pattern error =>
    "invalid " ++ field ++ " `" ++ pattern ++ "`: " ++ error.message

/-- What can go wrong in a host. -/
inductive HostError where
  | manifestRead (path : Path) (error : FileError)
  | moduleRead (path : Path) (fault : ModuleFault)
  | duplicatePoint (path : String)
  /-- An extension names a point that nobody has declared. -/
  | unknownPoint (path : String) (capability : TypeName)
  /-- An extension names no point, and none is found for its type. -/
  | undeducedPoint (capability : TypeName)
  | incompatibleRuntime (path : Path) (target : RuntimeDescriptor) (host : HostRuntime)
  | extensionNotFound (capability : TypeName)
  | invalidVersion (value : String)
  | invalidArgument (error : ArgumentError)
  | config (error : OptionsError)

/-- The wording of an error. -/
def HostError.message : HostError → String
  | .manifestRead path error => "failed to read manifest " ++ path.text ++ ": " ++ error.message
  | .moduleRead path fault =>
    "failed to read module metadata from " ++ path.text ++ ": " ++ fault.message
  | .duplicatePoint path => "extension point `" ++ path ++ "` is already registered"
  | .unknownPoint path capability =>
    "unable to locate extension point `" ++ path ++ "` for type " ++ capability.text
  | .undeducedPoint capability =>
    "unable to deduce an extension point for type " ++ capability.text
  | .incompatibleRuntime path target host =>
    "module " ++ path.text ++ " targets " ++ target.text ++ ", which is not available to a "
      ++ host.family.name ++ " host"
  | .extensionNotFound capability => "no extension found with type " ++ capability.text
  | .invalidVersion value => invalidVersionText value
  | .invalidArgument error => "invalid argument: " ++ error.message
  | .config error => "configuration error: " ++ error.message

end PluginHost
