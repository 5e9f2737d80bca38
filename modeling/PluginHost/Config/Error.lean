import PluginHost.Config.KeyPlace
import PluginHost.Config.Reading
import PluginHost.Config.Validation
import PluginHost.Text.Similarity

/-! # Errors about settings

A `ConfigError` has a wording, a code and, where there is something to be done,
a help.  An unknown key is answered with the most similar key there is, and with
the place in the file where it stands. -/
namespace PluginHost

/-- A text with settings, under a name that messages use. -/
structure ConfigSource where
  name : String
  text : String
deriving DecidableEq, Repr

/-- A part of a source, in bytes. -/
structure SourceSpan where
  source : String
  offset : Nat
  length : Nat
deriving DecidableEq, Repr

/-- What can be wrong with a configuration. -/
inductive ConfigError where
  | unknownKey (key : String) (known : List String) (place : Option SourceSpan)
  | invalidType (path : List String) (found : ConfigValue) (expected : String)
  | violation (violation : ConfigViolation)
  /-- A text is no TOML. -/
  | malformed
  | unreadable (file : Path) (error : FileError)

/-- The known key that an unknown one is most similar to. -/
def suggestedKey? (key : String) (known : List String) : Option String :=
  Similarity.closest? 0.75 key known

/-- A list of keys. -/
def keyList (keys : List String) : String := ", ".intercalate keys

/-- What was found and what should have been. -/
def mismatchText (found : ConfigValue) (expected : String) : String :=
  "found " ++ found.description ++ ", expected " ++ expected

/-- A key with the tables that it stands in. -/
def keyText (path : List String) : String := ".".intercalate path

namespace ConfigError

/-- The wording of an error. -/
def message : ConfigError → String
  | .unknownKey key _ _ => "unknown configuration key `" ++ key ++ "`"
  | .invalidType path found expected =>
    "invalid type for key `" ++ keyText path ++ "`: " ++ mismatchText found expected
  | .violation v => "validation error: " ++ v.message
  | .malformed => "configuration error: TOML parse error"
  | .unreadable file error =>
    "configuration error: " ++ error.message ++ "\n in " ++ file.text ++ " TOML file"

/-- The code of an error. -/
def code : ConfigError → String
  | .unknownKey _ _ _ => "gauntlet::config::unknown_key"
  | .invalidType _ _ _ => "gauntlet::config::invalid_type"
  | .violation _ => "gauntlet::config::validation"
  | .malformed | .unreadable _ _ => "gauntlet::config::other"

/-- What to do about an error. -/
def help? : ConfigError → Option String
  | .unknownKey key known _ =>
    match suggestedKey? key known with
    | some suggestion =>
      some ("did you mean `" ++ suggestion ++ "`? Valid keys: " ++ keyList known)
    | none => some ("valid keys: " ++ keyList known)
  | .invalidType _ _ expected => some ("expected " ++ expected)
  | .violation _ | .malformed | .unreadable _ _ => none

/-- The source that a key was set in.  A key that no file has set is taken to
come from the only source there is. -/
def sourceOf? (sources : List ConfigSource) : Option Path → Option ConfigSource
  | some file => sources.find? (·.name == file.text)
  | none =>
    match sources with
    | [source] => some source
    | _ => none

/-- The place of an unknown key. -/
def placeOf? (sources : List ConfigSource) (path : List String) (key : String)
    (file : Option Path) : Option SourceSpan := do
  let source ← sourceOf? sources file
  let offset ← KeyPlace.find? source.text path key
  return ⟨source.name, offset, Text.byteCount key.toList⟩

/-- The error that a fault is, with the place where it stands. -/
def ofFault (sources : List ConfigSource) : ConfigFault → ConfigError
  | .unknownKey path key known file =>
    .unknownKey key known (placeOf? sources path key file)
  | .invalidType path found expected => .invalidType path found expected

end ConfigError
end PluginHost
