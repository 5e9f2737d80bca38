import PluginHost.Config.Options

/-! # Checking settings

A configuration is valid when a discovery can be set up with it and the level of
the log is one.  `Config.violations` lists all that is wrong, not only the first
of it. -/
namespace PluginHost

/-- How much is told, from least to most. -/
inductive LogLevel where
  | error
  | warn
  | info
  | debug
  | trace
deriving DecidableEq, Repr

namespace LogLevel

/-- The name of a level. -/
def name : LogLevel → String
  | .error => "error"
  | .warn => "warn"
  | .info => "info"
  | .debug => "debug"
  | .trace => "trace"

/-- Every level.  The first has the number 1. -/
def all : List LogLevel := [.error, .warn, .info, .debug, .trace]

/-- Digits, in front of which a plus may stand. -/
def number? (cs : List Char) : Option Nat :=
  let digits := match cs with
    | '+' :: rest => rest
    | cs => cs
  if !digits.isEmpty && digits.all Char.isDigit then some (Nat.ofDigitChars 10 digits 0) else none

/-- The level of this name in any ASCII case, or of this number. -/
def ofText? (s : String) : Option LogLevel :=
  match number? s.toList with
  | some 0 => none
  | some (n + 1) => all[n]?
  | none => all.find? (·.name.toList == s.toList.map Char.toLower)

end LogLevel

/-- What can be wrong with a pattern for file names. -/
inductive FilePatternFault where
  | blank
  /-- There is a slash in it, which no file name has. -/
  | notName
  | glob (error : GlobError)
deriving DecidableEq, Repr

/-- The wording of a pattern fault. -/
def FilePatternFault.message : FilePatternFault → String
  | .blank => "must not be empty"
  | .notName => "must match file names, not paths"
  | .glob error => "is not a valid pattern: " ++ error.message

/-- What is wrong with a pattern for file names, if anything is. -/
def FilePatternFault.of? (pattern : String) : Option FilePatternFault :=
  if (Text.trim pattern.toList).isEmpty then some .blank
  else if pattern.toList.any fun c => c == '/' || c == '\\' then some .notName
  else
    match Glob.ofText pattern with
    | .ok _ => none
    | .error e => some (.glob e)

/-- A setting that makes no sense. -/
inductive ConfigViolation where
  /-- No host runs on the portable family. -/
  | neutralHost
  | runtime (error : HostError)
  | version (error : HostError)
  | filePattern (key pattern : String) (fault : FilePatternFault)
  | emptyStartDirectory
  | level (value : String)

/-- The wording of a violation. -/
def ConfigViolation.message : ConfigViolation → String
  | .neutralHost => "host.runtime must name a concrete runtime (core or desktop), not `neutral`"
  | .runtime error => error.message
  | .version error => "host.version: " ++ error.message
  | .filePattern key pattern fault => key ++ " `" ++ pattern ++ "` " ++ fault.message
  | .emptyStartDirectory => "discovery.start_directory must not be empty"
  | .level value => "log.level `" ++ value ++ "` is not one of trace, debug, info, warn, error"

namespace ConfigViolation

/-- What is wrong with the runtime of a host. -/
def ofRuntime? (h : HostConfig) : Option ConfigViolation :=
  match h.family with
  | .ok .neutral => some .neutralHost
  | .ok _ => none
  | .error e => some (.runtime e)

/-- What is wrong with the version of a host. -/
def ofVersion? (h : HostConfig) : Option ConfigViolation :=
  match h.release with
  | .ok _ => none
  | .error e => some (.version e)

/-- What is wrong with the pattern under a key. -/
def ofPattern? (key pattern : String) : Option ConfigViolation :=
  (FilePatternFault.of? pattern).map (.filePattern key pattern)

/-- What is wrong with the start directory, which may be absent. -/
def ofStart? (start : Option Path) : Option ConfigViolation :=
  if start.any (·.text.isEmpty) then some .emptyStartDirectory else none

/-- What is wrong with the level of the log. -/
def ofLevel? (level : String) : Option ConfigViolation :=
  match LogLevel.ofText? (Text.trimmed level) with
  | some _ => none
  | none => some (.level level)

end ConfigViolation

/-- All that is wrong with a configuration. -/
def Config.violations (c : Config) : List ConfigViolation :=
  [ConfigViolation.ofRuntime? c.host, ConfigViolation.ofVersion? c.host,
    ConfigViolation.ofPattern? "discovery.manifest_pattern" c.discovery.manifestPattern,
    ConfigViolation.ofPattern? "discovery.module_pattern" c.discovery.modulePattern,
    ConfigViolation.ofStart? c.discovery.startDirectory,
    ConfigViolation.ofLevel? c.log.level].filterMap id

end PluginHost
