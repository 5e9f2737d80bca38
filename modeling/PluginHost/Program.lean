import PluginHost.CommandLine
import PluginHost.Config.Loading
import PluginHost.Config.Printing
import PluginHost.Report

/-! # A run of the program

`Launch.run` says what the program shows and how it ends: with the code 0, with
1 after an error of the host, and with 2 where the arguments or the settings make
no sense. -/
namespace PluginHost

/-- What a run starts with. -/
structure Launch where
  files : FileSystem
  /-- The environment variables. -/
  environment : Environment
  /-- The directory that holds the program. -/
  programDirectory : Path
  arguments : List String

/-- What a run shows, and how it ends. -/
structure RunResult where
  code : UInt8
  output : String
  /-- What went wrong, for the eyes of people. -/
  complaint : String := ""
  /-- What was told on the way. -/
  log : List Event := []

/-- The line that names the program and its version. -/
def versionText : String := "gauntlet 0.1.0\n"

/-- What is shown when nothing is asked for. -/
def hintText : String := "gauntlet: use --help for available commands\n"

/-- What the program can be asked for. -/
def helpText : String :=
  "Usage: gauntlet [--config FILE] [COMMAND]\n\n"
    ++ "Commands:\n"
    ++ "  extensions [--dir DIR] [--all] [--json] [--plain]\n"
    ++ "  points [--dir DIR] [--json]\n"
    ++ "  capabilities [QUERY] [--json]\n"
    ++ "  config\n"

/-- Whether a log of this level tells an event. -/
def LogLevel.tells : LogLevel → Level → Bool
  | .error, _ => false
  | .warn, .info => false
  | _, _ => true

namespace Launch

variable (launch : Launch)

/-- The configuration of a run. -/
def config (file : Option Path) : Except (List ConfigError) Config :=
  match file with
  | some file => Config.ofFile launch.files launch.environment file
  | none => Config.load launch.files launch.environment

/-- Where discovery starts: the directory that was asked for, or else the one of
the settings, or else that of the program. -/
def startDirectory (config : Config) (directory : Option Path) : Path :=
  (directory <|> config.discovery.startDirectory).getD launch.programDirectory

/-- What is found, and what is told on the way. -/
def discover (config : Config) (directory : Option Path) :
    List Event × Except HostError Registry :=
  match config.discoveryOptions >>= Discovery.ofOptions with
  | .error e => ([], .error e)
  | .ok discovery =>
    let outcome := discovery.discover launch.files (.modules launch.files) Catalog.builtins
      (launch.startDirectory config directory)
    (outcome.log, outcome.result)

/-- Shows what is found. -/
def showFound (config : Config) (directory : Option Path) (text : Registry → String) : RunResult :=
  let (log, found) := launch.discover config directory
  let level := (LogLevel.ofText? (Text.trimmed config.log.level)).getD .info
  let log := log.filter fun e => level.tells e.level
  match found with
  | .ok registry => { code := 0, output := text registry, log }
  | .error e => { code := 1, output := "", complaint := "error: " ++ e.message, log }

/-- Does what a command asks for. -/
def perform (config : Config) : Option Command → RunResult
  | none => { code := 0, output := hintText }
  | some (.extensions directory all json _) =>
    launch.showFound config directory fun registry =>
      let points := registry.report all
      if json then Report.jsonText PointReport.toJson points else Report.extensionsText points
  | some (.points directory json) =>
    launch.showFound config directory fun registry =>
      let points := registry.report true
      if json then Report.jsonText PointReport.toJson points else Report.pointsText points
  | some (.capabilities query json) =>
    let found := Catalog.search (query.getD "")
    { code := 0
      output := if json then Report.jsonText HostCapability.toJson found
        else Report.capabilitiesText found }
  | some .config => { code := 0, output := config.text }

/-- A run of the program. -/
def run : RunResult :=
  match Invocation.ofArguments launch.arguments with
  | .error .help => { code := 0, output := helpText }
  | .error .version => { code := 0, output := versionText }
  | .error (.usage e) => { code := 2, output := "", complaint := "error: " ++ e.message }
  | .ok invocation =>
    match launch.config invocation.configFile with
    | .ok config => launch.perform config invocation.command
    | .error errors =>
      { code := 2, output := "", complaint := "\n".intercalate (errors.map (·.message)) }

end Launch
end PluginHost
