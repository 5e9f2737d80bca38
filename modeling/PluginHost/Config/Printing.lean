import PluginHost.Config
import PluginHost.Toml
import PluginHost.Toml.Text

/-! # Printing the configuration

`Config.text` writes a configuration as a TOML text with a header for every
section, and `Config.toml` is the table that this text describes.  Settings that
are absent are left out. -/
namespace PluginHost

/-- A section as it is written: its name and the texts under its keys. -/
abbrev PrintedSection := String × List (String × String)

/-- A setting on a line of its own, unless its text has several. -/
def settingLine (key text : String) : String :=
  key ++ " = " ++ String.ofList (TomlText.write text.toList) ++ "\n"

/-- A header with the settings below it. -/
def PrintedSection.text : PrintedSection → String
  | (name, settings) =>
    "[" ++ name ++ "]\n" ++ String.join (settings.map fun (key, text) => settingLine key text)

/-- The table that a header and the settings below it describe. -/
def PrintedSection.toml : PrintedSection → String × Toml
  | (name, settings) =>
    (name, .table .header (settings.map fun (key, text) => (key, .string text)))

/-- A setting that may be absent. -/
def setting? (key : String) (text : Option String) : List (String × String) :=
  text.toList.map (key, ·)

/-- What a configuration sets, section by section. -/
def Config.printed (c : Config) : List PrintedSection :=
  [("host", ("runtime", c.host.runtime) :: setting? "version" c.host.version),
    ("discovery", setting? "start_directory" (c.discovery.startDirectory.map (·.text)) ++
      [("manifest_pattern", c.discovery.manifestPattern),
        ("module_pattern", c.discovery.modulePattern)]),
    ("log", [("level", c.log.level)])]

/-- A configuration as text. -/
def Config.text (c : Config) : String := "\n".intercalate (c.printed.map PrintedSection.text)

/-- A configuration as a table. -/
def Config.toml (c : Config) : TomlTable := c.printed.map PrintedSection.toml

end PluginHost
