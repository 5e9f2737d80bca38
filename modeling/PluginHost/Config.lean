import PluginHost.Path

/-! # Configuration

What a user can set: the runtime and version of the host, where discovery starts
and which files it looks at, and how much is told.  Every setting has a default,
or is absent by default. -/
namespace PluginHost

/-- What the host is. -/
structure HostConfig where
  /-- The family of the runtime. -/
  runtime : String := "core"
  /-- The version that extensions ask for. -/
  version : Option String := none
deriving DecidableEq, Repr

/-- Where and how modules are found. -/
structure DiscoveryConfig where
  startDirectory : Option Path := none
  /-- The names of manifests. -/
  manifestPattern : String := "*.addins"
  /-- The names of modules in directories without a manifest. -/
  modulePattern : String := "*.wasm"
deriving DecidableEq, Repr

/-- What is told. -/
structure LogConfig where
  level : String := "info"
deriving DecidableEq, Repr

/-- All settings. -/
structure Config where
  host : HostConfig := {}
  discovery : DiscoveryConfig := {}
  log : LogConfig := {}
deriving DecidableEq, Repr

end PluginHost
