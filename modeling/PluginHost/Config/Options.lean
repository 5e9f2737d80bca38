import PluginHost.Config
import PluginHost.Discovery

/-! # From settings to a discovery

Settings are texts; `Config.discoveryOptions` is what they mean for a discovery.
A runtime and a version that are none are its only errors, and the runtime is
looked at first. -/
namespace PluginHost

/-- The family that a host is said to run on, blanks and case aside. -/
def HostConfig.family (h : HostConfig) : Except HostError RuntimeFamily :=
  match RuntimeFamily.ofText? (Text.trimmed h.runtime) with
  | some family => .ok family
  | none => .error (.config (.unknownRuntime h.runtime))

/-- The version that a host is said to have. -/
def HostConfig.release (h : HostConfig) : Except HostError (Option Version) :=
  match h.version with
  | none => .ok none
  | some text =>
    match Version.ofText? text with
    | some version => .ok (some version)
    | none => .error (.invalidVersion text)

/-- The options that settings stand for. -/
def Config.discoveryOptions (c : Config) : Except HostError DiscoveryOptions := do
  let family ← c.host.family
  let release ← c.host.release
  let defaults : DiscoveryOptions := {}
  return {
    manifestPattern := c.discovery.manifestPattern
    modulePattern := c.discovery.modulePattern
    hostRuntime := family
    hostVersion := release.getD defaults.hostVersion }

end PluginHost
