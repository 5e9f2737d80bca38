import PluginHost.Error

/-! # What a host tells while it works

Discovery goes on after many failures, so it tells what it does and what it
skips.  An `Event` is one such notice, with a level, a wording and named
details. -/
namespace PluginHost

/-- How important an event is. -/
inductive Level where
  | info
  | warn
deriving DecidableEq, Repr

/-- One notice. -/
inductive Event where
  | directoryEntered (dir : Path)
  | directoryRepeated (dir : Path)
  | manifestEntered (manifest : Path)
  /-- A manifest turned out to be something else. -/
  | markupIgnored (manifest : Path)
  /-- A failure did not matter, because a wildcard led to it. -/
  | entrySkipped (subject : Path) (error : HostError)
  /-- A wildcard led to a module that the host cannot use. -/
  | moduleRejected (path : Path) (target : RuntimeDescriptor) (host : HostRuntime)
  | extensionFound (extension : TypeName) (module : String)
  | discoveryComplete (points extensions modules : Nat)

namespace Event

/-- The level of an event. -/
def level : Event → Level
  | .directoryRepeated _ | .markupIgnored _ | .entrySkipped _ _ => .warn
  | _ => .info

/-- The wording of an event. -/
def message : Event → String
  | .directoryEntered _ => "scanning directory for extensions"
  | .directoryRepeated _ => "skipping directory because it was already visited"
  | .manifestEntered _ => "processing manifest"
  | .markupIgnored _ => "file looks like markup, not a plugin manifest; ignoring it"
  | .entrySkipped _ _ => "skipping wildcard-discovered entry"
  | .moduleRejected _ _ _ => "skipping module built for an unavailable runtime"
  | .extensionFound _ _ => "found extension"
  | .discoveryComplete _ _ _ => "extension discovery complete"

/-- The details of an event. -/
def fields : Event → List (String × String)
  | .directoryEntered dir => [("dir", dir.text)]
  | .directoryRepeated dir => [("dir", dir.text)]
  | .manifestEntered manifest => [("manifest", manifest.text)]
  | .markupIgnored manifest => [("path", manifest.text)]
  | .entrySkipped subject error => [("subject", subject.text), ("error", error.message)]
  | .moduleRejected path target host =>
    [("path", path.text), ("target", target.text), ("host", host.family.name)]
  | .extensionFound extension module => [("extension", extension.text), ("module", module)]
  | .discoveryComplete points extensions modules =>
    [("points", toString points), ("extensions", toString extensions),
      ("modules", toString modules)]

/-- An event on a line. -/
def line (e : Event) : String :=
  (match e.level with | .info => " INFO " | .warn => " WARN ") ++ e.message
    ++ String.join (e.fields.map fun (name, value) => " " ++ name ++ "=" ++ value)

end Event
end PluginHost
