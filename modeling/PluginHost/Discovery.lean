import PluginHost.Catalog
import PluginHost.Install
import PluginHost.Walk

/-! # Discovery

A `Discovery` is set up with options and asked, as often as one likes, what a
directory leads to: `collect` answers with the modules, and `discover` with a
registry that holds their points and extensions.  Between two calls it keeps the
modules of the last walk and what that walk visited, also when the walk failed;
every walk starts without both. -/
namespace PluginHost

/-- What drives a discovery. -/
structure DiscoveryOptions where
  /-- The names of manifests. -/
  manifestPattern : String := "*.addins"
  /-- The names of modules in directories without a manifest. -/
  modulePattern : String := "*.wasm"
  hostRuntime : RuntimeFamily := .core
  hostVersion : Version := .release 0 1 0
deriving DecidableEq

/-- A discovery that is set up. -/
structure Discovery where
  options : DiscoveryOptions
  manifestGlob : Glob
  moduleGlob : Glob
  /-- The best copies of the modules that the last walk found. -/
  index : CandidateIndex
  /-- What the last walk visited, with and without the mark. -/
  visited : List (Spot × Bool) := []

/-- What came of a call. -/
structure Outcome (α : Type) where
  log : List Event
  /-- The paths that descriptions were asked for. -/
  reads : List Path
  /-- The discovery after the call. -/
  discovery : Discovery
  result : Except HostError α

namespace Discovery

/-- Reads the pattern of an option. -/
def filePattern (field pattern : String) : Except HostError Glob :=
  match Glob.ofText pattern with
  | .ok glob => .ok glob
  | .error e => .error (.config (.badPattern field pattern e))

/-- Sets up a discovery. -/
def ofOptions (options : DiscoveryOptions) : Except HostError Discovery := do
  let manifestGlob ← filePattern "manifest_pattern" options.manifestPattern
  let moduleGlob ← filePattern "module_pattern" options.modulePattern
  let index ← CandidateIndex.forFamily options.hostRuntime
  return { options, manifestGlob, moduleGlob, index }

/-- The modules of the last walk. -/
def candidates (d : Discovery) : List Candidate := d.index.candidates

/-- The walk of a discovery from a directory.  What an earlier walk found and visited
is discarded. -/
def walkFrom (d : Discovery) (fs : FileSystem) (source : MetadataSource) (start : Path) :
    Progress × Option HostError :=
  Surroundings.walk ⟨fs, source, d.manifestGlob, d.moduleGlob⟩ [.directory start false]
    { visited := [], index := .empty d.index.host }

/-- The modules that a directory leads to. -/
def collect (d : Discovery) (fs : FileSystem) (source : MetadataSource) (start : Path) :
    Outcome (List Candidate) :=
  if fs.isDirectory start then
    let (progress, fault) := d.walkFrom fs source start
    { log := progress.log, reads := progress.reads.map Prod.fst
      discovery := { d with index := progress.index, visited := progress.visited }
      result := match fault with
        | some e => .error e
        | none => .ok progress.index.candidates }
  else
    { log := [], reads := [], discovery := d
      result := .error (.invalidArgument (.noStartDirectory start)) }

/-- A registry of the host's own points and of what a directory leads to. -/
def discover (d : Discovery) (fs : FileSystem) (source : MetadataSource)
    (capabilities : List HostCapability) (start : Path) : Outcome Registry :=
  match Registry.registerAll (capabilities.map (·.point)) {} with
  | .error e => { log := [], reads := [], discovery := d, result := .error e }
  | .ok seeded =>
    -- The host's points come first, so that no module can take their paths.
    let walked := d.collect fs source start
    match walked.result with
    | .error e => { walked with result := .error e }
    | .ok found =>
      let (log, installed) := Install.candidates d.options.hostVersion found seeded
      match installed with
      | .error e => { walked with log := walked.log ++ log, result := .error e }
      | .ok r =>
        let complete := Event.discoveryComplete r.points.length r.extensions.length found.length
        { walked with log := walked.log ++ log ++ [complete], result := .ok r }

end Discovery
end PluginHost
