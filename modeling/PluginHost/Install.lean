import PluginHost.Event
import PluginHost.Scan

/-! # From modules to a registry

The modules that a walk has found are scanned one after the other; then all
their points are registered, and then all their extensions are installed, so a
module may extend a point that another module declares.  A module that cannot be
scanned is skipped if a wildcard led to it. -/
namespace PluginHost
namespace Install

/-- What was scanned, and what a host tells about it. -/
structure Scanned where
  log : List Event := []
  /-- The modules that could be scanned, with what they bring. -/
  modules : List (Candidate × Contribution) := []
  /-- The fault that ended the scan. -/
  fault : Option HostError := none

/-- The notices about the extensions of a module. -/
def foundEvents (host : Version) (c : Candidate) : List Event :=
  (c.seen host).map fun node => .extensionFound node.capability c.identity

/-- Scans modules, up to a fault that cannot be skipped. -/
def scanAll (host : Version) : List Candidate → Scanned
  | [] => {}
  | c :: candidates =>
    let found := foundEvents host c
    match c.scan host with
    | .ok contribution =>
      let rest := scanAll host candidates
      { rest with log := found ++ rest.log, modules := (c, contribution) :: rest.modules }
    | .error e =>
      if c.fromWildcard then
        -- What was seen before the fault has been told already.
        let rest := scanAll host candidates
        { rest with log := found ++ .entrySkipped c.path e :: rest.log }
      else { log := found, fault := some e }

/-- Declares the types of the modules. -/
def declareAll (modules : List (Candidate × Contribution)) (r : Registry) : Registry :=
  r.declareTypes fun g => modules.foldl (fun g m => g.merge m.1.metadata) g

/-- Installs extensions, up to the first that cannot be installed. -/
def installAll (nodes : List Extension) (r : Registry) : Except HostError Registry :=
  nodes.foldlM (fun r node => Registry.changed (r.install node)) r

/-- Puts what modules bring into a registry. -/
def addAll (modules : List (Candidate × Contribution)) (r : Registry) :
    Except HostError Registry := do
  let r ← (declareAll modules r).registerAll (modules.flatMap (·.2.points))
  installAll (modules.flatMap (·.2.nodes)) r

/-- Scans modules and puts what they bring into a registry. -/
def candidates (host : Version) (found : List Candidate) (r : Registry) :
    List Event × Except HostError Registry :=
  let scanned := scanAll host found
  match scanned.fault with
  | some e => (scanned.log, .error e)
  | none => (scanned.log, addAll scanned.modules r)

end Install
end PluginHost
