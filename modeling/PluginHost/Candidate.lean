import PluginHost.Error
import PluginHost.Metadata
import PluginHost.Version.Reading

/-! # Candidate modules

A candidate is a module whose description makes sense: it has a name and a
version.  Two candidates of one name are copies of the same module, and
`Candidate.beats` says which copy is better: the one of the higher version, and
between equal versions one that somebody wrote out over one that a wildcard
found. -/
namespace PluginHost

/-- The name that copies of a module have in common. -/
def Metadata.identity (m : Metadata) : String := Text.trimmed m.name

/-- A module that was found, with its description. -/
structure Candidate where
  path : Path
  metadata : Metadata
  version : Version
  /-- Whether a wildcard led to the module. -/
  fromWildcard : Bool
  named : metadata.identity ≠ ""
  version_eq : Version.ofText? metadata.version = some version

namespace Candidate

/-- The candidate at a path with this description. -/
def of (path : Path) (m : Metadata) (fromWildcard : Bool) : Except HostError Candidate :=
  if hn : m.identity = "" then .error (.moduleRead path .unnamed)
  else match hv : Version.ofText? m.version with
    | none => .error (.moduleRead path (.version m.version))
    | some version => .ok ⟨path, m, version, fromWildcard, hn, hv⟩

/-- The name that copies of the module have in common. -/
def identity (c : Candidate) : String := c.metadata.identity

/-- The runtime the module was built for. -/
def runtime (c : Candidate) : Option RuntimeDescriptor := c.metadata.runtime

/-- Whether two candidates are copies of the same module. -/
def sameModule (c d : Candidate) : Bool := c.identity == d.identity

/-- Whether a candidate takes the place of another copy of the same module. -/
def beats (c d : Candidate) : Bool :=
  match c.version.cmp d.version with
  | .gt => true
  | .lt => false
  | .eq => !c.fromWildcard && d.fromWildcard

end Candidate

/-- What became of a candidate that was offered. -/
inductive Offer where
  | added
  /-- It took the place of the copy at `previous`. -/
  | replaced (previous : Path)
  /-- The copy at `existing` is as good. -/
  | kept (existing : Path)
  /-- A wildcard found a module for a runtime that the host does not have. -/
  | rejected (target : RuntimeDescriptor)
deriving DecidableEq, Repr

/-- The best copy of each module, in the order in which the modules were first
offered. -/
structure CandidateIndex where
  host : HostRuntime
  candidates : List Candidate

namespace CandidateIndex

/-- The index of a host before any offer. -/
def empty (host : HostRuntime) : CandidateIndex := ⟨host, []⟩

/-- The index of a host that runs on a family of runtimes.  No host runs on
`neutral`. -/
def forFamily (family : RuntimeFamily) : Except HostError CandidateIndex :=
  match HostRuntime.ofFamily? family with
  | none => .error (.config .neutralHost)
  | some host => .ok (empty host)

/-- Stores a candidate that the host can use, or keeps the copy it has. -/
def store (c : Candidate) (index : CandidateIndex) : Offer × CandidateIndex :=
  match index.candidates.find? c.sameModule with
  | none => (.added, { index with candidates := index.candidates ++ [c] })
  | some old =>
    if c.beats old then
      (.replaced old.path, { index with
        candidates := index.candidates.map fun d => if c.sameModule d then c else d })
    else (.kept old.path, index)

/-- The runtime of a candidate, if the host cannot use it. -/
def refused? (c : Candidate) (index : CandidateIndex) : Option RuntimeDescriptor :=
  c.runtime.filter fun target => !index.host.family.accepts (some target)

/-- Offers a candidate.  A module that the host cannot use is an error only when
somebody wrote it out. -/
def offer (c : Candidate) (index : CandidateIndex) : Except HostError (Offer × CandidateIndex) :=
  match index.refused? c with
  | none => .ok (index.store c)
  | some target =>
    if c.fromWildcard then .ok (.rejected target, index)
    else .error (.incompatibleRuntime c.path target index.host)

end CandidateIndex
end PluginHost
