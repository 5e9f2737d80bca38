/-! # Runtimes

A module is built for a family of runtimes, and a host runs on one.  The family
`neutral` is a build target only: a host runs on `desktop` or on `core`, which
is why a host has a type of its own. -/
namespace PluginHost

/-- Family of runtimes a module can be built for. -/
inductive RuntimeFamily where
  /-- Portable modules, usable by any host. -/
  | neutral
  /-- The classic desktop runtime. -/
  | desktop
  /-- The cross-platform core runtime. -/
  | core
deriving DecidableEq, Repr

namespace RuntimeFamily

/-- The name of a family. -/
def name : RuntimeFamily → String
  | .neutral => "neutral"
  | .desktop => "desktop"
  | .core => "core"

/-- Every family, in the order messages list them. -/
def all : List RuntimeFamily := [.neutral, .desktop, .core]

/-- The family of this name in any ASCII case. -/
def ofText? (s : String) : Option RuntimeFamily :=
  all.find? (·.name.toList == s.toList.map Char.toLower)

@[simp] theorem ofText?_name (f : RuntimeFamily) : ofText? f.name = some f := by
  cases f <;> decide

end RuntimeFamily

/-- The runtime a module declares it was built against. -/
structure RuntimeDescriptor where
  family : RuntimeFamily
  version : Option String := none
deriving DecidableEq, Repr

/-- The family, followed by the version if there is one. -/
def RuntimeDescriptor.text (r : RuntimeDescriptor) : String :=
  match r.version with
  | some version => r.family.name ++ " " ++ version
  | none => r.family.name

/-- Family of runtimes a host can run on. -/
inductive HostRuntime where
  | desktop
  | core
deriving DecidableEq, Repr

namespace HostRuntime

/-- The family as a build target. -/
def family : HostRuntime → RuntimeFamily
  | .desktop => .desktop
  | .core => .core

/-- A host runs on every family but `neutral`. -/
def ofFamily? : RuntimeFamily → Option HostRuntime
  | .neutral => none
  | .desktop => some .desktop
  | .core => some .core

theorem ofFamily?_eq_some_iff {f : RuntimeFamily} {h : HostRuntime} :
    ofFamily? f = some h ↔ f = h.family := by
  cases f <;> cases h <;> simp [ofFamily?, family]

end HostRuntime

/-- Whether a host of family `host` can use a module built for `target`: a
module that names no runtime is portable. -/
def RuntimeFamily.accepts (host : RuntimeFamily) : Option RuntimeDescriptor → Bool
  | none => true
  | some target => target.family == .neutral || target.family == host

end PluginHost
