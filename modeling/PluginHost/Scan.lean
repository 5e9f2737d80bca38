import PluginHost.Candidate
import PluginHost.Registry

/-! # What a module brings

`Candidate.points` and `Candidate.scan` turn the description of a module into
extension points and extensions.  An extension that asks for a newer host is
left out; one that asks for a version that is none is a fault of the module, and
then nothing of the module is used. -/
namespace PluginHost

/-- A path that somebody gave, unless it is blank. -/
def givenPath (path : Option String) : Option String :=
  (path.map Text.trimmed).filter (· != "")

/-- The point of a declaration. -/
def PointDeclaration.point (p : PointDeclaration) : ExtensionPoint where
  path := p.path
  capability := p.capability
  description := p.description

/-- The point that a type is for itself, if it is marked as one. -/
def TypeDeclaration.point? (t : TypeDeclaration) : Option ExtensionPoint :=
  t.point.map fun mark => {
    path := (givenPath mark.path).getD t.name.defaultPoint
    capability := t.name
    description := mark.description }

/-- The points of a module, those of its types last. -/
def Metadata.extensionPoints (m : Metadata) : List ExtensionPoint :=
  m.points.map (·.point) ++ m.types.filterMap (·.point?)

/-- The properties of an extension by name. -/
def ExtensionMark.propertyMap (mark : ExtensionMark) : Properties :=
  mark.properties.foldl (fun p property => p.add property.name property.value) {}

/-- Whether a host of version `host` is new enough, when an extension asks for
`required`.  What is no version is an error. -/
def isNewEnough (host : Version) (required : Option String) : Except String Bool :=
  match required with
  | none => .ok true
  | some text =>
    match Version.ofText? text with
    | none => .error text
    | some version => .ok (version.cmp host != .gt)

namespace Candidate

/-- The extension of a type that is marked as one. -/
def extensionOf (c : Candidate) (name : TypeName) (mark : ExtensionMark) : Extension where
  modulePath := c.path
  moduleVersion := c.version
  capability := name
  declaredPath := givenPath mark.path
  description := mark.description
  enabled := mark.enabled.getD true
  properties := mark.propertyMap
  runtime := c.runtime
  fromWildcard := c.fromWildcard

/-- The extension of a type for a host of version `host`, if it has one. -/
def extension? (host : Version) (c : Candidate) (t : TypeDeclaration) :
    Except HostError (Option Extension) :=
  match t.extension with
  | none => .ok none
  | some mark =>
    match isNewEnough host mark.engineVersion with
    | .error text => .error (.moduleRead c.path (.engineVersion t.name text))
    | .ok true => .ok (some (c.extensionOf t.name mark))
    | .ok false => .ok none

/-- The extensions of types up to the first fault, and that fault. -/
def extensionsOf (host : Version) (c : Candidate) :
    List TypeDeclaration → List Extension × Option HostError
  | [] => ([], none)
  | t :: types =>
    match extension? host c t with
    | .error e => ([], some e)
    | .ok none => extensionsOf host c types
    | .ok (some node) =>
      let (nodes, fault) := extensionsOf host c types
      (node :: nodes, fault)

end Candidate

/-- What a module brings into a registry. -/
structure Contribution where
  points : List ExtensionPoint
  nodes : List Extension
deriving DecidableEq

namespace Candidate

/-- The extensions that are seen while the module is scanned, whether or not a
fault follows. -/
def seen (host : Version) (c : Candidate) : List Extension :=
  (extensionsOf host c c.metadata.types).1

/-- What the module brings into a host of version `host`. -/
def scan (host : Version) (c : Candidate) : Except HostError Contribution :=
  match extensionsOf host c c.metadata.types with
  | (_, some fault) => .error fault
  | (nodes, none) => .ok ⟨c.metadata.extensionPoints, nodes⟩

end Candidate
end PluginHost
