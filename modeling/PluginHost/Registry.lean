import PluginHost.Error
import PluginHost.TypeGraph
import PluginHost.Version

/-! # The registry of extension points

An extension point is a named slot of the host for extensions of one capability.
An extension either names its point or gets the point that `Registry.deduce`
finds for its type: the point for the nearest type that any point is for.

The registry keeps the extensions of a point with the point, and beside that the
position of the point of each path and the order of installation over all points,
as the slots that were filled.  A change of a registry answers together with the
registry that it leaves behind, also when it fails. -/
namespace PluginHost

/-- Values under names; a name may have several, in the order in which they were
added. -/
structure Properties where
  /-- The names in ascending order, each once. -/
  rows : List (String × List String) := []
deriving DecidableEq, Repr

namespace Properties

/-- The rows with one more value. -/
def insert (name value : String) : List (String × List String) → List (String × List String)
  | [] => [(name, [value])]
  | row :: rows =>
    if name < row.1 then (name, [value]) :: row :: rows
    else if name = row.1 then (row.1, row.2 ++ [value]) :: rows
    else row :: insert name value rows

/-- Adds a value. -/
def add (p : Properties) (name value : String) : Properties := ⟨insert name value p.rows⟩

/-- The values of a name. -/
def values (p : Properties) (name : String) : List String := (p.rows.lookup name).getD []

end Properties

/-- An extension that a module provides. -/
structure Extension where
  modulePath : Path
  moduleVersion : Version
  /-- The type that provides the extension. -/
  capability : TypeName
  /-- The point that the module names. -/
  declaredPath : Option String := none
  /-- The point that the extension is installed in. -/
  path : Option String := none
  description : Option String := none
  enabled : Bool := true
  properties : Properties := {}
  runtime : Option RuntimeDescriptor := none
  /-- Whether a wildcard led to the module. -/
  fromWildcard : Bool := false
deriving DecidableEq

/-- A slot of the host for extensions of one capability. -/
structure ExtensionPoint where
  path : String
  capability : TypeName
  description : Option String := none
  /-- The extensions in it, in the order of installation. -/
  nodes : List Extension := []
deriving DecidableEq

/-- Enables or disables an extension if its type has this name. -/
def Extension.setEnabled (capability : TypeName) (enabled : Bool) (node : Extension) :
    Extension :=
  if node.capability == capability then { node with enabled } else node

/-- The point with one more extension. -/
def ExtensionPoint.add (point : ExtensionPoint) (node : Extension) : ExtensionPoint :=
  { point with nodes := point.nodes ++ [{ node with path := some point.path }] }

/-- The position of an extension: a point, and a place among its extensions. -/
structure Slot where
  point : Nat
  node : Nat
deriving DecidableEq, Repr

/-- The points of a host and what is installed in them. -/
structure Registry where
  /-- The points in the order of registration. -/
  points : List ExtensionPoint := []
  /-- The position of the point of each path. -/
  positions : List (String × Nat) := []
  /-- The slots in the order in which they were filled. -/
  filled : List Slot := []
  types : TypeGraph := {}
deriving DecidableEq

/-- What became of an extension that was to be installed. -/
inductive Installation where
  | installed (path : String)
  /-- A wildcard found an extension that no point is for. -/
  | dropped
deriving DecidableEq, Repr

namespace Registry

/-! ## Looking -/

/-- The position of the point of a path. -/
def position? (r : Registry) (path : String) : Option Nat := r.positions.lookup path

/-- The point of a path. -/
def point? (r : Registry) (path : String) : Option ExtensionPoint := do
  r.points[← r.position? path]?

/-- The first point for exactly this capability. -/
def pointFor? (r : Registry) (capability : TypeName) : Option ExtensionPoint :=
  r.points.find? (·.capability == capability)

/-- The extensions in the point of a path. -/
def nodes (r : Registry) (path : String) : List Extension :=
  match r.point? path with
  | some point => point.nodes
  | none => []

/-- The extension in a slot. -/
def node? (r : Registry) (slot : Slot) : Option Extension := do
  (← r.points[slot.point]?).nodes[slot.node]?

/-- All extensions in the order of installation. -/
def extensions (r : Registry) : List Extension := r.filled.filterMap r.node?

/-- The extensions in the first point for a capability, disabled ones only when
`all`. -/
def nodesFor (r : Registry) (capability : TypeName) (all : Bool) : List Extension :=
  match r.pointFor? capability with
  | some point => point.nodes.filter fun node => all || node.enabled
  | none => []

/-! ## Changing -/

/-- Changes the graph of types. -/
def declareTypes (change : TypeGraph → TypeGraph) (r : Registry) : Registry :=
  { r with types := change r.types }

/-- Adds a point.  Paths are unique. -/
def register (point : ExtensionPoint) (r : Registry) : Except HostError Unit × Registry :=
  if (r.position? point.path).isSome then (.error (.duplicatePoint point.path), r)
  else (.ok (), { r with
    points := r.points ++ [point]
    positions := (point.path, r.points.length) :: r.positions })

/-- The registry that a change leaves behind, if the change does not fail. -/
def changed {α : Type} : Except HostError α × Registry → Except HostError Registry
  | (.ok _, r) => .ok r
  | (.error e, _) => .error e

/-- Adds points, up to the first that cannot be added. -/
def registerAll (points : List ExtensionPoint) (r : Registry) : Except HostError Registry :=
  points.foldlM (fun r point => changed (r.register point)) r

/-- The position of the point for a type: the first point for the first type of
its ancestry that any point is for. -/
def deduce (r : Registry) (capability : TypeName) : Option Nat :=
  (r.types.ancestry capability).findSome? fun type =>
    r.points.findIdx? (·.capability == type)

/-- The position of the point that an extension belongs in.  There is none when
a wildcard found the extension and no point is for it. -/
def target (r : Registry) (node : Extension) : Except HostError (Option Nat) :=
  match node.declaredPath with
  | some path =>
    match r.position? path with
    | some index => .ok (some index)
    | none => .error (.unknownPoint path node.capability)
  | none =>
    match r.deduce node.capability with
    | some index => .ok (some index)
    | none => if node.fromWildcard then .ok none else .error (.undeducedPoint node.capability)

/-- Puts an extension into the point at a position. -/
def put (r : Registry) (node : Extension) (index : Nat) : Installation × Registry :=
  match r.points[index]? with
  -- No position that `target` answers lies behind the last point.
  | none => (.dropped, r)
  | some point =>
    (.installed point.path, { r with
      points := r.points.set index (point.add node)
      filled := r.filled ++ [⟨index, point.nodes.length⟩] })

/-- Installs an extension in the point it belongs in. -/
def install (node : Extension) (r : Registry) : Except HostError Installation × Registry :=
  match r.target node with
  | .error e => (.error e, r)
  | .ok none => (.ok .dropped, r)
  | .ok (some index) =>
    let (outcome, r) := r.put node index
    (.ok outcome, r)

/-- Enables or disables every extension of a type, and says how many there are.  That
there is none is an error. -/
def setEnabled (capability : TypeName) (enabled : Bool) (r : Registry) :
    Except HostError Nat × Registry :=
  let count := (r.points.map fun point =>
    point.nodes.countP (·.capability == capability)).foldl (· + ·) 0
  let r := { r with points := r.points.map fun point =>
    { point with nodes := point.nodes.map (.setEnabled capability enabled) } }
  (if count = 0 then .error (.extensionNotFound capability) else .ok count, r)

end Registry
end PluginHost
