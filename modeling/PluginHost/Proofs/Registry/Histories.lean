import PluginHost.Proofs.Registry.Consistency

/-! # Histories of a registry

A registry starts out empty and changes by the operations of its interface, of which
some fail.  An operation makes one of few changes (`perform_change`), and each of them
keeps a registry consistent, leaves every extension in its slot, and lets the listing of
all extensions grow at its end only (`Change.consistent`, `Change.extensions`).  So this
holds along every history (`consistent_after`, `extensions_after`). -/
namespace PluginHost
namespace Registry

/-- What one can ask of a registry. -/
inductive Operation where
  | register (path : String) (capability : TypeName) (description : Option String)
  | install (node : Extension)
  | setEnabled (capability : TypeName) (enabled : Bool)
  | declareTypes (change : TypeGraph → TypeGraph)

/-- What a registry answers to an operation that does not fail. -/
inductive Answer where
  | done
  | installation (installation : Installation)
  | count (count : Nat)
deriving DecidableEq

/-- The answer to an operation, and the registry that it leaves behind.  A point is
registered without extensions. -/
def Operation.perform (r : Registry) : Operation → Except HostError Answer × Registry
  | .register path capability description =>
    let (outcome, r) := r.register { path, capability, description }
    (outcome.map fun _ => .done, r)
  | .install node =>
    let (outcome, r) := r.install node
    (outcome.map .installation, r)
  | .setEnabled capability enabled =>
    let (outcome, r) := r.setEnabled capability enabled
    (outcome.map .count, r)
  | .declareTypes change => (.ok .done, r.declareTypes change)

/-- The registry after operations one after the other, whatever each answers. -/
def after (operations : List Operation) (r : Registry) : Registry :=
  operations.foldl (fun r operation => (operation.perform r).2) r

theorem after_append (first second : List Operation) (r : Registry) :
    r.after (first ++ second) = (r.after first).after second := List.foldl_append

/-! ## What an operation changes -/

/-- The changes that an operation can make of a registry. -/
inductive Change (r : Registry) : Registry → Prop
  | none : Change r r
  | point {point : ExtensionPoint} (hfree : r.position? point.path = none)
      (hempty : point.nodes = []) : Change r (r.withPoint point)
  | node {index : Nat} {point : ExtensionPoint} {node : Extension}
      (hpoint : r.points[index]? = some point)
      (hdeclared : node.declaredPath = Option.none ∨ node.declaredPath = some point.path) :
      Change r (r.withNode index point node)
  | enabled (capability : TypeName) (enabled : Bool) :
      Change r (r.withEnabled capability enabled)
  | types (change : TypeGraph → TypeGraph) : Change r (r.declareTypes change)

variable {r s : Registry}

/-- In a consistent registry an extension that names its point comes into that point. -/
theorem Consistent.declared_of_target (h : r.Consistent) {node : Extension} {index : Nat}
    {point : ExtensionPoint} (htarget : r.target node = .ok (some index))
    (hpoint : r.points[index]? = some point) :
    node.declaredPath = none ∨ node.declaredPath = some point.path := by
  obtain ⟨path, hpath, hindex⟩ | ⟨hnone, -⟩ := target_eq_some htarget
  · obtain ⟨other, hother, heq⟩ := h.position_iff.mp hindex
    obtain rfl : other = point := Option.some.inj (hother.symm.trans hpoint)
    exact .inr (heq ▸ hpath)
  · exact .inl hnone

theorem Consistent.perform_change (h : r.Consistent) (operation : Operation) :
    Change r (operation.perform r).2 := by
  cases operation with
  | register path capability description =>
    obtain ⟨_, -, hr⟩ | ⟨hfree, hr⟩ := register_cases { path, capability, description } r
    · simp only [Operation.perform, hr]
      exact .none
    · simp only [Operation.perform, hr]
      exact .point hfree rfl
  | install node =>
    obtain ⟨_, -, hr⟩ | ⟨hr, -⟩ | ⟨index, point, htarget, hpoint, hr⟩ := install_cases node r
    · simp only [Operation.perform, hr]
      exact .none
    · simp only [Operation.perform, hr]
      exact .none
    · simp only [Operation.perform, hr]
      exact .node hpoint (h.declared_of_target htarget hpoint)
  | setEnabled capability enabled => exact .enabled capability enabled
  | declareTypes change => exact .types change

/-- An operation that fails changes nothing. -/
theorem perform_of_error {operation : Operation} {e : HostError}
    (h : (operation.perform r).1 = .error e) : (operation.perform r).2 = r := by
  cases operation with
  | register path capability description =>
    obtain ⟨_, -, hr⟩ | ⟨-, hr⟩ := register_cases { path, capability, description } r
    · simp only [Operation.perform, hr]
    · simp only [Operation.perform, hr] at h
      cases h
  | install node =>
    obtain ⟨_, -, hr⟩ | ⟨hr, -⟩ | ⟨_, _, -, -, hr⟩ := install_cases node r
    · simp only [Operation.perform, hr]
    · simp only [Operation.perform, hr]
    · simp only [Operation.perform, hr] at h
      cases h
  | setEnabled capability enabled =>
    cases hr : (r.setEnabled capability enabled).1 with
    | error _ => exact setEnabled_eq_error hr
    | ok count =>
      simp only [Operation.perform, hr] at h
      cases h
  | declareTypes change => cases h

/-- Installing an extension that is dropped changes nothing. -/
theorem perform_of_dropped {node : Extension}
    (h : ((Operation.install node).perform r).1 = .ok (.installation .dropped)) :
    ((Operation.install node).perform r).2 = r := by
  obtain ⟨_, -, hr⟩ | ⟨hr, -⟩ | ⟨_, _, -, -, hr⟩ := install_cases node r
  · simp only [Operation.perform, hr]
  · simp only [Operation.perform, hr]
  · simp only [Operation.perform, hr] at h
    cases h

/-! ## Every change keeps a registry consistent -/

theorem consistent_empty : Consistent {} where
  position_iff := by simp [position?]
  filledIn_eq := by simp
  point_lt := by simp
  belongs := by simp

/-- What the point in a place is after one more point came. -/
theorem getElem?_points_withPoint {point other : ExtensionPoint} {index : Nat} :
    (r.withPoint point).points[index]? = some other ↔
      r.points[index]? = some other ∨ index = r.points.length ∧ other = point := by
  rw [withPoint, List.getElem?_append]
  split
  · rename_i hlt
    exact ⟨.inl, fun h => h.resolve_right fun hlast => Nat.ne_of_lt hlt hlast.1⟩
  · rename_i hge
    rw [List.getElem?_eq_none (Nat.le_of_not_lt hge), List.getElem?_singleton]
    split
    · rename_i hzero
      have hlast : index = r.points.length := by omega
      simp [hlast, eq_comm]
    · rename_i hzero
      have hlast : index ≠ r.points.length := by omega
      simp [hlast]

theorem Consistent.withPoint (h : r.Consistent) {point : ExtensionPoint}
    (hfree : r.position? point.path = none) (hempty : point.nodes = []) :
    (r.withPoint point).Consistent where
  position_iff := by
    intro path index
    simp only [getElem?_points_withPoint, or_and_right, exists_or, ← h.position_iff]
    rw [position?, Registry.withPoint, List.lookup_cons]
    by_cases hpath : path = point.path
    · subst hpath
      simp [hfree, eq_comm]
    · have hne : (path == point.path) = false := by simpa using hpath
      simp [hne, Ne.symm hpath, position?]
  filledIn_eq := by
    intro index other hother
    obtain hold | ⟨rfl, rfl⟩ := getElem?_points_withPoint.mp hother
    · exact h.filledIn_eq hold
    · have hnone : r.filled.filter (·.point == r.points.length) = [] :=
        List.filter_eq_nil_iff.mpr fun slot hslot => by
          simpa using Nat.ne_of_lt (h.point_lt slot hslot)
      rw [hempty, filledIn, Registry.withPoint, hnone]
      rfl
  point_lt slot hslot := by
    rw [Registry.withPoint, List.length_append]
    exact Nat.lt_add_right _ (h.point_lt slot hslot)
  belongs other hother node hnode := by
    obtain hold | hnew := List.mem_append.mp hother
    · exact h.belongs other hold node hnode
    · obtain rfl := List.mem_singleton.mp hnew
      rw [hempty] at hnode
      cases hnode

/-- What the point in a place is after an extension came into a point. -/
theorem getElem?_points_withNode {point other : ExtensionPoint} {node : Extension}
    {index place : Nat} (hpoint : r.points[index]? = some point) :
    (r.withNode index point node).points[place]? = some other ↔
      place = index ∧ other = point.add node ∨ place ≠ index ∧ r.points[place]? = some other := by
  obtain ⟨hlt, -⟩ := List.getElem?_eq_some_iff.mp hpoint
  rw [withNode]
  by_cases hplace : place = index
  · subst hplace
    simp [hlt, eq_comm]
  · simp [hplace, Ne.symm hplace]

theorem Consistent.withNode (h : r.Consistent) {index : Nat} {point : ExtensionPoint}
    {node : Extension} (hpoint : r.points[index]? = some point)
    (hdeclared : node.declaredPath = none ∨ node.declaredPath = some point.path) :
    (r.withNode index point node).Consistent where
  position_iff := by
    intro path place
    simp only [getElem?_points_withNode hpoint]
    rw [show (r.withNode index point node).position? path = r.position? path from rfl,
      h.position_iff]
    by_cases hplace : place = index
    · subst hplace
      simp [hpoint, ExtensionPoint.add]
    · simp [hplace]
  filledIn_eq := by
    intro place other hother
    obtain ⟨rfl, rfl⟩ | ⟨hne, hold⟩ := (getElem?_points_withNode hpoint).mp hother
    · simp only [Registry.withNode, filledIn, List.filter_append, List.map_append]
      rw [← filledIn, h.filledIn_eq hpoint]
      simp [ExtensionPoint.add, List.range_succ]
    · simp only [Registry.withNode, filledIn, List.filter_append, List.map_append]
      rw [← filledIn, h.filledIn_eq hold]
      simp [Ne.symm hne]
  point_lt slot hslot := by
    rw [Registry.withNode, List.length_set]
    obtain hold | hnew := List.mem_append.mp hslot
    · exact h.point_lt slot hold
    · obtain rfl := List.mem_singleton.mp hnew
      exact (List.getElem?_eq_some_iff.mp hpoint).1
  belongs other hother added hadded := by
    obtain ⟨place, hplace⟩ := List.mem_iff_getElem?.mp hother
    obtain ⟨-, rfl⟩ | ⟨-, hold⟩ := (getElem?_points_withNode hpoint).mp hplace
    · obtain hold | hnew := List.mem_append.mp hadded
      · exact h.belongs point (List.mem_of_getElem? hpoint) added hold
      · obtain rfl := List.mem_singleton.mp hnew
        exact ⟨rfl, hdeclared⟩
    · exact h.belongs other (List.mem_of_getElem? hold) added hadded

theorem Consistent.withEnabled (h : r.Consistent) (capability : TypeName) (enabled : Bool) :
    (r.withEnabled capability enabled).Consistent where
  position_iff := by
    intro path index
    rw [show (r.withEnabled capability enabled).position? path = r.position? path from rfl,
      h.position_iff]
    simp [Registry.withEnabled]
  filledIn_eq := by
    intro index other hother
    simp only [Registry.withEnabled, List.getElem?_map, Option.map_eq_some_iff] at hother
    obtain ⟨point, hpoint, rfl⟩ := hother
    rw [List.length_map]
    exact h.filledIn_eq hpoint
  point_lt slot hslot := by
    rw [Registry.withEnabled, List.length_map]
    exact h.point_lt slot hslot
  belongs other hother added hadded := by
    obtain ⟨point, hpoint, rfl⟩ := List.mem_map.mp hother
    obtain ⟨node, hnode, rfl⟩ := List.mem_map.mp hadded
    exact (h.belongs point hpoint node hnode).setEnabled capability enabled

theorem Consistent.declareTypes (h : r.Consistent) (change : TypeGraph → TypeGraph) :
    (r.declareTypes change).Consistent := ⟨h.position_iff, h.filledIn_eq, h.point_lt, h.belongs⟩

theorem Change.consistent (h : r.Consistent) (hchange : Change r s) : s.Consistent := by
  cases hchange with
  | none => exact h
  | point hfree hempty => exact h.withPoint hfree hempty
  | node hpoint hdeclared => exact h.withNode hpoint hdeclared
  | enabled capability enabled => exact h.withEnabled capability enabled
  | types change => exact h.declareTypes change

theorem Consistent.perform (h : r.Consistent) (operation : Operation) :
    (operation.perform r).2.Consistent := (h.perform_change operation).consistent h

/-- **Every registry is consistent**, whatever operations led to it. -/
theorem consistent_after (operations : List Operation) (h : r.Consistent) :
    (r.after operations).Consistent := by
  induction operations generalizing r with
  | nil => exact h
  | cons operation operations ih => exact ih (h.perform operation)

/-! ## Every change leaves what was installed in its slot -/

theorem node?_withPoint {point : ExtensionPoint} {slot : Slot} {held : Extension}
    (hheld : r.node? slot = some held) : (r.withPoint point).node? slot = some held := by
  obtain ⟨other, hother, hplace⟩ := Option.bind_eq_some_iff.mp hheld
  exact Option.bind_eq_some_iff.mpr ⟨other, getElem?_points_withPoint.mpr (.inl hother), hplace⟩

/-- A new extension comes behind those that are in its point. -/
theorem node?_withNode {index : Nat} {point : ExtensionPoint} {node held : Extension}
    {slot : Slot} (hpoint : r.points[index]? = some point) (hheld : r.node? slot = some held) :
    (r.withNode index point node).node? slot = some held := by
  obtain ⟨other, hother, hplace⟩ := Option.bind_eq_some_iff.mp hheld
  by_cases hindex : slot.point = index
  · subst hindex
    obtain rfl : other = point := Option.some.inj (hother.symm.trans hpoint)
    refine Option.bind_eq_some_iff.mpr
      ⟨_, (getElem?_points_withNode hpoint).mpr (.inl ⟨rfl, rfl⟩), ?_⟩
    rw [ExtensionPoint.add, List.getElem?_append_left (List.getElem?_eq_some_iff.mp hplace).1]
    exact hplace
  · exact Option.bind_eq_some_iff.mpr
      ⟨other, (getElem?_points_withNode hpoint).mpr (.inr ⟨hindex, hother⟩), hplace⟩

/-- A new extension is in the slot that is filled with it. -/
theorem node?_withNode_self {index : Nat} {point : ExtensionPoint} (node : Extension)
    (hpoint : r.points[index]? = some point) :
    (r.withNode index point node).node? ⟨index, point.nodes.length⟩ =
      some (node.placedIn point.path) :=
  Option.bind_eq_some_iff.mpr ⟨_, (getElem?_points_withNode hpoint).mpr (.inl ⟨rfl, rfl⟩),
    by simp [ExtensionPoint.add, Extension.placedIn]⟩

theorem node?_withEnabled (r : Registry) (capability : TypeName) (enabled : Bool) (slot : Slot) :
    (r.withEnabled capability enabled).node? slot =
      (r.node? slot).map (.setEnabled capability enabled) := by
  rw [node?, node?, withEnabled, List.getElem?_map]
  cases r.points[slot.point]? with
  | none => rfl
  | some point => exact List.getElem?_map

/-! ## Every change lets the listing grow at its end -/

theorem Consistent.extensions_withPoint (h : r.Consistent) (point : ExtensionPoint) :
    (r.withPoint point).extensions = r.extensions := by
  refine List.filterMap_congr fun slot hslot => ?_
  obtain ⟨-, held, -, -, hheld⟩ := h.exists_of_mem_filled hslot
  rw [hheld, node?_withPoint hheld]

theorem Consistent.extensions_withNode (h : r.Consistent) {index : Nat} {point : ExtensionPoint}
    (hpoint : r.points[index]? = some point) (node : Extension) :
    (r.withNode index point node).extensions = r.extensions ++ [node.placedIn point.path] := by
  have hold : ∀ slot ∈ r.filled, (r.withNode index point node).node? slot = r.node? slot := by
    intro slot hslot
    obtain ⟨-, held, -, -, hheld⟩ := h.exists_of_mem_filled hslot
    rw [hheld, node?_withNode hpoint hheld]
  rw [extensions, show (r.withNode index point node).filled =
    r.filled ++ [⟨index, point.nodes.length⟩] from rfl, List.filterMap_append,
    List.filterMap_congr hold, List.filterMap_cons, node?_withNode_self node hpoint]
  rfl

theorem extensions_withEnabled (r : Registry) (capability : TypeName) (enabled : Bool) :
    (r.withEnabled capability enabled).extensions =
      r.extensions.map (.setEnabled capability enabled) := by
  rw [extensions, extensions, List.map_filterMap]
  exact List.filterMap_congr fun slot _ => node?_withEnabled r capability enabled slot

theorem Change.extensions (h : r.Consistent) (hchange : Change r s) :
    r.extensions.map (·.asEnabled) <+: s.extensions.map (·.asEnabled) := by
  cases hchange with
  | none => exact List.prefix_rfl
  | point hfree hempty =>
    simp [h.extensions_withPoint]
  | node hpoint hdeclared =>
    rw [h.extensions_withNode hpoint, List.map_append]
    exact List.prefix_append _ _
  | enabled capability enabled =>
    rw [extensions_withEnabled, List.map_map]
    simp [Function.comp_def]
  | types change => exact List.prefix_rfl

/-- **The listing of all extensions grows at its end only**, up to what is enabled. -/
theorem extensions_after (operations : List Operation) (h : r.Consistent) :
    r.extensions.map (·.asEnabled) <+: (r.after operations).extensions.map (·.asEnabled) := by
  induction operations generalizing r with
  | nil => exact List.prefix_rfl
  | cons operation operations ih =>
    exact ((h.perform_change operation).extensions h).trans (ih (h.perform operation))

/-! ## What one sees along every history -/

/-- **A registry stays in step with itself.**  Along every history of operations, of which
any may fail, the paths of points are distinct and lead to their points, every extension
of every point is listed once and in the order of the point, the extensions of a point
agree with it, an operation that fails or drops an extension changes nothing, and the
listing grows at its end. -/
theorem stays_in_step (operations later : List Operation) :
    let r := after operations {}
    (r.points.map (·.path)).Nodup ∧
    (∀ path point, r.point? path = some point ↔ point ∈ r.points ∧ point.path = path) ∧
    r.extensions.Perm (r.points.flatMap (·.nodes)) ∧
    (∀ point ∈ r.points, r.nodes point.path = point.nodes ∧
      r.extensions.filter (·.path == some point.path) = point.nodes ∧
      ∀ node ∈ point.nodes, node.path = some point.path ∧
        (node.declaredPath = none ∨ node.declaredPath = some point.path)) ∧
    (∀ operation : Operation, ∀ e, (operation.perform r).1 = .error e →
      (operation.perform r).2 = r) ∧
    (∀ node, ((Operation.install node).perform r).1 = .ok (.installation .dropped) →
      ((Operation.install node).perform r).2 = r) ∧
    r.extensions.map (·.asEnabled) <+:
      (after (operations ++ later) {}).extensions.map (·.asEnabled) := by
  intro r
  have h : r.Consistent := consistent_after operations consistent_empty
  refine ⟨h.nodup_paths, fun _ _ => h.point?_iff, h.perm_extensions, fun point hpoint => ?_,
    fun _ _ => perform_of_error, fun _ => perform_of_dropped, ?_⟩
  · obtain ⟨index, hindex⟩ := List.mem_iff_getElem?.mp hpoint
    refine ⟨?_, h.filter_extensions hindex, fun node hnode => ?_⟩
    · rw [nodes, h.point?_iff.mpr ⟨hpoint, rfl⟩]
    · obtain ⟨hpath, hdeclared⟩ := h.belongs point hpoint node hnode
      exact ⟨hpath, hdeclared⟩
  · rw [after_append]
    exact extensions_after later h

-- A path is taken and a point is missing, so two of the five operations fail; the extension
-- that stands in the point keeps its place.
example :
    let writer : Extension :=
      { modulePath := ⟨"/m.wasm"⟩, moduleVersion := .release 1 0 0, capability := ⟨"Writer"⟩ }
    let r := after [.register "/out" ⟨"Writer"⟩ none, .register "/out" ⟨"Reader"⟩ none,
      .install writer, .install { writer with declaredPath := some "/in" },
      .setEnabled ⟨"Writer"⟩ false] {}
    r.extensions = [{ writer with path := some "/out", enabled := false }] ∧
      (r.points.map (·.capability)) = [⟨"Writer"⟩] := by
  decide +kernel

end Registry
end PluginHost
