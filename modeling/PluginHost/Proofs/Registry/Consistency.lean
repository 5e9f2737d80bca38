import Mathlib.Data.List.Basic
import PluginHost.Proofs.Lists
import PluginHost.Proofs.Registry.Changes

/-! # A registry stays in step

A registry holds its extensions with their points, the positions of the points by
their paths, and the filled slots in the order of installation.  `Consistent` says
that the three agree: the position under a path is where the point of that path
stands, and the slots of a point were filled one after the other.  From it follows what
one sees from outside: the paths of points are distinct (`Consistent.nodup_paths`), a
path leads to its point (`Consistent.point?_iff`), and the listing of all extensions
restricted to a point lists the extensions of the point
(`Consistent.filter_extensions`, `Consistent.nodes_eq_filter`). -/
namespace PluginHost

/-- What an extension in the point of a path says about its point. -/
structure Extension.Belongs (path : String) (node : Extension) : Prop where
  path_eq : node.path = some path
  declared : node.declaredPath = none ∨ node.declaredPath = some path

theorem Extension.Belongs.setEnabled {path : String} {node : Extension} (h : node.Belongs path)
    (capability : TypeName) (enabled : Bool) : (node.setEnabled capability enabled).Belongs path :=
  ⟨by rw [path_setEnabled, h.path_eq], by rw [declaredPath_setEnabled]; exact h.declared⟩

namespace Registry

variable {r : Registry} {point : ExtensionPoint} {node : Extension} {index : Nat}

/-- The places that are filled in the point at a position, in the order of filling. -/
def filledIn (r : Registry) (index : Nat) : List Nat :=
  (r.filled.filter (·.point == index)).map (·.node)

/-- The points, the positions of their paths and the filled slots agree. -/
structure Consistent (r : Registry) : Prop where
  /-- The position under a path is where the point of that path stands. -/
  position_iff : ∀ {path index},
    r.position? path = some index ↔ ∃ point, r.points[index]? = some point ∧ point.path = path
  /-- The slots of a point were filled one after the other. -/
  filledIn_eq : ∀ {index point}, r.points[index]? = some point →
    r.filledIn index = List.range point.nodes.length
  point_lt : ∀ slot ∈ r.filled, slot.point < r.points.length
  belongs : ∀ point ∈ r.points, ∀ node ∈ point.nodes, node.Belongs point.path

namespace Consistent

/-! ## What one sees from outside -/

/-- A path leads to the point of that path. -/
theorem point?_iff (h : r.Consistent) {path : String} :
    r.point? path = some point ↔ point ∈ r.points ∧ point.path = path := by
  constructor
  · intro hpoint
    obtain ⟨index, hindex, hget⟩ := Option.bind_eq_some_iff.mp hpoint
    obtain ⟨other, hother, hpath⟩ := h.position_iff.mp hindex
    obtain rfl : other = point := Option.some.inj (hother.symm.trans hget)
    exact ⟨List.mem_of_getElem? hget, hpath⟩
  · rintro ⟨hmem, hpath⟩
    obtain ⟨index, hget⟩ := List.mem_iff_getElem?.mp hmem
    exact Option.bind_eq_some_iff.mpr ⟨index, h.position_iff.mpr ⟨point, hget, hpath⟩, hget⟩

/-- Two positions do not hold points of one path. -/
theorem index_unique (h : r.Consistent) {i j : Nat} {p q : ExtensionPoint}
    (hi : r.points[i]? = some p) (hj : r.points[j]? = some q) (hpath : p.path = q.path) :
    i = j := by
  have hfound := h.position_iff.mpr ⟨p, hi, hpath⟩
  rw [h.position_iff.mpr ⟨q, hj, rfl⟩] at hfound
  exact (Option.some.inj hfound).symm

theorem nodup_paths (h : r.Consistent) : (r.points.map (·.path)).Nodup := by
  rw [List.Nodup, List.pairwise_map, List.pairwise_iff_getElem]
  intro i j hi hj hlt hpath
  exact Nat.ne_of_lt hlt
    (h.index_unique (List.getElem?_eq_getElem hi) (List.getElem?_eq_getElem hj) hpath)

/-- Every slot that was filled holds an extension. -/
theorem exists_of_mem_filled (h : r.Consistent) {slot : Slot} (hslot : slot ∈ r.filled) :
    ∃ point node, r.points[slot.point]? = some point ∧ point.nodes[slot.node]? = some node ∧
      r.node? slot = some node := by
  have hlt := h.point_lt slot hslot
  have hpoint := List.getElem?_eq_getElem hlt
  have hplace : slot.node ∈ r.filledIn slot.point :=
    List.mem_map_of_mem (List.mem_filter.mpr ⟨hslot, beq_self_eq_true _⟩)
  rw [h.filledIn_eq hpoint, List.mem_range] at hplace
  have hnode := List.getElem?_eq_getElem hplace
  exact ⟨_, _, hpoint, hnode, Option.bind_eq_some_iff.mpr ⟨_, hpoint, hnode⟩⟩

/-- **Restricted to a point the listing of all extensions lists the extensions of the
point**, in their order. -/
theorem filter_extensions (h : r.Consistent) (hpoint : r.points[index]? = some point) :
    r.extensions.filter (·.path == some point.path) = point.nodes := by
  have hslot : ∀ slot ∈ r.filled, (r.node? slot).filter (·.path == some point.path) =
      if slot.point == index then point.nodes[slot.node]? else none := by
    intro slot hslot
    obtain ⟨other, node, hother, hnode, hfound⟩ := h.exists_of_mem_filled hslot
    have hpath := (h.belongs other (List.mem_of_getElem? hother) node
      (List.mem_of_getElem? hnode)).path_eq
    rw [hfound]
    by_cases hindex : slot.point = index
    · obtain rfl : other = point := Option.some.inj ((hindex ▸ hother).symm.trans hpoint)
      simp [hindex, hpath, hnode]
    · have hne : other.path ≠ point.path := fun heq => hindex (h.index_unique hother hpoint heq)
      simp [hindex, hpath, hne]
  have hparts : r.filled.filterMap (fun slot =>
      if slot.point == index then point.nodes[slot.node]? else none) =
      (r.filledIn index).filterMap (point.nodes[·]?) := by
    rw [filledIn, List.filterMap_map, List.filterMap_filter]
    rfl
  rw [extensions, List.filter_filterMap, List.filterMap_congr hslot, hparts,
    h.filledIn_eq hpoint, Lists.filterMap_getElem?_range]

/-- Every extension that is listed stands in the point whose path it has. -/
theorem exists_point_of_mem_extensions (h : r.Consistent) (hnode : node ∈ r.extensions) :
    ∃ point ∈ r.points, node ∈ point.nodes ∧ node.path = some point.path := by
  obtain ⟨slot, hslot, hfound⟩ := List.mem_filterMap.mp hnode
  obtain ⟨point, other, hpoint, hother, hsame⟩ := h.exists_of_mem_filled hslot
  obtain rfl : other = node := Option.some.inj (hsame.symm.trans hfound)
  have hmem := List.mem_of_getElem? hpoint
  have hstands := List.mem_of_getElem? hother
  exact ⟨point, hmem, hstands, (h.belongs point hmem other hstands).path_eq⟩

/-- The extensions in the point of a path are those of the listing that have the path. -/
theorem nodes_eq_filter (h : r.Consistent) (path : String) :
    r.nodes path = r.extensions.filter (·.path == some path) := by
  unfold nodes
  cases hpoint : r.point? path with
  | some point =>
    obtain ⟨hmem, rfl⟩ := h.point?_iff.mp hpoint
    obtain ⟨index, hindex⟩ := List.mem_iff_getElem?.mp hmem
    exact (h.filter_extensions hindex).symm
  | none =>
    refine (List.filter_eq_nil_iff.mpr fun node hnode hpath => ?_).symm
    obtain ⟨point, hmem, -, hhome⟩ := h.exists_point_of_mem_extensions hnode
    have hsame : point.path = path := Option.some.inj (hhome.symm.trans (eq_of_beq hpath))
    rw [h.point?_iff.mpr ⟨hmem, hsame⟩] at hpoint
    cases hpoint

/-- The listing of all extensions holds the extensions of all points, each as often. -/
theorem perm_extensions (h : r.Consistent) :
    r.extensions.Perm (r.points.flatMap (·.nodes)) := by
  have hkeys : (r.points.map fun point => some point.path).Nodup := by
    have hnodup := h.nodup_paths
    rw [List.Nodup, List.pairwise_map] at hnodup ⊢
    exact hnodup.imp fun hne heq => hne (Option.some.inj heq)
  have hhome : ∀ node ∈ r.extensions, node.path ∈ r.points.map fun point => some point.path := by
    intro node hnode
    obtain ⟨point, hmem, -, hpath⟩ := h.exists_point_of_mem_extensions hnode
    rw [hpath]
    exact List.mem_map_of_mem hmem
  have hparts : ∀ point ∈ r.points,
      r.extensions.filter (·.path == some point.path) = point.nodes := by
    intro point hmem
    obtain ⟨index, hpoint⟩ := List.mem_iff_getElem?.mp hmem
    exact h.filter_extensions hpoint
  have hperm := Lists.perm_flatMap_filter Extension.path hkeys hhome
  rw [List.flatMap_map, List.flatMap_def, List.map_congr_left hparts, ← List.flatMap_def] at hperm
  exact hperm

end Consistent
end Registry
end PluginHost
