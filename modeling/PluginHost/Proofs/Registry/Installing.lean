import PluginHost.Install
import PluginHost.Proofs.Registry.Histories

/-! # Points first, then extensions

When points are added to a registry and then extensions are installed, the points
stay as they were added (`Registry.layout`), so one can say beforehand where an
extension comes to stand: at the path it names, or at the point that is found for its
type (`Registry.home?`).  An extension for which there is no point leaves no trace.
So a registry lists, of the extensions it was given, those that have a home, in the
order in which they were given (`Filled.of_installAll`). -/
namespace PluginHost

/-- The point without what was installed in it. -/
def ExtensionPoint.vacant (point : ExtensionPoint) : ExtensionPoint := { point with nodes := [] }

namespace Registry

/-- The points without what was installed in them. -/
def layout (r : Registry) : List ExtensionPoint := r.points.map (·.vacant)

/-- The path of the point that is found for a type: the first point for the first type
of its ancestry that any point is for. -/
def deduced? (r : Registry) (capability : TypeName) : Option String :=
  (r.types.ancestry capability).findSome? fun type => (r.pointFor? type).map (·.path)

/-- The path of the point that an extension belongs in. -/
def home? (r : Registry) (node : Extension) : Option String :=
  node.declaredPath.or (r.deduced? node.capability)

/-- The extension as it stands in its point, if there is a point for it. -/
def settled? (r : Registry) (node : Extension) : Option Extension :=
  (r.home? node).map fun path => node.placedIn path

variable {r s t : Registry}

/-! ## Where an extension belongs -/

/-- Two registries have points of the same paths, and find the points of the same paths for
types. -/
structure SamePlaces (r s : Registry) : Prop where
  path_mem_iff : ∀ path, path ∈ r.points.map (·.path) ↔ path ∈ s.points.map (·.path)
  deduced?_eq : r.deduced? = s.deduced?

/-- Where extensions belong depends on the places only. -/
theorem SamePlaces.home?_eq (h : r.SamePlaces s) : r.home? = s.home? := by
  funext node
  rw [home?, home?, h.deduced?_eq]

theorem SamePlaces.settled?_eq (h : r.SamePlaces s) : r.settled? = s.settled? := by
  funext node
  rw [settled?, settled?, h.home?_eq]

theorem map_path_pointFor? (r : Registry) (type : TypeName) : (r.pointFor? type).map (·.path) =
    (r.layout.find? (·.capability == type)).map (·.path) := by
  rw [layout, List.find?_map, Option.map_map]
  rfl

theorem map_path_layout (r : Registry) : r.layout.map (·.path) = r.points.map (·.path) := by
  rw [layout, List.map_map]
  rfl

/-- The places depend on the points and the types only. -/
theorem samePlaces_of_layout_eq (hlayout : r.layout = s.layout) (htypes : r.types = s.types) :
    r.SamePlaces s where
  path_mem_iff path := by rw [← map_path_layout, ← map_path_layout, hlayout]
  deduced?_eq := by
    funext capability
    simp only [deduced?, map_path_pointFor?, hlayout, htypes]

/-- Where extensions belong depends on the points and the types only. -/
theorem settled?_congr (hlayout : r.layout = s.layout) (htypes : r.types = s.types) :
    r.settled? = s.settled? :=
  (samePlaces_of_layout_eq hlayout htypes).settled?_eq

theorem pointFor?_eq (r : Registry) (type : TypeName) :
    r.pointFor? type = (r.points.findIdx? (·.capability == type)).bind (r.points[·]?) := by
  rw [pointFor?]
  cases hfound : r.points.findIdx? (·.capability == type) with
  | none =>
    rw [List.findIdx?_eq_none_iff] at hfound
    exact List.find?_eq_none.mpr fun point hpoint => by simp [hfound point hpoint]
  | some index =>
    obtain ⟨hlt, hfits, hbefore⟩ := List.findIdx?_eq_some_iff_getElem.mp hfound
    rw [Option.bind_some, List.getElem?_eq_getElem hlt]
    exact List.find?_eq_some_iff_getElem.mpr
      ⟨hfits, index, hlt, rfl, fun j hj => by simpa using hbefore j hj⟩

/-- The point that is found for a type stands at the position that is found for it. -/
theorem deduced?_eq (r : Registry) (capability : TypeName) :
    r.deduced? capability =
      ((r.deduce capability).bind (r.points[·]?)).map (·.path) := by
  rw [deduced?, deduce]
  induction r.types.ancestry capability with
  | nil => rfl
  | cons type types ih =>
    rw [List.findSome?_cons, List.findSome?_cons, pointFor?_eq]
    cases hfound : r.points.findIdx? (·.capability == type) with
    | none => simpa [pointFor?_eq] using ih
    | some index =>
      obtain ⟨hlt, -⟩ := List.findIdx?_eq_some_iff_getElem.mp hfound
      simp [hlt]

theorem Consistent.home?_of_target (h : r.Consistent) {node : Extension} {index : Nat}
    {point : ExtensionPoint} (htarget : r.target node = .ok (some index))
    (hpoint : r.points[index]? = some point) : r.home? node = some point.path := by
  obtain ⟨path, hpath, hindex⟩ | ⟨hnone, hdeduced⟩ := target_eq_some htarget
  · obtain ⟨other, hother, heq⟩ := h.position_iff.mp hindex
    obtain rfl : other = point := Option.some.inj (hother.symm.trans hpoint)
    rw [home?, hpath, Option.some_or, heq]
  · rw [home?, hnone, Option.none_or, deduced?_eq, hdeduced, Option.bind_some, hpoint]
    rfl

theorem home?_of_target_none {node : Extension} (htarget : r.target node = .ok none) :
    r.home? node = none := by
  obtain ⟨hnone, hdeduced, -⟩ := target_eq_none htarget
  rw [home?, hnone, Option.none_or, deduced?_eq, hdeduced]
  rfl

/-- No extension belongs behind the last point. -/
theorem Consistent.exists_point (h : r.Consistent) {node : Extension} {index : Nat}
    (htarget : r.target node = .ok (some index)) : ∃ point, r.points[index]? = some point := by
  obtain ⟨path, -, hindex⟩ | ⟨-, hdeduced⟩ := target_eq_some htarget
  · obtain ⟨point, hpoint, -⟩ := h.position_iff.mp hindex
    exact ⟨point, hpoint⟩
  · exact points_of_deduce hdeduced

/-! ## Installing -/

/-- What extensions make of a registry, when each is installed that has a home. -/
structure Filled (r : Registry) (nodes : List Extension) (s : Registry) : Prop where
  consistent : s.Consistent
  layout_eq : s.layout = r.layout
  types_eq : s.types = r.types
  extensions_eq : s.extensions = r.extensions ++ nodes.filterMap r.settled?

theorem Filled.refl (h : r.Consistent) : r.Filled [] r :=
  ⟨h, rfl, rfl, (List.append_nil _).symm⟩

theorem layout_withNode {index : Nat} {point : ExtensionPoint} {node : Extension}
    (hpoint : r.points[index]? = some point) : (r.withNode index point node).layout = r.layout := by
  obtain ⟨hlt, rfl⟩ := List.getElem?_eq_some_iff.mp hpoint
  have hlt' : index < (r.points.map (·.vacant)).length := by simpa using hlt
  have hvacant : (r.points[index].add node).vacant = (r.points.map (·.vacant))[index] := by
    rw [List.getElem_map]
    rfl
  rw [layout, withNode, List.map_set, hvacant, List.set_getElem_self]
  rfl

theorem changed_eq_ok {α : Type} {outcome : Except HostError α × Registry}
    (h : changed outcome = .ok s) : ∃ a, outcome = (.ok a, s) := by
  obtain ⟨_ | a, t⟩ := outcome
  · cases h
  · exact ⟨a, by rw [Except.ok.inj h]⟩

/-- One more extension comes to stand in its home, if it has one. -/
theorem Filled.install {nodes : List Extension} {node : Extension} (h : r.Filled nodes s)
    (hs : changed (s.install node) = .ok t) : r.Filled (nodes ++ [node]) t := by
  have hsettled : s.settled? = r.settled? := settled?_congr h.layout_eq h.types_eq
  obtain ⟨outcome, hinstall⟩ := changed_eq_ok hs
  have hlist : t.extensions = s.extensions ++ [node].filterMap s.settled? →
      t.extensions = r.extensions ++ (nodes ++ [node]).filterMap r.settled? := fun heq => by
    rw [heq, h.extensions_eq, hsettled, List.filterMap_append, List.append_assoc]
  obtain ⟨_, -, hr⟩ | ⟨hr, hnone⟩ | ⟨index, point, htarget, hpoint, hr⟩ := install_cases node s
  · rw [hr] at hinstall
    cases (Prod.mk.inj hinstall).1
  · rw [hr] at hinstall
    obtain rfl := (Prod.mk.inj hinstall).2
    obtain htarget | ⟨index, htarget, hpoint⟩ := hnone
    · have hhome : s.settled? node = none := by rw [settled?, home?_of_target_none htarget]; rfl
      exact ⟨h.consistent, h.layout_eq, h.types_eq, hlist (by simp [hhome])⟩
    · obtain ⟨point, hsome⟩ := h.consistent.exists_point htarget
      rw [hpoint] at hsome
      cases hsome
  · rw [hr] at hinstall
    obtain rfl := (Prod.mk.inj hinstall).2
    have hhome : s.settled? node = some (node.placedIn point.path) := by
      rw [settled?, h.consistent.home?_of_target htarget hpoint]
      rfl
    exact ⟨h.consistent.withNode hpoint (h.consistent.declared_of_target htarget hpoint),
      (layout_withNode hpoint).trans h.layout_eq, h.types_eq,
      hlist (by rw [h.consistent.extensions_withNode hpoint]; simp [hhome])⟩

/-- **Extensions that are installed are listed in their order**, each in its home; those
without a home are missing. -/
theorem Filled.of_installAll {nodes : List Extension} (h : r.Consistent)
    (hs : Install.installAll nodes r = .ok s) : r.Filled nodes s :=
  foldlM_induction (Filled.refl h) (fun _ _ _ _ _ hfilled hstep => hfilled.install hstep) hs

/-! ## Adding points -/

/-- What points make of a registry: they come last, and nothing is installed in them. -/
structure Extended (r : Registry) (points : List ExtensionPoint) (s : Registry) : Prop where
  consistent : s.Consistent
  points_eq : s.points = r.points ++ points
  types_eq : s.types = r.types
  extensions_eq : s.extensions = r.extensions

theorem Extended.refl (h : r.Consistent) : r.Extended [] r :=
  ⟨h, (List.append_nil _).symm, rfl, rfl⟩

theorem Extended.register {points : List ExtensionPoint} {point : ExtensionPoint}
    (h : r.Extended points s) (hempty : point.nodes = [])
    (hs : changed (s.register point) = .ok t) : r.Extended (points ++ [point]) t := by
  obtain ⟨outcome, hregister⟩ := changed_eq_ok hs
  obtain ⟨_, -, hr⟩ | ⟨hfree, hr⟩ := register_cases point s
  · rw [hr] at hregister
    cases (Prod.mk.inj hregister).1
  · rw [hr] at hregister
    obtain rfl := (Prod.mk.inj hregister).2
    exact ⟨h.consistent.withPoint hfree hempty,
      by rw [withPoint, h.points_eq, List.append_assoc], h.types_eq,
      (h.consistent.extensions_withPoint point).trans h.extensions_eq⟩

theorem Extended.layout_eq {points : List ExtensionPoint} (h : r.Extended points s)
    (hempty : ∀ point ∈ points, point.nodes = []) : s.layout = r.layout ++ points := by
  have hvacant : points.map (·.vacant) = points := by
    refine (List.map_congr_left fun point hpoint => ?_).trans (List.map_id _)
    rw [ExtensionPoint.vacant, ← hempty point hpoint]
    rfl
  rw [layout, h.points_eq, List.map_append, hvacant]
  rfl

/-- **Points that are added come last**, in their order. -/
theorem Extended.of_registerAll {points : List ExtensionPoint} (h : r.Consistent)
    (hempty : ∀ point ∈ points, point.nodes = []) (hs : r.registerAll points = .ok s) :
    r.Extended points s :=
  foldlM_induction (Extended.refl h)
    (fun _ point hpoint _ _ hextended hstep => hextended.register (hempty point hpoint) hstep) hs

end Registry
end PluginHost
