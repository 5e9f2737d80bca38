import PluginHost.Proofs.Registry.Capabilities
import PluginHost.Proofs.TypeGraph.BreadthFirst

/-! # The nearest point for a type

The point for a type is found by two searches, one inside the other: through the ancestry of
the type, and for each type of it through the points.  What they find is the least point by
two orders in a row, the place of its type in the ancestry and then its position among the
points (`Registry.IsNearest`), and they find one as soon as the type leads to the type of any
point (`deduce_eq_some_iff`, `deduce_eq_none_iff`).  An extension that names no point comes to
stand there; one that names a point comes to stand in this one or nowhere, whatever the types
are (`stands_where_it_belongs`). -/
namespace PluginHost
namespace Registry

open Relation (ReflTransGen)

variable {r : Registry} {type capability : TypeName} {index : Nat} {point : ExtensionPoint}
  {node : Extension} {path : String}

/-- The point at a position is the nearest for a type: of the points for types that the type
leads to, it is for the one that comes first in the ancestry, which is not further away than
any other, and of the points for that one it was registered first. -/
structure IsNearest (r : Registry) (capability : TypeName) (index : Nat)
    (point : ExtensionPoint) : Prop where
  stands : r.points[index]? = some point
  reached : ReflTransGen r.types.Names capability point.capability
  distance_le : ∀ other ∈ r.points, ReflTransGen r.types.Names capability other.capability →
    r.types.distance capability point.capability ≤ r.types.distance capability other.capability
  idxOf_le : ∀ other ∈ r.points, ReflTransGen r.types.Names capability other.capability →
    (r.types.ancestry capability).idxOf point.capability ≤
      (r.types.ancestry capability).idxOf other.capability
  index_le : ∀ i other, r.points[i]? = some other → other.capability = point.capability →
    index ≤ i

/-! ## The search through the ancestry -/

theorem isFor_iff : (r.points.any (·.capability == type)) = true ↔
    ∃ point ∈ r.points, point.capability = type := by
  simp only [List.any_eq_true, beq_iff_eq]

/-- There is a nearest type when the type leads to the type of a point. -/
theorem nearest?_isSome_iff : (r.nearest? capability).isSome = true ↔
    ∃ point ∈ r.points, ReflTransGen r.types.Names capability point.capability := by
  rw [nearest?, List.find?_isSome]
  simp only [isFor_iff, TypeGraph.mem_ancestry_iff]
  constructor
  · rintro ⟨type, hreached, point, hpoint, rfl⟩
    exact ⟨point, hpoint, hreached⟩
  · rintro ⟨point, hpoint, hreached⟩
    exact ⟨point.capability, hreached, point, hpoint, rfl⟩

/-- The nearest type is led to, and stands in front of all others that points are for. -/
theorem idxOf_le_of_nearest? (h : r.nearest? capability = some type) :
    ReflTransGen r.types.Names capability type ∧ ∀ other ∈ r.points,
      (r.types.ancestry capability).idxOf type ≤
        (r.types.ancestry capability).idxOf other.capability :=
  ⟨TypeGraph.mem_ancestry_iff.mp (List.mem_of_find?_eq_some h), fun other hother =>
    Lists.idxOf_le_of_find?_eq_some h (isFor_iff.mpr ⟨other, hother, rfl⟩)⟩

/-! ## Both searches -/

/-- The first point for a type stands in front of all others for it. -/
theorem findIdx?_eq_some_iff : r.points.findIdx? (·.capability == type) = some index ↔
    ∃ point, r.points[index]? = some point ∧ point.capability = type ∧
      ∀ i other, r.points[i]? = some other → other.capability = type → index ≤ i := by
  rw [List.findIdx?_eq_some_iff_getElem]
  constructor
  · rintro ⟨hlt, hfits, hbefore⟩
    refine ⟨r.points[index], List.getElem?_eq_getElem hlt, by simpa using hfits, ?_⟩
    intro i other hother hsame
    by_contra hi
    obtain ⟨hi', rfl⟩ := List.getElem?_eq_some_iff.mp hother
    exact hbefore i (Nat.lt_of_not_le hi) (by simpa using hsame)
  · rintro ⟨point, hpoint, hfits, hfirst⟩
    obtain ⟨hlt, rfl⟩ := List.getElem?_eq_some_iff.mp hpoint
    refine ⟨hlt, by simpa using hfits, fun i hi hfits' => ?_⟩
    have hle := hfirst i _ (List.getElem?_eq_getElem (Nat.lt_trans hi hlt)) (by simpa using hfits')
    omega

/-- **What is found for a type is the nearest point.** -/
theorem deduce_eq_some_iff :
    r.deduce capability = some index ↔ ∃ point, r.IsNearest capability index point := by
  rw [deduce_eq_bind, Option.bind_eq_some_iff]
  simp only [findIdx?_eq_some_iff]
  constructor
  · rintro ⟨type, htype, point, hpoint, rfl, hfirst⟩
    obtain ⟨hreached, hidx⟩ := idxOf_le_of_nearest? htype
    refine ⟨point, hpoint, hreached, fun other hother hother' => ?_, fun other hother _ =>
      hidx other hother, hfirst⟩
    exact TypeGraph.distance_le_of_idxOf_le (TypeGraph.mem_ancestry_iff.mpr hreached)
      (TypeGraph.mem_ancestry_iff.mpr hother') (hidx other hother)
  · rintro ⟨point, h⟩
    have hpoint := List.mem_of_getElem? h.stands
    obtain ⟨type, htype⟩ := Option.isSome_iff_exists.mp
      (nearest?_isSome_iff.mpr ⟨point, hpoint, h.reached⟩)
    obtain ⟨hreached, hidx⟩ := idxOf_le_of_nearest? htype
    -- Each of the two types stands in front of the other, so they are one.
    have hfor := List.find?_some htype
    obtain ⟨other, hother, rfl⟩ := isFor_iff.mp hfor
    have hle := h.idxOf_le other hother hreached
    have hsame : other.capability = point.capability :=
      (List.idxOf_inj (TypeGraph.mem_ancestry_iff.mpr hreached)).mp
        (Nat.le_antisymm (hidx point hpoint) hle)
    exact ⟨_, htype, point, h.stands, hsame.symm, hsame ▸ h.index_le⟩

/-- Nothing is found for a type that leads to the type of no point. -/
theorem deduce_eq_none_iff : r.deduce capability = none ↔
    ∀ point ∈ r.points, ¬ ReflTransGen r.types.Names capability point.capability := by
  constructor
  · intro h point hpoint hreached
    obtain ⟨type, htype⟩ := Option.isSome_iff_exists.mp
      (nearest?_isSome_iff.mpr ⟨point, hpoint, hreached⟩)
    have hfor := List.find?_some htype
    rw [deduce_eq_bind, htype, Option.bind_some, List.findIdx?_eq_none_iff] at h
    obtain ⟨other, hother, hfits⟩ := isFor_iff.mp hfor
    simpa [hfits] using h other hother
  · intro h
    rw [deduce_eq_bind]
    cases htype : r.nearest? capability with
    | none => rfl
    | some type =>
      obtain ⟨point, hpoint, hreached⟩ :=
        nearest?_isSome_iff.mp (Option.isSome_iff_exists.mpr ⟨type, htype⟩)
      exact absurd hreached (h point hpoint)

/-! ## Installing -/

/-- An extension that names no point comes into the nearest point for its type. -/
theorem IsNearest.install (h : r.IsNearest node.capability index point)
    (hnone : node.declaredPath = none) :
    r.install node = (.ok (.installed point.path), r.withNode index point node) := by
  have hdeduced : r.deduce node.capability = some index := deduce_eq_some_iff.mpr ⟨point, h⟩
  have htarget : r.target node = .ok (some index) := by simp only [target, hnone, hdeduced]
  exact install_of_target htarget h.stands

/-- An extension that names no point and for whose type there is none is dropped if a wildcard
found it, and is an error otherwise. -/
theorem install_of_deduce_eq_none (hnone : node.declaredPath = none)
    (h : r.deduce node.capability = none) :
    r.install node =
      (if node.fromWildcard then .ok .dropped else .error (.undeducedPoint node.capability),
        r) := by
  rw [Registry.install, target, hnone]
  simp only [h]
  cases node.fromWildcard <;> rfl

/-- An extension that names its point comes into this point. -/
theorem Consistent.install_of_declared (h : r.Consistent) (hpath : node.declaredPath = some path)
    (hpoint : r.points[index]? = some point) (hnamed : point.path = path) :
    r.install node = (.ok (.installed path), r.withNode index point node) := by
  have hindex : r.position? path = some index := h.position_iff.mpr ⟨point, hpoint, hnamed⟩
  have htarget : r.target node = .ok (some index) := by simp only [target, hpath, hindex]
  rw [install_of_target htarget hpoint, hnamed]

/-- An extension that names a point which is not there is an error. -/
theorem Consistent.install_of_unknown (h : r.Consistent) (hpath : node.declaredPath = some path)
    (hmissing : ∀ point ∈ r.points, point.path ≠ path) :
    r.install node = (.error (.unknownPoint path node.capability), r) := by
  have hnone : r.position? path = none := by
    refine Option.eq_none_iff_forall_ne_some.mpr fun index hindex => ?_
    obtain ⟨point, hpoint, hnamed⟩ := h.position_iff.mp hindex
    exact hmissing point (List.mem_of_getElem? hpoint) hnamed
  simp only [Registry.install, target, hpath, hnone]

/-- **Extensions come to stand where they belong.**  After any history, let an extension name
no point.  If its type leads to the type of a point, it is put into the nearest point: no point
is for a type at a smaller distance, none for one that comes earlier in breadth first order,
and none for the same type was registered earlier.  If there is no such point, the registry
stays as it is, and the extension is dropped if a wildcard found it and is an error otherwise.
An extension that names a point is put into the point of exactly that path, whatever the types
are, and if there is none, that is an error, whoever found the extension. -/
theorem stands_where_it_belongs (operations : List Operation) (node : Extension) :
    let r := after operations {}
    (node.declaredPath = none →
      ((∃ point ∈ r.points, ReflTransGen r.types.Names node.capability point.capability) →
        ∃ index point, r.IsNearest node.capability index point ∧
          r.install node = (.ok (.installed point.path), r.withNode index point node)) ∧
      ((∀ point ∈ r.points, ¬ ReflTransGen r.types.Names node.capability point.capability) →
        r.install node = (if node.fromWildcard then .ok .dropped
          else .error (.undeducedPoint node.capability), r))) ∧
    ∀ path, node.declaredPath = some path → ∀ change,
      let s := r.declareTypes change
      (∀ index point, s.points[index]? = some point → point.path = path →
        s.install node = (.ok (.installed path), s.withNode index point node)) ∧
      ((∀ point ∈ s.points, point.path ≠ path) →
        s.install node = (.error (.unknownPoint path node.capability), s)) := by
  intro r
  have hconsistent : r.Consistent := consistent_after operations consistent_empty
  refine ⟨fun hnone => ⟨fun hreached => ?_, fun hnot => ?_⟩, fun path hpath change => ?_⟩
  · cases hdeduced : r.deduce node.capability with
    | none =>
      obtain ⟨point, hpoint, hleads⟩ := hreached
      exact absurd hleads (deduce_eq_none_iff.mp hdeduced point hpoint)
    | some index =>
      obtain ⟨point, hnearest⟩ := deduce_eq_some_iff.mp hdeduced
      exact ⟨index, point, hnearest, hnearest.install hnone⟩
  · exact install_of_deduce_eq_none hnone (deduce_eq_none_iff.mpr hnot)
  · have hstill := hconsistent.declareTypes change
    exact ⟨fun index point hpoint hnamed => hstill.install_of_declared hpath hpoint hnamed,
      hstill.install_of_unknown hpath⟩

/-- The point for the type that is furthest away was registered first, and the type that is
nearer has two points. -/
def furthestFirst : List Operation :=
  [.register "/objects" ⟨"Object"⟩ none, .register "/bases" ⟨"Base"⟩ none,
    .register "/more" ⟨"Base"⟩ none,
    .declareTypes fun g => g.declare ⟨"Xml"⟩ { implements := [⟨"Text"⟩], base := some ⟨"Base"⟩ }
      |>.declare ⟨"Text"⟩ { base := some ⟨"Object"⟩ }]

/-- The nearest point is neither the first one nor the last one for its type; a type that leads
nowhere is dropped; and a point that is named is not searched for. -/
theorem stands_where_it_belongs_of_furthestFirst :
    let r := after furthestFirst {}
    let xml : Extension :=
      { modulePath := ⟨"/m.wasm"⟩, moduleVersion := .release 1 0 0, capability := ⟨"Xml"⟩ }
    let lone : Extension := { xml with capability := ⟨"Lone"⟩, fromWildcard := true }
    (∃ point, r.IsNearest ⟨"Xml"⟩ 1 point ∧ (r.install xml).1 = .ok (.installed point.path)) ∧
    r.install lone = (.ok .dropped, r) ∧
    (r.install { lone with declaredPath := some "/more" }).1 = .ok (.installed "/more") ∧
    r.install { lone with declaredPath := some "/Bases" } =
      (.error (.unknownPoint "/Bases" ⟨"Lone"⟩), r) := by
  intro r xml lone
  have hreached : ∃ point ∈ r.points, ReflTransGen r.types.Names ⟨"Xml"⟩ point.capability :=
    nearest?_isSome_iff.mp (by decide +kernel)
  have hnot : ∀ point ∈ r.points, ¬ ReflTransGen r.types.Names ⟨"Lone"⟩ point.capability :=
    deduce_eq_none_iff.mp (by decide +kernel)
  obtain ⟨index, point, hnearest, hxml⟩ :=
    ((stands_where_it_belongs furthestFirst xml).1 rfl).1 hreached
  have hdeduced : r.deduce ⟨"Xml"⟩ = some 1 := by decide +kernel
  obtain rfl : 1 = index :=
    Option.some.inj (hdeduced.symm.trans (deduce_eq_some_iff.mpr ⟨point, hnearest⟩))
  have hlone := ((stands_where_it_belongs furthestFirst lone).1 rfl).2 hnot
  have hmore := ((stands_where_it_belongs furthestFirst
    { lone with declaredPath := some "/more" }).2 "/more" rfl id).1 2
    { path := "/more", capability := ⟨"Base"⟩ } (by decide +kernel) rfl
  have hunknown := ((stands_where_it_belongs furthestFirst
    { lone with declaredPath := some "/Bases" }).2 "/Bases" rfl id).2 (by decide +kernel)
  exact ⟨⟨point, hnearest, congrArg Prod.fst hxml⟩, hlone, congrArg Prod.fst hmore, hunknown⟩

end Registry
end PluginHost
