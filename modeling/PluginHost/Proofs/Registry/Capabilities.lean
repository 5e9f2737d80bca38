import PluginHost.Proofs.Registry.Installing

/-! # Looking extensions up by capability

Two searches lead from a type to a point.  Installing an extension looks through the
ancestry of its type for one that some point is for (`Registry.nearest?`), and takes the
first point for that type; looking extensions up by a capability takes the first point for
exactly that capability.  They agree (`Registry.deduce_eq_bind`), and they agree for ever
after: whatever happens to a registry, its points keep their positions and new ones stand
behind them, and an extension stays in its slot (`Registry.Grows`).  So an extension that was
placed by its type is always found under the type at which the search for its point ended
(`Registry.found_for_ever`). -/
namespace PluginHost
namespace Registry

variable {r s t : Registry} {type : TypeName} {index : Nat}

/-! ## The two searches -/

/-- The first type of an ancestry that any point is for. -/
def nearest? (r : Registry) (capability : TypeName) : Option TypeName :=
  (r.types.ancestry capability).find? fun type => r.points.any (·.capability == type)

/-- The point that is found for a type is the first one for the nearest type. -/
theorem deduce_eq_bind (r : Registry) (capability : TypeName) :
    r.deduce capability =
      (r.nearest? capability).bind fun type => r.points.findIdx? (·.capability == type) := by
  rw [deduce, nearest?]
  induction r.types.ancestry capability with
  | nil => rfl
  | cons type types ih =>
    rw [List.findSome?_cons, List.find?_cons, ← List.findIdx?_isSome]
    cases hfirst : r.points.findIdx? (·.capability == type) with
    | none => exact ih
    | some index => exact hfirst.symm

theorem findIdx?_layout (r : Registry) (type : TypeName) :
    r.layout.findIdx? (·.capability == type) = r.points.findIdx? (·.capability == type) :=
  List.findIdx?_map

/-! ## What every history leaves as it was -/

/-- What may become of a registry: more points stand behind the points that were there, and
every extension is in its slot, enabled or not. -/
structure Grows (r s : Registry) : Prop where
  layout_prefix : r.layout <+: s.layout
  held : ∀ {slot node}, r.node? slot = some node →
    ∃ node', s.node? slot = some node' ∧ node'.asEnabled = node.asEnabled

theorem Grows.refl (r : Registry) : r.Grows r :=
  ⟨List.prefix_rfl, fun hnode => ⟨_, hnode, rfl⟩⟩

theorem Grows.trans (h : r.Grows s) (h' : s.Grows t) : r.Grows t where
  layout_prefix := h.layout_prefix.trans h'.layout_prefix
  held := by
    intro slot node hnode
    obtain ⟨node', hnode', hsame⟩ := h.held hnode
    obtain ⟨node'', hnode'', hsame'⟩ := h'.held hnode'
    exact ⟨node'', hnode'', hsame'.trans hsame⟩

theorem layout_withPoint (r : Registry) (point : ExtensionPoint) :
    (r.withPoint point).layout = r.layout ++ [point.vacant] := List.map_append

theorem layout_withEnabled (r : Registry) (capability : TypeName) (enabled : Bool) :
    (r.withEnabled capability enabled).layout = r.layout := by
  rw [layout, withEnabled, List.map_map]
  rfl

/-- Every change lets a registry grow. -/
theorem Change.grows (h : Change r s) : r.Grows s := by
  cases h with
  | none => exact .refl r
  | point hfree hempty =>
    refine ⟨?_, fun hnode => ⟨_, node?_withPoint hnode, rfl⟩⟩
    rw [layout_withPoint]
    exact List.prefix_append _ _
  | node hpoint hdeclared =>
    refine ⟨?_, fun hnode => ⟨_, node?_withNode hpoint hnode, rfl⟩⟩
    exact (layout_withNode hpoint) ▸ List.prefix_rfl
  | enabled capability enabled =>
    refine ⟨?_, fun {slot node} hnode => ⟨node.setEnabled capability enabled, ?_, ?_⟩⟩
    · exact (layout_withEnabled r capability enabled) ▸ List.prefix_rfl
    · rw [node?_withEnabled, hnode]
      rfl
    · exact Extension.asEnabled_setEnabled capability enabled node
  | types change => exact ⟨List.prefix_rfl, fun hnode => ⟨_, hnode, rfl⟩⟩

/-- **Along every history a registry grows.** -/
theorem Consistent.grows_after (h : r.Consistent) (operations : List Operation) :
    r.Grows (r.after operations) := by
  induction operations generalizing r with
  | nil => exact .refl r
  | cons operation operations ih =>
    exact (h.perform_change operation).grows.trans (ih (h.perform operation))

/-- The first point for a type stays the first. -/
theorem Grows.findIdx?_eq (h : r.Grows s)
    (hfirst : r.points.findIdx? (·.capability == type) = some index) :
    s.points.findIdx? (·.capability == type) = some index := by
  rw [← findIdx?_layout] at hfirst ⊢
  exact h.layout_prefix.findIdx?_eq_some hfirst

theorem Grows.map_path_pointFor? (h : r.Grows s) {path : String}
    (hfirst : (r.pointFor? type).map (·.path) = some path) :
    (s.pointFor? type).map (·.path) = some path := by
  rw [Registry.map_path_pointFor?] at hfirst ⊢
  obtain ⟨point, hpoint, hpath⟩ := Option.map_eq_some_iff.mp hfirst
  rw [h.layout_prefix.find?_eq_some hpoint, Option.map_some, hpath]

/-! ## Looking up -/

/-- With disabled ones, the extensions for a type are those of the first point for it. -/
theorem nodesFor_true {point : ExtensionPoint} (hpoint : r.pointFor? type = some point) :
    r.nodesFor type true = point.nodes := by
  rw [nodesFor, hpoint]
  exact List.filter_true _

/-- Without disabled ones, the enabled extensions are left. -/
theorem mem_nodesFor_false_iff {node : Extension} :
    node ∈ r.nodesFor type false ↔ node ∈ r.nodesFor type true ∧ node.enabled = true := by
  unfold nodesFor
  cases r.pointFor? type with
  | none => simp
  | some point => simp

/-- What is in a slot of the first point for a type is found under the type. -/
theorem getElem?_nodesFor {slot : Slot} {node : Extension}
    (hfirst : r.points.findIdx? (·.capability == type) = some slot.point)
    (hnode : r.node? slot = some node) : (r.nodesFor type true)[slot.node]? = some node := by
  obtain ⟨point, hpoint, hplace⟩ := Option.bind_eq_some_iff.mp hnode
  have hfor : r.pointFor? type = some point := by
    rw [pointFor?_eq, hfirst]
    exact hpoint
  rw [nodesFor_true hfor]
  exact hplace

/-- **An extension that was placed by its type is found by capability for ever after.**  Let
an extension that names no point be installed after any history.  Then some type of the
ancestry is the nearest that any point is for, the extension is put into a slot, and whatever
happens later, the first point for that type has the path at which the extension was
installed, the slot holds the extension, enabled or not, and looking up that type lists it
there; without disabled extensions, it is listed exactly as long as it is enabled. -/
theorem found_for_ever (operations : List Operation) (node : Extension) (path : String) :
    let r := after operations {}
    node.declaredPath = none → (r.install node).1 = .ok (.installed path) →
    ∃ type slot, r.nearest? node.capability = some type ∧
      (r.install node).2.filled = r.filled ++ [slot] ∧
      ∀ later : List Operation, let s := (r.install node).2.after later
        (s.pointFor? type).map (·.path) = some path ∧
        ∃ held, s.node? slot = some held ∧ held.asEnabled = (node.placedIn path).asEnabled ∧
          (s.nodesFor type true)[slot.node]? = some held ∧
          (held ∈ s.nodesFor type false ↔ held.enabled = true) := by
  intro r hnone hinstalled
  have hconsistent : r.Consistent := consistent_after operations consistent_empty
  obtain ⟨e, -, hr⟩ | ⟨hr, -⟩ | ⟨index, point, htarget, hpoint, hr⟩ := install_cases node r
  · rw [hr] at hinstalled
    cases hinstalled
  · rw [hr] at hinstalled
    cases hinstalled
  · rw [hr] at hinstalled ⊢
    obtain rfl := Installation.installed.inj (Except.ok.inj hinstalled)
    obtain ⟨named, hnamed, -⟩ | ⟨-, hdeduced⟩ := target_eq_some htarget
    · rw [hnone] at hnamed
      cases hnamed
    · rw [deduce_eq_bind] at hdeduced
      obtain ⟨type, htype, hfirst⟩ := Option.bind_eq_some_iff.mp hdeduced
      refine ⟨type, ⟨index, point.nodes.length⟩, htype, rfl, fun later => ?_⟩
      have hchange : Change r (r.withNode index point node) := .node hpoint (.inl hnone)
      have hgrows := (hchange.consistent hconsistent).grows_after later
      have hstill := hgrows.findIdx?_eq (hchange.grows.findIdx?_eq hfirst)
      obtain ⟨held, hheld, hsame⟩ := hgrows.held (node?_withNode_self node hpoint)
      have hlisted := getElem?_nodesFor hstill hheld
      refine ⟨?_, held, hheld, hsame, hlisted, ?_⟩
      · refine (hchange.grows.trans hgrows).map_path_pointFor? ?_
        rw [pointFor?_eq, hfirst, Option.bind_some, hpoint]
        rfl
      · rw [mem_nodesFor_false_iff]
        exact and_iff_right (List.mem_of_getElem? hlisted)

/-- Two points for writers, and a type that is known to be one. -/
def twoForWriters : List Operation :=
  [.register "/writers" ⟨"Writer"⟩ none, .register "/others" ⟨"Writer"⟩ none,
    .declareTypes (·.declare ⟨"Xml"⟩ { implements := [⟨"Writer"⟩] })]

/-- A nearer point that comes later and a type that is disabled do not matter: the extension
is still the first of those for writers, though not of the enabled ones. -/
theorem found_for_ever_of_disabled :
    let r := after twoForWriters {}
    let node : Extension :=
      { modulePath := ⟨"/xml.wasm"⟩, moduleVersion := .release 1 0 0, capability := ⟨"Xml"⟩ }
    let s := (r.install node).2.after
      [.register "/xml" ⟨"Xml"⟩ none, .setEnabled ⟨"Xml"⟩ false]
    (r.install node).1 = .ok (.installed "/writers") ∧
      (s.pointFor? ⟨"Writer"⟩).map (·.path) = some "/writers" ∧
      ∃ held, (s.nodesFor ⟨"Writer"⟩ true)[0]? = some held ∧
        held.asEnabled = (node.placedIn "/writers").asEnabled ∧
        held ∉ s.nodesFor ⟨"Writer"⟩ false := by
  intro r node s
  have hinstalled : (r.install node).1 = .ok (.installed "/writers") :=
    eq_ok_of_toOption (by decide +kernel)
  have hnearest : r.nearest? node.capability = some ⟨"Writer"⟩ := by decide +kernel
  have hfilled : (r.install node).2.filled = r.filled ++ [⟨0, 0⟩] := by decide +kernel
  have hdisabled : (s.node? ⟨0, 0⟩).map (·.enabled) = some false := by decide +kernel
  obtain ⟨type, slot, htype, hslot, hlater⟩ :=
    found_for_ever twoForWriters node "/writers" rfl hinstalled
  obtain rfl : type = ⟨"Writer"⟩ := Option.some.inj (htype.symm.trans hnearest)
  obtain rfl : slot = ⟨0, 0⟩ :=
    List.singleton_inj.mp (List.append_cancel_left (hslot.symm.trans hfilled))
  obtain ⟨hpath, held, hheld, hsame, hlisted, henabled⟩ :=
    hlater [.register "/xml" ⟨"Xml"⟩ none, .setEnabled ⟨"Xml"⟩ false]
  refine ⟨hinstalled, hpath, held, hlisted, hsame, fun hmem => ?_⟩
  rw [hheld, Option.map_some, henabled.mp hmem] at hdisabled
  cases hdisabled

end Registry
end PluginHost
