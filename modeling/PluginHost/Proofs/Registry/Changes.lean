import PluginHost.Proofs.Results
import PluginHost.Registry

/-! # What a change makes of a registry

Each change of a registry is described once, with its failures: a point is refused or
comes last (`register_cases`), an extension fails, is dropped or comes behind the
others in a point (`install_cases`), and enabling reaches every extension of a type
or finds none and leaves no trace (`setEnabled_eq`, `setEnabled_eq_error`).  Other
proofs use these descriptions and not the definitions. -/
namespace PluginHost

/-- The extension as it stands in a point. -/
def Extension.placedIn (path : String) (node : Extension) : Extension :=
  { node with path := some path }

/-- The extension without what enabling and disabling change. -/
def Extension.asEnabled (node : Extension) : Extension := { node with enabled := true }

@[simp] theorem Extension.asEnabled_setEnabled (capability : TypeName) (enabled : Bool)
    (node : Extension) : (node.setEnabled capability enabled).asEnabled = node.asEnabled := by
  unfold setEnabled
  split <;> rfl

@[simp] theorem Extension.path_setEnabled (capability : TypeName) (enabled : Bool)
    (node : Extension) : (node.setEnabled capability enabled).path = node.path := by
  unfold setEnabled
  split <;> rfl

@[simp] theorem Extension.declaredPath_setEnabled (capability : TypeName) (enabled : Bool)
    (node : Extension) :
    (node.setEnabled capability enabled).declaredPath = node.declaredPath := by
  unfold setEnabled
  split <;> rfl

namespace Registry

/-! ## Points -/

/-- The registry with one more point. -/
def withPoint (r : Registry) (point : ExtensionPoint) : Registry :=
  { r with
    points := r.points ++ [point]
    positions := (point.path, r.points.length) :: r.positions }

/-- A point is refused if its path is taken, and comes last otherwise. -/
theorem register_cases (point : ExtensionPoint) (r : Registry) :
    (∃ index, r.position? point.path = some index ∧
      r.register point = (.error (.duplicatePoint point.path), r)) ∨
    (r.position? point.path = none ∧ r.register point = (.ok (), r.withPoint point)) := by
  unfold register
  cases h : r.position? point.path with
  | none => exact .inr ⟨rfl, rfl⟩
  | some index => exact .inl ⟨index, rfl, rfl⟩

/-! ## Extensions -/

/-- The registry with one more extension, in the point at a position. -/
def withNode (r : Registry) (index : Nat) (point : ExtensionPoint) (node : Extension) :
    Registry :=
  { r with
    points := r.points.set index (point.add node)
    filled := r.filled ++ [⟨index, point.nodes.length⟩] }

variable {r : Registry} {node : Extension}

/-- An extension belongs in the point of the path it names, or in the point that is
found for its type when it names none. -/
theorem target_eq_some {index : Nat} (h : r.target node = .ok (some index)) :
    (∃ path, node.declaredPath = some path ∧ r.position? path = some index) ∨
      (node.declaredPath = none ∧ r.deduce node.capability = some index) := by
  unfold target at h
  cases hp : node.declaredPath with
  | some path =>
    simp only [hp] at h
    split at h
    · rename_i found hfound
      obtain rfl := Option.some.inj (Except.ok.inj h)
      exact .inl ⟨path, rfl, hfound⟩
    · cases h
  | none =>
    simp only [hp] at h
    split at h
    · rename_i found hfound
      obtain rfl := Option.some.inj (Except.ok.inj h)
      exact .inr ⟨rfl, hfound⟩
    · split at h <;> cases h

/-- Only an extension that names no point is dropped. -/
theorem target_eq_none (h : r.target node = .ok none) :
    node.declaredPath = none ∧ r.deduce node.capability = none ∧ node.fromWildcard = true := by
  unfold target at h
  cases hp : node.declaredPath with
  | some path =>
    simp only [hp] at h
    split at h <;> cases h
  | none =>
    simp only [hp] at h
    split at h
    · cases h
    · rename_i hdeduced
      split at h
      · rename_i hw
        exact ⟨rfl, hdeduced, hw⟩
      · cases h

/-- An extension belongs nowhere when there is no point of the path it names, or when it names
none, none is found for its type, and no wildcard found it. -/
theorem target_eq_error {e : HostError} (h : r.target node = .error e) :
    (∃ path, node.declaredPath = some path ∧ r.position? path = none ∧
      e = .unknownPoint path node.capability) ∨
    (node.declaredPath = none ∧ r.deduce node.capability = none ∧ node.fromWildcard = false ∧
      e = .undeducedPoint node.capability) := by
  unfold target at h
  cases hp : node.declaredPath with
  | some path =>
    simp only [hp] at h
    split at h
    · cases h
    · rename_i hfree
      exact .inl ⟨path, rfl, hfree, (Except.error.inj h).symm⟩
  | none =>
    simp only [hp] at h
    split at h
    · cases h
    · rename_i hdeduced
      split at h
      · cases h
      · rename_i hw
        exact .inr ⟨rfl, hdeduced, Bool.eq_false_iff.mpr hw, (Except.error.inj h).symm⟩

/-- The type of the point that is found for a type. -/
theorem points_of_deduce {capability : TypeName} {index : Nat}
    (h : r.deduce capability = some index) : ∃ point, r.points[index]? = some point := by
  obtain ⟨type, -, hfound⟩ := List.exists_of_findSome?_eq_some h
  obtain ⟨hlt, -⟩ := List.findIdx?_eq_some_iff_getElem.mp hfound
  exact ⟨_, List.getElem?_eq_getElem hlt⟩

/-- An extension fails or is dropped and changes nothing, or comes behind the others in
the point it belongs in.  It is dropped as well when no point stands at the position it
belongs in. -/
theorem install_cases (node : Extension) (r : Registry) :
    (∃ e, r.target node = .error e ∧ r.install node = (.error e, r)) ∨
    (r.install node = (.ok .dropped, r) ∧ (r.target node = .ok none ∨
      ∃ index, r.target node = .ok (some index) ∧ r.points[index]? = none)) ∨
    ∃ index point, r.target node = .ok (some index) ∧ r.points[index]? = some point ∧
      r.install node = (.ok (.installed point.path), r.withNode index point node) := by
  unfold install
  rcases ht : r.target node with e | _ | index
  · exact .inl ⟨e, rfl, rfl⟩
  · exact .inr (.inl ⟨rfl, .inl rfl⟩)
  · cases hp : r.points[index]? with
    | none => exact .inr (.inl ⟨by simp only [put, hp], .inr ⟨index, rfl, hp⟩⟩)
    | some point =>
      exact .inr (.inr ⟨index, point, rfl, hp, by simp only [put, hp, withNode]⟩)

/-- An extension that belongs in a point comes behind the others in it. -/
theorem install_of_target {index : Nat} {point : ExtensionPoint}
    (htarget : r.target node = .ok (some index)) (hpoint : r.points[index]? = some point) :
    r.install node = (.ok (.installed point.path), r.withNode index point node) := by
  simp only [install, htarget, put, hpoint, withNode]

/-- An extension that cannot be installed belongs nowhere. -/
theorem target_of_install_eq_error {e : HostError} (h : (r.install node).1 = .error e) :
    r.target node = .error e := by
  obtain ⟨e', htarget, hr⟩ | ⟨hr, -⟩ | ⟨_, _, -, -, hr⟩ := install_cases node r
  · rw [hr] at h
    rw [htarget, Except.error.inj h]
  · rw [hr] at h
    cases h
  · rw [hr] at h
    cases h

/-! ## Enabling -/

/-- The registry in which the extensions of a type are enabled or disabled. -/
def withEnabled (r : Registry) (capability : TypeName) (enabled : Bool) : Registry :=
  { r with points := r.points.map fun point =>
    { point with nodes := point.nodes.map (.setEnabled capability enabled) } }

/-- Whatever is answered, the extensions of the type are enabled or disabled. -/
theorem setEnabled_eq (r : Registry) (capability : TypeName) (enabled : Bool) :
    (r.setEnabled capability enabled).2 = r.withEnabled capability enabled := rfl

/-- Where no extension is of the type, nothing changes. -/
theorem withEnabled_of_forall {capability : TypeName} (enabled : Bool)
    (h : ∀ point ∈ r.points, ∀ node ∈ point.nodes, node.capability ≠ capability) :
    r.withEnabled capability enabled = r := by
  have hnode : ∀ point ∈ r.points, ∀ node ∈ point.nodes,
      node.setEnabled capability enabled = node := fun point hpoint node hnode => by
    rw [Extension.setEnabled, if_neg (by simpa using h point hpoint node hnode)]
  have hpoints : (r.points.map fun point =>
      { point with nodes := point.nodes.map (.setEnabled capability enabled) }) = r.points := by
    refine (List.map_congr_left fun point hpoint => ?_).trans (List.map_id _)
    rw [List.map_congr_left (hnode point hpoint), List.map_id']
    rfl
  rw [withEnabled, hpoints]

/-- Enabling fails when there is nothing to enable, and leaves no trace then. -/
theorem setEnabled_eq_error {capability : TypeName} {enabled : Bool} {e : HostError}
    (h : (r.setEnabled capability enabled).1 = .error e) :
    (r.setEnabled capability enabled).2 = r := by
  rw [setEnabled_eq]
  refine withEnabled_of_forall enabled fun point hpoint node hnode => ?_
  unfold setEnabled at h
  simp only at h
  split at h
  · rename_i hcount
    rw [← List.sum_eq_foldl_nat, List.sum_eq_zero_iff_forall_eq_nat] at hcount
    have hnone := hcount _ (List.mem_map_of_mem hpoint)
    simpa using List.countP_eq_zero.mp hnone node hnode
  · cases h

end Registry
end PluginHost
