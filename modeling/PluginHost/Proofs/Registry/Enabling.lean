import PluginHost.Proofs.Registry.Capabilities

/-! # Enabling and disabling

Enabling goes through the points, while one sees extensions in the listing that goes through
the filled slots.  In a consistent registry the two count alike (`Consistent.fst_setEnabled`):
so the answer is the number of listed extensions of the type, or an error if there is none.
What enabling changes is said slot by slot (`Switched`), and two changes of it depend on their
order only where both are about one type (`withEnabled_comm`, `withEnabled_withEnabled`).  The
main statement is `enables_exactly`. -/
namespace PluginHost

/-! ## One extension -/

namespace Extension

variable {capability other : TypeName} {enabled later : Bool}

theorem setEnabled_eq_ite (capability : TypeName) (enabled : Bool) (node : Extension) :
    node.setEnabled capability enabled =
      if node.capability = capability then { node with enabled } else node := by
  simp only [setEnabled, beq_iff_eq]

@[simp] theorem capability_setEnabled (node : Extension) :
    (node.setEnabled capability enabled).capability = node.capability := by
  rw [setEnabled_eq_ite]
  split <;> rfl

/-- Two types do not get in each other's way. -/
theorem setEnabled_comm (hne : other ≠ capability) (node : Extension) :
    (node.setEnabled capability enabled).setEnabled other later =
      (node.setEnabled other later).setEnabled capability enabled := by
  simp only [setEnabled_eq_ite]
  by_cases hnode : node.capability = capability
  · have hother : node.capability ≠ other := fun heq => hne (heq.symm.trans hnode)
    simp [hnode, hnode ▸ hother]
  · by_cases hother : node.capability = other
    · simp [hother, hne]
    · simp [hnode, hother]

/-- The last call decides. -/
theorem setEnabled_setEnabled (node : Extension) :
    (node.setEnabled capability enabled).setEnabled capability later =
      node.setEnabled capability later := by
  simp only [setEnabled_eq_ite]
  by_cases hnode : node.capability = capability
  · simp [hnode]
  · simp [hnode]

end Extension

namespace Registry

variable {r : Registry} {capability other : TypeName} {enabled later : Bool}

/-! ## What is changed -/

/-- Of two registries the second is the first with the extensions of a type enabled or
disabled: each slot holds what it held, with another mark if it is of the type, and so the
listing is the same but for the marks.  The points, what is found under a path, the order in
which slots were filled and the types are as they were. -/
structure Switched (r : Registry) (capability : TypeName) (enabled : Bool) (s : Registry) :
    Prop where
  node?_eq : ∀ slot, s.node? slot = (r.node? slot).map fun node =>
    if node.capability = capability then { node with enabled } else node
  extensions_eq : s.extensions = r.extensions.map fun node =>
    if node.capability = capability then { node with enabled } else node
  layout_eq : s.layout = r.layout
  positions_eq : s.positions = r.positions
  filled_eq : s.filled = r.filled
  types_eq : s.types = r.types

theorem switched_withEnabled (r : Registry) (capability : TypeName) (enabled : Bool) :
    r.Switched capability enabled (r.withEnabled capability enabled) where
  node?_eq slot := by
    rw [node?_withEnabled, funext (Extension.setEnabled_eq_ite capability enabled)]
  extensions_eq := by
    rw [extensions_withEnabled, funext (Extension.setEnabled_eq_ite capability enabled)]
  layout_eq := layout_withEnabled r capability enabled
  positions_eq := rfl
  filled_eq := rfl
  types_eq := rfl

/-! ## What is answered -/

/-- How many extensions of a type the points hold. -/
def countOf (r : Registry) (capability : TypeName) : Nat :=
  (r.points.flatMap (·.nodes)).countP (·.capability = capability)

theorem fst_setEnabled (r : Registry) (capability : TypeName) (enabled : Bool) :
    (r.setEnabled capability enabled).1 =
      if r.countOf capability = 0 then .error (.extensionNotFound capability)
      else .ok (r.countOf capability) := by
  simp only [setEnabled, countOf, List.countP_flatMap, List.sum_eq_foldl_nat]
  rfl

/-- The points hold as many extensions of a type as are listed. -/
theorem Consistent.countOf_eq (h : r.Consistent) (capability : TypeName) :
    r.countOf capability = r.extensions.countP (·.capability = capability) :=
  (h.perm_extensions.countP_eq _).symm

/-- Nothing is counted when no extension of the type is listed. -/
theorem Consistent.countOf_eq_zero_iff (h : r.Consistent) :
    r.countOf capability = 0 ↔ ∀ node ∈ r.extensions, node.capability ≠ capability := by
  rw [h.countOf_eq, List.countP_eq_zero]
  simp only [decide_eq_true_eq, ne_eq]

/-- Enabling leaves extensions of their type. -/
theorem countOf_withEnabled (r : Registry) (capability other : TypeName) (enabled : Bool) :
    (r.withEnabled capability enabled).countOf other = r.countOf other := by
  rw [countOf, countOf, withEnabled, List.flatMap_map, List.countP_flatMap, List.countP_flatMap]
  simp only [Function.comp_def, List.countP_map, Extension.capability_setEnabled]

/-- The number of extensions of a type is answered if there are any. -/
theorem setEnabled_eq_ok_iff {n : Nat} :
    (r.setEnabled capability enabled).1 = .ok n ↔ 0 < n ∧ r.countOf capability = n := by
  rw [fst_setEnabled]
  split
  · rename_i hzero
    simp only [reduceCtorEq, false_iff, hzero]
    omega
  · rename_i hsome
    rw [Except.ok.injEq]
    omega

/-- That there is no extension of the type is the only error. -/
theorem setEnabled_eq_error_iff {e : HostError} :
    (r.setEnabled capability enabled).1 = .error e ↔
      e = .extensionNotFound capability ∧ r.countOf capability = 0 := by
  rw [fst_setEnabled]
  split
  · rename_i hzero
    simp [hzero, eq_comm]
  · rename_i hsome
    simp [hsome]

/-! ## Two changes in a row -/

theorem withEnabled_comm (hne : other ≠ capability) :
    (r.withEnabled capability enabled).withEnabled other later =
      (r.withEnabled other later).withEnabled capability enabled := by
  simp only [withEnabled, List.map_map, Function.comp_def, Extension.setEnabled_comm hne]

theorem withEnabled_withEnabled :
    (r.withEnabled capability enabled).withEnabled capability later =
      r.withEnabled capability later := by
  simp only [withEnabled, List.map_map, Function.comp_def, Extension.setEnabled_setEnabled]

/-- What is answered does not depend on what is enabled. -/
theorem fst_setEnabled_withEnabled (r : Registry) (capability other : TypeName)
    (enabled later : Bool) :
    ((r.withEnabled capability enabled).setEnabled other later).1 =
      (r.setEnabled other later).1 := by
  rw [fst_setEnabled, fst_setEnabled, countOf_withEnabled]

/-- **Enabling changes exactly the extensions of the type.**  After any history, enabling or
disabling a type answers a number, which is never zero, exactly when so many of the listed
extensions are of the type; the only error is that there is none, and then nothing changes.
All that changes are the marks of these extensions.  So calls for two types can be made in
either order, and of two calls for one type the last one decides. -/
theorem enables_exactly (operations : List Operation) (capability : TypeName) (enabled : Bool) :
    let r := after operations {}
    let s := (r.setEnabled capability enabled).2
    (∀ n, (r.setEnabled capability enabled).1 = .ok n ↔
      0 < n ∧ r.extensions.countP (·.capability = capability) = n) ∧
    (∀ e, (r.setEnabled capability enabled).1 = .error e ↔
      e = .extensionNotFound capability ∧ ∀ node ∈ r.extensions, node.capability ≠ capability) ∧
    ((∀ node ∈ r.extensions, node.capability ≠ capability) → s = r) ∧
    r.Switched capability enabled s ∧
    (∀ other later, other ≠ capability →
      (s.setEnabled other later).2 =
        ((r.setEnabled other later).2.setEnabled capability enabled).2 ∧
      (s.setEnabled other later).1 = (r.setEnabled other later).1 ∧
      ((r.setEnabled other later).2.setEnabled capability enabled).1 =
        (r.setEnabled capability enabled).1) ∧
    ∀ later, s.setEnabled capability later = r.setEnabled capability later := by
  intro r s
  have h : r.Consistent := consistent_after operations consistent_empty
  refine ⟨fun n => ?_, fun e => ?_, fun hnone => ?_, switched_withEnabled r capability enabled,
    fun other later hne => ⟨withEnabled_comm hne, ?_, ?_⟩, fun later => Prod.ext ?_ ?_⟩
  · rw [← h.countOf_eq]
    exact setEnabled_eq_ok_iff
  · rw [← h.countOf_eq_zero_iff]
    exact setEnabled_eq_error_iff
  · exact setEnabled_eq_error (e := .extensionNotFound capability)
      (setEnabled_eq_error_iff.mpr ⟨rfl, h.countOf_eq_zero_iff.mpr hnone⟩)
  · exact fst_setEnabled_withEnabled r capability other enabled later
  · exact fst_setEnabled_withEnabled r other capability later enabled
  · exact fst_setEnabled_withEnabled r capability capability enabled later
  · exact withEnabled_withEnabled

/-- Two extensions of one type that stand in two points, and another one between them. -/
def twoOfOneType : List Operation :=
  let xml : Extension :=
    { modulePath := ⟨"/m.wasm"⟩, moduleVersion := .release 1 0 0, capability := ⟨"Xml"⟩ }
  [.register "/xml" ⟨"Xml"⟩ none, .register "/json" ⟨"Json"⟩ none, .install xml,
    .install { xml with capability := ⟨"Json"⟩ },
    .install { xml with declaredPath := some "/json" }]

/-- Both are disabled, wherever they stand; a type that is not there changes nothing. -/
theorem enables_exactly_of_twoOfOneType :
    let r := after twoOfOneType {}
    let s := (r.setEnabled ⟨"Xml"⟩ false).2
    (r.setEnabled ⟨"Xml"⟩ false).1 = .ok 2 ∧
    s.extensions.map (fun node => (node.capability.text, node.path, node.enabled)) =
      [("Xml", some "/xml", false), ("Json", some "/json", true), ("Xml", some "/json", false)] ∧
    (s.setEnabled ⟨"Json"⟩ false).2 = ((r.setEnabled ⟨"Json"⟩ false).2.setEnabled ⟨"Xml"⟩ false).2 ∧
    (r.setEnabled ⟨"Html"⟩ false).2 = r := by
  intro r s
  obtain ⟨hok, -, -, hswitched, hcomm, -⟩ := enables_exactly twoOfOneType ⟨"Xml"⟩ false
  obtain ⟨-, -, hnone, -⟩ := enables_exactly twoOfOneType ⟨"Html"⟩ false
  refine ⟨(hok 2).mpr ⟨by decide, by decide +kernel⟩, ?_, (hcomm ⟨"Json"⟩ false (by decide)).1,
    hnone (by decide +kernel)⟩
  rw [hswitched.extensions_eq]
  decide +kernel

end Registry
end PluginHost
