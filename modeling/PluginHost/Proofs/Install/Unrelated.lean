import PluginHost.Proofs.Install.Success
import PluginHost.Proofs.TypeGraph.Ancestry

/-! # What one module does to the extensions of others

Whatever adds types and points to a registry could change where the extensions of other
modules go.  It cannot as long as it says nothing of the types that lead an extension to its
point: the ancestry of the extension's type depends on the relations of the types in it only,
a type that is declared keeps its relations, and points that come later stand behind those
that were there.  So a module that is `Registry.Unrelated` to a type leaves the outcome of
every installation for it as it was (`Registry.unrelated_redirects_nothing`). -/
namespace PluginHost
namespace Registry

variable {r s : Registry} {m : Metadata} {capability : TypeName} {node : Extension}

/-- A module says nothing of the types that lead from `capability` to a point: none of them
is declared by it for the first time, and none of its points is for one of them. -/
structure Unrelated (r : Registry) (m : Metadata) (capability : TypeName) : Prop where
  declared : ∀ type ∈ r.types.ancestry capability, type ∈ m.types.map (·.name) →
    (r.types.relations? type).isSome = true
  unrequired : ∀ type ∈ r.types.ancestry capability,
    type ∉ m.extensionPoints.map (·.capability)

instance (r : Registry) (m : Metadata) (capability : TypeName) :
    Decidable (Unrelated r m capability) :=
  decidable_of_iff
    ((∀ type ∈ r.types.ancestry capability, type ∈ m.types.map (·.name) →
        (r.types.relations? type).isSome = true) ∧
      ∀ type ∈ r.types.ancestry capability, type ∉ m.extensionPoints.map (·.capability))
    ⟨fun h => ⟨h.1, h.2⟩, fun h => ⟨h.declared, h.unrequired⟩⟩

/-- An unrelated module says nothing new of the types that lead to a point. -/
theorem Unrelated.relations?_merge (h : r.Unrelated m capability) {type : TypeName}
    (htype : type ∈ r.types.ancestry capability) :
    (r.types.merge m).relations? type = r.types.relations? type := by
  rw [TypeGraph.relations?_merge]
  cases hknown : r.types.relations? type with
  | some relations => exact Option.some_or
  | none =>
    have hnot : type ∉ m.types.map (·.name) := fun hmem => by
      have hsome := h.declared type htype hmem
      rw [hknown] at hsome
      cases hsome
    have hnone : m.types.find? (·.name == type) = none :=
      List.find?_eq_none.mpr fun t ht heq => hnot (eq_of_beq heq ▸ List.mem_map_of_mem ht)
    rw [hnone]
    rfl

/-- The same types lead to a point when an unrelated module is there. -/
theorem Unrelated.ancestry_merge (h : r.Unrelated m capability) :
    (r.types.merge m).ancestry capability = r.types.ancestry capability :=
  (TypeGraph.ancestry_congr_of_mem fun _ htype => (h.relations?_merge htype).symm).symm

/-- The same point is found when the types and the points of an unrelated module are
there. -/
theorem Unrelated.deduce_eq (h : r.Unrelated m capability)
    (hpoints : s.points = r.points ++ m.extensionPoints) (htypes : s.types = r.types.merge m) :
    s.deduce capability = r.deduce capability := by
  rw [deduce, deduce, htypes, h.ancestry_merge, hpoints]
  refine Lists.findSome?_congr fun type htype => ?_
  have hnone : m.extensionPoints.findIdx? (·.capability == type) = none := by
    refine List.findIdx?_eq_none_iff.mpr fun point hpoint => beq_false_of_ne fun heq => ?_
    exact h.unrequired type htype (heq ▸ List.mem_map_of_mem hpoint)
  rw [List.findIdx?_append, hnone]
  exact Option.or_none

/-- The outcome of an installation depends on where the extension belongs and on the path of
the point there. -/
theorem install_outcome_congr (htarget : s.target node = r.target node)
    (hpath : ∀ index, r.target node = .ok (some index) →
      (s.points[index]?).map (·.path) = (r.points[index]?).map (·.path)) :
    (s.install node).1 = (r.install node).1 := by
  rw [install, install, htarget]
  rcases ht : r.target node with e | _ | index
  · rfl
  · rfl
  · have hsame := hpath index ht
    simp only [put]
    cases hr : r.points[index]? with
    | none =>
      rw [hr, Option.map_none, Option.map_eq_none_iff] at hsame
      rw [hsame]
    | some point =>
      rw [hr] at hsame
      obtain ⟨other, hs, heq⟩ := Option.map_eq_some_iff.mp hsame
      rw [hs]
      exact congrArg (fun path => Except.ok (Installation.installed path)) heq

/-- **A module redirects no extension that it is unrelated to.**  After any history, if the
paths of its points are not taken, its types can be merged and its points registered; and
then an extension that names no point is installed in a point of the same path as before,
is dropped as before, or fails with the same error as before. -/
theorem unrelated_redirects_nothing (operations : List Operation) (m : Metadata) :
    let r := after operations {}
    ((r.points ++ m.extensionPoints).map (·.path)).Nodup →
    ∃ s, (r.declareTypes (·.merge m)).registerAll m.extensionPoints = .ok s ∧
      ∀ node : Extension, node.declaredPath = none → r.Unrelated m node.capability →
        (s.install node).1 = (r.install node).1 := by
  intro r hfree
  have hconsistent : r.Consistent := consistent_after operations consistent_empty
  have hdeclared := hconsistent.declareTypes (·.merge m)
  obtain ⟨s, hs⟩ := (registerAll_isOk_iff hdeclared m.vacant_extensionPoints).mpr hfree
  have hextended := Extended.of_registerAll hdeclared m.vacant_extensionPoints hs
  refine ⟨s, hs, fun node hnone hunrelated => ?_⟩
  have hdeduce := hunrelated.deduce_eq hextended.points_eq hextended.types_eq
  refine install_outcome_congr ?_ fun index htarget => ?_
  · simp only [target, hnone, hdeduce]
  · obtain ⟨point, hpoint⟩ := hconsistent.exists_point htarget
    have hlt : index < r.points.length := (List.getElem?_eq_some_iff.mp hpoint).1
    rw [hextended.points_eq]
    exact congrArg _ (List.getElem?_append_left hlt)

/-- A registry with a point for writers, in which `Xml` is known to be one. -/
def knownWriters : List Operation :=
  [.register "/writers" ⟨"Writer"⟩ none,
    .declareTypes (·.declare ⟨"Xml"⟩ { implements := [⟨"Writer"⟩] })]

/-- A module with a point for readers, which says that `Xml` is a reader. -/
def rivalReaders : Metadata where
  name := "readers"
  version := "1.0"
  points := [⟨"/readers", ⟨"Reader"⟩, none⟩]
  types := [{ name := ⟨"Xml"⟩, implements := [⟨"Reader"⟩] }]

/-- What the module says of a type that is known already does not count, so the extension
goes to the point for writers. -/
theorem unrelated_redirects_nothing_of_rival :
    let r := after knownWriters {}
    let node : Extension :=
      { modulePath := ⟨"/xml.wasm"⟩, moduleVersion := .release 1 0 0, capability := ⟨"Xml"⟩ }
    r.Unrelated rivalReaders node.capability ∧
    ∃ s, (r.declareTypes (·.merge rivalReaders)).registerAll rivalReaders.extensionPoints =
        .ok s ∧
      (s.install node).1 = .ok (.installed "/writers") := by
  intro r node
  have hunrelated : r.Unrelated rivalReaders node.capability := by decide +kernel
  have hinstall : (r.install node).1 = .ok (.installed "/writers") :=
    eq_ok_of_toOption (by decide +kernel)
  obtain ⟨s, hs, hsame⟩ :=
    unrelated_redirects_nothing knownWriters rivalReaders (by decide +kernel)
  exact ⟨hunrelated, s, hs, (hsame node rfl hunrelated).trans hinstall⟩

-- Where `Xml` is not known before, the module does redirect it.
example :
    let node : Extension :=
      { modulePath := ⟨"/xml.wasm"⟩, moduleVersion := .release 1 0 0, capability := ⟨"Xml"⟩,
        fromWildcard := true }
    let r := after [.register "/writers" ⟨"Writer"⟩ none] {}
    (r.install node).1.toOption = some .dropped ∧
      (((r.declareTypes (·.merge rivalReaders)).registerAll
        rivalReaders.extensionPoints).toOption.bind fun s => (s.install node).1.toOption) =
          some (.installed "/readers") := by
  decide +kernel

end Registry
end PluginHost
