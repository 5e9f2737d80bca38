import PluginHost.Install
import PluginHost.Proofs.Registry.Changes

/-! # Where extensions and failures of an installation come from

Every extension that is installed is the extension of some type of a module that
was found (`mem_nodes_scan`), and every failure is about one of a few things:
`Install.Blamed` lists them.  A module that a wildcard found is skipped when it
cannot be scanned, and its extensions are dropped when no point is for them, so
only points that are declared twice or not at all can be its fault
(`blamed_of_candidates`). -/
namespace PluginHost

/-! ## Scanning -/

namespace Candidate

variable {host : Version} {c : Candidate}

/-- The extension of a type, if the type has one that is new enough. -/
theorem extension?_eq_some {t : TypeDeclaration} {node : Extension}
    (h : c.extension? host t = .ok (some node)) :
    ∃ mark, t.extension = some mark ∧ node = c.extensionOf t.name mark := by
  unfold extension? at h
  split at h
  · cases h
  · rename_i mark hmark
    split at h
    · cases h
    · exact ⟨mark, hmark, (Option.some.inj (Except.ok.inj h)).symm⟩
    · cases h

/-- What is no version is told. -/
theorem isNewEnough_eq_error {required : Option String} {text : String}
    (h : isNewEnough host required = .error text) :
    required = some text ∧ Version.ofText? text = none := by
  unfold isNewEnough at h
  split at h
  · cases h
  · split at h
    · rename_i hversion
      obtain rfl := Except.error.inj h
      exact ⟨rfl, hversion⟩
    · cases h

/-- A host is new enough for its own version and for all versions below. -/
theorem isNewEnough_of_version {text : String} {version : Version}
    (h : Version.ofText? text = some version) :
    isNewEnough host (some text) = .ok (version.cmp host).isLE := by
  simp only [isNewEnough, h]
  cases version.cmp host <;> rfl

/-- A type of a module asks for the host version `text`, which is none. -/
def AsksForNoVersion (t : TypeDeclaration) (text : String) : Prop :=
  (∃ mark, t.extension = some mark ∧ mark.engineVersion = some text) ∧
    Version.ofText? text = none

/-- A type fails when it asks for a host version that is none. -/
theorem extension?_eq_error {t : TypeDeclaration} {e : HostError}
    (h : c.extension? host t = .error e) :
    ∃ text, AsksForNoVersion t text ∧ e = .moduleRead c.path (.engineVersion t.name text) := by
  unfold extension? at h
  split at h
  · cases h
  · rename_i mark hmark
    split at h
    · rename_i text hfail
      obtain ⟨hrequired, hversion⟩ := isNewEnough_eq_error hfail
      exact ⟨text, ⟨⟨mark, hmark, hrequired⟩, hversion⟩, (Except.error.inj h).symm⟩
    · cases h
    · cases h

/-- The extensions of types are those of some of the types. -/
theorem mem_extensionsOf {types : List TypeDeclaration} {node : Extension}
    (h : node ∈ (extensionsOf host c types).1) :
    ∃ t ∈ types, ∃ mark, t.extension = some mark ∧ node = c.extensionOf t.name mark := by
  induction types with
  | nil => cases h
  | cons t types ih =>
    rw [extensionsOf] at h
    have later (h : node ∈ (extensionsOf host c types).1) :
        ∃ u ∈ t :: types, ∃ mark, u.extension = some mark ∧
          node = c.extensionOf u.name mark := by
      obtain ⟨u, hu, hmark⟩ := ih h
      exact ⟨u, List.mem_cons_of_mem t hu, hmark⟩
    cases ht : c.extension? host t with
    | error e => rw [ht] at h; cases h
    | ok found =>
      rw [ht] at h
      cases found with
      | none => exact later h
      | some first =>
        rcases List.mem_cons.mp h with rfl | h
        · exact ⟨t, List.mem_cons_self, extension?_eq_some ht⟩
        · exact later h

/-- A fault of the types is about one of them. -/
theorem fault_extensionsOf {types : List TypeDeclaration} {e : HostError}
    (h : (extensionsOf host c types).2 = some e) :
    ∃ t ∈ types, ∃ text, AsksForNoVersion t text ∧
      e = .moduleRead c.path (.engineVersion t.name text) := by
  induction types with
  | nil => cases h
  | cons t types ih =>
    rw [extensionsOf] at h
    have later (h : (extensionsOf host c types).2 = some e) :
        ∃ u ∈ t :: types, ∃ text, AsksForNoVersion u text ∧
          e = .moduleRead c.path (.engineVersion u.name text) := by
      obtain ⟨u, hu, htext⟩ := ih h
      exact ⟨u, List.mem_cons_of_mem t hu, htext⟩
    cases ht : c.extension? host t with
    | error e' =>
      rw [ht] at h
      obtain rfl := Option.some.inj h
      exact ⟨t, List.mem_cons_self, extension?_eq_error ht⟩
    | ok found =>
      rw [ht] at h
      cases found with
      | none => exact later h
      | some first => exact later h

theorem mem_nodes_scan {contribution : Contribution} (h : c.scan host = .ok contribution)
    {node : Extension} (hnode : node ∈ contribution.nodes) :
    ∃ t ∈ c.metadata.types, ∃ mark, t.extension = some mark ∧
      node = c.extensionOf t.name mark := by
  unfold scan at h
  split at h
  · cases h
  · rename_i nodes heq
    obtain rfl := Except.ok.inj h
    have hmem : node ∈ (extensionsOf host c c.metadata.types).1 := by
      rw [heq]
      exact hnode
    exact mem_extensionsOf hmem

theorem scan_eq_error {e : HostError} (h : c.scan host = .error e) :
    ∃ t ∈ c.metadata.types, ∃ text, AsksForNoVersion t text ∧
      e = .moduleRead c.path (.engineVersion t.name text) := by
  unfold scan at h
  split at h
  · rename_i nodes fault heq
    obtain rfl := Except.error.inj h
    have hfault : (extensionsOf host c c.metadata.types).2 = some fault := by rw [heq]
    exact fault_extensionsOf hfault
  · cases h

end Candidate

/-! ## Registering and installing -/

namespace Registry

/-- A change whose registry is not kept failed. -/
theorem changed_eq_error {α : Type} {outcome : Except HostError α × Registry} {e : HostError}
    (h : changed outcome = .error e) : outcome.1 = .error e := by
  obtain ⟨_ | a, r⟩ := outcome
  · exact congrArg Except.error (Except.error.inj h)
  · cases h

/-- Points cannot be registered when the path of one of them is taken. -/
theorem registerAll_eq_error {points : List ExtensionPoint} {r : Registry} {e : HostError}
    (h : r.registerAll points = .error e) : ∃ point ∈ points, e = .duplicatePoint point.path := by
  obtain ⟨point, hmem, r', hfail⟩ := exists_of_foldlM_error h
  have htaken := changed_eq_error hfail
  unfold register at htaken
  split at htaken
  · exact ⟨point, hmem, (Except.error.inj htaken).symm⟩
  · cases htaken

/-- An extension cannot be installed when there is no point of the path it names,
or when it names none, none is found for its type, and somebody wrote its module
out. -/
theorem install_eq_error {node : Extension} {r : Registry} {e : HostError}
    (h : (r.install node).1 = .error e) :
    (∃ path, node.declaredPath = some path ∧ e = .unknownPoint path node.capability) ∨
      (node.declaredPath = none ∧ node.fromWildcard = false ∧
        e = .undeducedPoint node.capability) := by
  obtain ⟨path, hpath, -, he⟩ | ⟨hnone, -, hw, he⟩ :=
    target_eq_error (target_of_install_eq_error h)
  · exact .inl ⟨path, hpath, he⟩
  · exact .inr ⟨hnone, hw, he⟩

end Registry

/-! ## Installing what was found -/

namespace Install

variable {host : Version} {found : List Candidate}

/-- What can be wrong with modules that are installed, and whose fault it is. -/
inductive Blamed (found : List Candidate) : HostError → Prop where
  /-- A type of a module that was written out asks for a host version that is none. -/
  | engineVersion {c : Candidate} {t : TypeDeclaration} {text : String} (mem : c ∈ found)
      (writtenOut : c.fromWildcard = false) (declared : t ∈ c.metadata.types)
      (asks : Candidate.AsksForNoVersion t text) :
      Blamed found (.moduleRead c.path (.engineVersion t.name text))
  /-- No point is found for a type of a module that was written out. -/
  | undeduced {c : Candidate} {t : TypeDeclaration} {mark : ExtensionMark} (mem : c ∈ found)
      (writtenOut : c.fromWildcard = false) (declared : t ∈ c.metadata.types)
      (marked : t.extension = some mark) (unnamed : givenPath mark.path = none) :
      Blamed found (.undeducedPoint t.name)
  /-- The path of a point of any module is taken. -/
  | duplicate {c : Candidate} {point : ExtensionPoint} (mem : c ∈ found)
      (declared : point ∈ c.metadata.extensionPoints) :
      Blamed found (.duplicatePoint point.path)
  /-- A type of any module names a point that nobody has declared. -/
  | unknown {c : Candidate} {t : TypeDeclaration} {mark : ExtensionMark} {path : String}
      (mem : c ∈ found) (declared : t ∈ c.metadata.types) (marked : t.extension = some mark)
      (named : givenPath mark.path = some path) :
      Blamed found (.unknownPoint path t.name)

/-- What was scanned brings what its module has. -/
theorem scan_of_mem_modules {c : Candidate} {contribution : Contribution}
    (h : (c, contribution) ∈ (scanAll host found).modules) :
    c ∈ found ∧ c.scan host = .ok contribution := by
  induction found with
  | nil => cases h
  | cons d found ih =>
    rw [scanAll] at h
    split at h
    · rename_i brought hd
      rcases List.mem_cons.mp h with heq | h
      · obtain ⟨rfl, rfl⟩ := Prod.mk.inj heq
        exact ⟨List.mem_cons_self, hd⟩
      · exact ⟨List.mem_cons_of_mem d (ih h).1, (ih h).2⟩
    · split at h
      · exact ⟨List.mem_cons_of_mem d (ih h).1, (ih h).2⟩
      · cases h

/-- A scan ends at a module that was written out. -/
theorem fault_scanAll {e : HostError} (h : (scanAll host found).fault = some e) :
    ∃ c ∈ found, c.fromWildcard = false ∧ c.scan host = .error e := by
  induction found with
  | nil => cases h
  | cons d found ih =>
    rw [scanAll] at h
    split at h
    · obtain ⟨c, hc, hfail⟩ := ih h
      exact ⟨c, List.mem_cons_of_mem d hc, hfail⟩
    · rename_i e' hd
      split at h
      · obtain ⟨c, hc, hfail⟩ := ih h
        exact ⟨c, List.mem_cons_of_mem d hc, hfail⟩
      · rename_i hw
        obtain rfl := Option.some.inj h
        exact ⟨d, List.mem_cons_self, Bool.eq_false_iff.mpr hw, hd⟩

/-- The points of a module that was scanned are the points of its description. -/
theorem points_of_scan {c : Candidate} {contribution : Contribution}
    (h : c.scan host = .ok contribution) :
    contribution.points = c.metadata.extensionPoints := by
  unfold Candidate.scan at h
  split at h
  · cases h
  · rw [← Except.ok.inj h]

/-- An extension that cannot be installed is blamed on its module. -/
theorem blamed_of_install {c : Candidate} {contribution : Contribution} (hc : c ∈ found)
    (hscan : c.scan host = .ok contribution) {node : Extension}
    (hnode : node ∈ contribution.nodes) {r : Registry} {e : HostError}
    (h : (r.install node).1 = .error e) : Blamed found e := by
  obtain ⟨t, ht, mark, hmark, rfl⟩ := Candidate.mem_nodes_scan hscan hnode
  rcases Registry.install_eq_error h with ⟨path, hnamed, rfl⟩ | ⟨hnamed, hw, rfl⟩
  · exact .unknown hc ht hmark hnamed
  · exact .undeduced hc hw ht hmark hnamed

/-- **Every failure of an installation is blamed on a module**, and on one that
somebody wrote out unless a point is declared twice or not at all. -/
theorem blamed_of_candidates {r : Registry} {e : HostError}
    (h : (candidates host found r).2 = .error e) : Blamed found e := by
  simp only [candidates] at h
  split at h
  · rename_i fault hfault
    obtain rfl := Except.error.inj h
    obtain ⟨c, hc, hw, hscan⟩ := fault_scanAll hfault
    obtain ⟨t, ht, text, hasks, rfl⟩ := Candidate.scan_eq_error hscan
    exact .engineVersion hc hw ht hasks
  · simp only [addAll] at h
    cases hreg : (declareAll (scanAll host found).modules r).registerAll
        ((scanAll host found).modules.flatMap (·.2.points)) with
    | error e' =>
      rw [hreg] at h
      obtain rfl := Except.error.inj h
      obtain ⟨point, hpoint, rfl⟩ := Registry.registerAll_eq_error hreg
      obtain ⟨⟨c, contribution⟩, hm, hp⟩ := List.mem_flatMap.mp hpoint
      obtain ⟨hc, hscan⟩ := scan_of_mem_modules hm
      exact .duplicate hc (points_of_scan hscan ▸ hp)
    | ok r' =>
      rw [hreg] at h
      obtain ⟨node, hnode, r'', hfail⟩ := exists_of_foldlM_error h
      obtain ⟨⟨c, contribution⟩, hm, hn⟩ := List.mem_flatMap.mp hnode
      obtain ⟨hc, hscan⟩ := scan_of_mem_modules hm
      exact blamed_of_install hc hscan hn (Registry.changed_eq_error hfail)

end Install
end PluginHost
