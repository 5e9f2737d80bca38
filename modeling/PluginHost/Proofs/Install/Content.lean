import PluginHost.Proofs.Install.Origins
import PluginHost.Proofs.Registry.Installing

/-! # What modules bring into a registry

The modules that can be scanned (`Install.scanned`) bring their points, their types and
their extensions into a registry, each kind in the order of the modules
(`Install.Brings`).  The first declaration of a type counts (`relations?_declareAll`).
Where an installation succeeds the other modules were found by wildcards
(`fromWildcard_of_scan_eq_error`), and it is as if they had not been found at all
(`candidates_filter_scannable`). -/
namespace PluginHost

/-- What a type says about its relations. -/
def TypeDeclaration.relations (t : TypeDeclaration) : Relations := ⟨t.implements, t.base⟩

namespace TypeGraph

/-- The first declaration of a type counts. -/
theorem relations?_declare (name : TypeName) (relations : Relations) (g : TypeGraph)
    (asked : TypeName) : (g.declare name relations).relations? asked =
      (g.relations? asked).or (if asked = name then some relations else none) := by
  unfold declare
  split
  · rename_i hdeclared
    split
    · rename_i heq
      obtain ⟨known, hknown⟩ := Option.isSome_iff_exists.mp (heq ▸ hdeclared)
      rw [hknown, Option.some_or]
    · rw [Option.or_none]
  · rw [TypeGraph.relations?, List.lookup_append, List.lookup_cons]
    by_cases heq : asked = name
    · simp [heq, TypeGraph.relations?]
    · have hne : (asked == name) = false := by simpa using heq
      simp [hne, heq, TypeGraph.relations?]

/-- The first of several declarations of a type counts. -/
theorem relations?_declareEach (types : List TypeDeclaration) (g : TypeGraph)
    (asked : TypeName) :
    (types.foldl (fun g type => g.declare type.name type.relations) g).relations? asked =
      (g.relations? asked).or ((types.find? (·.name == asked)).map (·.relations)) := by
  induction types generalizing g with
  | nil => rw [List.find?_nil, Option.map_none, Option.or_none]; rfl
  | cons type types ih =>
    rw [List.foldl_cons, ih, relations?_declare, Option.or_assoc, List.find?_cons]
    by_cases hname : type.name = asked
    · simp [hname]
    · have hne : (type.name == asked) = false := by simpa using hname
      simp [hne, Ne.symm hname]

/-- What a module says of a type counts if nothing was said of it before. -/
theorem relations?_merge (m : Metadata) (g : TypeGraph) (asked : TypeName) :
    (g.merge m).relations? asked =
      (g.relations? asked).or ((m.types.find? (·.name == asked)).map (·.relations)) :=
  relations?_declareEach m.types g asked

end TypeGraph

/-- The points of a module are without extensions. -/
theorem Metadata.vacant_extensionPoints (m : Metadata) :
    ∀ point ∈ m.extensionPoints, point.nodes = [] := by
  intro point hpoint
  rw [Metadata.extensionPoints] at hpoint
  obtain hpoint | hpoint := List.mem_append.mp hpoint
  · obtain ⟨declaration, -, rfl⟩ := List.mem_map.mp hpoint
    rfl
  · obtain ⟨t, -, ht⟩ := List.mem_filterMap.mp hpoint
    obtain ⟨mark, -, rfl⟩ := Option.map_eq_some_iff.mp ht
    rfl

namespace Install

variable {host : Version} {found : List Candidate} {r s : Registry}

/-- The modules that can be scanned, with what they bring. -/
def scanned (host : Version) (found : List Candidate) : List (Candidate × Contribution) :=
  found.filterMap fun c => (c.scan host).toOption.map fun brought => (c, brought)

theorem mem_scanned {c : Candidate} {brought : Contribution} :
    (c, brought) ∈ scanned host found ↔ c ∈ found ∧ c.scan host = .ok brought := by
  rw [scanned, List.mem_filterMap]
  constructor
  · rintro ⟨d, hd, hscan⟩
    obtain ⟨other, hother, heq⟩ := Option.map_eq_some_iff.mp hscan
    obtain ⟨rfl, rfl⟩ := Prod.mk.inj heq
    exact ⟨hd, eq_ok_of_toOption hother⟩
  · rintro ⟨hc, hscan⟩
    exact ⟨c, hc, by rw [hscan]; rfl⟩

/-! ## Scanning -/

/-- The extension of a type, if it has one and the scan does not fail at it. -/
def extensionFor? (host : Version) (c : Candidate) (t : TypeDeclaration) : Option Extension :=
  (c.extension? host t).toOption.join

/-- The extensions of types without a fault, in the order of the types. -/
theorem extensionsOf_eq {c : Candidate} {types : List TypeDeclaration} {nodes : List Extension}
    (h : c.extensionsOf host types = (nodes, none)) :
    nodes = types.filterMap (extensionFor? host c) := by
  induction types generalizing nodes with
  | nil => exact (Prod.mk.inj h).1.symm
  | cons t types ih =>
    rw [Candidate.extensionsOf] at h
    rw [List.filterMap_cons, extensionFor?]
    rcases ht : c.extension? host t with e | _ | node
    · rw [ht] at h
      cases (Prod.mk.inj h).2
    · rw [ht] at h
      exact ih h
    · rw [ht] at h
      obtain ⟨rfl, hfault⟩ := Prod.mk.inj h
      exact congrArg (node :: ·) (ih (Prod.ext rfl hfault))

theorem nodes_of_scan {c : Candidate} {brought : Contribution} (h : c.scan host = .ok brought) :
    brought.nodes = c.metadata.types.filterMap (extensionFor? host c) := by
  unfold Candidate.scan at h
  split at h
  · cases h
  · rename_i nodes hnodes
    rw [← Except.ok.inj h]
    exact extensionsOf_eq hnodes

/-- What is told of an extension is told of the module. -/
structure ComesFrom (c : Candidate) (node : Extension) : Prop where
  path : node.modulePath = c.path
  version : node.moduleVersion = c.version
  runtime : node.runtime = c.runtime
  fromWildcard : node.fromWildcard = c.fromWildcard

theorem comesFrom_of_scan {c : Candidate} {brought : Contribution}
    (h : c.scan host = .ok brought) {node : Extension} (hnode : node ∈ brought.nodes) :
    ComesFrom c node := by
  obtain ⟨t, -, mark, -, rfl⟩ := Candidate.mem_nodes_scan h hnode
  exact ⟨rfl, rfl, rfl, rfl⟩

/-- An extension keeps what is told of it when it is installed. -/
theorem comesFrom_of_mem_settled {m : Candidate × Contribution} (hm : m ∈ scanned host found)
    {node : Extension} (hnode : node ∈ m.2.nodes.filterMap r.settled?) : ComesFrom m.1 node := by
  obtain ⟨brought, hbrought, hsettled⟩ := List.mem_filterMap.mp hnode
  obtain ⟨path, -, rfl⟩ := Option.map_eq_some_iff.mp hsettled
  obtain ⟨hpath, hversion, hruntime, hwild⟩ :=
    comesFrom_of_scan (mem_scanned.mp hm).2 hbrought
  exact ⟨hpath, hversion, hruntime, hwild⟩

/-- A scan without a fault has every module that can be scanned. -/
theorem modules_scanAll (h : (scanAll host found).fault = none) :
    (scanAll host found).modules = scanned host found := by
  induction found with
  | nil => rfl
  | cons c found ih =>
    rw [scanAll] at h ⊢
    rw [scanned, List.filterMap_cons]
    cases hscan : c.scan host with
    | ok brought =>
      rw [hscan] at h
      exact congrArg ((c, brought) :: ·) (ih h)
    | error e =>
      rw [hscan] at h
      cases hw : c.fromWildcard with
      | true => exact ih (by simpa [hw] using h)
      | false => simp [hw] at h

/-- A scan without a fault has skipped what wildcards found only. -/
theorem fromWildcard_of_scan_eq_error (h : (scanAll host found).fault = none) {c : Candidate}
    (hc : c ∈ found) {e : HostError} (hscan : c.scan host = .error e) :
    c.fromWildcard = true := by
  induction found with
  | nil => cases hc
  | cons d found ih =>
    rw [scanAll] at h
    cases hd : d.scan host with
    | ok brought =>
      rw [hd] at h
      obtain rfl | hc := List.mem_cons.mp hc
      · rw [hd] at hscan
        cases hscan
      · exact ih h hc
    | error fault =>
      rw [hd] at h
      cases hw : d.fromWildcard with
      | false => simp [hw] at h
      | true =>
        obtain rfl | hc := List.mem_cons.mp hc
        · exact hw
        · exact ih (by simpa [hw] using h) hc

/-- A module that can be scanned. -/
def isScannable (host : Version) (c : Candidate) : Bool := (c.scan host).toOption.isSome

theorem fault_scanAll_filter : (scanAll host (found.filter (isScannable host))).fault = none := by
  cases hfault : (scanAll host (found.filter (isScannable host))).fault with
  | none => rfl
  | some e =>
    obtain ⟨c, hc, -, hscan⟩ := fault_scanAll hfault
    have hscannable := (List.mem_filter.mp hc).2
    rw [isScannable, hscan] at hscannable
    cases hscannable

theorem scanned_filter : scanned host (found.filter (isScannable host)) = scanned host found := by
  rw [scanned, List.filterMap_filter]
  refine List.filterMap_congr fun c _ => ?_
  rw [isScannable]
  cases c.scan host <;> rfl

/-- An installation that succeeds installs what was scanned. -/
theorem candidates_eq_ok (h : (candidates host found r).2 = .ok s) :
    (scanAll host found).fault = none ∧ addAll (scanned host found) r = .ok s := by
  simp only [candidates] at h
  split at h
  · cases h
  · rename_i hfault
    exact ⟨hfault, by rw [← modules_scanAll hfault]; exact h⟩

/-- **A module that cannot be scanned leaves no trace**: the installation without it gives
the same registry. -/
theorem candidates_filter_scannable (h : (candidates host found r).2 = .ok s) :
    (candidates host (found.filter (isScannable host)) r).2 = .ok s := by
  obtain ⟨-, hadd⟩ := candidates_eq_ok h
  simp only [candidates, fault_scanAll_filter, modules_scanAll fault_scanAll_filter,
    scanned_filter]
  exact hadd

/-! ## Installing -/

/-- The first of several declarations of a type counts, also when modules declare it. -/
theorem relations?_declareAll (modules : List (Candidate × Contribution)) (r : Registry)
    (asked : TypeName) : (declareAll modules r).types.relations? asked =
      (r.types.relations? asked).or
        (((modules.flatMap (·.1.metadata.types)).find? (·.name == asked)).map (·.relations)) := by
  rw [← TypeGraph.relations?_declareEach, List.foldl_flatMap]
  rfl

/-- What modules bring into a registry in which nothing is installed. -/
structure Brings (r : Registry) (modules : List (Candidate × Contribution)) (s : Registry) :
    Prop where
  consistent : s.Consistent
  layout_eq : s.layout = r.layout ++ modules.flatMap (·.2.points)
  types_eq : s.types = (declareAll modules r).types
  extensions_eq : s.extensions = (modules.flatMap (·.2.nodes)).filterMap s.settled?

/-- Points are brought without extensions. -/
theorem vacant_of_scan {c : Candidate} {brought : Contribution} (h : c.scan host = .ok brought) :
    ∀ point ∈ brought.points, point.nodes = [] := by
  rw [points_of_scan h]
  exact c.metadata.vacant_extensionPoints

/-- **What was scanned is in the registry**: its points behind those that were there, its
types, and its extensions that have a home. -/
theorem Brings.of_addAll {modules : List (Candidate × Contribution)} (h : r.Consistent)
    (hnone : r.extensions = []) (hpoints : ∀ m ∈ modules, ∀ point ∈ m.2.points, point.nodes = [])
    (hs : addAll modules r = .ok s) : Brings r modules s := by
  obtain ⟨t, hregister, hinstall⟩ := bind_eq_ok hs
  have hempty : ∀ point ∈ modules.flatMap (·.2.points), point.nodes = [] := fun point hpoint => by
    obtain ⟨m, hm, hpoint⟩ := List.mem_flatMap.mp hpoint
    exact hpoints m hm point hpoint
  have hextended := Registry.Extended.of_registerAll (h.declareTypes _) hempty hregister
  have hfilled := Registry.Filled.of_installAll hextended.consistent hinstall
  refine ⟨hfilled.consistent, hfilled.layout_eq.trans (hextended.layout_eq hempty),
    hfilled.types_eq.trans hextended.types_eq, ?_⟩
  rw [hfilled.extensions_eq, hextended.extensions_eq,
    Registry.settled?_congr hfilled.layout_eq hfilled.types_eq]
  exact congrArg (· ++ _) hnone

theorem Brings.of_candidates (h : r.Consistent) (hnone : r.extensions = [])
    (hs : (candidates host found r).2 = .ok s) : Brings r (scanned host found) s :=
  .of_addAll h hnone (fun _ hm => vacant_of_scan (mem_scanned.mp hm).2) (candidates_eq_ok hs).2

end Install
end PluginHost
