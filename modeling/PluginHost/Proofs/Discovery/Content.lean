import PluginHost.Proofs.Discovery.Order
import PluginHost.Proofs.Install.Content

/-! # What is in a discovered registry

A registry that was discovered holds the points of the host and what the modules that
can be scanned bring, in the order of the modules (`Discovery.content_of_registry`).
The modules are those that the walk holds in the end: of each name one, and none for
a runtime that the host does not have (`Discovery.holds_collect`). -/
namespace PluginHost

theorem CandidateIndex.KeepsBest.eq_of_identity {offers : List Candidate} {index : CandidateIndex}
    (h : index.KeepsBest offers) {c d : Candidate} (hc : c ∈ index.candidates)
    (hd : d ∈ index.candidates) (hname : c.identity = d.identity) : c = d := by
  have hnodup : (index.candidates.map (·.identity)).Nodup := h.names ▸ Lists.nodup_eraseDups _
  exact List.inj_on_of_nodup_map hnodup hc hd hname

namespace Discovery

variable {d : Discovery} {fs : FileSystem} {source : MetadataSource}
  {capabilities : List HostCapability} {start : Path} {found : List Candidate} {r : Registry}

/-- What a call that succeeds has found: modules that the host can use, and of each name
one. -/
theorem holds_collect (h : (d.collect fs source start).result = .ok found) :
    (∀ c ∈ found, d.index.host.family.accepts c.runtime = true) ∧
      ∀ c ∈ found, ∀ c' ∈ found, c.identity = c'.identity → c = c' := by
  obtain ⟨-, -, rfl⟩ := collect_eq_ok h
  have hholds : (d.surroundings fs source).HoldsReads d.index.host (d.walkFrom fs source start).1 :=
    Surroundings.holdsReads_walk rfl rfl
  exact ⟨fun c hc => (List.mem_filter.mp (hholds.best c hc).mem).2,
    fun c hc c' hc' => hholds.eq_of_identity hc hc'⟩

/-- The modules that a call has found are those it leaves behind. -/
theorem candidates_collect (h : (d.collect fs source start).result = .ok found) :
    (d.collect fs source start).discovery.candidates = found := by
  obtain ⟨⟨home, hstart, hhome⟩, -, hfound⟩ := collect_eq_ok h
  rw [candidates, index_collect (FileSystem.isDirectory_iff.mpr ⟨home, hstart, hhome⟩), hfound]

/-- A call that succeeds has registered the points of the host, has found modules, keeps
them, and has installed what they bring. -/
theorem discover_eq_ok (h : (d.discover fs source capabilities start).result = .ok r) :
    ∃ seeded, Registry.registerAll (capabilities.map (·.point)) {} = .ok seeded ∧
      (d.collect fs source start).result =
        .ok (d.discover fs source capabilities start).discovery.candidates ∧
      (Install.candidates d.options.hostVersion
        (d.discover fs source capabilities start).discovery.candidates seeded).2 = .ok r := by
  cases hseeded : Registry.registerAll (capabilities.map (·.point)) {} with
  | error e =>
    rw [discover, hseeded] at h
    cases h
  | ok seeded =>
    cases hcollect : (d.collect fs source start).result with
    | error e =>
      simp only [discover, hseeded, hcollect] at h
      cases h
    | ok found =>
      have hkept : (d.discover fs source capabilities start).discovery.candidates = found := by
        rw [← candidates_collect hcollect]
        simp only [discover, hseeded, hcollect]
        split <;> rfl
      rw [result_discover hseeded hcollect] at h
      rw [hkept]
      exact ⟨seeded, rfl, rfl, h⟩

/-- The points of the host are registered in their order, and nothing else. -/
theorem extended_of_registerAll {seeded : Registry}
    (h : Registry.registerAll (capabilities.map (·.point)) {} = .ok seeded) :
    Registry.Extended {} (capabilities.map (·.point)) seeded := by
  refine .of_registerAll Registry.consistent_empty (fun point hpoint => ?_) h
  obtain ⟨capability, -, rfl⟩ := List.mem_map.mp hpoint
  rfl

/-- What a call that succeeds has installed. -/
theorem brings_of_candidates {host : Version} {seeded : Registry}
    (hseeded : Registry.registerAll (capabilities.map (·.point)) {} = .ok seeded)
    (h : (Install.candidates host found seeded).2 = .ok r) :
    Install.Brings seeded (Install.scanned host found) r := by
  have hextended := extended_of_registerAll hseeded
  exact .of_candidates hextended.consistent (hextended.extensions_eq.trans rfl) h

/-- **What is in a discovered registry.**  The points are those of the host and then those
of the modules that can be scanned; the first declaration of a type counts; the listing
of extensions has, in the order of the modules and of their types, each extension that
names a point or for whose type one is found, and each stands in that point.  A module
that cannot be scanned was found by a wildcard, and without it the registry is the same.
What is told of an extension is told of a module that was found and that the host can
use, and of one name only one module is used. -/
theorem content_of_registry (d : Discovery) (fs : FileSystem) (source : MetadataSource)
    (capabilities : List HostCapability) (start : Path) (r : Registry)
    (h : (d.discover fs source capabilities start).result = .ok r) :
    let host := d.options.hostVersion
    let found := (d.discover fs source capabilities start).discovery.candidates
    let scanned := Install.scanned host found
    r.layout = capabilities.map (·.point) ++
      scanned.flatMap (fun m => m.1.metadata.extensionPoints) ∧
    (∀ type, r.types.relations? type =
      ((scanned.flatMap fun m => m.1.metadata.types).find? (·.name == type)).map (·.relations)) ∧
    (∀ m ∈ scanned, m.2.nodes = m.1.metadata.types.filterMap (Install.extensionFor? host m.1)) ∧
    r.extensions = (scanned.flatMap fun m => m.2.nodes).filterMap r.settled? ∧
    (∀ point ∈ r.points, point.nodes = r.extensions.filter (·.path == some point.path)) ∧
    (∀ node ∈ r.extensions, ∃ point ∈ r.points, node ∈ point.nodes) ∧
    (∀ c ∈ found, ∀ e, c.scan host = .error e → c.fromWildcard = true) ∧
    (∃ seeded, Registry.registerAll (capabilities.map (·.point)) {} = .ok seeded ∧
      (Install.candidates host (found.filter (Install.isScannable host)) seeded).2 = .ok r) ∧
    (∀ node ∈ r.extensions, ∃ c ∈ found, Install.ComesFrom c node ∧
      d.index.host.family.accepts node.runtime = true) ∧
    ∀ m ∈ scanned, ∀ m' ∈ scanned, m.1.metadata.identity = m'.1.metadata.identity →
      ∀ node ∈ m.2.nodes.filterMap r.settled?, ∀ node' ∈ m'.2.nodes.filterMap r.settled?,
        node.modulePath = node'.modulePath ∧ node.moduleVersion = node'.moduleVersion := by
  intro host found scanned
  obtain ⟨seeded, hseeded, hcollect, hinstall⟩ := discover_eq_ok h
  obtain ⟨husable, hone⟩ := holds_collect hcollect
  obtain ⟨hfault, -⟩ := Install.candidates_eq_ok hinstall
  have hextended := extended_of_registerAll hseeded
  have hbrings := brings_of_candidates hseeded hinstall
  have hseeds : seeded.layout = capabilities.map (·.point) := by
    rw [Registry.layout, hextended.points_eq]
    simp [ExtensionPoint.vacant, HostCapability.point, Function.comp_def]
  have hpoints : scanned.flatMap (·.2.points) =
      scanned.flatMap (fun m => m.1.metadata.extensionPoints) := by
    rw [List.flatMap_def, List.map_congr_left fun m hm =>
      Install.points_of_scan (Install.mem_scanned.mp hm).2, ← List.flatMap_def]
  refine ⟨?_, fun type => ?_, fun m hm => Install.nodes_of_scan (Install.mem_scanned.mp hm).2,
    hbrings.extensions_eq, fun point hpoint => ?_, fun node hnode => ?_,
    fun c hc e hscan => Install.fromWildcard_of_scan_eq_error hfault hc hscan,
    ⟨seeded, hseeded, Install.candidates_filter_scannable hinstall⟩, fun node hnode => ?_,
    fun m hm m' hm' hname node hnode node' hnode' => ?_⟩
  · rw [hbrings.layout_eq, hseeds, hpoints]
  · rw [hbrings.types_eq, Install.relations?_declareAll, hextended.types_eq]
    rfl
  · obtain ⟨index, hindex⟩ := List.mem_iff_getElem?.mp hpoint
    exact (hbrings.consistent.filter_extensions hindex).symm
  · exact List.mem_flatMap.mp (hbrings.consistent.perm_extensions.mem_iff.mp hnode)
  · rw [hbrings.extensions_eq, List.filterMap_flatMap] at hnode
    obtain ⟨m, hm, hnode⟩ := List.mem_flatMap.mp hnode
    have hfrom := Install.comesFrom_of_mem_settled hm hnode
    have hfound := (Install.mem_scanned.mp hm).1
    exact ⟨m.1, hfound, hfrom, by rw [hfrom.runtime]; exact husable m.1 hfound⟩
  · obtain heq := hone m.1 (Install.mem_scanned.mp hm).1 m'.1 (Install.mem_scanned.mp hm').1 hname
    have hfrom := Install.comesFrom_of_mem_settled hm hnode
    have hfrom' := Install.comesFrom_of_mem_settled hm' hnode'
    exact ⟨by rw [hfrom.path, hfrom'.path, heq], by rw [hfrom.version, hfrom'.version, heq]⟩

/-- The module of the sample brings its extension, and a host with a point for its type
has it installed there. -/
theorem content_of_registry_of_sample :
    ∃ r, (initial.discover wildcardFirst (sampleSource wildcardFirst)
        [⟨"/writers", ⟨"Writer"⟩, "Writes reports"⟩] ⟨"/"⟩).result = .ok r ∧
      r.extensions.map (·.path) = [some "/writers"] ∧
      (∀ point ∈ r.points, point.nodes = r.extensions.filter (·.path == some point.path)) ∧
      ∀ node ∈ r.extensions, ∃ c ∈ (initial.discover wildcardFirst (sampleSource wildcardFirst)
          [⟨"/writers", ⟨"Writer"⟩, "Writes reports"⟩] ⟨"/"⟩).discovery.candidates,
        Install.ComesFrom c node ∧ initial.index.host.family.accepts node.runtime = true := by
  have hcomputed : (((initial.collectWithin 9 wildcardFirst (sampleSource wildcardFirst)
      ⟨"/"⟩).bind Except.toOption).any fun found =>
        (Registry.registerAll ([⟨"/writers", ⟨"Writer"⟩, "Writes reports"⟩].map
          HostCapability.point) {}).toOption.any fun seeded =>
          (Install.candidates initial.options.hostVersion found seeded).2.toOption.any fun r =>
            r.extensions.map (·.path) == [some "/writers"]) = true := by
    decide +kernel
  obtain ⟨found, hsome, hcomputed⟩ := (Option.any_eq_true _ _).mp hcomputed
  obtain ⟨result, hresult, hok⟩ := Option.bind_eq_some_iff.mp hsome
  obtain ⟨seeded, hseeded, hcomputed⟩ := (Option.any_eq_true _ _).mp hcomputed
  obtain ⟨r, hinstall, hpaths⟩ := (Option.any_eq_true _ _).mp hcomputed
  have hfound := (result_collect_of_collectWithin hresult).trans (eq_ok_of_toOption hok)
  have hdiscover : (initial.discover wildcardFirst (sampleSource wildcardFirst)
      [⟨"/writers", ⟨"Writer"⟩, "Writes reports"⟩] ⟨"/"⟩).result = .ok r :=
    (result_discover (eq_ok_of_toOption hseeded) hfound).trans (eq_ok_of_toOption hinstall)
  obtain ⟨-, -, -, -, hnodes, -, -, -, hfrom, -⟩ := content_of_registry initial wildcardFirst
    (sampleSource wildcardFirst) _ ⟨"/"⟩ r hdiscover
  exact ⟨r, hdiscover, eq_of_beq hpaths, hnodes, hfrom⟩

end Discovery
end PluginHost
