import Mathlib.Data.List.Nodup
import PluginHost.Proofs.Install.Success
import PluginHost.Proofs.TypeGraph.Ancestry

/-! # Installing in another order

A module may extend a point, or derive from a type, that only a later module declares.
That is no trouble, since all types and all points are there before the first extension
is installed.  What the order of the modules does decide is which declaration of a type
counts and which point of several for one type is found.  Where modules are unambiguous in
both (`Install.Unambiguous`), all orders make the same places
(`Install.furnish_of_perm`), and so every order succeeds or none does, and each extension
is dropped in all orders or stands at the same point in all (`Install.same_in_any_order`). -/
namespace PluginHost

namespace Registry

variable {r s : Registry}

/-- Points in another order are found for the same types, if no two are for one type. -/
theorem samePlaces_of_perm (hperm : r.layout.Perm s.layout)
    (hnodup : (r.layout.map (·.capability)).Nodup)
    (htypes : ∀ type, r.types.relations? type = s.types.relations? type) : r.SamePlaces s where
  path_mem_iff path := by
    rw [← map_path_layout, ← map_path_layout]
    exact (hperm.map _).mem_iff
  deduced?_eq := by
    have hone : ∀ type, ∀ p ∈ r.layout, ∀ q ∈ r.layout, (p.capability == type) = true →
        (q.capability == type) = true → p.path = q.path := by
      intro type p hp q hq hptype hqtype
      rw [List.inj_on_of_nodup_map hnodup hp hq
        ((eq_of_beq hptype).trans (eq_of_beq hqtype).symm)]
    funext capability
    simp only [deduced?, map_path_pointFor?, TypeGraph.ancestry_congr htypes,
      fun type => Lists.map_find?_eq_of_perm hperm (hone type)]

end Registry

namespace Install

variable {host : Version} {found found' : List Candidate} {r s s' : Registry}

/-- No type is declared with two different relations, and no two points are for one type:
neither among the modules nor together with what is in the registry. -/
structure Unambiguous (r : Registry) (modules : List (Candidate × Contribution)) : Prop where
  relations_eq : ∀ m ∈ modules, ∀ t ∈ m.1.metadata.types, ∀ m' ∈ modules,
    ∀ t' ∈ m'.1.metadata.types, t.name = t'.name → t.relations = t'.relations
  nodup_capabilities :
    ((r.layout ++ modules.flatMap (·.1.metadata.extensionPoints)).map (·.capability)).Nodup

instance (r : Registry) (modules : List (Candidate × Contribution)) :
    Decidable (Unambiguous r modules) :=
  decidable_of_iff
    ((∀ m ∈ modules, ∀ t ∈ m.1.metadata.types, ∀ m' ∈ modules, ∀ t' ∈ m'.1.metadata.types,
        t.name = t'.name → t.relations = t'.relations) ∧
      ((r.layout ++ modules.flatMap (·.1.metadata.extensionPoints)).map (·.capability)).Nodup)
    ⟨fun h => ⟨h.1, h.2⟩, fun h => ⟨h.relations_eq, h.nodup_capabilities⟩⟩

theorem scanned_perm (hperm : found.Perm found') :
    (scanned host found).Perm (scanned host found') := hperm.filterMap _

/-- What scanned modules bring does not depend on their order, as a whole. -/
theorem flatMap_scanned_perm {β : Type} (host : Version) (hperm : found.Perm found')
    (f : Candidate × Contribution → List β) :
    ((scanned host found).flatMap f).Perm ((scanned host found').flatMap f) :=
  (scanned_perm hperm).flatMap_right f

theorem flatMap_points_scanned (host : Version) (found : List Candidate) :
    (scanned host found).flatMap (·.2.points) =
      (scanned host found).flatMap (·.1.metadata.extensionPoints) := by
  rw [List.flatMap_def, List.flatMap_def]
  exact congrArg List.flatten (List.map_congr_left fun m hm => points_of_scan (mem_scanned.mp hm).2)

theorem Unambiguous.perm {modules modules' : List (Candidate × Contribution)}
    (h : Unambiguous r modules) (hperm : modules.Perm modules') : Unambiguous r modules' where
  relations_eq m hm t ht m' hm' t' ht' :=
    h.relations_eq m (hperm.mem_iff.mpr hm) t ht m' (hperm.mem_iff.mpr hm') t' ht'
  nodup_capabilities :=
    (((hperm.flatMap_right _).append_left r.layout).map _).nodup_iff.mp h.nodup_capabilities

/-- Modules without ambiguous types declare the same relations in each order. -/
theorem Unambiguous.relations?_eq {modules modules' : List (Candidate × Contribution)}
    (h : Unambiguous r modules) (hperm : modules.Perm modules') (type : TypeName) :
    (declareAll modules r).types.relations? type =
      (declareAll modules' r).types.relations? type := by
  have hone : ∀ t ∈ modules.flatMap (·.1.metadata.types),
      ∀ t' ∈ modules.flatMap (·.1.metadata.types), (t.name == type) = true →
        (t'.name == type) = true → t.relations = t'.relations := by
    intro t ht t' ht' htype htype'
    obtain ⟨m, hm, ht⟩ := List.mem_flatMap.mp ht
    obtain ⟨m', hm', ht'⟩ := List.mem_flatMap.mp ht'
    exact h.relations_eq m hm t ht m' hm' t' ht'
      ((eq_of_beq htype).trans (eq_of_beq htype').symm)
  rw [relations?_declareAll, relations?_declareAll,
    Lists.map_find?_eq_of_perm (hperm.flatMap_right _) hone]

/-- Registries that hold the points and the types of the same modules in two orders have the
same places. -/
theorem Unambiguous.samePlaces (h : Unambiguous r (scanned host found))
    (hperm : found.Perm found')
    (hlayout : s.layout = r.layout ++ (scanned host found).flatMap (·.2.points))
    (htypes : s.types = (declareAll (scanned host found) r).types)
    (hlayout' : s'.layout = r.layout ++ (scanned host found').flatMap (·.2.points))
    (htypes' : s'.types = (declareAll (scanned host found') r).types) : s.SamePlaces s' := by
  apply Registry.samePlaces_of_perm
  · rw [hlayout, hlayout']
    exact (flatMap_scanned_perm host hperm _).append_left _
  · rw [hlayout, flatMap_points_scanned]
    exact h.nodup_capabilities
  · intro type
    rw [htypes, htypes', h.relations?_eq (scanned_perm hperm)]

/-- A registry that can be furnished in one order can be furnished in the other, with the
same places. -/
theorem Unambiguous.furnish (hu : Unambiguous r (scanned host found)) (h : r.Consistent)
    (hperm : found.Perm found') (hs : Install.furnish (scanned host found) r = .ok s) :
    ∃ s', Install.furnish (scanned host found') r = .ok s' ∧ s.SamePlaces s' := by
  have hpoints := (flatMap_scanned_perm host hperm (·.2.points)).append_left r.points
  have hfree := (hpoints.map _).nodup_iff.mp ((furnish_isOk_iff h).mp ⟨s, hs⟩)
  obtain ⟨s', hs'⟩ := (furnish_isOk_iff h).mpr hfree
  have hextended := extended_of_furnish h hs
  have hextended' := extended_of_furnish h hs'
  exact ⟨s', hs', hu.samePlaces hperm (hextended.layout_eq vacant_of_mem_scanned)
    hextended.types_eq (hextended'.layout_eq vacant_of_mem_scanned) hextended'.types_eq⟩

/-- **Modules that can be installed in one order can be installed in the other.** -/
theorem Unambiguous.candidates_isOk (hu : Unambiguous r (scanned host found)) (h : r.Consistent)
    (hperm : found.Perm found') (hs : ∃ s, (candidates host found r).2 = .ok s) :
    ∃ s', (candidates host found' r).2 = .ok s' := by
  obtain ⟨hscan, t, hfurnish, hadmits⟩ := (candidates_isOk_iff h).mp hs
  obtain ⟨t', hfurnish', hsame⟩ := hu.furnish h hperm hfurnish
  refine (candidates_isOk_iff h).mpr ⟨?_, t', hfurnish', ?_⟩
  · intro c hc
    exact hscan c (hperm.mem_iff.mpr hc)
  · intro node hnode
    have hmem := (flatMap_scanned_perm host hperm (·.2.nodes)).mem_iff.mpr hnode
    exact hsame.admits_iff.mp (hadmits node hmem)

/-- An extension that modules bring stands in the point of its home, and nowhere else. -/
theorem Brings.placedIn_mem_nodes_iff {modules : List (Candidate × Contribution)}
    (h : Brings r modules s) {node : Extension} (hnode : node ∈ modules.flatMap (·.2.nodes))
    (path : String) : node.placedIn path ∈ s.nodes path ↔ s.home? node = some path := by
  rw [h.consistent.nodes_eq_filter, List.mem_filter, h.extensions_eq, List.mem_filterMap]
  constructor
  · rintro ⟨⟨other, -, hsettled⟩, -⟩
    obtain ⟨home, hhome, hplaced⟩ := Option.map_eq_some_iff.mp hsettled
    -- The home of an extension does not depend on where it stands.
    have hsame : s.home? other = s.home? node := by
      change s.home? (other.placedIn home) = s.home? (node.placedIn path)
      rw [hplaced]
    obtain rfl : home = path := Option.some.inj (congrArg Extension.path hplaced)
    rw [← hsame, hhome]
  · intro hhome
    exact ⟨⟨node, hnode, by rw [Registry.settled?, hhome]; rfl⟩, beq_self_eq_true (some path)⟩

/-- **Installation does not depend on the order of the modules.**  Where no type is declared
with two different relations and no two points are for one type, modules in two orders can
both be installed or neither can.  When they can, the two registries list the same
extensions, and each extension of the modules has a home: there it stands in both, and in
no other point of either; without a home it was dropped by both. -/
theorem same_in_any_order (host : Version) (points : List PointDeclaration) (seeded : Registry)
    (found found' : List Candidate)
    (hseeded : Registry.registerAll (points.map (·.point)) {} = .ok seeded)
    (hunambiguous : Unambiguous seeded (scanned host found)) (hperm : found.Perm found') :
    ((∃ r, (candidates host found seeded).2 = .ok r) ↔
      ∃ r', (candidates host found' seeded).2 = .ok r') ∧
    ∀ r r', (candidates host found seeded).2 = .ok r →
      (candidates host found' seeded).2 = .ok r' →
      r.extensions.Perm r'.extensions ∧
      ∀ m ∈ scanned host found, ∀ node ∈ m.2.nodes, ∃ home : Option String, ∀ path,
        (node.placedIn path ∈ r.nodes path ↔ home = some path) ∧
        (node.placedIn path ∈ r'.nodes path ↔ home = some path) := by
  have hextended : Registry.Extended {} (points.map (·.point)) seeded := by
    refine .of_registerAll Registry.consistent_empty (fun point hpoint => ?_) hseeded
    obtain ⟨declaration, -, rfl⟩ := List.mem_map.mp hpoint
    rfl
  have hconsistent := hextended.consistent
  refine ⟨⟨hunambiguous.candidates_isOk hconsistent hperm,
    (hunambiguous.perm (scanned_perm hperm)).candidates_isOk hconsistent hperm.symm⟩, ?_⟩
  intro r r' hr hr'
  have hbrings := Brings.of_candidates hconsistent hextended.extensions_eq hr
  have hbrings' := Brings.of_candidates hconsistent hextended.extensions_eq hr'
  have hsame : r.SamePlaces r' := hunambiguous.samePlaces hperm hbrings.layout_eq hbrings.types_eq
    hbrings'.layout_eq hbrings'.types_eq
  have hnodes := flatMap_scanned_perm host hperm (·.2.nodes)
  refine ⟨?_, ?_⟩
  · rw [hbrings.extensions_eq, hbrings'.extensions_eq, ← hsame.settled?_eq]
    exact hnodes.filterMap _
  · intro m hm node hnode
    refine ⟨r.home? node, ?_⟩
    intro path
    have hmem : node ∈ (scanned host found).flatMap (·.2.nodes) :=
      List.mem_flatMap.mpr ⟨m, hm, hnode⟩
    refine ⟨hbrings.placedIn_mem_nodes_iff hmem path, ?_⟩
    rw [hbrings'.placedIn_mem_nodes_iff (hnodes.mem_iff.mp hmem), hsame.home?_eq]

/-- A module with extensions for points that others declare: for one of the host, for one that
only a base type in another module leads to, and for none. -/
def sampleWriters : Option Candidate :=
  (Candidate.of ⟨"writers.wasm"⟩ {
    name := "writers"
    version := "1.0"
    types := [{ name := ⟨"Xml"⟩, base := some ⟨"Base"⟩, extension := some {} },
      { name := ⟨"Stray"⟩, extension := some {} },
      { name := ⟨"Named"⟩, extension := some { path := some "/host" } }] } true).toOption

/-- A module with a point and a base type that leads to it. -/
def sampleFormats : Option Candidate :=
  (Candidate.of ⟨"formats.wasm"⟩ {
    name := "formats"
    version := "1.0"
    points := [⟨"/formats", ⟨"Format"⟩, none⟩]
    types := [{ name := ⟨"Base"⟩, implements := [⟨"Format"⟩] }] } false).toOption

/-- Both modules, the one with the extensions first. -/
def samples : List Candidate := sampleWriters.toList ++ sampleFormats.toList

/-- Both modules, the one with the extensions last. -/
def samplesSwapped : List Candidate := sampleFormats.toList ++ sampleWriters.toList

/-- The extensions of one module come to stand in the points of the host and of the other
module, whichever module is first. -/
theorem same_in_any_order_of_two :
    ∃ seeded r r',
      Registry.registerAll ([⟨"/host", ⟨"Host"⟩, none⟩].map PointDeclaration.point) {} =
        .ok seeded ∧
      Unambiguous seeded (scanned (.release 1 0 0) samples) ∧
      (candidates (.release 1 0 0) samples seeded).2 = .ok r ∧
      (candidates (.release 1 0 0) samplesSwapped seeded).2 = .ok r' ∧
      r.extensions.map (fun node => (node.capability.text, node.path)) =
        [("Xml", some "/formats"), ("Named", some "/host")] ∧
      r.extensions.Perm r'.extensions := by
  have hcomputed : ((Registry.registerAll ([⟨"/host", ⟨"Host"⟩, none⟩].map
      PointDeclaration.point) {}).toOption.any fun seeded =>
        decide (Unambiguous seeded (scanned (.release 1 0 0) samples)) &&
        (candidates (.release 1 0 0) samples seeded).2.toOption.any fun r =>
          r.extensions.map (fun node => (node.capability.text, node.path)) ==
            [("Xml", some "/formats"), ("Named", some "/host")]) = true := by
    decide +kernel
  obtain ⟨seeded, hseeded, hcomputed⟩ := (Option.any_eq_true _ _).mp hcomputed
  obtain ⟨hunambiguous, hcomputed⟩ := Bool.and_eq_true_iff.mp hcomputed
  obtain ⟨r, hr, hlist⟩ := (Option.any_eq_true _ _).mp hcomputed
  have hperm : samples.Perm samplesSwapped := List.perm_append_comm
  obtain ⟨hok, hsame⟩ := same_in_any_order _ _ seeded _ _ (eq_ok_of_toOption hseeded)
    (of_decide_eq_true hunambiguous) hperm
  obtain ⟨r', hr'⟩ := hok.mp ⟨r, eq_ok_of_toOption hr⟩
  exact ⟨seeded, r, r', eq_ok_of_toOption hseeded, of_decide_eq_true hunambiguous,
    eq_ok_of_toOption hr, hr', eq_of_beq hlist, (hsame r r' (eq_ok_of_toOption hr) hr').1⟩

end Install
end PluginHost
