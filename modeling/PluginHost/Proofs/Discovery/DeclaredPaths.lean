import PluginHost.Proofs.Discovery.Content
import PluginHost.Proofs.Install.ModuleOrder

/-! # Declaring a point and naming it

A module declares a point under a path, and an extension names the point it is for by its
path.  The path of a declaration is taken as it is written, while the path that an extension
names is trimmed first.  So an extension that writes the path in the same way finds the point
just when the path has no blanks at its ends (`Discovery.same_text_reaches_point`).  With
blanks it is sent to another path, and where there is no point of that path, the whole
discovery fails, although the point that was meant is there
(`Discovery.padded_text_misses_point`). -/
namespace PluginHost

namespace Install

variable {host : Version} {found : List Candidate} {r : Registry} {node : Extension}

/-- A module that can be scanned declares this point. -/
def Declares (host : Version) (found : List Candidate) (p : PointDeclaration) : Prop :=
  ∃ m ∈ scanned host found, p ∈ m.1.metadata.points

/-- A module that can be scanned has this extension, for which the host is new enough, and
names its point by this text. -/
def NamesPoint (host : Version) (found : List Candidate) (node : Extension) (text : String) :
    Prop :=
  ∃ m ∈ scanned host found, ∃ t ∈ m.1.metadata.types, ∃ mark, t.extension = some mark ∧
    isNewEnough host mark.engineVersion = .ok true ∧ mark.path = some text ∧
    node = m.1.extensionOf t.name mark

/-- A point that is declared is brought as it is declared. -/
theorem Declares.mem_points {p : PointDeclaration} (h : Declares host found p) :
    p.point ∈ (scanned host found).flatMap (·.2.points) := by
  obtain ⟨m, hm, hp⟩ := h
  refine List.mem_flatMap.mpr ⟨m, hm, ?_⟩
  rw [points_of_scan (mem_scanned.mp hm).2, Metadata.extensionPoints]
  exact List.mem_append_left _ (List.mem_map_of_mem hp)

/-- An extension for which the host is new enough is brought. -/
theorem NamesPoint.mem_nodes {text : String} (h : NamesPoint host found node text) :
    node ∈ (scanned host found).flatMap (·.2.nodes) := by
  obtain ⟨m, hm, t, ht, mark, hmark, hnew, -, rfl⟩ := h
  refine List.mem_flatMap.mpr ⟨m, hm, ?_⟩
  rw [nodes_of_scan (mem_scanned.mp hm).2, List.mem_filterMap]
  refine ⟨t, ht, ?_⟩
  simp only [extensionFor?, Candidate.extension?, hmark, hnew]
  rfl

/-- The path that an extension names is trimmed. -/
theorem NamesPoint.declaredPath_eq {text : String} (h : NamesPoint host found node text)
    (hgiven : Text.trimmed text ≠ "") : node.declaredPath = some (Text.trimmed text) := by
  obtain ⟨m, -, t, -, mark, -, -, hpath, rfl⟩ := h
  change givenPath mark.path = _
  rw [givenPath, hpath, Option.map_some]
  exact Option.filter_some_pos (bne_iff_ne.mpr hgiven)

/-- Installing extensions fails for want of a point only when no point of the path is there. -/
theorem not_mem_of_installAll {nodes : List Extension} {path : String} {capability : TypeName}
    (h : r.Consistent) (hfail : installAll nodes r = .error (.unknownPoint path capability)) :
    path ∉ r.points.map (·.path) := by
  obtain ⟨passed, node, rest, t, -, hpassed, hlast⟩ := exists_split_of_foldlM_error hfail
  -- The extensions in front of the one that fails have moved no point.
  have hfilled := Registry.Filled.of_installAll h hpassed
  have hpaths : t.points.map (·.path) = r.points.map (·.path) := by
    rw [← Registry.map_path_layout, hfilled.layout_eq, Registry.map_path_layout]
  have htarget := Registry.target_of_install_eq_error (Registry.changed_eq_error hlast)
  obtain ⟨named, -, hfree, heq⟩ | ⟨-, -, -, heq⟩ := Registry.target_eq_error htarget
  · obtain rfl : path = named := (HostError.unknownPoint.inj heq).1
    rw [← hpaths, ← hfilled.consistent.position?_isSome_iff, hfree]
    rintro ⟨index, hindex⟩
    cases hindex
  · cases heq

/-- An installation complains of an unknown point only when no point of the path is there:
neither one that was there before nor one of the modules. -/
theorem not_mem_of_unknownPoint {path : String} {capability : TypeName} (h : r.Consistent)
    (hfail : (candidates host found r).2 = .error (.unknownPoint path capability)) :
    path ∉ (r.points ++ (scanned host found).flatMap (·.2.points)).map (·.path) := by
  simp only [candidates] at hfail
  split at hfail
  · rename_i fault hfault
    obtain ⟨c, -, -, hscan⟩ := fault_scanAll hfault
    obtain ⟨t, -, text, -, rfl⟩ := Candidate.scan_eq_error hscan
    cases hfail
  · rename_i hfault
    rw [modules_scanAll hfault, addAll, ← furnish] at hfail
    cases hfurnish : furnish (scanned host found) r with
    | error e =>
      obtain ⟨point, -, rfl⟩ := Registry.registerAll_eq_error hfurnish
      rw [hfurnish] at hfail
      cases hfail
    | ok furnished =>
      have hextended := extended_of_furnish h hfurnish
      rw [hfurnish] at hfail
      have hfree := not_mem_of_installAll hextended.consistent hfail
      rw [hextended.points_eq] at hfree
      exact hfree

end Install

namespace Discovery

variable {fs : FileSystem} {source : MetadataSource} {capabilities : List HostCapability}
  {start : Path} {found : List Candidate}

/-- **Who writes the path of a point in the same way finds the point, if the path has no
blanks at its ends.**  Let a module declare a point and let an extension of any module name
its point by the same text, which is not blank.  If trimming leaves the text as it is, a
discovery never complains that there is no such point.  In a registry that is discovered, the
point stands under the text as it is, and the extension stands in the point of the trimmed
text and in no other; so it stands in the point that was declared just when trimming leaves
the text as it is. -/
theorem same_text_reaches_point (d : Discovery) (p : PointDeclaration) (node : Extension)
    (hfound : (d.collect fs source start).result = .ok found)
    (hdeclared : Install.Declares d.options.hostVersion found p)
    (hnamed : Install.NamesPoint d.options.hostVersion found node p.path)
    (hgiven : Text.trimmed p.path ≠ "") :
    (Text.trimmed p.path = p.path → ∀ capability,
      (d.discover fs source capabilities start).result ≠ .error (.unknownPoint p.path capability)) ∧
    ∀ r, (d.discover fs source capabilities start).result = .ok r →
      (∃ point, r.point? p.path = some point ∧ point.vacant = p.point) ∧
      ∀ path, node.placedIn path ∈ r.nodes path ↔ path = Text.trimmed p.path := by
  cases hseeded : Registry.registerAll (capabilities.map (·.point)) {} with
  | error e =>
    obtain ⟨point, -, rfl⟩ := Registry.registerAll_eq_error hseeded
    have hresult : (d.discover fs source capabilities start).result =
        .error (.duplicatePoint point.path) := by rw [discover, hseeded]
    rw [hresult]
    refine ⟨fun _ _ heq => ?_, fun _ heq => ?_⟩
    · cases heq
    · cases heq
  | ok seeded =>
    rw [result_discover hseeded hfound]
    refine ⟨fun htrimmed capability hfail => ?_, fun r hr => ⟨?_, fun path => ?_⟩⟩
    · have hconsistent := (extended_of_registerAll hseeded).consistent
      refine Install.not_mem_of_unknownPoint hconsistent hfail ?_
      exact List.mem_map_of_mem (List.mem_append_right _ hdeclared.mem_points)
    · have hbrings := brings_of_candidates hseeded hr
      have hlaid : p.point ∈ r.layout := by
        rw [hbrings.layout_eq]
        exact List.mem_append_right _ hdeclared.mem_points
      obtain ⟨point, hpoint, hvacant⟩ := List.mem_map.mp hlaid
      have hpath : point.path = p.path := congrArg ExtensionPoint.path hvacant
      exact ⟨point, hbrings.consistent.point?_iff.mpr ⟨hpoint, hpath⟩, hvacant⟩
    · rw [(brings_of_candidates hseeded hr).placedIn_mem_nodes_iff hnamed.mem_nodes,
        Registry.home?, hnamed.declaredPath_eq hgiven, Option.some_or, Option.some_inj]
      exact eq_comm

/-- The only module of a tree declares a point, and has an extension that names its point by
the same text. -/
def spelledSource (text : String) (fs : FileSystem) : MetadataSource := fun path =>
  if (fs.locate path).toOption = some ["extra", "writer.wasm"] then
    .ok { name := "writer", version := "1.0"
          points := [⟨text, ⟨"Format"⟩, none⟩]
          types := [{ name := ⟨"Xml"⟩, extension := some { path := some text } }] }
  else .error (.moduleRead path .unknown)

/-- Whether modules can be scanned and declare a point, and one of them names its point by the
same text. -/
def spells (text : String) (found : List Candidate) : Bool :=
  let scanned := Install.scanned initial.options.hostVersion found
  found.all (Install.isScannable initial.options.hostVersion) &&
    scanned.any fun m => m.1.metadata.points.contains ⟨text, ⟨"Format"⟩, none⟩ &&
      m.1.metadata.types.contains { name := ⟨"Xml"⟩, extension := some { path := some text } }

theorem spells_eq_true {text : String} (h : spells text found = true) :
    (∀ c ∈ found, ∃ brought, c.scan initial.options.hostVersion = .ok brought) ∧
    Install.Declares initial.options.hostVersion found ⟨text, ⟨"Format"⟩, none⟩ ∧
    ∃ node, node.capability = ⟨"Xml"⟩ ∧
      Install.NamesPoint initial.options.hostVersion found node text := by
  obtain ⟨hall, hany⟩ := Bool.and_eq_true_iff.mp h
  obtain ⟨m, hm, hboth⟩ := List.any_eq_true.mp hany
  obtain ⟨hpoint, htype⟩ := Bool.and_eq_true_iff.mp hboth
  refine ⟨fun c hc => ?_, ⟨m, hm, List.contains_iff_mem.mp hpoint⟩, _, rfl, m, hm, _,
    List.contains_iff_mem.mp htype, _, rfl, rfl, rfl, rfl⟩
  have hscannable := List.all_eq_true.mp hall c hc
  rw [Install.isScannable] at hscannable
  obtain ⟨brought, hbrought⟩ := Option.isSome_iff_exists.mp hscannable
  exact ⟨brought, eq_ok_of_toOption hbrought⟩

/-- A path without blanks is found. -/
theorem same_text_reaches_point_of_plain :
    ∃ (r : Registry) (node : Extension), Text.trimmed "/formats" = "/formats" ∧
      (initial.discover wildcardFirst (spelledSource "/formats" wildcardFirst) [] ⟨"/"⟩).result =
        .ok r ∧
      node.capability = ⟨"Xml"⟩ ∧ node.placedIn "/formats" ∈ r.nodes "/formats" := by
  have hcomputed : (((initial.collectWithin 9 wildcardFirst
      (spelledSource "/formats" wildcardFirst) ⟨"/"⟩).bind Except.toOption).any fun found =>
        spells "/formats" found &&
          (Install.candidates initial.options.hostVersion found {}).2.toOption.isSome) = true := by
    decide +kernel
  obtain ⟨found, hfound, hcomputed⟩ := exists_collected_of_collectWithin hcomputed
  obtain ⟨hspells, hinstalled⟩ := Bool.and_eq_true_iff.mp hcomputed
  obtain ⟨r, hr⟩ := Option.isSome_iff_exists.mp hinstalled
  obtain ⟨-, hdeclared, node, hcapability, hnamed⟩ := spells_eq_true hspells
  have htrimmed : Text.trimmed "/formats" = "/formats" := by decide +kernel
  have hdiscover : (initial.discover wildcardFirst (spelledSource "/formats" wildcardFirst) []
      ⟨"/"⟩).result = .ok r := (result_discover rfl hfound).trans (eq_ok_of_toOption hr)
  obtain ⟨-, hstands⟩ := same_text_reaches_point initial ⟨"/formats", ⟨"Format"⟩, none⟩ node
    hfound hdeclared hnamed (by decide +kernel)
  exact ⟨r, node, htrimmed, hdiscover, hcapability,
    ((hstands r hdiscover).2 "/formats").mpr htrimmed.symm⟩

/-- **A path with blanks is missed.**  A module that can be scanned declares a point, and its
extension names the point by the same text, which is not blank; yet the discovery fails,
since there is no point of the trimmed path. -/
theorem padded_text_misses_point :
    ∃ found node, (initial.collect wildcardFirst (spelledSource " /formats " wildcardFirst)
        ⟨"/"⟩).result = .ok found ∧
      (∀ c ∈ found, ∃ brought, c.scan initial.options.hostVersion = .ok brought) ∧
      Install.Declares initial.options.hostVersion found ⟨" /formats ", ⟨"Format"⟩, none⟩ ∧
      Install.NamesPoint initial.options.hostVersion found node " /formats " ∧
      Text.trimmed " /formats " ≠ "" ∧
      (initial.discover wildcardFirst (spelledSource " /formats " wildcardFirst) []
        ⟨"/"⟩).result = .error (.unknownPoint "/formats" node.capability) := by
  have hcomputed : (((initial.collectWithin 9 wildcardFirst
      (spelledSource " /formats " wildcardFirst) ⟨"/"⟩).bind Except.toOption).any fun found =>
        spells " /formats " found &&
          match (Install.candidates initial.options.hostVersion found {}).2 with
          | .error (.unknownPoint path capability) => path == "/formats" && capability == ⟨"Xml"⟩
          | _ => false) = true := by
    decide +kernel
  obtain ⟨found, hfound, hcomputed⟩ := exists_collected_of_collectWithin hcomputed
  obtain ⟨hspells, hfails⟩ := Bool.and_eq_true_iff.mp hcomputed
  obtain ⟨hscans, hdeclared, node, hcapability, hnamed⟩ := spells_eq_true hspells
  refine ⟨found, node, hfound, hscans, hdeclared, hnamed, by decide +kernel, ?_⟩
  rw [result_discover rfl hfound, hcapability]
  split at hfails
  · rename_i path capability hfail
    obtain ⟨hpath, htype⟩ := Bool.and_eq_true_iff.mp hfails
    rw [hfail, eq_of_beq hpath, eq_of_beq htype]
  · cases hfails

end Discovery
end PluginHost
