import PluginHost.Proofs.Discovery.Content
import PluginHost.Proofs.Install.HostVersion

/-! # Raising the version of the host

The version of the host has no part in the walk, only in the installation, where it
decides which extensions are left out.  So whatever is discovered for a host is discovered
for an older one as well, from the same modules and with the same points and types, and
the older host has some of the extensions, at the points where the newer one has them
(`Discovery.raising_host_version_only_adds`). -/
namespace PluginHost
namespace Discovery

open Std

/-- The discovery for a host of another version. -/
def withHostVersion (version : Version) (d : Discovery) : Discovery :=
  { d with options := { d.options with hostVersion := version } }

/-- Setting up a discovery for another version of the host changes nothing else. -/
theorem ofOptions_withHostVersion (options : DiscoveryOptions) (version : Version) :
    ofOptions { options with hostVersion := version } =
      (ofOptions options).map (withHostVersion version) := by
  simp only [ofOptions]
  cases filePattern "manifest_pattern" options.manifestPattern with
  | error e => rfl
  | ok manifestGlob =>
    cases filePattern "module_pattern" options.modulePattern with
    | error e => rfl
    | ok moduleGlob => cases CandidateIndex.forFamily options.hostRuntime <;> rfl

variable {older newer : Version} {d : Discovery} {fs : FileSystem} {source : MetadataSource}
  {capabilities : List HostCapability} {start : Path} {r : Registry}

/-- What is found is no matter of the host's version. -/
theorem result_collect_withHostVersion (version : Version) :
    ((d.withHostVersion version).collect fs source start).result =
      (d.collect fs source start).result := by
  cases hstart : fs.isDirectory start with
  | false =>
    rw [result_collect_of_not_isDirectory hstart, result_collect_of_not_isDirectory hstart]
  | true =>
    rw [result_collect_of_isDirectory hstart, result_collect_of_isDirectory hstart]
    rfl

/-- **Raising the version of the host only adds extensions.**  Whether a module can be
scanned does not depend on the version.  When a discovery succeeds for the newer host it
succeeds for the older one, with the same modules, the same points and the same types; the
extensions that the older host lists are some of those that the newer one lists, in the
same order, and each stands at the same point. -/
theorem raising_host_version_only_adds (d : Discovery) (older newer : Version)
    (hle : (older.cmp newer).isLE = true) :
    (∀ (c : Candidate) (e : HostError), c.scan older = .error e ↔ c.scan newer = .error e) ∧
    ∀ (fs : FileSystem) (source : MetadataSource) (capabilities : List HostCapability)
      (start : Path) (more : Registry),
      ((d.withHostVersion newer).discover fs source capabilities start).result = .ok more →
      ∃ r, ((d.withHostVersion older).discover fs source capabilities start).result = .ok r ∧
        ((d.withHostVersion older).discover fs source capabilities start).discovery.candidates =
          ((d.withHostVersion newer).discover fs source capabilities start).discovery.candidates ∧
        r.layout = more.layout ∧ r.types = more.types ∧
        r.extensions.Sublist more.extensions ∧
        ∀ path, (r.nodes path).Sublist (more.nodes path) := by
  refine ⟨fun c e => c.scan_eq_error_iff_of_isLE hle e, ?_⟩
  intro fs source capabilities start more hmore
  obtain ⟨seeded, hseeded, hfound, hinstall⟩ := discover_eq_ok hmore
  rw [result_collect_withHostVersion] at hfound
  have hextended := extended_of_registerAll hseeded
  obtain ⟨r, hr⟩ := Install.candidates_of_isLE hle hextended.consistent hinstall
  have hdiscover : ((d.withHostVersion older).discover fs source capabilities start).result =
      .ok r :=
    (result_discover hseeded ((result_collect_withHostVersion older).trans hfound)).trans hr
  -- Both calls keep what they have found, and they have found the same.
  obtain ⟨-, -, hkept, -⟩ := discover_eq_ok hdiscover
  rw [result_collect_withHostVersion, hfound] at hkept
  have hless := brings_of_candidates hseeded hr
  have hmore := brings_of_candidates hseeded hinstall
  obtain ⟨hlayout, htypes, hsub⟩ := hless.of_within (Install.scanned_of_isLE hle _) hmore
  refine ⟨r, hdiscover, (Except.ok.inj hkept).symm, hlayout, htypes, hsub, fun path => ?_⟩
  rw [hless.consistent.nodes_eq_filter, hmore.consistent.nodes_eq_filter]
  exact hsub.filter _

/-- Tells of the module, whatever path leads to it: of its three extensions the second asks
for a newer host. -/
def askingSource (fs : FileSystem) : MetadataSource := fun path =>
  if (fs.locate path).toOption = some ["extra", "writer.wasm"] then
    .ok { name := "writer", version := "1.0", types := [
      { name := ⟨"Printer"⟩, implements := [⟨"Writer"⟩], extension := some {} },
      { name := ⟨"Writer"⟩, extension := some { engineVersion := some "0.2" } },
      { name := ⟨"Copier"⟩, base := some ⟨"Writer"⟩,
        extension := some { engineVersion := some "0.1.0-rc" } }] }
  else .error (.moduleRead path .unknown)

/-- A host of version 0.2 has the three extensions of the module, and one of version 0.1
has some of them, at the same point. -/
theorem raising_host_version_only_adds_of_sample :
    ((Version.release 0 1 0).cmp (.release 0 2 0)).isLE = true ∧
    ∃ more r,
      ((initial.withHostVersion (.release 0 2 0)).discover wildcardFirst
        (askingSource wildcardFirst) [⟨"/writers", ⟨"Writer"⟩, ""⟩] ⟨"/"⟩).result = .ok more ∧
      ((initial.withHostVersion (.release 0 1 0)).discover wildcardFirst
        (askingSource wildcardFirst) [⟨"/writers", ⟨"Writer"⟩, ""⟩] ⟨"/"⟩).result = .ok r ∧
      more.extensions.map (fun node => (node.capability.text, node.path)) =
        [("Printer", some "/writers"), ("Writer", some "/writers"),
          ("Copier", some "/writers")] ∧
      r.extensions.length = 2 ∧ r.extensions.Sublist more.extensions := by
  have hle : ((Version.release 0 1 0).cmp (.release 0 2 0)).isLE = true := by decide +kernel
  have hmore : ((initial.withHostVersion (.release 0 2 0)).discoverWithin 9 wildcardFirst
      (askingSource wildcardFirst) [⟨"/writers", ⟨"Writer"⟩, ""⟩] ⟨"/"⟩).map (fun r =>
        r.extensions.map fun node => (node.capability.text, node.path)) =
      some [("Printer", some "/writers"), ("Writer", some "/writers"),
        ("Copier", some "/writers")] := by
    decide +kernel
  have hless : ((initial.withHostVersion (.release 0 1 0)).discoverWithin 9 wildcardFirst
      (askingSource wildcardFirst) [⟨"/writers", ⟨"Writer"⟩, ""⟩] ⟨"/"⟩).map
        (·.extensions.length) = some 2 := by
    decide +kernel
  obtain ⟨more, hwithin, hlist⟩ := Option.map_eq_some_iff.mp hmore
  obtain ⟨r, hwithin', hcount⟩ := Option.map_eq_some_iff.mp hless
  have hresult := result_discover_of_discoverWithin hwithin
  have hresult' := result_discover_of_discoverWithin hwithin'
  obtain ⟨-, hall⟩ := raising_host_version_only_adds initial _ _ hle
  obtain ⟨same, hsame, -, -, -, hsub, -⟩ := hall _ _ _ _ more hresult
  obtain rfl : same = r := Except.ok.inj (hsame.symm.trans hresult')
  exact ⟨hle, more, same, hresult, hresult', hlist, hcount, hsub⟩

end Discovery
end PluginHost
