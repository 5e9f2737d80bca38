import PluginHost.Discovery
import PluginHost.Proofs.Results
import PluginHost.Proofs.Walk.Runs

/-! # What a discovery answers

The answers of a discovery in terms of its walk and of the installation of what
the walk found.  `collectWithin` and `discoverWithin` compute the answers of `collect` and
`discover` when the walk ends within some turns, and `sampleTree` is a tree to compute them
in. -/
namespace PluginHost
namespace Discovery

/-- What the walks of a discovery take place in. -/
def surroundings (d : Discovery) (fs : FileSystem) (source : MetadataSource) : Surroundings :=
  ⟨fs, source, d.manifestGlob, d.moduleGlob⟩

variable {d : Discovery} {fs : FileSystem} {source : MetadataSource} {start : Path}

/-- A walk serves the host of its discovery to the end. -/
theorem host_walkFrom (d : Discovery) (fs : FileSystem) (source : MetadataSource) (start : Path) :
    (d.walkFrom fs source start).1.index.host = d.index.host :=
  ((d.surroundings fs source).run_walk _ _).host_eq

/-- Modules are found when the walk from a directory does not fail. -/
theorem result_collect_of_isDirectory (h : fs.isDirectory start = true) :
    (d.collect fs source start).result =
      match (d.walkFrom fs source start).2 with
      | some e => .error e
      | none => .ok (d.walkFrom fs source start).1.index.candidates := by
  cases hwalk : d.walkFrom fs source start with
  | mk progress fault => cases fault <;> simp only [collect, h, hwalk, if_true]

/-- A start that is no directory is told before any walk. -/
theorem result_collect_of_not_isDirectory (h : fs.isDirectory start = false) :
    (d.collect fs source start).result = .error (.invalidArgument (.noStartDirectory start)) := by
  rw [collect, if_neg (by rw [h]; exact Bool.false_ne_true)]

/-- The registry of a discovery is installed from what was found. -/
theorem result_discover {capabilities : List HostCapability} {seeded : Registry}
    {found : List Candidate}
    (hseeded : Registry.registerAll (capabilities.map (·.point)) {} = .ok seeded)
    (hfound : (d.collect fs source start).result = .ok found) :
    (d.discover fs source capabilities start).result =
      (Install.candidates d.options.hostVersion found seeded).2 := by
  simp only [discover, hseeded, hfound]
  rcases Install.candidates d.options.hostVersion found seeded with ⟨log, _ | r⟩ <;> rfl

/-! ## Computing answers -/

/-- The answer of `collect`, if the walk ends within some turns. -/
def collectWithin (turns : Nat) (d : Discovery) (fs : FileSystem) (source : MetadataSource)
    (start : Path) : Option (Except HostError (List Candidate)) :=
  if fs.isDirectory start then
    ((d.surroundings fs source).walkWithin turns [.directory start false]
      { index := .empty d.index.host }).map fun ended =>
        match ended.2 with
        | some e => .error e
        | none => .ok ended.1.index.candidates
  else none

theorem result_collect_of_collectWithin {turns : Nat}
    {result : Except HostError (List Candidate)}
    (h : d.collectWithin turns fs source start = some result) :
    (d.collect fs source start).result = result := by
  unfold collectWithin at h
  split at h
  · rename_i hstart
    obtain ⟨ended, hwalk, rfl⟩ := Option.map_eq_some_iff.mp h
    rw [result_collect_of_isDirectory hstart, walkFrom]
    rw [← (d.surroundings fs source).walk_eq_of_walkWithin hwalk]
    rfl
  · cases h

/-- What a search that was computed within a number of turns has found is what the search
finds. -/
theorem exists_collected_of_collectWithin {turns : Nat} {test : List Candidate → Bool}
    (h : ((d.collectWithin turns fs source start).bind Except.toOption).any test = true) :
    ∃ found, (d.collect fs source start).result = .ok found ∧ test found = true := by
  obtain ⟨found, hsome, htest⟩ := (Option.any_eq_true _ _).mp h
  obtain ⟨result, hresult, hok⟩ := Option.bind_eq_some_iff.mp hsome
  exact ⟨found, (result_collect_of_collectWithin hresult).trans (eq_ok_of_toOption hok), htest⟩

/-- A search that was computed to fail within a number of turns fails. -/
theorem exists_fault_of_collectWithin {turns : Nat}
    (h : (d.collectWithin turns fs source start).any (·.toOption.isNone) = true) :
    ∃ e, (d.collect fs source start).result = .error e := by
  obtain ⟨result, hresult, hnone⟩ := (Option.any_eq_true _ _).mp h
  rw [result_collect_of_collectWithin hresult]
  exact exists_error_of_toOption hnone

/-- The registry of `discover`, if the walk ends within some turns and nothing fails. -/
def discoverWithin (turns : Nat) (d : Discovery) (fs : FileSystem) (source : MetadataSource)
    (capabilities : List HostCapability) (start : Path) : Option Registry := do
  let seeded ← (Registry.registerAll (capabilities.map (·.point)) {}).toOption
  let found ← (← d.collectWithin turns fs source start).toOption
  (Install.candidates d.options.hostVersion found seeded).2.toOption

theorem result_discover_of_discoverWithin {turns : Nat} {capabilities : List HostCapability}
    {r : Registry} (h : d.discoverWithin turns fs source capabilities start = some r) :
    (d.discover fs source capabilities start).result = .ok r := by
  obtain ⟨seeded, hseeded, h⟩ := Option.bind_eq_some_iff.mp h
  obtain ⟨result, hresult, h⟩ := Option.bind_eq_some_iff.mp h
  obtain ⟨found, hfound, hinstall⟩ := Option.bind_eq_some_iff.mp h
  have hcollect := (result_collect_of_collectWithin hresult).trans (eq_ok_of_toOption hfound)
  exact (result_discover (eq_ok_of_toOption hseeded) hcollect).trans (eq_ok_of_toOption hinstall)

/-- The discovery with the options nobody has changed. -/
def initial : Discovery where
  options := {}
  manifestGlob := ⟨.star :: ".addins".toList.map .literal⟩
  moduleGlob := ⟨.star :: ".wasm".toList.map .literal⟩
  index := .empty .core

theorem ofOptions_default : ofOptions {} = .ok initial := by
  have hmanifest : Glob.ofText "*.addins" = .ok initial.manifestGlob :=
    eq_ok_of_toOption (by decide +kernel)
  have hmodule : Glob.ofText "*.wasm" = .ok initial.moduleGlob :=
    eq_ok_of_toOption (by decide +kernel)
  simp only [ofOptions, filePattern, hmanifest, hmodule]
  rfl

end Discovery

/-- A manifest beside a directory with one module. -/
def sampleTree (manifest : String) : FileSystem where
  entries := [("extra", .directory [("writer.wasm", .file [])]),
    ("plugins.addins", .file (Utf8.encode manifest))]
  wellFormed := by
    have hnone : ∀ e ∈ ([] : Entries), "writer.wasm" < e.1 := fun e he =>
      absurd he List.not_mem_nil
    have hlast : ∀ e ∈ ([] : Entries), "plugins.addins" < e.1 := fun e he =>
      absurd he List.not_mem_nil
    have hextra : "extra" < "plugins.addins" := by decide +kernel
    refine ⟨by decide +kernel, ⟨by decide +kernel, trivial, hnone, trivial⟩, fun e he => ?_,
      by decide +kernel, trivial, hlast, trivial⟩
    rw [List.mem_singleton.mp he]
    exact hextra
  workingDirectory := []
  isEntryName_here := isEntryName_root

/-- The tree in which the manifest lets a wildcard find the module before it writes it
out. -/
def wildcardFirst : FileSystem := sampleTree "extra/*.wasm\nextra/writer.wasm"

/-- The tree in which the manifest writes the module out first. -/
def wildcardLast : FileSystem := sampleTree "extra/writer.wasm\nextra/*.wasm"

/-- Tells of the module, whatever path leads to it: its only type is an extension, and
names no point. -/
def sampleSource (fs : FileSystem) : MetadataSource := fun path =>
  if (fs.locate path).toOption = some ["extra", "writer.wasm"] then
    .ok { name := "writer", version := "1.0",
          types := [{ name := ⟨"Writer"⟩, extension := some {} }] }
  else .error (.moduleRead path .unknown)

end PluginHost
