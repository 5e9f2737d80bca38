import PluginHost.Proofs.Discovery.Calls
import PluginHost.Proofs.Walk.Closure

/-! # What a discovery reads

In a tree without links a call of `collect` that succeeds reads the modules that are
found by the rules of `Surroundings.Found`, each once with each of its marks, and
nothing else (`Discovery.reads_exactly_found`). -/
namespace PluginHost
namespace Discovery

variable {d : Discovery} {fs : FileSystem} {source : MetadataSource} {start : Path}
  {found : List Candidate}

/-- A call that succeeds started in a directory, and its walk did not fail. -/
theorem collect_eq_ok (h : (d.collect fs source start).result = .ok found) :
    (∃ home, fs.locate start = .ok home ∧ fs.hasDirectory home = true) ∧
      (d.walkFrom fs source start).2 = none ∧
      found = (d.walkFrom fs source start).1.index.candidates := by
  cases hstart : fs.isDirectory start with
  | false =>
    rw [result_collect_of_not_isDirectory hstart] at h
    cases h
  | true =>
    rw [result_collect_of_isDirectory hstart] at h
    refine ⟨FileSystem.isDirectory_iff.mp hstart, ?_⟩
    split at h
    · cases h
    · rename_i hnone
      exact ⟨hnone, (Except.ok.inj h).symm⟩

/-- The paths that a call asks descriptions for are the reads of its walk. -/
theorem reads_collect (hstart : fs.isDirectory start = true) :
    (d.collect fs source start).reads = (d.walkFrom fs source start).1.reads.map Prod.fst := by
  rw [collect, if_pos hstart]

/-- The walk of a call that succeeds is finished. -/
theorem finished_walkFrom (hfree : fs.LinkFree)
    (h : (d.collect fs source start).result = .ok found) {home : Location}
    (hstart : fs.locate start = .ok home) (hhome : fs.hasDirectory home = true) :
    (d.surroundings fs source).Finished home (d.walkFrom fs source start).1 := by
  obtain ⟨-, hnone, -⟩ := collect_eq_ok h
  have hfree' : (d.surroundings fs source).fs.LinkFree := hfree
  exact Surroundings.finished_walk hfree' hstart hhome rfl rfl
    (Prod.ext rfl hnone)

/-- **A discovery reads what can be reached.**  In a tree without links a call that
succeeds started in a directory, and asks for the description of every module that is
found from there, once with each mark the module is found with, and of nothing else. -/
theorem reads_exactly_found (d : Discovery) (fs : FileSystem) (source : MetadataSource)
    (start : Path) (hfree : fs.LinkFree) {found : List Candidate}
    (h : (d.collect fs source start).result = .ok found) :
    ∃ home, fs.locate start = .ok home ∧ fs.hasDirectory home = true ∧
      (d.collect fs source start).reads = (d.walkFrom fs source start).1.reads.map Prod.fst ∧
      ((d.surroundings fs source).readAt (d.walkFrom fs source start).1).Nodup ∧
      ∀ v, v ∈ (d.surroundings fs source).readAt (d.walkFrom fs source start).1 ↔
        ∃ loc, v.1 = .ok loc ∧ (d.surroundings fs source).Found home loc v.2 := by
  obtain ⟨⟨home, hstart, hhome⟩, -, -⟩ := collect_eq_ok h
  have hfinished := finished_walkFrom hfree h hstart hhome
  refine ⟨home, hstart, hhome, ?_, ?_, fun v => ?_⟩
  · exact reads_collect (FileSystem.isDirectory_iff.mpr ⟨home, hstart, hhome⟩)
  · exact Surroundings.nodup_readAt hfinished.explored (Surroundings.readOnce_walk rfl)
  · exact Surroundings.mem_readAt_iff hfree hfinished hhome

theorem linkFree_sampleTree (manifest : String) : (sampleTree manifest).LinkFree :=
  FileSystem.linkFree_of_hasLink rfl

/-- A call that finds the module of the sample succeeds. -/
theorem collect_wildcardFirst :
    ∃ found, (initial.collect wildcardFirst (sampleSource wildcardFirst) ⟨"/"⟩).result =
      .ok found := by
  have hok : ((initial.collectWithin 9 wildcardFirst (sampleSource wildcardFirst) ⟨"/"⟩).any
      (·.toOption.isSome)) = true := by decide +kernel
  obtain ⟨result, hresult, hsome⟩ := (Option.any_eq_true _ _).mp hok
  obtain ⟨found, hfound⟩ := Option.isSome_iff_exists.mp hsome
  exact ⟨found, (result_collect_of_collectWithin hresult).trans (eq_ok_of_toOption hfound)⟩

/-- A module that a wildcard finds, and that is written out as well, is read twice. -/
theorem reads_exactly_found_of_sample :
    wildcardFirst.LinkFree ∧
      ∃ found home, (initial.collect wildcardFirst (sampleSource wildcardFirst) ⟨"/"⟩).result =
          .ok found ∧
        wildcardFirst.locate ⟨"/"⟩ = .ok home ∧
        ∀ v, v ∈ (initial.surroundings wildcardFirst (sampleSource wildcardFirst)).readAt
            (initial.walkFrom wildcardFirst (sampleSource wildcardFirst) ⟨"/"⟩).1 ↔
          ∃ loc, v.1 = .ok loc ∧
            (initial.surroundings wildcardFirst (sampleSource wildcardFirst)).Found
              home loc v.2 := by
  obtain ⟨found, hfound⟩ := collect_wildcardFirst
  obtain ⟨home, hhome, -, -, -, hreads⟩ :=
    reads_exactly_found initial wildcardFirst _ ⟨"/"⟩ (linkFree_sampleTree _) hfound
  exact ⟨linkFree_sampleTree _, found, home, hfound, hhome, hreads⟩

end Discovery
end PluginHost
