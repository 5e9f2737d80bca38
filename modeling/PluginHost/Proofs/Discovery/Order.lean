import PluginHost.Proofs.Discovery.Reads
import PluginHost.Proofs.Walk.Rearranged

/-! # The order of entries does not matter

In a tree without links, and with a source that tells modules apart by where they are, a
call of `collect` fails exactly when something in its way cannot be skipped
(`collect_isOk_iff`), and what it holds in the end depends on the set of its reads alone
(`standing_eq`).  Neither sees in which order manifests list things
(`Discovery.order_of_entries`). -/
namespace PluginHost

namespace Surroundings

variable {here here' : Surroundings} {home loc : Location} {p q q' : Progress} {host : HostRuntime}

/-- A walk that is finished has met nothing that is in its way. -/
theorem Finished.not_obstructed (hfree : here.fs.LinkFree)
    (hsource : here.source.Agree here.fs here.source) (hq : here.Finished home q)
    (hhome : here.fs.hasDirectory home = true) : ¬here.Obstructed q.index.host home := by
  rintro (hill | ⟨path, loc, hpath, hfound, husable⟩)
  · exact hq.not_illegible hfree hhome hill
  · obtain ⟨path', hread, hpath'⟩ := hfound.read hfree hq hhome
    obtain ⟨c, hc, haccepts⟩ := hq.usable path' hread
    obtain ⟨c', hc', -, hruntime⟩ := described_alike (hsource path' path loc hpath' hpath) hc
    exact husable ⟨c', hc', hruntime ▸ haccepts⟩

theorem mem_candidatesOf {reads : List (Path × Bool)} {c : Candidate} :
    c ∈ here.candidatesOf reads ↔ ∃ read ∈ reads, here.described read = .ok c := by
  rw [candidatesOf, List.mem_filterMap]
  refine exists_congr fun read => and_congr_right fun _ => ?_
  constructor
  · exact eq_ok_of_toOption
  · intro h
    rw [h]
    rfl

/-- What an index holds when it was offered what a walk has read. -/
def HoldsReads (here : Surroundings) (host : HostRuntime) (p : Progress) : Prop :=
  CandidateIndex.KeepsBest
    ((here.candidatesOf p.reads).filter fun c => host.family.accepts c.runtime) p.index

/-- The offers of a walk are repeated by a walk that finds the same. -/
theorem exists_alike_offer (h : here.Rearranged here') (hfree' : here'.fs.LinkFree)
    (hq : here.Finished home q) (hq' : here'.Finished home q')
    (hhome' : here'.fs.hasDirectory home = true) {c : Candidate}
    (hc : c ∈ (here.candidatesOf q.reads).filter fun c => host.family.accepts c.runtime) :
    ∃ c' ∈ (here'.candidatesOf q'.reads).filter (fun c => host.family.accepts c.runtime),
      c.Alike c' := by
  obtain ⟨hmem, haccepts⟩ := List.mem_filter.mp hc
  obtain ⟨⟨path, wild⟩, hread, hdescribed⟩ := mem_candidatesOf.mp hmem
  obtain ⟨loc, hpath, hfound⟩ := hq.explored.reads _ hread
  obtain ⟨path', hread', hpath'⟩ := (hfound.rearranged h).read hfree' hq' hhome'
  rw [← h.fs.locate_eq] at hpath'
  obtain ⟨c', hc', halike, hruntime⟩ :=
    described_alike (h.source path path' loc hpath hpath') hdescribed
  have hmem' := mem_candidatesOf.mpr ⟨_, hread', hc'⟩
  exact ⟨c', List.mem_filter.mpr ⟨hmem', hruntime ▸ haccepts⟩, halike⟩

/-- **Walks that find the same hold the same versions with the same marks.** -/
theorem standing_eq (h : here.Rearranged here') (hfree : here.fs.LinkFree)
    (hq : here.Finished home q) (hq' : here'.Finished home q')
    (hhome : here.fs.hasDirectory home = true) (hholds : here.HoldsReads host q)
    (hholds' : here'.HoldsReads host q') (name : String) :
    q.index.standing name = q'.index.standing name := by
  have hfree' := h.fs.linkFree hfree
  have hhome' : here'.fs.hasDirectory home = true := h.fs.hasDirectory_eq home ▸ hhome
  exact hholds.standing_eq hholds' (fun _ hc => exists_alike_offer h hfree' hq hq' hhome' hc)
    (fun _ hc => exists_alike_offer h.symm hfree hq' hq hhome hc) name

/-- A walk holds what it has read, whether or not it fails. -/
theorem holdsReads_walk {tasks : List Task} (hindex : p.index = .empty host)
    (hreads : p.reads = []) : here.HoldsReads host (here.walk tasks p).1 := by
  obtain ⟨reads, hread, heq⟩ := (here.run_walk tasks p).index_eq
  rw [hreads, List.nil_append] at hread
  rw [HoldsReads, heq, hread, hindex]
  exact CandidateIndex.keepsBest_offerAll host _

/-- **A module that is written out keeps its rank.**  What is held of it has a higher
version, or the same version and no mark. -/
theorem exists_standing (hfree : here.fs.LinkFree)
    (hsource : here.source.Agree here.fs here.source) (hq : here.Finished home q)
    (hhome : here.fs.hasDirectory home = true) (hholds : here.HoldsReads q.index.host q)
    {path : Path} (hpath : here.fs.locate path = .ok loc) (hfound : here.Found home loc false) :
    ∃ c, here.described (path, false) = .ok c ∧
      ∃ version wild, q.index.standing c.identity = some (version, wild) ∧
        (version.cmp c.version = .gt ∨ version = c.version ∧ wild = false) := by
  obtain ⟨path', hread, hpath'⟩ := hfound.read hfree hq hhome
  obtain ⟨offer, hoffer, haccepts⟩ := hq.usable path' hread
  obtain ⟨c, hc, halike, -⟩ := described_alike (hsource path' path loc hpath' hpath) hoffer
  have hmem : offer ∈ (here.candidatesOf q.reads).filter
      fun c => q.index.host.family.accepts c.runtime :=
    List.mem_filter.mpr ⟨mem_candidatesOf.mpr ⟨_, hread, hoffer⟩, haccepts⟩
  refine ⟨c, hc, ?_⟩
  cases hcopy : q.index.copy? c.identity with
  | none =>
    exfalso
    obtain ⟨held, hheld, hname⟩ := hholds.exists_of_mem hmem
    exact CandidateIndex.copy?_eq_none hcopy held hheld (hname.trans halike.identity)
  | some held =>
    obtain ⟨hheld, hname⟩ := CandidateIndex.copy?_eq_some hcopy
    refine ⟨held.version, held.fromWildcard, by rw [CandidateIndex.standing, hcopy]; rfl, ?_⟩
    have hwritten : offer.fromWildcard = false := fromWildcard_of_described hoffer
    have hnot := (hholds.best held hheld).not_above hmem (halike.identity.trans hname.symm)
    rw [← halike.version]
    exact Candidate.cmp_ne_gt_of_writtenOut hwritten hnot

end Surroundings

/-! ## Calls -/

namespace Discovery

variable {d : Discovery} {fs fs' : FileSystem} {source source' : MetadataSource} {start : Path}
  {home : Location}

/-- **A call succeeds unless something in its way cannot be skipped.** -/
theorem collect_isOk_iff (hfree : fs.LinkFree) (hsource : source.Agree fs source)
    (hstart : fs.locate start = .ok home) (hhome : fs.hasDirectory home = true) :
    (∃ found, (d.collect fs source start).result = .ok found) ↔
      ¬(d.surroundings fs source).Obstructed d.index.host home := by
  have hfree' : (d.surroundings fs source).fs.LinkFree := hfree
  have hwalk := Surroundings.explored_walk (p := { index := .empty d.index.host }) hfree' hstart
    hhome ⟨by simp, by simp⟩
  constructor
  · rintro ⟨found, h⟩
    have hfinished := finished_walkFrom hfree h hstart hhome
    rw [← host_walkFrom d fs source start]
    exact hfinished.not_obstructed hfree hsource hhome
  · intro hclear
    rw [result_collect_of_isDirectory (FileSystem.isDirectory_iff.mpr ⟨home, hstart, hhome⟩)]
    cases hfault : (d.walkFrom fs source start).2 with
    | none => exact ⟨_, rfl⟩
    | some e => exact absurd (hwalk.2 e hfault) hclear

/-- The modules that a call leaves behind are those its walk holds. -/
theorem index_collect (hstart : fs.isDirectory start = true) :
    (d.collect fs source start).discovery.index = (d.walkFrom fs source start).1.index := by
  rw [collect, if_pos hstart]

/-- A call that succeeds succeeds in the tree with rearranged manifests. -/
theorem collect_isOk_of_rearranged (hfree : fs.LinkFree)
    (hre : (d.surroundings fs source).Rearranged (d.surroundings fs' source'))
    (h : ∃ found, (d.collect fs source start).result = .ok found) :
    ∃ found', (d.collect fs' source' start).result = .ok found' := by
  have hfs : fs.Rearranged fs' := hre.fs
  have hself : source.Agree fs source := hre.source.self
  have hself' : source'.Agree fs' source' := hre.symm.source.self
  obtain ⟨found, hfound⟩ := h
  obtain ⟨⟨home, hstart, hhome⟩, -, -⟩ := collect_eq_ok hfound
  have hclear := (collect_isOk_iff hfree hself hstart hhome).mp ⟨found, hfound⟩
  have hstart' : fs'.locate start = .ok home := hfs.locate_eq start ▸ hstart
  have hhome' : fs'.hasDirectory home = true := hfs.hasDirectory_eq home ▸ hhome
  exact (collect_isOk_iff (hfs.linkFree hfree) hself' hstart' hhome').mpr fun hobstructed =>
    hclear (hobstructed.rearranged hre.symm)

/-- **The order of entries does not matter.**  In a tree without links, with sources that
tell modules apart by where they are, a call succeeds if and only if it succeeds in the
tree with rearranged manifests.  Both calls then read the same modules with the same
marks and hold the same versions with the same marks; and of a module that is written out
anywhere they hold a higher version, or the same version as one that is written out. -/
theorem order_of_entries (d : Discovery) (fs fs' : FileSystem) (source source' : MetadataSource)
    (start : Path) (hfree : fs.LinkFree) (hfs : fs.Rearranged fs')
    (hsource : source.Agree fs source') :
    ((∃ found, (d.collect fs source start).result = .ok found) ↔
      ∃ found', (d.collect fs' source' start).result = .ok found') ∧
    ∀ found found', (d.collect fs source start).result = .ok found →
      (d.collect fs' source' start).result = .ok found' →
      (∀ v, v ∈ (d.surroundings fs source).readAt (d.walkFrom fs source start).1 ↔
        v ∈ (d.surroundings fs' source').readAt (d.walkFrom fs' source' start).1) ∧
      (∀ name, (d.collect fs source start).discovery.index.standing name =
        (d.collect fs' source' start).discovery.index.standing name) ∧
      ∀ path loc, fs.locate path = .ok loc →
        (.ok loc, false) ∈ (d.surroundings fs source).readAt (d.walkFrom fs source start).1 →
        ∃ c, (d.surroundings fs source).described (path, false) = .ok c ∧
          ∃ version wild,
            (d.collect fs source start).discovery.index.standing c.identity = some (version, wild) ∧
            (version.cmp c.version = .gt ∨ version = c.version ∧ wild = false) := by
  have hre : (d.surroundings fs source).Rearranged (d.surroundings fs' source') :=
    ⟨hfs, rfl, rfl, hsource⟩
  have hfree' := hfs.linkFree hfree
  refine ⟨⟨collect_isOk_of_rearranged hfree hre, collect_isOk_of_rearranged hfree' hre.symm⟩,
    fun found found' h h' => ?_⟩
  obtain ⟨⟨home, hstart, hhome⟩, -, -⟩ := collect_eq_ok h
  have hstart' : fs'.locate start = .ok home := hfs.locate_eq start ▸ hstart
  have hhome' : fs'.hasDirectory home = true := hfs.hasDirectory_eq home ▸ hhome
  have hfinished := finished_walkFrom hfree h hstart hhome
  have hfinished' := finished_walkFrom hfree' h' hstart' hhome'
  rw [index_collect (FileSystem.isDirectory_iff.mpr ⟨home, hstart, hhome⟩),
    index_collect (FileSystem.isDirectory_iff.mpr ⟨home, hstart', hhome'⟩)]
  have hholds : (d.surroundings fs source).HoldsReads d.index.host (d.walkFrom fs source start).1 :=
    Surroundings.holdsReads_walk rfl rfl
  have hholds' : (d.surroundings fs' source').HoldsReads d.index.host
      (d.walkFrom fs' source' start).1 := Surroundings.holdsReads_walk rfl rfl
  refine ⟨fun v => ?_, fun name => ?_, fun path loc hpath hread => ?_⟩
  · rw [Surroundings.mem_readAt_iff hfree hfinished hhome,
      Surroundings.mem_readAt_iff hfree' hfinished' hhome']
    simp only [Surroundings.found_iff hre]
  · exact Surroundings.standing_eq hre hfree hfinished hfinished' hhome hholds hholds' name
  · obtain ⟨loc', hloc', hfound⟩ := (Surroundings.mem_readAt_iff hfree hfinished hhome).mp hread
    obtain rfl : loc = loc' := Except.ok.inj hloc'
    rw [← host_walkFrom d fs source start] at hholds
    exact Surroundings.exists_standing hfree hre.source.self hfinished hhome hholds hpath hfound

theorem agree_sampleSource (fs : FileSystem) : (sampleSource fs).Agree fs (sampleSource fs) := by
  intro p q loc hp hq
  rw [sampleSource, sampleSource, hp, hq]
  split <;> rfl

/-- The two trees of the sample differ in the order of two entries. -/
theorem rearranged_sample : wildcardFirst.Rearranged wildcardLast := by
  refine ⟨?_, rfl⟩
  have hextra : Node.Rearranged (.directory [("writer.wasm", .file [])])
      (.directory [("writer.wasm", .file [])]) := by
    simp [Node.Rearranged, Node.AllRearranged, Manifest.SameEntries]
  refine ⟨rfl, hextra, rfl, .inr ?_, trivial⟩
  refine ⟨"extra/*.wasm\nextra/writer.wasm", "extra/writer.wasm\nextra/*.wasm",
    [⟨1, "extra/*.wasm", "extra/*.wasm"⟩, ⟨2, "extra/writer.wasm", "extra/writer.wasm"⟩],
    [⟨1, "extra/writer.wasm", "extra/writer.wasm"⟩, ⟨2, "extra/*.wasm", "extra/*.wasm"⟩],
    Utf8.decode?_encode _, Utf8.decode?_encode _, by decide +kernel, by decide +kernel, ?_⟩
  exact .swap _ _ _

/-- The module of the sample keeps its rank although the wildcard comes first. -/
theorem order_of_entries_of_sample :
    wildcardFirst.LinkFree ∧ wildcardFirst.Rearranged wildcardLast ∧
    (sampleSource wildcardFirst).Agree wildcardFirst (sampleSource wildcardFirst) ∧
    (∃ found,
      (initial.collect wildcardLast (sampleSource wildcardFirst) ⟨"/"⟩).result = .ok found) ∧
    ∀ name,
      (initial.collect wildcardFirst (sampleSource wildcardFirst)
        ⟨"/"⟩).discovery.index.standing name =
      (initial.collect wildcardLast (sampleSource wildcardFirst)
        ⟨"/"⟩).discovery.index.standing name := by
  obtain ⟨hiff, hsame⟩ := order_of_entries initial wildcardFirst wildcardLast
    (sampleSource wildcardFirst) (sampleSource wildcardFirst) ⟨"/"⟩ (linkFree_sampleTree _)
    rearranged_sample (agree_sampleSource _)
  obtain ⟨found, hfound⟩ := collect_wildcardFirst
  obtain ⟨found', hfound'⟩ := hiff.mp ⟨found, hfound⟩
  obtain ⟨-, hstanding, -⟩ := hsame found found' hfound hfound'
  exact ⟨linkFree_sampleTree _, rearranged_sample, agree_sampleSource _, ⟨found', hfound'⟩,
    hstanding⟩

end Discovery
end PluginHost
