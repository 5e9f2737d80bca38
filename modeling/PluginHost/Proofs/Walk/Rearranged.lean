import PluginHost.Proofs.FileSystem.Rearranged
import PluginHost.Proofs.Walk.Closure

/-! # What can be reached in a rearranged tree

The rules of `Reached` and `Found` do not see in which order a manifest lists things, so
in a tree with rearranged manifests the same can be reached (`Reached.rearranged`), the
same is found (`Found.rearranged`) and the same is in the way (`Obstructed.rearranged`). -/
namespace PluginHost

/-- Whether two sources give the same description of every file, whatever paths lead to
it.  A source that agrees with itself tells files apart by where they are. -/
def MetadataSource.Agree (fs : FileSystem) (source source' : MetadataSource) : Prop :=
  ∀ p q loc, fs.locate p = .ok loc → fs.locate q = .ok loc →
    (source p).toOption = (source' q).toOption

/-- What agrees with a source tells files apart by where they are. -/
theorem MetadataSource.Agree.self {fs : FileSystem} {source source' : MetadataSource}
    (h : source.Agree fs source') : source.Agree fs source :=
  fun p q loc hp hq => (h p q loc hp hq).trans (h q q loc hq hq).symm

namespace Surroundings

/-- Surroundings that differ in the order in which manifests list things. -/
structure Rearranged (here here' : Surroundings) : Prop where
  fs : here.fs.Rearranged here'.fs
  manifestGlob : here.manifestGlob = here'.manifestGlob
  moduleGlob : here.moduleGlob = here'.moduleGlob
  source : here.source.Agree here.fs here'.source

variable {here here' : Surroundings} {home loc : Location}

theorem Rearranged.symm (h : here.Rearranged here') : here'.Rearranged here where
  fs := h.fs.symm
  manifestGlob := h.manifestGlob.symm
  moduleGlob := h.moduleGlob.symm
  source p q loc hp hq := by
    rw [← h.fs.locate_eq] at hp hq
    exact (h.source q p loc hq hp).symm

/-! ## Rules -/

theorem Rearranged.filesAt_eq (h : here.Rearranged here') (glob : Glob) (loc : Location) :
    here.filesAt glob loc = here'.filesAt glob loc := by
  rw [filesAt, filesAt, h.fs.namesAt_eq]
  exact List.filter_congr fun name _ => h.fs.hasFile_eq _

theorem Rearranged.legibleAt_eq (h : here.Rearranged here') (loc : Location) :
    here.legibleAt loc = here'.legibleAt loc := by
  rw [legibleAt, legibleAt, h.filesAt_eq, h.manifestGlob]
  exact Lists.takeWhile_congr fun name _ => h.fs.textAt_isSome_eq _

/-- Each pattern that is listed is listed in the rearranged manifests. -/
theorem ListsAt.rearranged (h : here.Rearranged here') {entry : ManifestEntry}
    (hlists : here.ListsAt loc entry) :
    ∃ entry', here'.ListsAt loc entry' ∧ entry'.text = entry.text := by
  obtain ⟨name, hname, text, htext, hentry⟩ := hlists
  obtain ⟨text', entry', htext', hentry', hsame⟩ := h.fs.exists_entry htext hentry
  exact ⟨entry', ⟨name, h.legibleAt_eq loc ▸ hname, text', htext', hentry'⟩, hsame⟩

theorem Reached.rearranged (h : here.Rearranged here') {wild : Bool}
    (hreached : here.Reached home loc wild) : here'.Reached home loc wild := by
  induction hreached with
  | start => exact .start
  | @entry loc next wild entry places place dir listed names resolved mem leads ih =>
    obtain ⟨entry', hlisted, hsame⟩ := listed.rearranged h
    rw [h.fs.directories_eq, ← hsame] at resolved
    rw [h.fs.locate_eq] at leads
    rw [ManifestEntry.namesDirectories, ← hsame] at names
    rw [ManifestEntry.hasWildcard, ← hsame]
    exact .entry ih hlisted names resolved mem leads

theorem Found.rearranged (h : here.Rearranged here') {wild : Bool}
    (hfound : here.Found home loc wild) : here'.Found home loc wild := by
  cases hfound with
  | @entry dir _ wild entry places place reached listed names resolved mem leads =>
    obtain ⟨entry', hlisted, hsame⟩ := listed.rearranged h
    rw [h.fs.files_eq, ← hsame] at resolved
    rw [h.fs.locate_eq] at leads
    rw [ManifestEntry.namesDirectories, ← hsame] at names
    rw [ManifestEntry.hasWildcard, ← hsame]
    exact .entry (reached.rearranged h) hlisted names resolved mem leads
  | bare reached none mem =>
    rw [h.filesAt_eq, h.manifestGlob] at none
    rw [h.filesAt_eq, h.moduleGlob] at mem
    exact .bare (reached.rearranged h) none mem

theorem found_iff (h : here.Rearranged here') {wild : Bool} :
    here.Found home loc wild ↔ here'.Found home loc wild :=
  ⟨fun hf => hf.rearranged h, fun hf => hf.rearranged h.symm⟩

theorem Illegible.rearranged (h : here.Rearranged here') (hill : here.Illegible home) :
    here'.Illegible home := by
  obtain ⟨loc, hreached, name, hname, htext⟩ := hill
  refine ⟨loc, hreached.rearranged h, name, ?_, ?_⟩
  · rw [← h.manifestGlob, ← h.filesAt_eq]
    exact hname
  · rw [← Option.not_isSome_iff_eq_none, ← h.fs.textAt_isSome_eq, htext]
    exact Bool.false_ne_true

/-! ## Descriptions -/

/-- Sources that agree on a file describe copies on one level for one runtime. -/
theorem described_alike {p q : Path} {wild : Bool} {c : Candidate}
    (h : (here.source p).toOption = (here'.source q).toOption)
    (hc : here.described (p, wild) = .ok c) :
    ∃ c', here'.described (q, wild) = .ok c' ∧ c.Alike c' ∧ c.runtime = c'.runtime := by
  obtain ⟨m, hm, hof⟩ := bind_eq_ok hc
  rw [hm] at h
  obtain ⟨c', hof'⟩ : ∃ c', Candidate.of q m wild = .ok c' :=
    Candidate.of_isOk_iff.mpr (Candidate.of_isOk_iff.mp ⟨c, hof⟩)
  refine ⟨c', ?_, ?_⟩
  · rw [here'.described_of_source (eq_ok_of_toOption h.symm), hof']
  · obtain ⟨-, hmetadata, hmark, hversion⟩ := Candidate.of_eq_ok hof
    obtain ⟨-, hmetadata', hmark', hversion'⟩ := Candidate.of_eq_ok hof'
    refine ⟨⟨?_, ?_, hmark.trans hmark'.symm⟩, ?_⟩
    · rw [Candidate.identity, Candidate.identity, hmetadata, hmetadata']
    · exact Option.some.inj (hversion.symm.trans hversion')
    · rw [Candidate.runtime, Candidate.runtime, hmetadata, hmetadata']

/-- A module that is written out can be used or not, whatever path leads to it. -/
theorem Usable.rearranged (h : here.Rearranged here') {host : HostRuntime} {p q : Path}
    (hp : here.fs.locate p = .ok loc) (hq : here.fs.locate q = .ok loc)
    (husable : here.Usable host p) : here'.Usable host q := by
  obtain ⟨c, hc, haccepts⟩ := husable
  obtain ⟨c', hc', -, hruntime⟩ := described_alike (h.source p q loc hp hq) hc
  exact ⟨c', hc', hruntime ▸ haccepts⟩

theorem Obstructed.rearranged (h : here.Rearranged here') {host : HostRuntime}
    (hobstructed : here.Obstructed host home) : here'.Obstructed host home := by
  rcases hobstructed with hill | ⟨path, loc, hpath, hfound, husable⟩
  · exact .inl (hill.rearranged h)
  · refine .inr ⟨path, loc, h.fs.locate_eq path ▸ hpath, hfound.rearranged h, fun husable' => ?_⟩
    rw [h.fs.locate_eq] at hpath
    exact husable (husable'.rearranged h.symm hpath hpath)

end Surroundings
end PluginHost
