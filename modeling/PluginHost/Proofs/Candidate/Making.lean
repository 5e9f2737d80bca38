import PluginHost.Candidate
import PluginHost.MetadataSource

/-! # Making candidates

A candidate has the path, the description and the mark it was made from
(`Candidate.of_eq_ok`), and whether a description makes one depends on the
description alone (`Candidate.of_isOk_iff`).  Descriptions that make none, and
sources of the host that have none to give, are faults of the module. -/
namespace PluginHost
namespace Candidate

variable {path : Path} {m : Metadata} {wild : Bool}

/-- A candidate is what it was made from. -/
theorem of_eq_ok {c : Candidate} (h : Candidate.of path m wild = .ok c) :
    c.path = path ∧ c.metadata = m ∧ c.fromWildcard = wild ∧
      Version.ofText? m.version = some c.version := by
  unfold Candidate.of at h
  split at h
  · cases h
  · split at h
    · cases h
    · rename_i version hversion
      rw [← Except.ok.inj h]
      exact ⟨rfl, rfl, rfl, hversion⟩

/-- A description that makes no candidate is a fault of its module. -/
theorem of_eq_error {e : HostError} (h : Candidate.of path m wild = .error e) :
    ∃ fault, e = .moduleRead path fault := by
  unfold Candidate.of at h
  split at h
  · exact ⟨_, (Except.error.inj h).symm⟩
  · split at h
    · exact ⟨_, (Except.error.inj h).symm⟩
    · cases h

/-- A description makes a candidate when it has a name and a version. -/
theorem of_isOk_iff :
    (∃ c, Candidate.of path m wild = .ok c) ↔
      m.identity ≠ "" ∧ (Version.ofText? m.version).isSome = true := by
  unfold Candidate.of
  split
  · rename_i hname
    constructor
    · rintro ⟨c, hc⟩
      cases hc
    · exact fun h => absurd hname h.1
  · rename_i hname
    split
    · rename_i hversion
      rw [hversion]
      constructor
      · rintro ⟨c, hc⟩
        cases hc
      · exact fun h => absurd h.2 Bool.false_ne_true
    · rename_i version hversion
      refine ⟨fun _ => ⟨hname, ?_⟩, fun _ => ⟨_, rfl⟩⟩
      rw [hversion]
      rfl

end Candidate

namespace MetadataSource

/-- Whether a source only ever fails to read the module it is asked for. -/
def ReportsModules (source : MetadataSource) : Prop :=
  ∀ path e, source path = .error e → ∃ fault, e = .moduleRead path fault

theorem reportsModules_modules (fs : FileSystem) : (modules fs).ReportsModules := by
  intro path e h
  unfold modules at h
  split at h
  · exact ⟨_, (Except.error.inj h).symm⟩
  · unfold Metadata.ofModuleAt at h
    split at h
    · exact ⟨_, (Except.error.inj h).symm⟩
    · exact ⟨_, (Except.error.inj h).symm⟩
    · unfold Metadata.ofPayloadAt at h
      split at h
      · cases h
      · exact ⟨_, (Except.error.inj h).symm⟩

theorem reportsModules_table (fs : FileSystem) (rows : List (Path × Metadata)) :
    (table fs rows).ReportsModules := by
  intro path e h
  unfold table at h
  split at h
  · cases h
  · exact ⟨_, (Except.error.inj h).symm⟩

end MetadataSource
end PluginHost
