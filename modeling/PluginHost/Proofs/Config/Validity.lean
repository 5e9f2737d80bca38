import PluginHost.Config.Loading
import PluginHost.Proofs.Results

/-! # Valid settings set up a discovery

Settings are looked at in three places: they are checked when they are loaded, turned into
options, and looked at again when a discovery is set up with the options.  Each check says
exactly when it has nothing to complain about (`ConfigViolation.ofRuntime?_eq_none_iff` and
the lemmas beside it), and so does setting up (`Discovery.ofOptions_isOk_iff`).  The two
agree: settings are valid just when a discovery can be set up with them and the few things
that a discovery does not ask for are in order (`Config.valid_sets_up`). -/
namespace PluginHost

/-! ## The checks one by one -/

/-- A pattern that is not blank and has no slash, so that names of files can match it. -/
structure IsNamePattern (pattern : String) : Prop where
  notBlank : Text.trimmed pattern ≠ ""
  noSlash : ∀ c ∈ pattern.toList, c ≠ '/' ∧ c ≠ '\\'

/-- A pattern is in order when names of files can match it and it can be read. -/
theorem FilePatternFault.of?_eq_none_iff {pattern : String} :
    FilePatternFault.of? pattern = none ↔
      IsNamePattern pattern ∧ ∃ glob, Glob.ofText pattern = .ok glob := by
  have hblank : (Text.trim pattern.toList).isEmpty = true ↔ Text.trimmed pattern = "" := by
    rw [← String.toList_eq_nil_iff, Text.toList_trimmed, List.isEmpty_iff]
  have hslash : (pattern.toList.any fun c => c == '/' || c == '\\') = false ↔
      ∀ c ∈ pattern.toList, c ≠ '/' ∧ c ≠ '\\' := by simp
  unfold FilePatternFault.of?
  constructor
  · intro h
    split at h
    · cases h
    · rename_i hgiven
      split at h
      · cases h
      · rename_i hname
        split at h
        · rename_i glob hglob
          have hnoSlash := hslash.mp (Bool.eq_false_iff.mpr hname)
          exact ⟨⟨fun heq => hgiven (hblank.mpr heq), hnoSlash⟩, glob, hglob⟩
        · cases h
  · rintro ⟨hname, glob, hglob⟩
    rw [if_neg fun h => hname.notBlank (hblank.mp h),
      if_neg (Bool.eq_false_iff.mp (hslash.mpr hname.noSlash)), hglob]

namespace ConfigViolation

/-- A runtime is in order when it is that of a host. -/
theorem ofRuntime?_eq_none_iff {h : HostConfig} :
    ofRuntime? h = none ↔ ∃ host : HostRuntime, h.family = .ok host.family := by
  unfold ofRuntime?
  constructor
  · intro hnone
    split at hnone
    · cases hnone
    · rename_i family hneutral hfamily
      cases family with
      | neutral => exact absurd rfl hneutral
      | desktop => exact ⟨.desktop, hfamily⟩
      | core => exact ⟨.core, hfamily⟩
    · cases hnone
  · rintro ⟨host, hfamily⟩
    rw [hfamily]
    cases host <;> rfl

/-- A version is in order when it can be read, or is absent. -/
theorem ofVersion?_eq_none_iff {h : HostConfig} :
    ofVersion? h = none ↔ ∃ release, h.release = .ok release := by
  unfold ofVersion?
  cases h.release <;> simp

theorem ofPattern?_eq_none_iff {key pattern : String} : ofPattern? key pattern = none ↔
    IsNamePattern pattern ∧ ∃ glob, Glob.ofText pattern = .ok glob := by
  rw [ofPattern?, Option.map_eq_none_iff, FilePatternFault.of?_eq_none_iff]

/-- A start directory is in order when it has a path, or is absent. -/
theorem ofStart?_eq_none_iff {start : Option Path} :
    ofStart? start = none ↔ ∀ path ∈ start, path.text ≠ "" := by
  unfold ofStart?
  cases start <;> simp

/-- A level of the log is in order when there is one of this name or number. -/
theorem ofLevel?_eq_none_iff {level : String} :
    ofLevel? level = none ↔ (LogLevel.ofText? (Text.trimmed level)).isSome = true := by
  unfold ofLevel?
  cases LogLevel.ofText? (Text.trimmed level) <;> simp

end ConfigViolation

/-! ## Setting up -/

/-- Settings stand for options when their runtime and their version can be read. -/
theorem Config.discoveryOptions_eq_ok_iff {c : Config} {options : DiscoveryOptions} :
    c.discoveryOptions = .ok options ↔
      ∃ family release, c.host.family = .ok family ∧ c.host.release = .ok release ∧
        options = {
          manifestPattern := c.discovery.manifestPattern
          modulePattern := c.discovery.modulePattern
          hostRuntime := family
          hostVersion := release.getD ({} : DiscoveryOptions).hostVersion } := by
  unfold Config.discoveryOptions
  cases c.host.family with
  | error e => simp [bind, Except.bind]
  | ok family =>
    cases c.host.release with
    | error e => simp [bind, Except.bind]
    | ok release => simp [bind, Except.bind, pure, Except.pure, eq_comm]

theorem Discovery.filePattern_isOk_iff (field pattern : String) :
    (∃ glob, Discovery.filePattern field pattern = .ok glob) ↔
      ∃ glob, Glob.ofText pattern = .ok glob := by
  unfold Discovery.filePattern
  cases Glob.ofText pattern <;> simp

/-- A host can be served when it runs on a family for hosts. -/
theorem CandidateIndex.forFamily_isOk_iff {family : RuntimeFamily} :
    (∃ index, CandidateIndex.forFamily family = .ok index) ↔
      ∃ host : HostRuntime, family = host.family := by
  simp only [← HostRuntime.ofFamily?_eq_some_iff]
  unfold CandidateIndex.forFamily
  cases HostRuntime.ofFamily? family <;> simp

/-- A discovery can be set up when its patterns can be read and its runtime is that of a
host. -/
theorem Discovery.ofOptions_isOk_iff {options : DiscoveryOptions} :
    (∃ discovery, Discovery.ofOptions options = .ok discovery) ↔
      (∃ glob, Glob.ofText options.manifestPattern = .ok glob) ∧
      (∃ glob, Glob.ofText options.modulePattern = .ok glob) ∧
      ∃ host : HostRuntime, options.hostRuntime = host.family := by
  rw [← filePattern_isOk_iff "manifest_pattern", ← filePattern_isOk_iff "module_pattern",
    ← CandidateIndex.forFamily_isOk_iff]
  unfold Discovery.ofOptions
  cases Discovery.filePattern "manifest_pattern" options.manifestPattern with
  | error e => simp [bind, Except.bind]
  | ok manifestGlob =>
    cases Discovery.filePattern "module_pattern" options.modulePattern with
    | error e => simp [bind, Except.bind]
    | ok moduleGlob =>
      cases CandidateIndex.forFamily options.hostRuntime <;>
        simp [bind, Except.bind, pure, Except.pure]

namespace Config

variable {c : Config}

/-- A discovery can be set up with settings: they stand for options, and a discovery accepts
these. -/
def SetsUp (c : Config) : Prop :=
  ∃ options discovery, c.discoveryOptions = .ok options ∧
    Discovery.ofOptions options = .ok discovery

/-- A discovery can be set up with settings when each of the four that it asks for makes
sense to it. -/
theorem setsUp_iff : c.SetsUp ↔
    (∃ host : HostRuntime, c.host.family = .ok host.family) ∧
    (∃ release, c.host.release = .ok release) ∧
    (∃ glob, Glob.ofText c.discovery.manifestPattern = .ok glob) ∧
    ∃ glob, Glob.ofText c.discovery.modulePattern = .ok glob := by
  simp only [SetsUp, exists_and_left, Discovery.ofOptions_isOk_iff, discoveryOptions_eq_ok_iff]
  constructor
  · rintro ⟨_, ⟨_, hfamily, release, hrelease, rfl⟩, hmanifest, hmodule, host, rfl⟩
    exact ⟨⟨host, hfamily⟩, ⟨release, hrelease⟩, hmanifest, hmodule⟩
  · rintro ⟨⟨host, hfamily⟩, ⟨release, hrelease⟩, hmanifest, hmodule⟩
    exact ⟨_, ⟨_, hfamily, release, hrelease, rfl⟩, hmanifest, hmodule, host, rfl⟩

/-- What settings should be like although a discovery could do without: patterns that names of
files can match, a start directory that is not empty, and a level of the log. -/
structure IsSensible (c : Config) : Prop where
  manifestPattern : IsNamePattern c.discovery.manifestPattern
  modulePattern : IsNamePattern c.discovery.modulePattern
  start : ∀ path ∈ c.discovery.startDirectory, path.text ≠ ""
  level : (LogLevel.ofText? (Text.trimmed c.log.level)).isSome = true

/-- Settings are valid just when a discovery can be set up with them and they are sensible. -/
theorem violations_eq_nil_iff : c.violations = [] ↔ c.SetsUp ∧ c.IsSensible := by
  simp only [violations, List.filterMap_eq_nil_iff, List.forall_mem_cons, id_eq,
    ConfigViolation.ofRuntime?_eq_none_iff, ConfigViolation.ofVersion?_eq_none_iff,
    ConfigViolation.ofPattern?_eq_none_iff, ConfigViolation.ofStart?_eq_none_iff,
    ConfigViolation.ofLevel?_eq_none_iff, setsUp_iff]
  constructor
  · rintro ⟨hruntime, hversion, ⟨hname, hmanifest⟩, ⟨hname', hmodule⟩, hstart, hlevel, -⟩
    exact ⟨⟨hruntime, hversion, hmanifest, hmodule⟩, hname, hname', hstart, hlevel⟩
  · rintro ⟨⟨hruntime, hversion, hmanifest, hmodule⟩, hname, hname', hstart, hlevel⟩
    exact ⟨hruntime, hversion, ⟨hname, hmanifest⟩, ⟨hname', hmodule⟩, hstart, hlevel,
      fun _ h => absurd h List.not_mem_nil⟩

/-- What passes the checks is valid. -/
theorem violations_of_checked {loaded : Except (List ConfigError) Config}
    (h : loaded >>= checked = .ok c) : c.violations = [] := by
  obtain ⟨read, -, h⟩ := bind_eq_ok h
  unfold checked at h
  split at h
  · rename_i hvalid
    obtain rfl := Except.ok.inj h
    exact hvalid
  · cases h

/-- **Valid settings set up a discovery.**  The checks let through just the settings with
which a discovery can be set up and which are sensible besides, so no error is left for
setting up.  All that is loaded has passed them: from a text, from one file, or from all
layers. -/
theorem valid_sets_up (c : Config) :
    (c.violations = [] ↔ c.SetsUp ∧ c.IsSensible) ∧
    (∀ text, ofText text = .ok c → c.SetsUp) ∧
    (∀ fs environment file, ofFile fs environment file = .ok c → c.SetsUp) ∧
    ∀ fs environment, load fs environment = .ok c → c.SetsUp := by
  have hloaded : ∀ loaded : Except (List ConfigError) Config, loaded >>= checked = .ok c →
      c.SetsUp := fun _ h => (violations_eq_nil_iff.mp (violations_of_checked h)).1
  exact ⟨violations_eq_nil_iff, fun _ => hloaded _, fun _ _ _ => hloaded _, fun _ _ => hloaded _⟩

/-- Settings with blanks, capitals and a short version are loaded from a text, and set up a
discovery. -/
theorem valid_sets_up_of_loose :
    ∃ c, ofText "[host]\nruntime = ' DeskTop '\nversion = ' 3.2 '\n" = .ok c ∧
      c.host.runtime = " DeskTop " ∧ c.violations = [] ∧ c.SetsUp := by
  have hcomputed : ((ofText "[host]\nruntime = ' DeskTop '\nversion = ' 3.2 '\n").toOption.any
      fun c => c.host.runtime == " DeskTop " && c.violations.isEmpty) = true := by
    decide +kernel
  obtain ⟨c, hc, hcomputed⟩ := (Option.any_eq_true _ _).mp hcomputed
  obtain ⟨hruntime, hvalid⟩ := Bool.and_eq_true_iff.mp hcomputed
  exact ⟨c, eq_ok_of_toOption hc, eq_of_beq hruntime, List.isEmpty_iff.mp hvalid,
    (valid_sets_up c).2.1 _ (eq_ok_of_toOption hc)⟩

end Config
end PluginHost
