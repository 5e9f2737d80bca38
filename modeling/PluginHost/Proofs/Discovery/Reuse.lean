import PluginHost.Proofs.Discovery.Calls
import PluginHost.Proofs.Install.Success

/-! # A discovery has no memory

A discovery may be asked again and again, for modules or for registries, from one directory or
from several, and whether the calls before failed or not.  What it keeps of a call is cleared
when the next walk begins (`Discovery.cleared`), so every call answers as if it were the first
one (`Discovery.answers_as_new`).  A call that fails before it comes to its walk keeps what the
discovery held. -/
namespace PluginHost
namespace Discovery

/-! ## Calls -/

/-- What a discovery may be asked. -/
inductive Call where
  | collect (start : Path)
  | discover (capabilities : List HostCapability) (start : Path)

/-- What a discovery answers if nothing fails. -/
inductive Answer where
  | modules (found : List Candidate)
  | registry (r : Registry)

/-- What comes of a call. -/
def perform (d : Discovery) (fs : FileSystem) (source : MetadataSource) : Call → Outcome Answer
  | .collect start =>
    let outcome := d.collect fs source start
    { outcome with result := outcome.result.map .modules }
  | .discover capabilities start =>
    let outcome := d.discover fs source capabilities start
    { outcome with result := outcome.result.map .registry }

/-- The discovery after calls one after the other, whatever each answers. -/
def after (d : Discovery) (fs : FileSystem) (source : MetadataSource) (calls : List Call) :
    Discovery :=
  calls.foldl (fun d call => (d.perform fs source call).discovery) d

/-- A call comes to its walk when it starts in a directory and no two points of the host have
one path. -/
def Call.ReachesWalk (fs : FileSystem) : Call → Prop
  | .collect start => fs.isDirectory start = true
  | .discover capabilities start =>
    (capabilities.map (·.path)).Nodup ∧ fs.isDirectory start = true

/-- The discovery without what earlier calls have left behind. -/
def cleared (d : Discovery) : Discovery :=
  { d with index := .empty d.index.host, visited := [] }

variable {d : Discovery} {fs : FileSystem} {source : MetadataSource} {start : Path}
  {capabilities : List HostCapability} {call : Call}

/-! ## What a call depends on -/

/-- A discovery that is set up has nothing to clear. -/
theorem cleared_of_ofOptions {options : DiscoveryOptions} (h : ofOptions options = .ok d) :
    d.cleared = d := by
  obtain ⟨manifestGlob, -, h⟩ := bind_eq_ok h
  obtain ⟨moduleGlob, -, h⟩ := bind_eq_ok h
  obtain ⟨index, hindex, h⟩ := bind_eq_ok h
  unfold CandidateIndex.forFamily at hindex
  split at hindex
  · cases hindex
  · cases hindex
    cases h
    rfl

/-- The points of a host can be registered when their paths are distinct. -/
theorem registerAll_capabilities_isOk_iff :
    (∃ seeded, Registry.registerAll (capabilities.map (·.point)) {} = .ok seeded) ↔
      (capabilities.map (·.path)).Nodup := by
  rw [Registry.registerAll_isOk_iff Registry.consistent_empty]
  · simp [HostCapability.point, Function.comp_def]
  · intro point hpoint
    obtain ⟨capability, -, rfl⟩ := List.mem_map.mp hpoint
    rfl

/-- A search from a directory depends on nothing that is cleared. -/
theorem collect_cleared (h : fs.isDirectory start = true) :
    d.cleared.collect fs source start = d.collect fs source start := by
  rw [collect, collect, if_pos h, if_pos h]
  rfl

theorem collect_of_not_isDirectory (h : fs.isDirectory start = false) :
    d.collect fs source start =
      ⟨[], [], d, .error (.invalidArgument (.noStartDirectory start))⟩ := by
  rw [collect, if_neg (by rw [h]; exact Bool.false_ne_true)]

/-- A discovery keeps of a registry that it makes what its search leaves behind. -/
theorem discovery_discover {seeded : Registry}
    (h : Registry.registerAll (capabilities.map (·.point)) {} = .ok seeded) :
    (d.discover fs source capabilities start).discovery =
      (d.collect fs source start).discovery := by
  simp only [discover, h]
  split
  · rfl
  · split <;> rfl

/-- A call that comes to its walk depends on nothing that is cleared. -/
theorem perform_cleared (h : call.ReachesWalk fs) :
    d.cleared.perform fs source call = d.perform fs source call := by
  cases call with
  | collect start => rw [perform, perform, collect_cleared h]
  | discover capabilities start =>
    obtain ⟨hpaths, hstart⟩ := h
    obtain ⟨seeded, hseeded⟩ := registerAll_capabilities_isOk_iff.mpr hpaths
    have hoptions : d.cleared.options = d.options := rfl
    simp only [perform, discover, hseeded, collect_cleared hstart, hoptions]

/-- A call that does not come to its walk fails in the same way whatever the discovery holds,
and leaves it as it is. -/
theorem perform_of_not_reachesWalk (source : MetadataSource) (h : ¬call.ReachesWalk fs) :
    ∃ e, ∀ d : Discovery, d.perform fs source call = ⟨[], [], d, .error e⟩ := by
  cases call with
  | collect start =>
    have hstart : fs.isDirectory start = false := Bool.eq_false_iff.mpr h
    exact ⟨_, fun d => by rw [perform, collect_of_not_isDirectory hstart]; rfl⟩
  | discover capabilities start =>
    cases hseeded : Registry.registerAll (capabilities.map (·.point)) {} with
    | error e => exact ⟨e, fun d => by simp only [perform, discover, hseeded]; rfl⟩
    | ok seeded =>
      have hpaths := registerAll_capabilities_isOk_iff.mp ⟨seeded, hseeded⟩
      have hstart : fs.isDirectory start = false :=
        Bool.eq_false_iff.mpr fun hstart => h ⟨hpaths, hstart⟩
      exact ⟨_, fun d => by
        simp only [perform, discover, hseeded, collect_of_not_isDirectory hstart]; rfl⟩

/-! ## What calls change -/

theorem cleared_collect : (d.collect fs source start).discovery.cleared = d.cleared := by
  cases hstart : fs.isDirectory start with
  | false => rw [collect_of_not_isDirectory hstart]
  | true =>
    have hhost := host_walkFrom d fs source start
    rw [collect, if_pos hstart]
    simp only [cleared, hhost]

/-- A call changes nothing but what is cleared. -/
theorem cleared_perform (call : Call) :
    (d.perform fs source call).discovery.cleared = d.cleared := by
  cases call with
  | collect start => exact cleared_collect
  | discover capabilities start =>
    cases hseeded : Registry.registerAll (capabilities.map (·.point)) {} with
    | error e => simp only [perform, discover, hseeded]
    | ok seeded =>
      simp only [perform, discovery_discover hseeded]
      exact cleared_collect

/-- Calls one after the other change nothing but what is cleared. -/
theorem cleared_after (calls : List Call) : (d.after fs source calls).cleared = d.cleared := by
  induction calls generalizing d with
  | nil => rfl
  | cons call calls ih => exact ih.trans (cleared_perform call)

/-- **A discovery has no memory.**  After any calls, whether they failed or not, a call answers,
logs and reads what it does when the discovery has just been set up with the same options.  If
the call comes to its walk, the discovery holds the same afterwards, too; and if it does not, it
fails, and the discovery holds what it held. -/
theorem answers_as_new {options : DiscoveryOptions} {fresh : Discovery}
    (h : ofOptions options = .ok fresh) (fs : FileSystem) (source : MetadataSource)
    (history : List Call) (call : Call) :
    let used := fresh.after fs source history
    (used.perform fs source call).result = (fresh.perform fs source call).result ∧
    (used.perform fs source call).log = (fresh.perform fs source call).log ∧
    (used.perform fs source call).reads = (fresh.perform fs source call).reads ∧
    (call.ReachesWalk fs →
      (used.perform fs source call).discovery = (fresh.perform fs source call).discovery) ∧
    (¬call.ReachesWalk fs →
      (∃ e, (used.perform fs source call).result = .error e) ∧
        (used.perform fs source call).discovery = used) := by
  intro used
  have hcleared : used.cleared = fresh :=
    (cleared_after history).trans (cleared_of_ofOptions h)
  by_cases hwalk : call.ReachesWalk fs
  · have hsame : used.perform fs source call = fresh.perform fs source call := by
      rw [← hcleared, perform_cleared hwalk]
    rw [hsame]
    exact ⟨rfl, rfl, rfl, fun _ => rfl, fun hnot => absurd hwalk hnot⟩
  · obtain ⟨e, he⟩ := perform_of_not_reachesWalk source hwalk
    rw [he used, he fresh]
    exact ⟨rfl, rfl, rfl, fun h => absurd h hwalk, fun _ => ⟨⟨e, rfl⟩, rfl⟩⟩

/-- A missing start, two points of one path, an extension that no point is for, and a search
from another directory. -/
def mixedCalls : List Call :=
  [.collect ⟨"/missing"⟩,
    .discover [⟨"/writers", ⟨"Writer"⟩, ""⟩, ⟨"/writers", ⟨"Printer"⟩, ""⟩] ⟨"/"⟩,
    .discover [] ⟨"/"⟩, .collect ⟨"/extra"⟩]

/-- After these calls the module of the sample is found as by a new discovery, and a missing
start keeps what the last of them has found. -/
theorem answers_as_new_of_mixedCalls :
    let source := sampleSource wildcardFirst
    let used := initial.after wildcardFirst source mixedCalls
    ofOptions {} = .ok initial ∧
    (Call.collect ⟨"/"⟩).ReachesWalk wildcardFirst ∧
    ¬(Call.collect ⟨"/missing"⟩).ReachesWalk wildcardFirst ∧
    (∃ found, (used.perform wildcardFirst source (.collect ⟨"/"⟩)).result =
      .ok (.modules found) ∧ (found.length == 1) = true) ∧
    (used.perform wildcardFirst source (.collect ⟨"/"⟩)).discovery =
      (initial.perform wildcardFirst source (.collect ⟨"/"⟩)).discovery ∧
    (used.perform wildcardFirst source (.collect ⟨"/missing"⟩)).discovery = used := by
  intro source used
  have hwalk : (Call.collect ⟨"/"⟩).ReachesWalk wildcardFirst :=
    (by decide +kernel : wildcardFirst.isDirectory ⟨"/"⟩ = true)
  have hmissing : ¬(Call.collect ⟨"/missing"⟩).ReachesWalk wildcardFirst :=
    (by decide +kernel : ¬wildcardFirst.isDirectory ⟨"/missing"⟩ = true)
  have hone : ((initial.collectWithin 9 wildcardFirst source ⟨"/"⟩).bind Except.toOption).any
      (fun found => found.length == 1) = true := by
    decide +kernel
  obtain ⟨found, hfound, hlength⟩ := exists_collected_of_collectWithin hone
  obtain ⟨hresult, -, -, hkept, -⟩ :=
    answers_as_new ofOptions_default wildcardFirst source mixedCalls (.collect ⟨"/"⟩)
  obtain ⟨-, -, -, -, hfails⟩ :=
    answers_as_new ofOptions_default wildcardFirst source mixedCalls (.collect ⟨"/missing"⟩)
  refine ⟨ofOptions_default, hwalk, hmissing, ⟨found, ?_, hlength⟩, hkept hwalk,
    (hfails hmissing).2⟩
  rw [hresult, perform, hfound]
  rfl

end Discovery
end PluginHost
