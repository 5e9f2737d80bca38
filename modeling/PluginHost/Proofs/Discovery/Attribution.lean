import PluginHost.Proofs.Candidate.Making
import PluginHost.Proofs.Discovery.Calls
import PluginHost.Proofs.Install.Origins
import PluginHost.Proofs.Walk.Itineraries
import PluginHost.Proofs.Walk.Runs

/-! # Whom a failure is attributed to

With the mark nothing fails: a directory or a module that a wildcard found ends no
walk (`walk_directory_tolerated`, `walk_candidate_tolerated`).  Without the mark
a walk fails for what `Surroundings.Blamed` lists, a manifest that cannot be read
in a directory that was written out or a module that was written out, and never
for a pattern.  Nothing keeps a source from answering for such a module with an error of
another kind, which then ends the walk as it is (`Surroundings.Answered`); the sources of
the host report faults of the module only.  `Discovery.failures_attributed` puts this
together with what `Install.Blamed` says of the modules that were found. -/
namespace PluginHost

namespace Surroundings

variable {here : Surroundings} {p : Progress}

/-! ## With the mark nothing fails -/

/-- Tasks with the mark lead to tasks with the mark. -/
theorem tolerated_tasks_turn {t : Task} (ht : Tolerated t) :
    ∀ u ∈ (here.turn p t).tasks, Tolerated u := by
  intro u hu
  obtain ⟨dir, wild, rfl, hmem, -⟩ := here.mem_tasks_turn hu
  obtain rfl : wild = true := ht
  cases hn : u.isNote with
  | false => exact ((mem_itinerary_iff hn).mp hmem).tolerated
  | true =>
    cases u with
    | note event => trivial
    | _ => cases hn

/-- A turn on a task with the mark does not fail. -/
theorem fault_turn_of_tolerated {t : Task} (ht : Tolerated t) : (here.turn p t).fault = none := by
  cases hf : (here.turn p t).fault with
  | none => rfl
  | some e =>
    rcases here.fault_turn.mp hf with ⟨subject, rfl⟩ | ⟨path, rfl, -, -⟩
    · cases ht
    · cases ht

/-- **Tasks with the mark end no walk**, whatever was visited before. -/
theorem walk_tolerated {tasks : List Task} (h : ∀ t ∈ tasks, Tolerated t) :
    (here.walk tasks p).2 = none := by
  obtain ⟨-, hfault⟩ := (here.run_walk tasks p).invariant
    (P := fun _ => True) (R := fun _ t => Tolerated t)
    (fun _ _ _ _ => trivial) (fun _ _ _ hu => hu) (fun _ _ _ ht => tolerated_tasks_turn ht)
    trivial h
  cases he : (here.walk tasks p).2 with
  | none => rfl
  | some e =>
    obtain ⟨q, t, -, ht, hf, -⟩ := hfault e he
    rw [fault_turn_of_tolerated ht] at hf
    cases hf

/-- A directory that a wildcard found ends no walk. -/
theorem walk_directory_tolerated (dir : Path) : (here.walk [.directory dir true] p).2 = none :=
  walk_tolerated fun _ ht => by rw [List.mem_singleton.mp ht]; rfl

/-- A module that a wildcard found ends no walk. -/
theorem walk_candidate_tolerated (path : Path) : (here.walk [.candidate path true] p).2 = none :=
  walk_tolerated fun _ ht => by rw [List.mem_singleton.mp ht]; rfl

/-! ## Without the mark -/

/-- What a walk for `host` can be blamed on, when `p` is what it knows in the end. -/
inductive Blamed (here : Surroundings) (host : HostRuntime) (p : Progress) : HostError → Prop where
  /-- A manifest in a directory that was written out cannot be read. -/
  | manifest {dir manifest : Path} {error : FileError}
      (entered : (here.fs.spot dir, false) ∈ p.visited) (mem : manifest ∈ here.manifests dir)
      (unread : here.fs.readText manifest = .error error) :
      Blamed here host p (.manifestRead manifest error)
  /-- The source cannot read a module that was written out. -/
  | unanswered {path : Path} {fault : ModuleFault} (read : (path, false) ∈ p.reads)
      (file : here.fs.isFile path = true)
      (answer : here.source path = .error (.moduleRead path fault)) :
      Blamed here host p (.moduleRead path fault)
  /-- The description of a module that was written out makes no candidate. -/
  | undescribed {path : Path} {m : Metadata} {fault : ModuleFault}
      (read : (path, false) ∈ p.reads) (file : here.fs.isFile path = true)
      (answer : here.source path = .ok m)
      (bad : Candidate.of path m false = .error (.moduleRead path fault)) :
      Blamed here host p (.moduleRead path fault)
  /-- The host cannot use a module that was written out. -/
  | incompatible {path : Path} {m : Metadata} {target : RuntimeDescriptor}
      (read : (path, false) ∈ p.reads) (file : here.fs.isFile path = true)
      (answer : here.source path = .ok m) (built : m.runtime = some target)
      (refused : host.family.accepts (some target) = false) :
      Blamed here host p (.incompatibleRuntime path target host)

/-- The error is the answer of the source to a module that was written out. -/
def Answered (here : Surroundings) (p : Progress) (e : HostError) : Prop :=
  ∃ path, (path, false) ∈ p.reads ∧ here.fs.isFile path = true ∧ here.source path = .error e

/-- The answers of a source that only fails to read modules are faults of these modules. -/
theorem Answered.blamed {e : HostError} {host : HostRuntime} (h : here.Answered p e)
    (hsource : here.source.ReportsModules) : here.Blamed host p e := by
  obtain ⟨path, hread, hfile, hanswer⟩ := h
  obtain ⟨fault, rfl⟩ := hsource path e hanswer
  exact .unanswered hread hfile hanswer

/-- A task that the walk began with, or that a directory it has entered led to. -/
def Arises (here : Surroundings) (start : Path) (p : Progress) (t : Task) : Prop :=
  t = .directory start false ∨
    ∃ dir wild, (here.fs.spot dir, wild) ∈ p.visited ∧ t ∈ here.itinerary dir wild

theorem Arises.turn {start : Path} {u : Task} (h : here.Arises start p u) (t : Task) :
    here.Arises start (here.turn p t).progress u := by
  rcases h with rfl | ⟨dir, wild, hv, hu⟩
  · exact .inl rfl
  · refine .inr ⟨dir, wild, ?_, hu⟩
    rw [visited_turn, mem_remember]
    exact .inl hv

/-- A module that was written out is a file. -/
theorem Arises.isFile {start path : Path} {wild : Bool}
    (h : here.Arises start p (.candidate path wild)) : here.fs.isFile path = true := by
  rcases h with h | ⟨dir, wild', -, h⟩
  · cases h
  · exact ((mem_itinerary_iff rfl).mp h).isFile

/-- What goes wrong when a module is assessed. -/
theorem assess_eq_error {path : Path} {wild : Bool} {index : CandidateIndex} {e : HostError}
    (h : here.assess path wild index = .error e) :
    here.source path = .error e ∨
      ∃ m, here.source path = .ok m ∧
        (Candidate.of path m wild = .error e ∨
          ∃ target, m.runtime = some target ∧ index.host.family.accepts (some target) = false ∧
            e = .incompatibleRuntime path target index.host) := by
  cases hs : here.source path with
  | error e' =>
    rw [assess, hs] at h
    exact .inl (congrArg Except.error (Except.error.inj h))
  | ok m =>
    rw [assess_eq, here.described_of_source hs] at h
    refine .inr ⟨m, rfl, ?_⟩
    cases hc : Candidate.of path m wild with
    | error e' =>
      rw [hc] at h
      exact .inl (congrArg Except.error (Except.error.inj h))
    | ok c =>
      rw [hc] at h
      obtain ⟨hpath, hmetadata, -, -⟩ := Candidate.of_eq_ok hc
      obtain ⟨-, target, hruntime, haccepts, he⟩ := CandidateIndex.offer_eq_error h
      refine .inr ⟨target, ?_, haccepts, ?_⟩
      · rw [← hruntime, Candidate.runtime, hmetadata]
      · rw [he, hpath]

/-- A turn that fails is blamed on what its task is about, or the source has answered so. -/
theorem blamed_or_answered_of_fault {start : Path} {t : Task} {e : HostError}
    (ht : here.Arises start p t) (hf : (here.turn p t).fault = some e) :
    here.Blamed (here.turn p t).progress.index.host (here.turn p t).progress e ∨
      here.Answered (here.turn p t).progress e := by
  rcases here.fault_turn.mp hf with ⟨subject, rfl⟩ | ⟨path, rfl, hnew, hassess⟩
  · rcases ht with ht | ⟨dir, wild, hv, ht⟩
    · cases ht
    · obtain ⟨rfl, hmem, error, hread, rfl⟩ := ((mem_itinerary_iff rfl).mp ht).fault_eq
      refine .inl (.manifest ?_ hmem hread)
      rw [visited_turn, mem_remember]
      exact .inl hv
  · have hread : (path, false) ∈ (here.turn p (.candidate path false)).progress.reads := by
      rw [reads_turn, readsOf, if_neg (by simpa using hnew)]
      exact List.mem_append_right _ (List.mem_singleton_self _)
    rcases assess_eq_error hassess with hs | ⟨m, hs, hbad | ⟨target, hbuilt, hrefused, rfl⟩⟩
    · exact .inr ⟨path, hread, ht.isFile, hs⟩
    · obtain ⟨fault, rfl⟩ := Candidate.of_eq_error hbad
      exact .inl (.undescribed hread ht.isFile hs hbad)
    · rw [host_turn]
      exact .inl (.incompatible hread ht.isFile hs hbuilt hrefused)

/-- **A walk fails only for what it can be blamed on**, or with an answer of the source. -/
theorem blamed_or_answered_of_walk {start : Path} {e : HostError}
    (h : (here.walk [.directory start false] p).2 = some e) :
    here.Blamed (here.walk [.directory start false] p).1.index.host
        (here.walk [.directory start false] p).1 e ∨
      here.Answered (here.walk [.directory start false] p).1 e := by
  obtain ⟨-, hfault⟩ := (here.run_walk [.directory start false] p).invariant
    (P := fun _ => True) (R := fun q t => here.Arises start q t)
    (fun _ _ _ _ => trivial) (fun _ t _ hu => hu.turn t)
    (fun q t _ _ u hu => by
      obtain ⟨dir, wild, rfl, hmem, hv⟩ := here.mem_tasks_turn hu
      exact .inr ⟨dir, wild, hv, hmem⟩)
    trivial (fun t ht => .inl (List.mem_singleton.mp ht))
  obtain ⟨q, t, -, ht, hf, hlast⟩ := hfault e h
  rw [hlast]
  exact blamed_or_answered_of_fault ht hf

end Surroundings

/-! ## Calls -/

namespace Discovery

/-- What a failure of `collect` can be blamed on: the start, which is no directory, or what
its walk can be blamed on. -/
def Blamed (d : Discovery) (fs : FileSystem) (source : MetadataSource) (start : Path)
    (e : HostError) : Prop :=
  (fs.isDirectory start = false ∧ e = .invalidArgument (.noStartDirectory start)) ∨
    (d.surroundings fs source).Blamed d.index.host (d.walkFrom fs source start).1 e

variable {d : Discovery} {fs : FileSystem} {source : MetadataSource} {start : Path} {e : HostError}

theorem blamed_or_answered_of_collect (h : (d.collect fs source start).result = .error e) :
    d.Blamed fs source start e ∨
      (d.surroundings fs source).Answered (d.walkFrom fs source start).1 e := by
  cases hstart : fs.isDirectory start with
  | false =>
    rw [result_collect_of_not_isDirectory hstart] at h
    exact .inl (.inl ⟨hstart, (Except.error.inj h).symm⟩)
  | true =>
    rw [result_collect_of_isDirectory hstart] at h
    split at h
    · rename_i fault hfault
      obtain rfl := Except.error.inj h
      have hwalk := Surroundings.blamed_or_answered_of_walk hfault
      rw [Blamed, ← host_walkFrom d fs source start]
      exact hwalk.imp_left .inr
    · cases h

theorem blamed_of_collect (hsource : source.ReportsModules)
    (h : (d.collect fs source start).result = .error e) : d.Blamed fs source start e :=
  (blamed_or_answered_of_collect h).elim id fun hanswer => .inr (hanswer.blamed hsource)

/-- Answers that the host cannot be set up, whichever module it is asked for. -/
def unsettledSource : MetadataSource := fun _ => .error (.config .neutralHost)

/-- A source may end a call with an error of its own.  What a wildcard finds first is passed
over as always; when the manifest then writes the module out, the call fails with the answer
of the source, which is about neither an argument nor a manifest nor a module. -/
theorem failure_of_unsettledSource :
    ∃ e, (initial.collect wildcardFirst unsettledSource ⟨"/"⟩).result = .error e ∧
      (∀ argument, e ≠ .invalidArgument argument) ∧
      (∀ manifest error, e ≠ .manifestRead manifest error) ∧
      (∀ path fault, e ≠ .moduleRead path fault) ∧
      ∀ path target host, e ≠ .incompatibleRuntime path target host := by
  have hanswer : ((initial.collectWithin 9 wildcardFirst unsettledSource ⟨"/"⟩).any fun
      | .error (.config _) => true
      | _ => false) = true := by decide +kernel
  obtain ⟨result, hresult, hconfig⟩ := (Option.any_eq_true _ _).mp hanswer
  rw [result_collect_of_collectWithin hresult]
  split at hconfig
  · exact ⟨_, rfl, nofun, nofun, nofun, nofun⟩
  · cases hconfig

/-- **Whom a failure is attributed to.**  What a wildcard found ends no walk, from
whatever state.  A call of `collect` fails because the start is no directory, or
for what the walk can be blamed on: a manifest in a directory that was written out
and that cannot be read, or a module that was written out and that cannot be read or used.
Otherwise the error is the answer of the source to a module that was written out.  A source
that only fails to read the modules it is asked for leaves nothing but blame, and both
sources of the host are such.  A call of `discover` that has found its modules fails for
what the installation can be blamed on, which is a module that was written out unless a
point is declared twice or not at all. -/
theorem failures_attributed (d : Discovery) (fs : FileSystem) (source : MetadataSource) :
    (∀ path p,
      ((d.surroundings fs source).walk [.directory path true] p).2 = none ∧
      ((d.surroundings fs source).walk [.candidate path true] p).2 = none) ∧
    (∀ start e, (d.collect fs source start).result = .error e →
      d.Blamed fs source start e ∨
        (d.surroundings fs source).Answered (d.walkFrom fs source start).1 e) ∧
    (source.ReportsModules → ∀ start e, (d.collect fs source start).result = .error e →
      d.Blamed fs source start e) ∧
    (∀ start e, (d.collect fs (.modules fs) start).result = .error e →
      d.Blamed fs (.modules fs) start e) ∧
    (∀ rows start e, (d.collect fs (.table fs rows) start).result = .error e →
      d.Blamed fs (.table fs rows) start e) ∧
    (∀ capabilities seeded start found e,
      Registry.registerAll (capabilities.map HostCapability.point) {} = .ok seeded →
      (d.collect fs source start).result = .ok found →
      (d.discover fs source capabilities start).result = .error e →
      Install.Blamed found e) := by
  refine ⟨fun path p => ⟨?_, ?_⟩, fun _ _ => blamed_or_answered_of_collect,
    fun hsource _ _ => blamed_of_collect hsource,
    fun _ _ => blamed_of_collect (MetadataSource.reportsModules_modules fs),
    fun rows _ _ => blamed_of_collect (MetadataSource.reportsModules_table fs rows), ?_⟩
  · exact Surroundings.walk_directory_tolerated path
  · exact Surroundings.walk_candidate_tolerated path
  · intro capabilities seeded start found e hseeded hfound h
    rw [result_discover hseeded hfound] at h
    exact Install.blamed_of_candidates h

/-- A module that is written out and that nobody describes is blamed, one that a source has an
error of its own for is answered so, and one whose extension no point is for is blamed when it
is installed. -/
theorem failures_attributed_of_sample :
    (∃ e, (initial.collect wildcardFirst (.table wildcardFirst []) ⟨"/"⟩).result = .error e ∧
      initial.Blamed wildcardFirst (.table wildcardFirst []) ⟨"/"⟩ e) ∧
    (∃ e, (initial.collect wildcardFirst unsettledSource ⟨"/"⟩).result = .error e ∧
      (initial.Blamed wildcardFirst unsettledSource ⟨"/"⟩ e ∨
        (initial.surroundings wildcardFirst unsettledSource).Answered
          (initial.walkFrom wildcardFirst unsettledSource ⟨"/"⟩).1 e)) ∧
    ∃ found e, (initial.collect wildcardFirst (sampleSource wildcardFirst) ⟨"/"⟩).result =
        .ok found ∧
      (initial.discover wildcardFirst (sampleSource wildcardFirst) [] ⟨"/"⟩).result = .error e ∧
      Install.Blamed found e := by
  have hunknown : (initial.collectWithin 9 wildcardFirst (.table wildcardFirst []) ⟨"/"⟩).any
      (·.toOption.isNone) = true := by decide +kernel
  have hunsettled : (initial.collectWithin 9 wildcardFirst unsettledSource ⟨"/"⟩).any
      (·.toOption.isNone) = true := by decide +kernel
  have hunplaced : ((initial.collectWithin 9 wildcardFirst (sampleSource wildcardFirst)
      ⟨"/"⟩).bind Except.toOption).any (fun found =>
        (Install.candidates initial.options.hostVersion found {}).2.toOption.isNone) = true := by
    decide +kernel
  refine ⟨?_, ?_, ?_⟩
  · obtain ⟨e, hfault⟩ := exists_fault_of_collectWithin hunknown
    obtain ⟨-, -, hreports, -⟩ :=
      failures_attributed initial wildcardFirst (.table wildcardFirst [])
    exact ⟨e, hfault, hreports (MetadataSource.reportsModules_table _ []) _ e hfault⟩
  · obtain ⟨e, hfault⟩ := exists_fault_of_collectWithin hunsettled
    obtain ⟨-, hany, -⟩ := failures_attributed initial wildcardFirst unsettledSource
    exact ⟨e, hfault, hany _ e hfault⟩
  · obtain ⟨found, hfound, hnone⟩ := exists_collected_of_collectWithin hunplaced
    obtain ⟨e, hinstall⟩ := exists_error_of_toOption hnone
    have hdiscover : (initial.discover wildcardFirst (sampleSource wildcardFirst) []
        ⟨"/"⟩).result = .error e := (result_discover rfl hfound).trans hinstall
    obtain ⟨-, -, -, -, -, hinstalled⟩ :=
      failures_attributed initial wildcardFirst (sampleSource wildcardFirst)
    exact ⟨found, e, hfound, hdiscover, hinstalled [] {} _ found e rfl hfound hdiscover⟩

end Discovery
end PluginHost
