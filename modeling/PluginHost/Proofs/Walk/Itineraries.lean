import PluginHost.Proofs.FileSystem.Contents
import PluginHost.Proofs.Manifest.Grammar
import PluginHost.Proofs.PathPattern.Plain
import PluginHost.Proofs.PathPattern.Resolving
import PluginHost.Walk

/-! # What a directory leads to

`Surroundings.Leads` says, rule by rule, which tasks a directory leads to: the
directories and the files that the entries of its manifests name, the manifest
that cannot be read, the patterns that cannot be resolved, and the modules of a
directory without a manifest.  An itinerary consists of exactly these tasks, notes
apart (`mem_itinerary_iff`), and proofs about itineraries are case analyses of
`Leads`.

With the mark all that a directory leads to has the mark (`Leads.tolerated`), and
a fault without it is about a manifest that cannot be read, never about a pattern
(`Leads.fault_eq`). -/
namespace PluginHost

/-- Whether a task is a note. -/
def Task.isNote : Task → Bool
  | .note _ => true
  | _ => false

namespace Surroundings

variable {here : Surroundings}

/-- Whether a manifest can be read. -/
def legible (here : Surroundings) (manifest : Path) : Bool :=
  match here.fs.readText manifest with
  | .ok _ => true
  | .error _ => false

/-- The manifests of a directory, in the order of their names. -/
def manifests (here : Surroundings) (dir : Path) : List Path :=
  here.filesMatching here.manifestGlob dir

/-- The manifests of a directory up to the first that cannot be read. -/
def legibleManifests (here : Surroundings) (dir : Path) : List Path :=
  (here.manifests dir).takeWhile here.legible

/-- An entry of a manifest of the directory, read from the manifests up to the
first that cannot be read. -/
structure Lists (here : Surroundings) (dir manifest : Path) (entry : ManifestEntry) : Prop where
  mem : manifest ∈ here.legibleManifests dir
  listed : ∃ text entries, here.fs.readText manifest = .ok text ∧
    Manifest.parse? text = some entries ∧ entry ∈ entries

/-- The tasks that a directory leads to. -/
inductive Leads (here : Surroundings) (dir : Path) (wild : Bool) : Task → Prop where
  /-- An entry names a directory. -/
  | directory {manifest : Path} {entry : ManifestEntry} {places : List Place} {place : Place}
      (listed : here.Lists dir manifest entry) (names : entry.namesDirectories = true)
      (resolved : PathPattern.directories here.fs dir entry.text = .ok places)
      (mem : place ∈ places) :
      Leads here dir wild (.directory place.path (wild || entry.hasWildcard))
  /-- An entry names a file. -/
  | file {manifest : Path} {entry : ManifestEntry} {places : List Place} {place : Place}
      (listed : here.Lists dir manifest entry) (names : entry.namesDirectories = false)
      (resolved : PathPattern.files here.fs dir entry.text = .ok places)
      (mem : place ∈ places) :
      Leads here dir wild (.candidate place.path (wild || entry.hasWildcard))
  /-- A directory without a manifest leads to its modules. -/
  | bare {path : Path} (none : here.manifests dir = [])
      (mem : path ∈ here.filesMatching here.moduleGlob dir) :
      Leads here dir wild (.candidate path true)
  /-- The first manifest that cannot be read is told. -/
  | illegible {manifest : Path} {e : FileError}
      (first : manifest ∈ ((here.manifests dir).dropWhile here.legible).head?)
      (unread : here.fs.readText manifest = .error e) :
      Leads here dir wild (.fault manifest (.manifestRead manifest e) wild)
  /-- A pattern for directories cannot be resolved. -/
  | badDirectory {manifest : Path} {entry : ManifestEntry} {e : PatternError}
      (listed : here.Lists dir manifest entry) (names : entry.namesDirectories = true)
      (bad : PathPattern.directories here.fs dir entry.text = .error e) :
      Leads here dir wild
        (.fault manifest (.invalidArgument (.pattern e)) (wild || entry.hasWildcard))
  /-- A pattern for files cannot be resolved. -/
  | badFile {manifest : Path} {entry : ManifestEntry} {e : PatternError}
      (listed : here.Lists dir manifest entry) (names : entry.namesDirectories = false)
      (bad : PathPattern.files here.fs dir entry.text = .error e) :
      Leads here dir wild
        (.fault manifest (.invalidArgument (.pattern e)) (wild || entry.hasWildcard))

/-! ## Itineraries consist of these tasks -/

/-- What one entry leads to. -/
theorem mem_entryTasks_iff {dir manifest : Path} {wild : Bool} {entry : ManifestEntry} {t : Task} :
    t ∈ here.entryTasks dir manifest wild entry ↔
      (entry.namesDirectories = true ∧
        ((∃ places, PathPattern.directories here.fs dir entry.text = .ok places ∧
            ∃ place ∈ places, t = .directory place.path (wild || entry.hasWildcard)) ∨
          ∃ e, PathPattern.directories here.fs dir entry.text = .error e ∧
            t = .fault manifest (.invalidArgument (.pattern e)) (wild || entry.hasWildcard))) ∨
      (entry.namesDirectories = false ∧
        ((∃ places, PathPattern.files here.fs dir entry.text = .ok places ∧
            ∃ place ∈ places, t = .candidate place.path (wild || entry.hasWildcard)) ∨
          ∃ e, PathPattern.files here.fs dir entry.text = .error e ∧
            t = .fault manifest (.invalidArgument (.pattern e)) (wild || entry.hasWildcard))) := by
  unfold entryTasks
  cases hn : entry.namesDirectories with
  | true =>
    cases hr : PathPattern.directories here.fs dir entry.text <;> simp [eq_comm]
  | false =>
    cases hr : PathPattern.files here.fs dir entry.text <;> simp [eq_comm]

/-- What the manifests of a directory lead to, notes apart. -/
theorem mem_manifestsTasks_iff {dir : Path} {wild : Bool} {manifests : List Path} {t : Task}
    (ht : t.isNote = false) :
    t ∈ here.manifestsTasks dir wild manifests ↔
      (∃ manifest ∈ manifests.takeWhile here.legible, ∃ text entries,
        here.fs.readText manifest = .ok text ∧ Manifest.parse? text = some entries ∧
        ∃ entry ∈ entries, t ∈ here.entryTasks dir manifest wild entry) ∨
      ∃ manifest ∈ (manifests.dropWhile here.legible).head?, ∃ e,
        here.fs.readText manifest = .error e ∧
        t = .fault manifest (.manifestRead manifest e) wild := by
  have hnote : ∀ event, t ≠ .note event := by
    rintro event rfl
    cases ht
  induction manifests with
  | nil => simp [manifestsTasks]
  | cons manifest manifests ih =>
    rw [manifestsTasks]
    cases hr : here.fs.readText manifest with
    | error e =>
      have hl : here.legible manifest = false := by rw [legible, hr]
      simp [hl, hr]
    | ok text =>
      have hl : here.legible manifest = true := by rw [legible, hr]
      have hhead : t ∈ here.manifestTasks dir manifest wild text ↔
          ∃ entries, Manifest.parse? text = some entries ∧
            ∃ entry ∈ entries, t ∈ here.entryTasks dir manifest wild entry := by
        unfold manifestTasks
        cases hp : Manifest.parse? text with
        | none => simp [hnote]
        | some entries => simp [hnote, List.mem_flatMap]
      rw [List.takeWhile_cons_of_pos hl, List.dropWhile_cons_of_pos hl, List.mem_append]
      refine (or_congr hhead ih).trans ?_
      rw [← or_assoc]
      refine or_congr_left ?_
      simp only [List.mem_cons, exists_eq_or_imp]
      refine or_congr_left ?_
      constructor
      · rintro ⟨entries, hp, hentry⟩
        exact ⟨text, entries, hr, hp, hentry⟩
      · rintro ⟨text', entries, hr', hp, hentry⟩
        obtain rfl : text = text' := Except.ok.inj (hr.symm.trans hr')
        exact ⟨entries, hp, hentry⟩

/-- **An itinerary consists of the tasks that the directory leads to**, and of notes. -/
theorem mem_itinerary_iff {dir : Path} {wild : Bool} {t : Task} (ht : t.isNote = false) :
    t ∈ here.itinerary dir wild ↔ here.Leads dir wild t := by
  have hitinerary : t ∈ here.itinerary dir wild ↔
      (here.manifests dir = [] ∧
        ∃ path ∈ here.filesMatching here.moduleGlob dir, t = .candidate path true) ∨
      t ∈ here.manifestsTasks dir wild (here.manifests dir) := by
    unfold itinerary manifests
    split
    · rename_i hm
      simp [hm, manifestsTasks, eq_comm]
    · rename_i hm
      exact (or_iff_right fun h => hm h.1).symm
  rw [hitinerary, mem_manifestsTasks_iff ht]
  constructor
  · rintro (⟨hnone, path, hpath, rfl⟩ | ⟨manifest, hm, text, entries, hr, hp, entry, he, ht'⟩
      | ⟨manifest, hm, e, hr, rfl⟩)
    · exact .bare hnone hpath
    · have hlists : here.Lists dir manifest entry := ⟨hm, text, entries, hr, hp, he⟩
      rcases mem_entryTasks_iff.mp ht' with
        ⟨hn, ⟨places, hres, place, hplace, rfl⟩ | ⟨e, hres, rfl⟩⟩ |
        ⟨hn, ⟨places, hres, place, hplace, rfl⟩ | ⟨e, hres, rfl⟩⟩
      · exact .directory hlists hn hres hplace
      · exact .badDirectory hlists hn hres
      · exact .file hlists hn hres hplace
      · exact .badFile hlists hn hres
    · exact .illegible hm hr
  · intro h
    cases h with
    | bare hnone hpath => exact .inl ⟨hnone, _, hpath, rfl⟩
    | illegible hm hr => exact .inr (.inr ⟨_, hm, _, hr, rfl⟩)
    | directory listed hn hres hplace =>
      obtain ⟨hm, text, entries, hr, hp, he⟩ := listed
      exact .inr (.inl ⟨_, hm, text, entries, hr, hp, _, he,
        mem_entryTasks_iff.mpr (.inl ⟨hn, .inl ⟨_, hres, _, hplace, rfl⟩⟩)⟩)
    | badDirectory listed hn hres =>
      obtain ⟨hm, text, entries, hr, hp, he⟩ := listed
      exact .inr (.inl ⟨_, hm, text, entries, hr, hp, _, he,
        mem_entryTasks_iff.mpr (.inl ⟨hn, .inr ⟨_, hres, rfl⟩⟩)⟩)
    | file listed hn hres hplace =>
      obtain ⟨hm, text, entries, hr, hp, he⟩ := listed
      exact .inr (.inl ⟨_, hm, text, entries, hr, hp, _, he,
        mem_entryTasks_iff.mpr (.inr ⟨hn, .inl ⟨_, hres, _, hplace, rfl⟩⟩)⟩)
    | badFile listed hn hres =>
      obtain ⟨hm, text, entries, hr, hp, he⟩ := listed
      exact .inr (.inl ⟨_, hm, text, entries, hr, hp, _, he,
        mem_entryTasks_iff.mpr (.inr ⟨hn, .inr ⟨_, hres, rfl⟩⟩)⟩)

/-! ## What the tasks have in common -/

theorem mem_filesMatching {glob : Glob} {dir path : Path} :
    path ∈ here.filesMatching glob dir ↔
      ∃ name ∈ here.fs.names dir, glob.isMatch name = true ∧ path = dir.child name ∧
        here.fs.isFile path = true := by
  simp only [filesMatching, List.mem_filter, List.mem_map]
  constructor
  · rintro ⟨⟨name, ⟨hname, hmatch⟩, rfl⟩, hfile⟩
    exact ⟨name, hname, hmatch, rfl, hfile⟩
  · rintro ⟨name, hname, hmatch, rfl, hfile⟩
    exact ⟨⟨name, ⟨hname, hmatch⟩, rfl⟩, hfile⟩

theorem Lists.text_ne_empty {dir manifest : Path} {entry : ManifestEntry}
    (h : here.Lists dir manifest entry) : dir.text ≠ "" ∧ entry.text ≠ "" := by
  obtain ⟨hm, text, entries, -, hp, he⟩ := h
  obtain ⟨name, hname, -⟩ := mem_filesMatching.mp ((List.takeWhile_sublist _).mem hm)
  obtain ⟨loc, hloc, -⟩ := FileSystem.hasDirectory_of_mem_names hname
  exact ⟨FileSystem.text_ne_empty_of_locate hloc, (Manifest.text_of_mem hp he).1⟩

/-- **A pattern that cannot be resolved has a wildcard.** -/
theorem Lists.hasWildcard_of_bad {dir manifest : Path} {entry : ManifestEntry} {e : PatternError}
    (h : here.Lists dir manifest entry)
    (hbad : PathPattern.directories here.fs dir entry.text = .error e ∨
      PathPattern.files here.fs dir entry.text = .error e) : entry.hasWildcard = true := by
  obtain ⟨hdir, htext⟩ := h.text_ne_empty
  cases hw : entry.hasWildcard with
  | true => rfl
  | false =>
    exfalso
    have hplain := ManifestEntry.plain_of_not_hasWildcard hw
    rcases hbad with hbad | hbad
    · obtain ⟨places, hok⟩ := PathPattern.directories_of_plain here.fs hdir htext hplain
      rw [hok] at hbad; cases hbad
    · obtain ⟨places, hok⟩ := PathPattern.files_of_plain here.fs hdir htext hplain
      rw [hok] at hbad; cases hbad

/-- The tasks whose failures are skipped. -/
def Tolerated : Task → Prop
  | .directory _ wild | .candidate _ wild | .fault _ _ wild => wild = true
  | .note _ => True

/-- Below a mark everything has the mark. -/
theorem Leads.tolerated {dir : Path} {t : Task} (h : here.Leads dir true t) : Tolerated t := by
  cases h <;> rfl

/-- **A fault without the mark is about a manifest that cannot be read.** -/
theorem Leads.fault_eq {dir subject : Path} {wild : Bool} {e : HostError}
    (h : here.Leads dir wild (.fault subject e false)) :
    wild = false ∧ subject ∈ here.manifests dir ∧
      ∃ error, here.fs.readText subject = .error error ∧ e = .manifestRead subject error := by
  generalize ht : Task.fault subject e false = t at h
  cases h with
  | illegible hm hr =>
    cases ht
    exact ⟨rfl, (List.dropWhile_sublist _).mem (List.mem_of_mem_head? hm), _, hr, rfl⟩
  | badDirectory listed hn hbad =>
    injection ht with hsubject he hwild
    rw [listed.hasWildcard_of_bad (.inl hbad), Bool.or_true] at hwild
    cases hwild
  | badFile listed hn hbad =>
    injection ht with hsubject he hwild
    rw [listed.hasWildcard_of_bad (.inr hbad), Bool.or_true] at hwild
    cases hwild
  | _ => cases ht

/-- The modules that a directory leads to are files. -/
theorem Leads.isFile {dir path : Path} {wild wild' : Bool}
    (h : here.Leads dir wild (.candidate path wild')) : here.fs.isFile path = true := by
  generalize ht : Task.candidate path wild' = t at h
  cases h with
  | bare hnone hpath =>
    cases ht
    obtain ⟨name, -, -, -, hfile⟩ := mem_filesMatching.mp hpath
    exact hfile
  | file listed hn hres hplace =>
    cases ht
    exact PathPattern.isFile_of_mem_files hres hplace
  | _ => cases ht

end Surroundings
end PluginHost
