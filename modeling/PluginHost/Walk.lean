import PluginHost.Candidate
import PluginHost.Event
import PluginHost.FileSystem.Directories
import PluginHost.Manifest
import PluginHost.MetadataSource

/-! # The walk from a directory to its modules

A directory that holds manifests leads to what their entries name: further
directories, and modules.  A directory without a manifest leads to the modules
in it.  What a wildcard led to is marked, and so is all that is found from
there; failures at marked places are noted and skipped, and every other failure
ends the walk.

`Surroundings.itinerary` lists what a directory leads to, as tasks.  It depends on the
file system only, not on what was visited before.  `Surroundings.walk` works off a list
of tasks: a directory that is entered puts its itinerary in front.  Manifests may
lead back to where the walk has been, so each place is entered at most once with
the mark and at most once without, and the number of places that are still open
is what ends the walk. -/
namespace PluginHost

/-- A place as far as the walk tells places apart: where a path leads, or the
path itself if it leads nowhere. -/
inductive Spot where
  | location (loc : Location)
  | nowhere (path : Path)
deriving DecidableEq

/-- The place of a path. -/
def FileSystem.spot (fs : FileSystem) (path : Path) : Spot :=
  match fs.locate path with
  | .ok loc => .location loc
  | .error _ => .nowhere path

/-- One step of a walk.  The flag `wild` says that a wildcard led here. -/
inductive Task where
  /-- Enter a directory. -/
  | directory (path : Path) (wild : Bool)
  /-- Look at a module. -/
  | candidate (path : Path) (wild : Bool)
  | note (event : Event)
  /-- Something could not be read. -/
  | fault (subject : Path) (error : HostError) (wild : Bool)

/-- What a walk takes place in. -/
structure Surroundings where
  fs : FileSystem
  source : MetadataSource
  manifestGlob : Glob
  moduleGlob : Glob

namespace Surroundings

variable (here : Surroundings)

/-! ## Itineraries -/

/-- The files in a directory whose names a glob matches, in the order of their
names. -/
def filesMatching (glob : Glob) (dir : Path) : List Path :=
  (((here.fs.names dir).filter glob.isMatch).map dir.child).filter here.fs.isFile

/-- What an entry of a manifest leads to. -/
def entryTasks (dir manifest : Path) (wild : Bool) (entry : ManifestEntry) : List Task :=
  let wild := wild || entry.hasWildcard
  let tasks (resolved : Except PatternError (List Place)) (make : Path → Bool → Task) :=
    match resolved with
    | .ok places => places.map fun place => make place.path wild
    | .error e => [.fault manifest (.invalidArgument (.pattern e)) wild]
  if entry.namesDirectories then tasks (PathPattern.directories here.fs dir entry.text) .directory
  else tasks (PathPattern.files here.fs dir entry.text) .candidate

/-- What the text of a manifest leads to. -/
def manifestTasks (dir manifest : Path) (wild : Bool) (text : String) : List Task :=
  match Manifest.parse? text with
  | none => [.note (.markupIgnored manifest), .note (.manifestEntered manifest)]
  | some entries =>
    .note (.manifestEntered manifest) :: entries.flatMap (here.entryTasks dir manifest wild)

/-- What the manifests of a directory lead to, up to the first that cannot be
read. -/
def manifestsTasks (dir : Path) (wild : Bool) : List Path → List Task
  | [] => []
  | manifest :: manifests =>
    match here.fs.readText manifest with
    | .error e => [.fault manifest (.manifestRead manifest e) wild]
    | .ok text => here.manifestTasks dir manifest wild text ++ manifestsTasks dir wild manifests

/-- What a directory leads to. -/
def itinerary (dir : Path) (wild : Bool) : List Task :=
  match here.filesMatching here.manifestGlob dir with
  | [] => (here.filesMatching here.moduleGlob dir).map (.candidate · true)
  | manifests => here.manifestsTasks dir wild manifests

end Surroundings

/-! ## Walking -/

/-- What a walk has come to know. -/
structure Progress where
  /-- The places that were visited, with and without the mark. -/
  visited : List (Spot × Bool) := []
  index : CandidateIndex
  log : List Event := []
  /-- The paths that descriptions were asked for, with the mark. -/
  reads : List (Path × Bool) := []

namespace Progress

/-- Notes an event. -/
def note (event : Event) (p : Progress) : Progress := { p with log := p.log ++ [event] }

/-- Marks a place as visited. -/
def visit (spot : Spot) (wild : Bool) (p : Progress) : Progress :=
  { p with visited := (spot, wild) :: p.visited }

end Progress

namespace Surroundings

variable (here : Surroundings)

/-- Reads the description of a module and offers the module to an index. -/
def assess (path : Path) (wild : Bool) (index : CandidateIndex) :
    Except HostError (Offer × CandidateIndex) := do
  index.offer (← Candidate.of path (← here.source path) wild)

/-- The progress after an offer, which is noted if it was refused. -/
def settle (path : Path) (p : Progress) : Offer × CandidateIndex → Progress
  | (.rejected target, index) =>
    { p with index }.note (.moduleRejected path target index.host)
  | (_, index) => { p with index }

/-- Looks at a module that was not visited.  What goes wrong is noted and skipped
if a wildcard led here. -/
def lookAt (path : Path) (wild : Bool) (p : Progress) : Progress × Option HostError :=
  let p := { p with reads := p.reads ++ [(path, wild)] }
  match here.assess path wild p.index with
  | .ok outcome => (settle path p outcome, none)
  | .error e => if wild then (p.note (.entrySkipped path e), none) else (p, some e)

/-! ### Why the walk ends -/

/-- Every directory, with and without the mark. -/
def allVisits (fs : FileSystem) : List (Spot × Bool) :=
  fs.directories.flatMap fun loc => [(.location loc, false), (.location loc, true)]

/-- How many visits of directories are still to come. -/
def openVisits (fs : FileSystem) (visited : List (Spot × Bool)) : Nat :=
  (allVisits fs).countP fun v => !visited.contains v

theorem openVisits_cons_le (fs : FileSystem) (v : Spot × Bool) (visited : List (Spot × Bool)) :
    openVisits fs (v :: visited) ≤ openVisits fs visited := by
  refine List.countP_mono_left fun w _ hw => ?_
  simp only [List.contains_cons, Bool.not_or, Bool.and_eq_true] at hw
  exact hw.2

theorem mem_allVisits {fs : FileSystem} {loc : Location} (h : fs.hasDirectory loc = true)
    (wild : Bool) : (Spot.location loc, wild) ∈ allVisits fs :=
  List.mem_flatMap.mpr ⟨loc, FileSystem.mem_directories h, by cases wild <;> simp⟩

theorem openVisits_cons_lt {fs : FileSystem} {loc : Location} {wild : Bool}
    {visited : List (Spot × Bool)} (h : fs.hasDirectory loc = true)
    (hv : visited.contains (Spot.location loc, wild) = false) :
    openVisits fs ((.location loc, wild) :: visited) < openVisits fs visited := by
  -- What was open is what is still open, and this visit.
  have split : openVisits fs visited =
      openVisits fs ((.location loc, wild) :: visited)
        + (allVisits fs).countP fun v => v == (.location loc, wild) := by
    unfold openVisits
    induction allVisits fs with
    | nil => rfl
    | cons w rest ih =>
      rw [List.countP_cons, List.countP_cons, List.countP_cons, ih]
      by_cases hw : w = (Spot.location loc, wild)
      · subst hw; rw [hv]; simp; omega
      · simp [hw]; omega
  have pos : 0 < (allVisits fs).countP fun v => v == (.location loc, wild) :=
    List.countP_pos_iff.mpr ⟨_, mem_allVisits h wild, by simp⟩
  omega

/-- What leads anywhere is a directory. -/
theorem spot_of_itinerary_ne_nil {dir : Path} {wild : Bool}
    (h : here.itinerary dir wild ≠ []) :
    ∃ loc, here.fs.spot dir = .location loc ∧ here.fs.hasDirectory loc = true := by
  obtain ⟨name, hname⟩ : ∃ name, name ∈ here.fs.names dir :=
    List.exists_mem_of_ne_nil _ fun hn => h (by simp [itinerary, filesMatching, hn])
  obtain ⟨loc, hl, hd⟩ := FileSystem.hasDirectory_of_mem_names hname
  exact ⟨loc, by simp [FileSystem.spot, hl], hd⟩

/-- Entering a directory leaves fewer visits open, or nothing new to do. -/
theorem enter_decreases (dir : Path) (wild : Bool) (tasks : List Task)
    (visited : List (Spot × Bool)) (hv : visited.contains (here.fs.spot dir, wild) = false) :
    Prod.Lex (· < ·) (· < ·)
      (openVisits here.fs ((here.fs.spot dir, wild) :: visited),
        (here.itinerary dir wild ++ tasks).length)
      (openVisits here.fs visited, tasks.length + 1) := by
  by_cases h : here.itinerary dir wild = []
  · rw [h]
    rcases Nat.lt_or_eq_of_le (openVisits_cons_le here.fs (here.fs.spot dir, wild) visited)
      with hlt | heq
    · exact .left _ _ hlt
    · rw [heq]; exact .right _ (by simp)
  · obtain ⟨loc, hs, hd⟩ := here.spot_of_itinerary_ne_nil h
    rw [hs] at hv ⊢
    exact .left _ _ (openVisits_cons_lt hd hv)

@[simp] theorem visited_settle (path : Path) (p : Progress) (outcome : Offer × CandidateIndex) :
    (settle path p outcome).visited = p.visited := by
  rcases outcome with ⟨_ | _ | _ | _, index⟩ <;> rfl

/-- Looking at a module visits nothing else. -/
theorem visited_lookAt (path : Path) (wild : Bool) (p : Progress) :
    (here.lookAt path wild p).1.visited = p.visited := by
  cases h : here.assess path wild p.index with
  | ok outcome => simp [lookAt, h]
  | error e => cases wild <;> simp [lookAt, h, Progress.note]

/-- Works off a list of tasks, and says which failure ended the walk before its
end. -/
def walk : List Task → Progress → Progress × Option HostError
  | [], p => (p, none)
  | .note event :: tasks, p => walk tasks (p.note event)
  | .fault subject error wild :: tasks, p =>
    if wild then walk tasks (p.note (.entrySkipped subject error)) else (p, some error)
  | .directory dir wild :: tasks, p =>
    if p.visited.contains (here.fs.spot dir, wild) then
      walk tasks (p.note (.directoryRepeated dir))
    else
      walk (here.itinerary dir wild ++ tasks)
        ((p.visit (here.fs.spot dir) wild).note (.directoryEntered dir))
  | .candidate path wild :: tasks, p =>
    if p.visited.contains (here.fs.spot path, wild) then walk tasks p
    else match _h : here.lookAt path wild (p.visit (here.fs.spot path) wild) with
      | (q, none) => walk tasks q
      | (q, some error) => (q, some error)
termination_by tasks p => (openVisits here.fs p.visited, tasks.length)
decreasing_by
  · exact .right _ (Nat.lt_succ_self _)
  · exact .right _ (Nat.lt_succ_self _)
  · exact .right _ (Nat.lt_succ_self _)
  · -- A directory is entered: its own visit is used up.
    rename_i h
    exact here.enter_decreases dir wild tasks p.visited (Bool.eq_false_iff.mpr h)
  · exact .right _ (Nat.lt_succ_self _)
  · -- A module is looked at: one task fewer, and no visit more.
    have hq : q.visited = (here.fs.spot path, wild) :: p.visited := by
      have := here.visited_lookAt path wild (p.visit (here.fs.spot path) wild)
      rwa [_h] at this
    rcases Nat.lt_or_eq_of_le (openVisits_cons_le here.fs (here.fs.spot path, wild) p.visited)
      with hlt | heq
    · exact .left _ _ (hq ▸ hlt)
    · rw [hq, heq]; exact .right _ (Nat.lt_succ_self _)

end Surroundings
end PluginHost
