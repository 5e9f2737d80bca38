import Mathlib.Data.List.Perm.Subperm
import PluginHost.Proofs.PathPattern.Grounded
import PluginHost.Proofs.Walk.Itineraries
import PluginHost.Proofs.Walk.Runs

/-! # How often a walk visits

A walk tells of each directory it enters, and keeps the paths it asks descriptions for.
`VisitedOnce` says that these are the visits it remembers, none of them twice, and every
turn keeps it (`VisitedOnce.turn`).  Whatever a walk enters is the start, or a directory,
or on the way to the place that the start spells (`visitedOnce_walk`), so the directories
bound how often a walk enters anything (`VisitedOnce.length_le`).  Links need no
attention here: places are told apart by where paths lead. -/
namespace PluginHost

/-- The directory that an event tells was entered. -/
def Event.entered? : Event → Option Path
  | .directoryEntered dir => some dir
  | _ => none

namespace Surroundings

variable {here : Surroundings} {p : Progress}

/-! ## Walks end -/

/-- **A walk ends** after some turns. -/
theorem exists_walkWithin {tasks : List Task} {result : Progress × Option HostError}
    (run : here.Run tasks p result) : ∃ turns, here.walkWithin turns tasks p = some result := by
  induction run with
  | done p => exact ⟨1, rfl⟩
  | stop hf => exact ⟨1, by rw [walkWithin, hf]⟩
  | next hf rest ih =>
    obtain ⟨turns, hturns⟩ := ih
    exact ⟨turns + 1, by rw [walkWithin, hf]; exact hturns⟩

/-! ## Nothing is visited twice -/

/-- The directory that a turn enters, with the mark. -/
def entersOf (here : Surroundings) (p : Progress) : Task → List (Path × Bool)
  | .directory dir wild =>
    if p.visited.contains (here.fs.spot dir, wild) then [] else [(dir, wild)]
  | _ => []

/-- A task that does not pretend to have entered a directory. -/
def Honest : Task → Prop
  | .note event => event.entered? = none
  | _ => True

theorem entered?_lookAt (path : Path) (wild : Bool) (p : Progress) :
    (here.lookAt path wild p).1.log.filterMap Event.entered? = p.log.filterMap Event.entered? := by
  cases h : here.assess path wild p.index with
  | ok outcome =>
    rcases outcome with ⟨_ | _ | _ | _, index⟩ <;>
      simp [lookAt, h, settle, Progress.note, Event.entered?]
  | error e => cases wild <;> simp [lookAt, h, Progress.note, Event.entered?]

/-- A turn tells of the directory that it enters, and of no other. -/
theorem entered?_turn {t : Task} (ht : Honest t) :
    (here.turn p t).progress.log.filterMap Event.entered? =
      p.log.filterMap Event.entered? ++ (here.entersOf p t).map Prod.fst := by
  cases t with
  | note event =>
    have hnone : event.entered? = none := ht
    simp [turn, entersOf, Progress.note, hnone]
  | fault subject error wild => cases wild <;> simp [turn, entersOf, Progress.note, Event.entered?]
  | directory dir wild =>
    rw [turn, entersOf]
    split <;> simp [Progress.note, Progress.visit, Event.entered?]
  | candidate path wild =>
    rw [turn, show here.entersOf p (.candidate path wild) = [] from rfl]
    split
    · simp
    · exact (entered?_lookAt path wild _).trans (by simp [Progress.visit])

/-- The place and the mark of a visit. -/
def visitAt (here : Surroundings) (v : Path × Bool) : Spot × Bool := (here.fs.spot v.1, v.2)

/-- What was entered and what was read is what is remembered, and none of it twice. -/
structure VisitedOnce (here : Surroundings) (entered : List (Path × Bool)) (p : Progress) :
    Prop where
  told : p.log.filterMap Event.entered? = entered.map Prod.fst
  visits : ((entered ++ p.reads).map here.visitAt).Perm p.visited
  nodup_visited : p.visited.Nodup

theorem VisitedOnce.nodup {entered : List (Path × Bool)} (h : here.VisitedOnce entered p) :
    ((entered ++ p.reads).map here.visitAt).Nodup :=
  h.visits.nodup_iff.mpr h.nodup_visited

/-- A turn enters and reads nothing and remembers nothing new, or it enters or reads the
one thing that it remembers. -/
theorem visits_turn_cases (p : Progress) (t : Task) :
    (here.entersOf p t = [] ∧ here.readsOf p t = [] ∧
      (here.turn p t).progress.visited = p.visited) ∨
    ∃ v, here.visitAt v ∉ p.visited ∧
      (here.turn p t).progress.visited = here.visitAt v :: p.visited ∧
      ((here.entersOf p t = [v] ∧ here.readsOf p t = []) ∨
        (here.entersOf p t = [] ∧ here.readsOf p t = [v])) := by
  rw [visited_turn]
  cases t with
  | note event => exact .inl ⟨rfl, rfl, rfl⟩
  | fault subject error wild => exact .inl ⟨rfl, rfl, rfl⟩
  | directory dir wild =>
    rw [entersOf, visitOf, remember]
    split
    · exact .inl ⟨rfl, rfl, rfl⟩
    · rename_i hnew
      exact .inr ⟨(dir, wild), by simpa [visitAt] using hnew, rfl, .inl ⟨rfl, rfl⟩⟩
  | candidate path wild =>
    rw [readsOf, visitOf, remember]
    split
    · exact .inl ⟨rfl, rfl, rfl⟩
    · rename_i hnew
      exact .inr ⟨(path, wild), by simpa [visitAt] using hnew, rfl, .inr ⟨rfl, rfl⟩⟩

theorem VisitedOnce.turn {entered : List (Path × Bool)} (h : here.VisitedOnce entered p) {t : Task}
    (ht : Honest t) :
    here.VisitedOnce (entered ++ here.entersOf p t) (here.turn p t).progress := by
  have htold : (here.turn p t).progress.log.filterMap Event.entered? =
      (entered ++ here.entersOf p t).map Prod.fst := by
    rw [entered?_turn ht, h.told, List.map_append]
  obtain ⟨henters, hreads, hvisited⟩ | ⟨v, hnew, hvisited, hv⟩ := here.visits_turn_cases p t
  · refine ⟨htold, ?_, hvisited ▸ h.nodup_visited⟩
    rw [reads_turn, hreads, henters, hvisited, List.append_nil, List.append_nil]
    exact h.visits
  · -- The one visit of the turn comes to those there were, wherever it is kept.
    have hperm : (entered ++ here.entersOf p t ++ (here.turn p t).progress.reads).Perm
        (v :: (entered ++ p.reads)) := by
      rw [reads_turn]
      obtain ⟨henters, hreads⟩ | ⟨henters, hreads⟩ := hv
      · rw [henters, hreads, List.append_nil, List.append_assoc]
        exact List.perm_middle
      · rw [henters, hreads, List.append_nil, ← List.append_assoc]
        exact List.perm_append_singleton _ _
    refine ⟨htold, ?_, ?_⟩
    · rw [hvisited]
      exact (hperm.map here.visitAt).trans (h.visits.cons _)
    · rw [hvisited]
      exact List.nodup_cons.mpr ⟨hnew, h.nodup_visited⟩

/-! ## What is entered -/

/-- No entry of a manifest starts at the root of a drive. -/
def DriveFree (here : Surroundings) : Prop :=
  ∀ dir manifest entry, here.Lists dir manifest entry →
    PathPattern.startsAtDrive entry.text = false

/-- A path that a walk from `start` may enter. -/
def Enterable (here : Surroundings) (start path : Path) : Prop :=
  path = start ∨
    ∃ place, Place.Grounded here.fs (start.lexical here.fs.workingDirectory) place ∧
      path = place.path

variable {start : Path}

/-- What a directory that may be entered leads to may be entered. -/
theorem Leads.enterable (hfree : here.DriveFree) {dir path : Path} {wild wild' : Bool}
    (h : here.Leads dir wild (.directory path wild')) (hdir : here.Enterable start dir) :
    here.Enterable start path := by
  have hplace : (PathPattern.startPlace here.fs dir).Grounded here.fs
      (start.lexical here.fs.workingDirectory) := by
    obtain rfl | ⟨place, hplace, rfl⟩ := hdir
    · exact PathPattern.grounded_startPlace here.fs _
    · rw [PathPattern.startPlace_of_grounded hplace]
      exact hplace
  cases h with
  | directory listed _ resolved mem =>
    exact .inr ⟨_, PathPattern.grounded_of_mem_directories hplace (hfree _ _ _ listed) resolved
      _ mem, rfl⟩

/-- What may be entered is a directory or astray. -/
theorem Enterable.isDirectory_or_mem_strays (hstart : here.fs.isDirectory start = true)
    {path : Path} (h : here.Enterable start path) :
    here.fs.isDirectory path = true ∨ path ∈ PathPattern.strays here.fs start := by
  obtain rfl | ⟨place, hplace, rfl⟩ := h
  · exact .inl hstart
  · exact PathPattern.isDirectory_or_mem_strays hplace

/-- An itinerary does not pretend anything. -/
theorem honest_of_mem_itinerary {dir : Path} {wild : Bool} {t : Task}
    (h : t ∈ here.itinerary dir wild) : Honest t := by
  have hmanifests : ∀ manifests, t ∈ here.manifestsTasks dir wild manifests → Honest t := by
    intro manifests
    induction manifests with
    | nil => exact fun h => absurd h List.not_mem_nil
    | cons manifest manifests ih =>
      rw [manifestsTasks]
      split
      · intro h
        rw [List.mem_singleton.mp h]
        trivial
      · intro h
        obtain h | h := List.mem_append.mp h
        · unfold manifestTasks at h
          split at h
          · simp only [List.mem_cons, List.not_mem_nil, or_false] at h
            obtain rfl | rfl := h <;> rfl
          · obtain rfl | h := List.mem_cons.mp h
            · rfl
            · obtain ⟨entry, -, h⟩ := List.mem_flatMap.mp h
              rcases mem_entryTasks_iff.mp h with
                ⟨-, ⟨places, -, place, -, rfl⟩ | ⟨e, -, rfl⟩⟩ |
                ⟨-, ⟨places, -, place, -, rfl⟩ | ⟨e, -, rfl⟩⟩ <;> trivial
        · exact ih h
  unfold itinerary at h
  split at h
  · obtain ⟨path, -, rfl⟩ := List.mem_map.mp h
    trivial
  · exact hmanifests _ h

/-- **What a walk visits, it visits once**, and it enters what may be entered. -/
theorem visitedOnce_walk (here : Surroundings) (start : Path) (index : CandidateIndex) :
    ∃ entered, here.VisitedOnce entered (here.walk [.directory start false] { index }).1 ∧
      (here.DriveFree → ∀ v ∈ entered, here.Enterable start v.1) := by
  refine ((here.run_walk [.directory start false] { index }).invariant
    (P := fun q => ∃ entered, here.VisitedOnce entered q ∧
      (here.DriveFree → ∀ v ∈ entered, here.Enterable start v.1))
    (R := fun _ t => Honest t ∧
      (here.DriveFree → ∀ path wild, t = .directory path wild → here.Enterable start path))
    ?_ (fun _ _ _ hu => hu) ?_ ⟨[], ⟨rfl, .nil, List.nodup_nil⟩, by simp⟩ ?_).1
  · rintro q t ⟨entered, honce, henterable⟩ ⟨ht, htask⟩
    refine ⟨entered ++ here.entersOf q t, honce.turn ht, fun hfree v hv => ?_⟩
    obtain hv | hv := List.mem_append.mp hv
    · exact henterable hfree v hv
    · cases t with
      | directory dir wild =>
        rw [entersOf] at hv
        split at hv
        · cases hv
        · rw [List.mem_singleton.mp hv]
          exact htask hfree dir wild rfl
      | _ => cases hv
  · rintro q t - ⟨-, htask⟩ u hu
    obtain ⟨dir, wild, rfl, hmem, -⟩ := here.mem_tasks_turn hu
    refine ⟨honest_of_mem_itinerary hmem, ?_⟩
    rintro hfree path wild' rfl
    exact ((mem_itinerary_iff rfl).mp hmem).enterable hfree (htask hfree dir wild rfl)
  · intro t ht
    rw [List.mem_singleton.mp ht]
    refine ⟨trivial, fun _ path wild heq => ?_⟩
    cases heq
    exact .inl rfl

/-- What a walk asks descriptions for are files. -/
theorem isFile_of_mem_reads (index : CandidateIndex) :
    ∀ read ∈ (here.walk [.directory start false] { index }).1.reads,
      here.fs.isFile read.1 = true := by
  refine ((here.run_walk [.directory start false] { index }).invariant
    (P := fun q => ∀ read ∈ q.reads, here.fs.isFile read.1 = true)
    (R := fun _ t => ∀ path wild, t = .candidate path wild → here.fs.isFile path = true)
    ?_ (fun _ _ _ hu => hu) ?_ (by simp) (by simp)).1
  · intro q t hq ht read hread
    rw [reads_turn, List.mem_append] at hread
    obtain hread | hread := hread
    · exact hq read hread
    · cases t with
      | candidate path wild =>
        rw [readsOf] at hread
        split at hread
        · cases hread
        · rw [List.mem_singleton.mp hread]
          exact ht path wild rfl
      | _ => cases hread
  · rintro q t - - u hu path wild rfl
    obtain ⟨dir, wild', rfl, hmem, -⟩ := here.mem_tasks_turn hu
    exact ((mem_itinerary_iff rfl).mp hmem).isFile

/-- **A walk enters as many directories as there are at most**, with each mark, apart from
what is astray. -/
theorem VisitedOnce.length_le {entered : List (Path × Bool)} (h : here.VisitedOnce entered p)
    {strays : List Path}
    (hentered : ∀ v ∈ entered, here.fs.isDirectory v.1 = true ∨ v.1 ∈ strays) :
    entered.length ≤ 2 * (here.fs.directories.length + strays.length) := by
  have hnodup : (entered.map here.visitAt).Nodup := by
    refine h.nodup.sublist ?_
    rw [List.map_append]
    exact List.sublist_append_left _ _
  let spots := here.fs.directories.map Spot.location ++ strays.map here.fs.spot
  have hspots : entered.map here.visitAt ⊆ spots.map (·, false) ++ spots.map (·, true) := by
    intro visit hvisit
    obtain ⟨v, hv, rfl⟩ := List.mem_map.mp hvisit
    have hspot : here.fs.spot v.1 ∈ spots := by
      obtain hdir | hstray := hentered v hv
      · obtain ⟨loc, hloc, hdir⟩ := FileSystem.isDirectory_iff.mp hdir
        refine List.mem_append_left _ (List.mem_map.mpr
          ⟨loc, FileSystem.mem_directories_iff.mpr hdir, ?_⟩)
        rw [FileSystem.spot, hloc]
      · exact List.mem_append_right _ (List.mem_map_of_mem hstray)
    obtain ⟨path, wild⟩ := v
    cases wild with
    | false => exact List.mem_append_left _ (List.mem_map_of_mem hspot)
    | true => exact List.mem_append_right _ (List.mem_map_of_mem hspot)
  have hle := (List.subperm_of_subset hnodup hspots).length_le
  simp only [spots, List.length_map, List.length_append] at hle
  omega

/-- A place is read at most once with each mark. -/
theorem VisitedOnce.countP_reads_le {entered : List (Path × Bool)}
    (h : here.VisitedOnce entered p) (spot : Spot) :
    p.reads.countP (fun read => here.fs.spot read.1 == spot) ≤ 2 := by
  have hnodup : ((p.reads.filter fun read => here.fs.spot read.1 == spot).map
      here.visitAt).Nodup := by
    refine h.nodup.sublist ?_
    rw [List.map_append]
    exact (List.filter_sublist.map _).trans (List.sublist_append_right _ _)
  have hmarks : (p.reads.filter fun read => here.fs.spot read.1 == spot).map here.visitAt ⊆
      [(spot, false), (spot, true)] := by
    intro visit hvisit
    obtain ⟨⟨path, wild⟩, hread, rfl⟩ := List.mem_map.mp hvisit
    have hspot := eq_of_beq (List.mem_filter.mp hread).2
    cases wild <;> simp [visitAt, hspot]
  rw [List.countP_eq_length_filter, ← List.length_map here.visitAt]
  exact (List.subperm_of_subset hnodup hmarks).length_le

end Surroundings
end PluginHost
