import Mathlib.Data.List.Infix
import PluginHost.Proofs.FileSystem.Following
import PluginHost.Proofs.PathPattern.Resolving

/-! # Patterns from a directory that may lie behind links

A pattern is resolved from where its start is spelled.  Over links and `..` a start may
be spelled where there is nothing, and then so may what stands above it; whatever else a
pattern leads to is a directory (`grounded_of_mem_directories`).  Patterns that start at
the root of a drive are set aside here. -/
namespace PluginHost

variable {fs : FileSystem} {home : Location}

/-- A place that is a directory, or that stands above `home` or there. -/
inductive Place.Grounded (fs : FileSystem) (home : Location) : Place → Prop
  | directory {names : Location} (proper : ∀ name ∈ names, ProperName name)
      (dir : fs.isDirectory (.ofLocation names) = true) : Grounded fs home (.absolute names)
  | above {names : Location} (proper : ∀ name ∈ names, ProperName name)
      (front : names <+: home) : Grounded fs home (.absolute names)

namespace Place

theorem descendant_absolute (names more : List String) :
    (Place.absolute names).descendant more = .absolute (names ++ more) := by
  induction more generalizing names with
  | nil => rw [List.append_nil]; rfl
  | cons name more ih =>
    rw [List.append_cons]
    exact ih (names ++ [name])

/-- Below the root every place has a parent. -/
theorem parent?_of_ne_nil {names : List String} (h : names ≠ []) :
    (Place.absolute names).parent? = some (.absolute names.dropLast) := by
  cases names with
  | nil => exact absurd rfl h
  | cons name names => rfl

theorem parent?_concat (front : List String) (name : String) :
    (Place.absolute (front ++ [name])).parent? = some (.absolute front) := by
  rw [parent?_of_ne_nil (List.concat_ne_nil _ _), List.dropLast_concat]

/-- A grounded place is a path of proper names. -/
theorem Grounded.exists_names {place : Place} (h : place.Grounded fs home) :
    ∃ names, place = .absolute names ∧ ∀ name ∈ names, ProperName name := by
  cases h with
  | directory proper => exact ⟨_, rfl, proper⟩
  | above proper => exact ⟨_, rfl, proper⟩

theorem Grounded.parent {place up : Place} (h : place.Grounded fs home)
    (hup : place.parent? = some up) : up.Grounded fs home := by
  obtain ⟨names, rfl, hproper⟩ := h.exists_names
  obtain rfl | ⟨front, name, rfl⟩ := List.eq_nil_or_concat names
  · cases hup
  · rw [List.concat_eq_append] at h hup hproper
    have hfront : ∀ n ∈ front, ProperName n := fun n hn =>
      hproper n (List.mem_append_left _ hn)
    rw [parent?_concat] at hup
    obtain rfl := Option.some.inj hup
    cases h with
    | directory _ dir => exact .directory hfront (FileSystem.isDirectory_of_append hproper dir)
    | above _ lies => exact .above hfront ((List.prefix_append _ _).trans lies)

/-- One step from a grounded place leads to grounded places. -/
theorem Grounded.expand {place next : Place} (h : place.Grounded fs home) {step : PathStep}
    (hnext : next ∈ step.expand fs place) : next.Grounded fs home := by
  cases step with
  | stay =>
    rw [List.mem_singleton.mp hnext]
    exact h
  | up =>
    rw [PathStep.expand, Option.mem_toList] at hnext
    exact h.parent hnext
  | deep =>
    obtain rfl | hnext := List.mem_cons.mp hnext
    · exact h
    · obtain ⟨more, hmore, rfl⟩ := List.mem_map.mp hnext
      obtain ⟨names, rfl, hproper⟩ := h.exists_names
      obtain ⟨hall, hdir⟩ := FileSystem.isDirectory_of_mem_below hproper hmore
      rw [descendant_absolute]
      exact .directory hall hdir
  | wild glob =>
    obtain ⟨hnext, hdir⟩ := List.mem_filter.mp hnext
    obtain ⟨name, hname, rfl⟩ := List.mem_map.mp hnext
    obtain ⟨names, rfl, hproper⟩ := h.exists_names
    refine .directory (fun n hn => ?_) hdir
    obtain hn | hn := List.mem_append.mp hn
    · exact hproper n hn
    · rw [List.mem_singleton.mp hn]
      exact FileSystem.properName_of_mem_names (List.mem_filter.mp hname).1

end Place

namespace PathPattern

variable {start : Path} {pattern : String} {places : List Place}

/-- Whether a pattern starts at the root of a drive. -/
def startsAtDrive (pattern : String) : Bool :=
  match (splitRoot (slashed pattern.toList)).1 with
  | some (.drive _) => true
  | _ => false

/-- **What a pattern leads to is grounded** if the place of its start is. -/
theorem grounded_of_mem_directories (hstart : (startPlace fs start).Grounded fs home)
    (hdrive : startsAtDrive pattern = false) (h : directories fs start pattern = .ok places) :
    ∀ place ∈ places, place.Grounded fs home := by
  obtain ⟨p, hp, rfl⟩ := directories_eq_ok h
  refine forall_mem_resolve ?_ fun _ _ hplace _ hnext => hplace.expand hnext
  rw [(ofChars_eq_ok hp).1]
  obtain hroot | hroot | ⟨letter, -, hroot⟩ := splitRoot_cases (slashed pattern.toList)
  · rw [hroot]
    exact hstart
  · rw [hroot]
    exact .directory (fun _ h => absurd h List.not_mem_nil) rfl
  · rw [startsAtDrive, hroot] at hdrive
    cases hdrive

/-! ## Starts -/

/-- A start spells proper names. -/
theorem properName_of_mem_spelled (fs : FileSystem) (start : Path) :
    ∀ name ∈ start.lexical fs.workingDirectory, ProperName name :=
  Path.properName_of_mem_lexical fs.properName_here start

/-- A start is grounded by itself. -/
theorem grounded_startPlace (fs : FileSystem) (start : Path) :
    (startPlace fs start).Grounded fs (start.lexical fs.workingDirectory) :=
  .above (properName_of_mem_spelled fs start) List.prefix_rfl

/-- A directory in normal form is the place where it is resolved from. -/
theorem startPlace_ofLocation {names : Location} (hproper : ∀ name ∈ names, ProperName name) :
    startPlace fs (.ofLocation names) = .absolute names :=
  congrArg Place.absolute (Path.lexical_ofLocation hproper _)

/-- A grounded place is where its path is resolved from. -/
theorem startPlace_of_grounded {place : Place} (h : place.Grounded fs home) :
    startPlace fs place.path = place := by
  obtain ⟨names, rfl, hproper⟩ := h.exists_names
  exact startPlace_ofLocation hproper

/-- The paths above the place that a path spells, and to that place, that lead to no
directory. -/
def strays (fs : FileSystem) (start : Path) : List Path :=
  ((start.lexical fs.workingDirectory).inits.map Path.ofLocation).filter
    fun path => !fs.isDirectory path

/-- A grounded place is a directory or astray. -/
theorem isDirectory_or_mem_strays {place : Place}
    (h : place.Grounded fs (start.lexical fs.workingDirectory)) :
    fs.isDirectory place.path = true ∨ place.path ∈ strays fs start := by
  cases h with
  | directory proper dir => exact .inl dir
  | @above names proper front =>
    cases hdir : fs.isDirectory (.ofLocation names) with
    | true => exact .inl hdir
    | false =>
      refine .inr (List.mem_filter.mpr ⟨?_, by simp [Place.path, hdir]⟩)
      exact List.mem_map_of_mem ((List.mem_inits _ _).mpr front)

/-- Nothing is astray when a start is spelled where there is a directory. -/
theorem strays_eq_nil (hspelled : fs.isDirectory (startPlace fs start).path = true) :
    strays fs start = [] := by
  refine List.filter_eq_nil_iff.mpr fun path hpath => ?_
  obtain ⟨names, hnames, rfl⟩ := List.mem_map.mp hpath
  obtain ⟨back, hback⟩ := (List.mem_inits _ _).mp hnames
  have hproper := properName_of_mem_spelled fs start
  have hhome : startPlace fs start = .absolute (names ++ back) := by rw [hback]; rfl
  rw [hhome] at hspelled
  rw [← hback] at hproper
  simpa using FileSystem.isDirectory_of_append hproper hspelled

end PathPattern
end PluginHost
