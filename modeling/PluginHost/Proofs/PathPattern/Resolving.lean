import PluginHost.PathPattern
import PluginHost.Proofs.Results

/-! # What resolving answers

`directories_eq_ok` and `files_eq_ok` say what an answer of a resolver consists
of: a pattern that could be read, and the places that it leads to.  What every step of
a pattern keeps holds of the places that the pattern leads to (`forall_mem_resolve`).
What a pattern for files leads to are files (`isFile_of_mem_files`). -/
namespace PluginHost

namespace PathPattern

variable {fs : FileSystem} {start : Path} {pattern : String} {places : List Place}

/-- The roots that patterns name. -/
theorem splitRoot_cases (cs : List Char) :
    (splitRoot cs).1 = none ∨ (splitRoot cs).1 = some (.absolute []) ∨
      ∃ letter, letter ≠ '/' ∧ (splitRoot cs).1 = some (.drive letter) := by
  unfold splitRoot
  split
  · exact .inr (.inl rfl)
  · rename_i letter rest _
    split
    · rename_i halpha
      refine .inr (.inr ⟨letter, ?_, rfl⟩)
      rintro rfl
      exact absurd halpha (by decide)
    · exact .inl rfl
  · exact .inl rfl

/-- What a text that can be read as a pattern is read as. -/
theorem ofChars_eq_ok {text : List Char} {p : PathPattern}
    (h : PathPattern.ofChars text = .ok p) : p.base? = (splitRoot text).1 ∧
      ((splitRoot text).2.splitOn '/').mapM PathStep.ofChars = .ok p.steps := by
  obtain ⟨steps, hsteps, h⟩ := bind_eq_ok h
  obtain rfl := Except.ok.inj h
  exact ⟨rfl, hsteps⟩

/-- What holds where a pattern starts, and is kept by every step, holds of the places that
the pattern leads to. -/
theorem forall_mem_resolve {P : Place → Prop} {p : PathPattern}
    (hbase : P (p.base?.getD (startPlace fs start)))
    (hexpand : ∀ (step : PathStep) (place : Place), P place →
      ∀ next ∈ step.expand fs place, P next) : ∀ place ∈ resolve fs start p, P place := by
  have hsteps : ∀ (steps : List PathStep) (frontier : List Place), (∀ place ∈ frontier, P place) →
      ∀ place ∈ steps.foldl (advance fs) frontier, P place := by
    intro steps
    induction steps with
    | nil => exact fun _ h => h
    | cons step steps ih =>
      refine fun frontier h => ih _ fun place hplace => ?_
      rw [advance, List.mem_eraseDups] at hplace
      obtain ⟨d, hd, hplace⟩ := List.mem_flatMap.mp hplace
      exact hexpand step d (h d hd) place hplace
  exact hsteps p.steps _ fun base hmem => List.mem_singleton.mp hmem ▸ hbase

/-- An answer about directories holds the places that the steps of a pattern lead to. -/
theorem directories_eq_ok (h : directories fs start pattern = .ok places) :
    ∃ p, PathPattern.ofChars (slashed pattern.toList) = .ok p ∧ places = resolve fs start p := by
  obtain ⟨-, -, h⟩ := bind_eq_ok h
  obtain ⟨p, hp, h⟩ := bind_eq_ok h
  exact ⟨p, hp, (Except.ok.inj h).symm⟩

/-- An answer about files holds the files of some directories whose names match. -/
theorem files_eq_ok (h : files fs start pattern = .ok places) :
    ∃ (dirs : List Place) (glob : Glob), places = (dirs.flatMap (filesIn fs glob)).eraseDups := by
  obtain ⟨-, -, h⟩ := bind_eq_ok h
  cases hl : splitLast (slashed pattern.toList) with
  | none =>
    rw [hl] at h
    obtain ⟨glob, -, h⟩ := bind_eq_ok (x := PathStep.readGlob (slashed pattern.toList)) h
    exact ⟨_, glob, (Except.ok.inj h).symm⟩
  | some parts =>
    obtain ⟨front, name⟩ := parts
    rw [hl] at h
    obtain ⟨p, -, h⟩ := bind_eq_ok h
    obtain ⟨glob, -, h⟩ := bind_eq_ok (x := PathStep.readGlob name) h
    exact ⟨_, glob, (Except.ok.inj h).symm⟩

/-- What a pattern for files leads to are files. -/
theorem isFile_of_mem_files (h : files fs start pattern = .ok places) {place : Place}
    (hp : place ∈ places) : fs.isFile place.path = true := by
  obtain ⟨dirs, glob, rfl⟩ := files_eq_ok h
  rw [List.mem_eraseDups] at hp
  obtain ⟨d, -, hmem⟩ := List.mem_flatMap.mp hp
  exact (List.mem_filter.mp hmem).2

end PathPattern
end PluginHost
