import PluginHost.Manifest
import PluginHost.PathPattern
import PluginHost.Proofs.Results

/-! # Patterns without wildcards

A glob without wildcards is read as its characters (`read_of_plain`), and a pattern that
is neither empty nor has a wildcard can always be resolved (`directories_of_plain`,
`files_of_plain`).  So a pattern that somebody wrote out never fails, whatever the
file system holds: only what has a wildcard can be a malformed one. -/
namespace PluginHost

/-- A text without wildcards. -/
def Plain (cs : List Char) : Prop := ∀ c ∈ cs, ManifestEntry.isWildcardChar c = false

namespace Plain

theorem ne_star {cs : List Char} (h : Plain cs) : ∀ c ∈ cs, c ≠ '*' := by
  rintro c hc rfl
  exact absurd (h '*' hc) (by decide)

theorem ne_bracket {cs : List Char} (h : Plain cs) : ∀ c ∈ cs, c ≠ '[' := by
  rintro c hc rfl
  exact absurd (h '[' hc) (by decide)

theorem ne_question {cs : List Char} (h : Plain cs) : ∀ c ∈ cs, c ≠ '?' := by
  rintro c hc rfl
  exact absurd (h '?' hc) (by decide)

theorem mono {cs ds : List Char} (h : Plain cs) (hsub : ∀ c ∈ ds, c ∈ cs) : Plain ds :=
  fun c hc => h c (hsub c hc)

/-- Slashes are no wildcards. -/
theorem slashed {cs : List Char} (h : Plain cs) : Plain (PathPattern.slashed cs) := by
  intro c hc
  obtain ⟨d, hd, rfl⟩ := List.mem_map.mp hc
  by_cases hb : d = '\\'
  · rw [if_pos hb]; decide
  · rw [if_neg hb]; exact h d hd

end Plain

/-- A glob without wildcards is read as its characters. -/
theorem Glob.read_of_plain {cs : List Char} (h : Plain cs) (position : Nat)
    (before : Option Char) : Glob.read position before cs = .ok (cs.map .literal) := by
  induction cs generalizing position before with
  | nil => rw [Glob.read, List.map_nil]
  | cons c cs ih =>
    have hrest := ih (h.mono fun d hd => List.mem_cons_of_mem _ hd) (position + 1) (some c)
    rw [Glob.read, hrest]
    · rfl
    · exact h.ne_question c List.mem_cons_self
    · exact h.ne_star c List.mem_cons_self
    · exact h.ne_bracket c List.mem_cons_self

namespace PathStep

theorem readGlob_of_plain {part : List Char} (h : Plain part) :
    readGlob part = .ok ⟨part.map .literal⟩ := by
  rw [readGlob, Glob.ofText, String.toList_ofList, Glob.read_of_plain h]
  rfl

theorem ofChars_of_plain {part : List Char} (h : Plain part) :
    ∃ step, ofChars part = .ok step := by
  unfold ofChars
  split
  · exact ⟨_, rfl⟩
  · split
    · exact ⟨_, rfl⟩
    · split
      · exact ⟨_, rfl⟩
      · exact ⟨.wild ⟨part.map .literal⟩, by rw [readGlob_of_plain h]; rfl⟩

end PathStep

/-- The parts of a text hold its characters only. -/
theorem mem_of_mem_splitOn {sep c : Char} {cs part : List Char} (hpart : part ∈ cs.splitOn sep)
    (hc : c ∈ part) : c ∈ cs := by
  induction cs generalizing part with
  | nil =>
    rw [List.splitOn_nil, List.mem_singleton] at hpart
    rw [hpart] at hc
    exact hc
  | cons d cs ih =>
    rw [List.splitOn_cons_eq_if_modifyHead] at hpart
    split at hpart
    · rcases List.mem_cons.mp hpart with rfl | hpart
      · cases hc
      · exact List.mem_cons_of_mem _ (ih hpart hc)
    · -- `d` is put in front of the first part.
      cases hs : cs.splitOn sep with
      | nil => exact absurd hs (List.splitOn_ne_nil sep cs)
      | cons first parts =>
        rw [hs, List.modifyHead_cons] at hpart
        rcases List.mem_cons.mp hpart with rfl | hpart
        · rcases List.mem_cons.mp hc with rfl | hc
          · exact List.mem_cons_self
          · exact List.mem_cons_of_mem _ (ih (hs ▸ List.mem_cons_self) hc)
        · exact List.mem_cons_of_mem _ (ih (hs ▸ List.mem_cons_of_mem _ hpart) hc)

namespace PathPattern

theorem mem_of_mem_splitRoot {cs : List Char} {c : Char} (hc : c ∈ (splitRoot cs).2) : c ∈ cs := by
  unfold splitRoot at hc
  split at hc
  · exact List.mem_cons_of_mem _ hc
  · split at hc
    · exact List.mem_cons_of_mem _ (List.mem_cons_of_mem _ (List.mem_cons_of_mem _ hc))
    · exact hc
  · exact hc

/-- A pattern without wildcards can be read. -/
theorem ofChars_of_plain {cs : List Char} (h : Plain cs) :
    ∃ pattern, PathPattern.ofChars cs = .ok pattern := by
  obtain ⟨steps, hsteps⟩ : ∃ steps, readSteps (splitRoot cs).2 = .ok steps := by
    refine mapM_ok_of_forall fun part hpart => PathStep.ofChars_of_plain ?_
    exact h.mono fun c hc => mem_of_mem_splitRoot (mem_of_mem_splitOn hpart hc)
  exact ⟨⟨(splitRoot cs).1, steps⟩, by simp only [PathPattern.ofChars, hsteps]; rfl⟩

theorem check_eq_ok {start : Path} {pattern : String} (hs : start.text ≠ "") (hp : pattern ≠ "") :
    check start pattern = .ok () := by
  rw [check, if_neg (by simpa using hp), if_neg (by simpa using hs)]

/-- The directories of a pattern without wildcards can be resolved. -/
theorem directories_of_plain (fs : FileSystem) {start : Path} {pattern : String}
    (hs : start.text ≠ "") (hp : pattern ≠ "") (h : Plain pattern.toList) :
    ∃ places, directories fs start pattern = .ok places := by
  obtain ⟨p, hread⟩ := ofChars_of_plain h.slashed
  exact ⟨resolve fs start p, by rw [directories, check_eq_ok hs hp, hread]; rfl⟩

theorem mem_of_splitLast {cs front name : List Char} (h : splitLast cs = some (front, name))
    {c : Char} (hc : c ∈ front ∨ c ∈ name) : c ∈ cs := by
  unfold splitLast at h
  split at h
  · cases h
  · obtain ⟨rfl, rfl⟩ := Prod.mk.inj (Option.some.inj h)
    rcases hc with hc | hc
    · rename_i heq
      exact List.mem_reverse.mp ((List.dropWhile_sublist _).mem (List.mem_reverse.mp hc))
    · exact List.mem_reverse.mp ((List.takeWhile_sublist _).mem (List.mem_reverse.mp hc))

/-- The files of a pattern without wildcards can be resolved. -/
theorem files_of_plain (fs : FileSystem) {start : Path} {pattern : String}
    (hs : start.text ≠ "") (hp : pattern ≠ "") (h : Plain pattern.toList) :
    ∃ places, files fs start pattern = .ok places := by
  rw [files, check_eq_ok hs hp]
  cases hl : splitLast (slashed pattern.toList) with
  | none =>
    have hg := PathStep.readGlob_of_plain h.slashed
    exact ⟨_, by simp only [bind, Except.bind, pure, Except.pure, hg]; rfl⟩
  | some parts =>
    obtain ⟨front, name⟩ := parts
    obtain ⟨p, hread⟩ := ofChars_of_plain (h.slashed.mono fun c hc => mem_of_splitLast hl (.inl hc))
    have hg := PathStep.readGlob_of_plain
      (h.slashed.mono fun c hc => mem_of_splitLast hl (.inr hc))
    exact ⟨_, by simp only [bind, Except.bind, pure, Except.pure, hread, hg]; rfl⟩

end PathPattern

/-! ## Manifests -/

/-- An entry without wildcards has a plain pattern. -/
theorem ManifestEntry.plain_of_not_hasWildcard {e : ManifestEntry} (h : e.hasWildcard = false) :
    Plain e.text.toList := by
  intro c hc
  simp only [hasWildcard, List.any_eq_false] at h
  simpa using h c hc

end PluginHost
