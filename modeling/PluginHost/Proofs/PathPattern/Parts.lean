import PluginHost.Proofs.Lists.Repetition
import PluginHost.Proofs.PathPattern.Grounded
import PluginHost.Proofs.PathPattern.Meaning
import PluginHost.Proofs.PathPattern.Plain

/-! # Patterns part by part

A pattern is resolved part by part, and each part is read when the places before it are known
(`expandPart`, `directories_eq_foldlM`).  Nothing is lost when all parts are read first, since
whether a part can be read does not depend on the places (`foldlM_expandPart`).

The parts are those between the slashes, all of them: the empty part in front of the first slash
of a pattern that starts at the root stays at the root.  So two patterns put together with a slash
have the parts of the first and then those of the second (`parts_append_slash`). -/
namespace PluginHost
namespace PathPattern

variable {fs : FileSystem} {start : Path} {pattern : String} {places : List Place}

/-- The parts of a pattern between its slashes. -/
def parts (pattern : String) : List (List Char) := (slashed pattern.toList).splitOn '/'

/-- Whether a pattern starts at the root. -/
def startsAtRoot (pattern : String) : Bool := (slashed pattern.toList).head? == some '/'

/-- The place that a pattern without a drive is resolved from. -/
def origin (fs : FileSystem) (start : Path) (pattern : String) : Place :=
  if startsAtRoot pattern then .absolute [] else startPlace fs start

/-- What the steps of a pattern lead to from one place. -/
def reached (fs : FileSystem) (steps : List PathStep) (place : Place) : List Place :=
  steps.foldl (advance fs) [place]

/-- The places that one part leads to from a list of places. -/
def expandPart (fs : FileSystem) (frontier : List Place) (part : List Char) :
    Except PatternError (List Place) :=
  (PathStep.ofChars part).map (advance fs frontier)

/-! ## The parts of a pattern -/

theorem slashed_append (front back : List Char) :
    slashed (front ++ back) = slashed front ++ slashed back := List.map_append

theorem slashed_eq_nil_iff : slashed pattern.toList = [] ↔ pattern = "" :=
  List.map_eq_nil_iff.trans String.toList_eq_nil_iff

theorem parts_append_slash (front back : String) :
    parts (front ++ "/" ++ back) = parts front ++ parts back := by
  have hslash : slashed "/".toList = ['/'] := rfl
  rw [parts, String.toList_append, String.toList_append, slashed_append, slashed_append, hslash,
    List.append_assoc, List.singleton_append, List.splitOn_append_cons_self]
  rfl

/-- A pattern that starts at the root is one whose first part is empty. -/
theorem startsAtRoot_eq (h : pattern ≠ "") :
    startsAtRoot pattern = ((parts pattern).head? == some []) := by
  obtain ⟨c, cs, hcs⟩ := List.exists_cons_of_ne_nil (mt slashed_eq_nil_iff.mp h)
  obtain ⟨part, more, hmore⟩ := List.exists_cons_of_ne_nil (List.splitOn_ne_nil '/' cs)
  rw [startsAtRoot, parts, hcs, List.splitOn_cons_eq_if_modifyHead, hmore]
  by_cases hc : c = '/'
  · simp [hc]
  · simp [hc]

theorem parts_ne_nil (pattern : String) : parts pattern ≠ [] := List.splitOn_ne_nil _ _

theorem parts_eq_singleton_nil_iff : parts pattern = [[]] ↔ pattern = "" := by
  constructor
  · intro h
    have htext : ['/'].intercalate (parts pattern) = slashed pattern.toList :=
      List.intercalate_splitOn '/'
    rw [h] at htext
    exact slashed_eq_nil_iff.mp htext.symm
  · rintro rfl
    rfl

/-- Patterns with the same first part are resolved from the same place. -/
theorem origin_congr {other : String} (hp : pattern ≠ "") (ho : other ≠ "")
    (h : (parts pattern).head? = (parts other).head?) :
    origin fs start pattern = origin fs start other := by
  rw [origin, origin, startsAtRoot_eq hp, startsAtRoot_eq ho, h]

/-- Whether a text starts at the root of a drive. -/
def OnDrive (text : List Char) : Prop := ∃ letter, (splitRoot text).1 = some (.drive letter)

theorem not_onDrive (h : startsAtDrive pattern = false) : ¬ OnDrive (slashed pattern.toList) := by
  rintro ⟨letter, hletter⟩
  rw [startsAtDrive, hletter] at h
  cases h

/-- A text that starts at no drive starts at the root, or it has no start of its own. -/
theorem splitRoot_of_not_onDrive {text : List Char} (h : ¬ OnDrive text) :
    (∃ rest, text = '/' :: rest ∧ splitRoot text = (some (.absolute []), rest)) ∨
    (text.head? ≠ some '/' ∧ splitRoot text = (none, text)) := by
  by_cases hroot : text.head? = some '/'
  · obtain ⟨rest, rfl⟩ := List.head?_eq_some_iff.mp hroot
    exact .inl ⟨rest, rfl, rfl⟩
  · refine .inr ⟨hroot, ?_⟩
    unfold OnDrive at h
    unfold splitRoot at h ⊢
    split
    · exact absurd rfl hroot
    · rename_i letter rest _
      by_cases hletter : letter.isAlpha
      · simp [hletter] at h
      · rw [if_neg hletter]
    · rfl

/-- A pattern without a drive starts from the root, with what stands behind its first slash, or
it has no start of its own. -/
theorem splitRoot_of_not_drive (h : startsAtDrive pattern = false) :
    (∃ rest, slashed pattern.toList = '/' :: rest ∧
      splitRoot (slashed pattern.toList) = (some (.absolute []), rest)) ∨
    (startsAtRoot pattern = false ∧
      splitRoot (slashed pattern.toList) = (none, slashed pattern.toList)) := by
  obtain hroot | ⟨hroot, hsplit⟩ := splitRoot_of_not_onDrive (not_onDrive h)
  · exact .inl hroot
  · exact .inr ⟨by simpa [startsAtRoot] using hroot, hsplit⟩

/-! ## Part by part -/

/-- The parts can be read before any is followed. -/
theorem foldlM_expandPart (parts : List (List Char)) (frontier : List Place) :
    parts.foldlM (expandPart fs) frontier =
      (parts.mapM PathStep.ofChars).map fun steps => steps.foldl (advance fs) frontier := by
  induction parts generalizing frontier with
  | nil => rfl
  | cons part parts ih =>
    rw [List.foldlM_cons, List.mapM_cons, expandPart]
    cases PathStep.ofChars part with
    | error e => rfl
    | ok step =>
      change parts.foldlM (expandPart fs) (advance fs frontier step) = _
      rw [ih]
      cases parts.mapM PathStep.ofChars <;> rfl

/-- A part that stays keeps places that occur once. -/
theorem expandPart_of_stay {part : List Char} (hpart : part = [] ∨ part = ['.'])
    {frontier : List Place} (h : frontier.Nodup) : expandPart fs frontier part = .ok frontier := by
  have hstay : advance fs frontier .stay = frontier := by
    rw [advance, show (PathStep.expand fs .stay) = fun d => [d] from rfl, List.flatMap_singleton',
      Lists.eraseDups_of_nodup h]
  rw [expandPart, PathStep.ofChars, if_pos hpart]
  exact congrArg Except.ok hstay

/-- What a text leads to, drives included, from where it starts. -/
theorem ofChars_bind_resolve (cs : List Char) :
    (PathPattern.ofChars cs >>= fun p => pure (resolve fs start p)) =
      ((splitRoot cs).2.splitOn '/').foldlM (expandPart fs)
        [(splitRoot cs).1.getD (startPlace fs start)] := by
  rw [foldlM_expandPart]
  simp only [PathPattern.ofChars, readSteps]
  cases ((splitRoot cs).2.splitOn '/').mapM PathStep.ofChars <;> rfl

theorem ne_empty_of_check {checked : Unit} (h : check start pattern = .ok checked) :
    pattern ≠ "" ∧ start.text ≠ "" := by
  unfold check at h
  split at h
  · cases h
  · rename_i hpattern
    split at h
    · cases h
    · rename_i hstart
      exact ⟨by simpa using hpattern, by simpa using hstart⟩

/-- **A pattern is resolved part by part.** -/
theorem directories_eq_foldlM (hdrive : startsAtDrive pattern = false) :
    directories fs start pattern = (check start pattern >>= fun _ =>
      (parts pattern).foldlM (expandPart fs) [origin fs start pattern]) := by
  unfold directories
  simp only [ofChars_bind_resolve]
  obtain ⟨rest, htext, hsplit⟩ | ⟨hroot, hsplit⟩ := splitRoot_of_not_drive hdrive
  · -- The empty part in front of the first slash stays at the root.
    have hparts : parts pattern = [] :: rest.splitOn '/' := by
      simp [parts, htext, List.splitOn_cons_eq_if_modifyHead]
    have horigin : origin fs start pattern = .absolute [] := by simp [origin, startsAtRoot, htext]
    have hstay : expandPart fs [.absolute []] [] = .ok [.absolute []] :=
      expandPart_of_stay (.inl rfl) (List.pairwise_singleton _ _)
    rw [hsplit, hparts, horigin, List.foldlM_cons, hstay]
    rfl
  · rw [hsplit, origin, hroot]
    rfl

/-- The answer about a pattern is where its steps lead from its origin. -/
theorem directories_eq_ok_iff (hdrive : startsAtDrive pattern = false) :
    directories fs start pattern = .ok places ↔ pattern ≠ "" ∧ start.text ≠ "" ∧
      ∃ steps, (parts pattern).mapM PathStep.ofChars = .ok steps ∧
        reached fs steps (origin fs start pattern) = places := by
  rw [directories_eq_foldlM hdrive, foldlM_expandPart]
  constructor
  · intro h
    obtain ⟨checked, hcheck, h⟩ := bind_eq_ok h
    obtain ⟨hp, hstart⟩ := ne_empty_of_check hcheck
    exact ⟨hp, hstart, map_eq_ok_iff.mp h⟩
  · rintro ⟨hp, hstart, steps, hsteps, hplaces⟩
    rw [check_eq_ok hstart hp, hsteps, ← hplaces]
    rfl

end PathPattern
end PluginHost
