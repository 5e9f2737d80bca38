import Mathlib.Data.List.Basic
import PluginHost.Version.Reading

/-! # How versions are written

A version without the blanks around it begins with a digit.  It is one number, or two with a
point between them, or it has two points or more (`Version.exists_parts_of_ofText?`). -/
namespace PluginHost
namespace Version

variable {cs : List Char}

/-- Digits of a number that fits 64 bits. -/
structure IsNumber (cs : List Char) : Prop where
  ne_nil : cs ≠ []
  isDigit : ∀ c ∈ cs, c.isDigit = true
  lt : Nat.ofDigitChars 10 cs 0 < UInt64.size

theorem isNumber_of_number? {n : UInt64} (h : number? cs = some n) : IsNumber cs := by
  unfold number? at h
  dsimp only at h
  split at h
  · rename_i hif
    simp only [Bool.and_eq_true, Bool.not_eq_true', List.isEmpty_eq_false_iff, List.all_eq_true,
      decide_eq_true_eq] at hif
    exact ⟨hif.1.1, hif.1.2, hif.2⟩
  · cases h

theorem isNumber_of_strictNumber? {n : UInt64} (h : strictNumber? cs = some n) : IsNumber cs := by
  unfold strictNumber? at h
  split at h
  · exact isNumber_of_number? h
  · cases h

/-- The text of numbers between points. -/
theorem eq_of_splitOn {parts : List (List Char)} (h : cs.splitOn '.' = parts) :
    cs = List.intercalate ['.'] parts := by
  rw [← h, List.intercalate_splitOn]

theorem prefix_cut (sep : Char) (cs : List Char) : (cut sep cs).1 <+: cs :=
  List.takeWhile_prefix _

/-- A full version begins with a number, and two points stand behind it. -/
theorem exists_parts_of_ofStrict? {v : Version} (h : ofStrict? cs = some v) :
    ∃ a back, cs = a ++ back ∧ IsNumber a ∧ 2 ≤ back.count '.' := by
  have hprefix : (cut '-' (cut '+' cs).1).1 <+: cs := (prefix_cut _ _).trans (prefix_cut _ _)
  unfold ofStrict? at h
  dsimp only at h
  obtain ⟨build, -, h⟩ := Option.bind_eq_some_iff.mp h
  obtain ⟨pre, -, h⟩ := Option.bind_eq_some_iff.mp h
  split at h
  · rename_i a b c hsplit
    obtain ⟨n, hn, -⟩ := Option.bind_eq_some_iff.mp h
    obtain ⟨back, hback⟩ := hprefix
    refine ⟨a, '.' :: (b ++ '.' :: c) ++ back, ?_, isNumber_of_strictNumber? hn, ?_⟩
    · rw [← hback, eq_of_splitOn hsplit]
      simp [List.intercalate]
    · simp only [List.cons_append, List.count_cons_self, List.count_append]
      omega
  · cases h

theorem isNumber_of_mapM {parts : List (List Char)} {numbers : List UInt64}
    (h : parts.mapM number? = some numbers) :
    parts.length = numbers.length ∧ ∀ part ∈ parts, IsNumber part := by
  induction parts generalizing numbers with
  | nil =>
    obtain rfl := Option.some.inj h
    exact ⟨rfl, fun _ h => absurd h List.not_mem_nil⟩
  | cons part parts ih =>
    rw [List.mapM_cons] at h
    obtain ⟨n, hn, h⟩ := Option.bind_eq_some_iff.mp h
    obtain ⟨others, hothers, h⟩ := Option.bind_eq_some_iff.mp h
    obtain rfl := Option.some.inj h
    obtain ⟨hlength, hnumbers⟩ := ih hothers
    exact ⟨congrArg Nat.succ hlength, List.forall_mem_cons.mpr ⟨isNumber_of_number? hn, hnumbers⟩⟩

/-- A short version is one number, two or three. -/
theorem exists_parts_of_ofShort? {v : Version} (h : ofShort? cs = some v) :
    IsNumber cs ∨ (∃ a b, cs = a ++ '.' :: b ∧ IsNumber a ∧ IsNumber b) ∨
      ∃ a back, cs = a ++ back ∧ IsNumber a ∧ 2 ≤ back.count '.' := by
  have hparts : cs = List.intercalate ['.'] (cs.splitOn '.') := eq_of_splitOn rfl
  unfold ofShort? at h
  generalize cs.splitOn '.' = parts at h hparts
  split at h
  · rename_i a hnumbers
    obtain ⟨hlength, hnumber⟩ := isNumber_of_mapM hnumbers
    obtain ⟨part, rfl⟩ := List.length_eq_one_iff.mp hlength
    rw [List.intercalate_singleton] at hparts
    exact .inl (hparts ▸ hnumber part List.mem_cons_self)
  · rename_i a b hnumbers
    obtain ⟨hlength, hnumber⟩ := isNumber_of_mapM hnumbers
    obtain ⟨first, second, rfl⟩ := List.length_eq_two.mp hlength
    refine .inr (.inl ⟨first, second, by simpa [List.intercalate] using hparts,
      hnumber first (by simp), hnumber second (by simp)⟩)
  · rename_i a b c hnumbers
    obtain ⟨hlength, hnumber⟩ := isNumber_of_mapM hnumbers
    obtain ⟨first, second, third, rfl⟩ := List.length_eq_three.mp hlength
    refine .inr (.inr ⟨first, '.' :: (second ++ '.' :: third),
      by simpa [List.intercalate] using hparts, hnumber first (by simp), ?_⟩)
    simp only [List.count_cons_self, List.count_append]
    omega
  · cases h

/-- A version without blanks is one number, or two with a point between them, or begins with a
number behind which two points stand. -/
theorem exists_parts_of_ofText? {text : String} {v : Version} (h : ofText? text = some v) :
    IsNumber (Text.trim text.toList) ∨
      (∃ a b, Text.trim text.toList = a ++ '.' :: b ∧ IsNumber a ∧ IsNumber b) ∨
      ∃ a back, Text.trim text.toList = a ++ back ∧ IsNumber a ∧ 2 ≤ back.count '.' := by
  unfold ofText? at h
  dsimp only at h
  cases hstrict : ofStrict? (Text.trim text.toList) with
  | some v => exact .inr (.inr (exists_parts_of_ofStrict? hstrict))
  | none =>
    rw [hstrict] at h
    exact exists_parts_of_ofShort? h

end Version
end PluginHost
