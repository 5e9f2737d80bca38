import PluginHost.Config.Variable

/-! # Which texts of variables are numbers

A variable whose text is a number sets no text.  `ConfigVariable.IsNumeral` says which texts
these are: there is a sign or none in front of digits, and perhaps a point among them with an
exponent behind (`IsNumeral.exists_parts`).  So a number has no characters but digits, signs,
the mark of an exponent and one point at most (`IsNumeral.isNumeralChar`,
`IsNumeral.count_dot_le`). -/
namespace PluginHost

/-! ## Parts of numerals -/

namespace Numeral

/-- What stands in front of a number: a sign or nothing. -/
def IsSign (cs : List Char) : Prop := cs = [] ∨ cs = ['+'] ∨ cs = ['-']

theorem exists_sign (cs : List Char) : ∃ front, IsSign front ∧ cs = front ++ (sign cs).2 := by
  unfold sign
  split
  · exact ⟨['+'], .inr (.inl rfl), rfl⟩
  · exact ⟨['-'], .inr (.inr rfl), rfl⟩
  · exact ⟨[], .inl rfl, rfl⟩

theorem sign_of_isDigit {c : Char} (h : c.isDigit = true) (cs : List Char) :
    sign (c :: cs) = (false, c :: cs) := by
  unfold sign
  split
  · rename_i heq
    exact absurd ((List.cons.inj heq).1 ▸ h) (by decide)
  · rename_i heq
    exact absurd ((List.cons.inj heq).1 ▸ h) (by decide)
  · rfl

theorem cut_cons_of_pos {p : Char → Bool} {c : Char} (h : p c = true) (cs : List Char) :
    cut p (c :: cs) = ([], some cs) := by
  simp [cut, h]

theorem cut_cons_of_neg {p : Char → Bool} {c : Char} (h : p c = false) (cs : List Char) :
    cut p (c :: cs) = (c :: (cut p cs).1, (cut p cs).2) := by
  simp [cut, h]

/-- A text without characters that are admitted is not cut. -/
theorem cut_of_forall {p : Char → Bool} {cs : List Char} (h : ∀ c ∈ cs, p c = false) :
    cut p cs = (cs, none) := by
  induction cs with
  | nil => rfl
  | cons c cs ih =>
    rw [cut_cons_of_neg (h c List.mem_cons_self),
      ih fun d hd => h d (List.mem_cons_of_mem c hd)]

theorem cut_append_cons {p : Char → Bool} {front : List Char} (hfront : ∀ c ∈ front, p c = false)
    {c : Char} (hc : p c = true) (back : List Char) :
    cut p (front ++ c :: back) = (front, some back) := by
  induction front with
  | nil => exact cut_cons_of_pos hc back
  | cons d front ih =>
    rw [List.cons_append, cut_cons_of_neg (hfront d List.mem_cons_self),
      ih fun e he => hfront e (List.mem_cons_of_mem d he)]

/-- A text is cut at a character that is admitted, or not at all. -/
theorem cut_cases (p : Char → Bool) (cs : List Char) :
    cut p cs = (cs, none) ∨
      ∃ front c back, cs = front ++ c :: back ∧ p c = true ∧ cut p cs = (front, some back) := by
  induction cs with
  | nil => exact .inl rfl
  | cons c cs ih =>
    by_cases hc : p c = true
    · exact .inr ⟨[], c, cs, rfl, hc, cut_cons_of_pos hc cs⟩
    · rw [cut_cons_of_neg (Bool.eq_false_iff.mpr hc)]
      rcases ih with hcut | ⟨front, d, back, rfl, hd, hcut⟩
      · exact .inl (by rw [hcut])
      · exact .inr ⟨c :: front, d, back, rfl, hd, by rw [hcut]⟩

end Numeral

namespace ConfigVariable

variable {cs : List Char}

/-! ## Numbers -/

/-- A text that is a number of one kind or another. -/
def IsNumeral (cs : List Char) : Prop :=
  (float? cs).isSome = true ∨ (unsigned? cs).isSome = true ∨ (signed? cs).isSome = true

/-- A text without quotes is a text just when it is no number. -/
theorem bare_eq_string_iff {text : String} :
    bare cs = .string text ↔ ¬IsNumeral cs ∧ String.ofList cs = text := by
  unfold bare IsNumeral
  cases float? cs <;> cases unsigned? cs <;> cases signed? cs <;> simp

theorem isNumber_iff : isNumber cs = true ↔ cs ≠ [] ∧ ∀ c ∈ cs, c.isDigit = true := by
  simp [isNumber]

/-- What follows the digits of a number with a point: nothing, or an exponent. -/
def IsExponent (cs : List Char) : Prop :=
  cs = [] ∨ ∃ mark front digits, cs = mark :: (front ++ digits) ∧ (mark = 'e' ∨ mark = 'E') ∧
    Numeral.IsSign front ∧ ∀ c ∈ digits, c.isDigit = true

/-- A number with a point is written with digits before the point and behind it, a sign in
front, and perhaps an exponent. -/
theorem exists_parts_of_float? (h : (float? cs).isSome = true) :
    ∃ front whole fraction back, cs = front ++ (whole ++ '.' :: (fraction ++ back)) ∧
      Numeral.IsSign front ∧ (∀ c ∈ whole ++ fraction, c.isDigit = true) ∧ IsExponent back := by
  obtain ⟨front, hfront, hcs⟩ := Numeral.exists_sign cs
  unfold float? Numeral.ofChars at h
  generalize Numeral.sign cs = signed at h hcs
  obtain ⟨negative, body⟩ := signed
  dsimp only at h hcs
  -- The point is looked for in front of the exponent.
  rcases Numeral.cut_cases (fun c => c == 'e' || c == 'E') body with
    hexponent | ⟨mantissa, mark, tail, rfl, hmark, hexponent⟩
  · rw [hexponent] at h
    rcases Numeral.cut_cases (· == '.') body with hpoint | ⟨whole, c, fraction, rfl, hc, hpoint⟩
    · rw [hpoint] at h
      cases h
    · obtain rfl := eq_of_beq hc
      rw [hpoint] at h
      dsimp only at h
      split at h
      · rename_i hdigits
        have hnumber := (Bool.and_eq_true_iff.mp hdigits).1
        exact ⟨front, whole, fraction, [], by simpa using hcs, hfront,
          (isNumber_iff.mp hnumber).2, .inl rfl⟩
      · cases h
  · rw [hexponent] at h
    rcases Numeral.cut_cases (· == '.') mantissa with hpoint | ⟨whole, c, fraction, rfl, hc, hpoint⟩
    · rw [hpoint] at h
      cases h
    · obtain rfl := eq_of_beq hc
      rw [hpoint] at h
      dsimp only at h
      split at h
      · rename_i hdigits
        obtain ⟨hnumber, hback⟩ := Bool.and_eq_true_iff.mp hdigits
        obtain ⟨front', hfront', htail⟩ := Numeral.exists_sign tail
        refine ⟨front, whole, fraction, mark :: tail, by simpa using hcs, hfront,
          (isNumber_iff.mp hnumber).2, .inr ⟨mark, front', _, by rw [← htail], ?_, hfront', ?_⟩⟩
        · simpa using hmark
        · exact (isNumber_iff.mp hback).2
      · cases h

/-- A whole number is digits behind a sign. -/
theorem exists_parts_of_whole (h : (unsigned? cs).isSome = true ∨ (signed? cs).isSome = true) :
    ∃ front digits, cs = front ++ digits ∧ Numeral.IsSign front ∧
      ∀ c ∈ digits, c.isDigit = true := by
  obtain ⟨front, hfront, hcs⟩ := Numeral.exists_sign cs
  refine ⟨front, (Numeral.sign cs).2, hcs, hfront, ?_⟩
  rcases h with h | h
  · unfold unsigned? at h
    simp only [Option.isSome_ite, Bool.and_eq_true] at h
    exact (isNumber_iff.mp h.1.2).2
  · unfold signed? at h
    simp only [Option.isSome_ite, Bool.and_eq_true] at h
    exact (isNumber_iff.mp h.1.2).2

/-! ## Characters of numbers -/

/-- The characters of numbers. -/
def isNumeralChar (c : Char) : Bool :=
  c.isDigit || c == '+' || c == '-' || c == '.' || c == 'e' || c == 'E'

theorem isNumeralChar_of_isDigit {c : Char} (h : c.isDigit = true) : isNumeralChar c = true := by
  simp [isNumeralChar, h]

theorem isNumeralChar_of_isSign {front : List Char} (h : Numeral.IsSign front) :
    ∀ c ∈ front, isNumeralChar c = true := by
  rw [← List.all_eq_true]
  rcases h with rfl | rfl | rfl <;> rfl

theorem count_dot_of_isSign {front : List Char} (h : Numeral.IsSign front) :
    front.count '.' = 0 := by
  rcases h with rfl | rfl | rfl <;> decide

theorem count_dot_of_digits {digits : List Char} (h : ∀ c ∈ digits, c.isDigit = true) :
    digits.count '.' = 0 :=
  List.count_eq_zero.mpr fun hmem => absurd (h '.' hmem) (by decide)

namespace IsNumeral

/-- The parts of a number: a sign or nothing, digits, and a point with more digits and perhaps
an exponent, or nothing. -/
theorem exists_parts (h : IsNumeral cs) : ∃ front whole back, cs = front ++ (whole ++ back) ∧
    Numeral.IsSign front ∧ (∀ c ∈ whole, c.isDigit = true) ∧
      (back = [] ∨ ∃ fraction exponent, back = '.' :: (fraction ++ exponent) ∧
        (∀ c ∈ fraction, c.isDigit = true) ∧ IsExponent exponent) := by
  rcases h with h | h
  · obtain ⟨front, whole, fraction, exponent, hcs, hfront, hdigits, hexponent⟩ :=
      exists_parts_of_float? h
    exact ⟨front, whole, _, hcs, hfront, fun c hc => hdigits c (List.mem_append_left _ hc),
      .inr ⟨fraction, exponent, rfl, fun c hc => hdigits c (List.mem_append_right _ hc),
        hexponent⟩⟩
  · obtain ⟨front, digits, hcs, hfront, hdigits⟩ := exists_parts_of_whole h
    exact ⟨front, digits, [], by rw [List.append_nil, hcs], hfront, hdigits, .inl rfl⟩

end IsNumeral

theorem IsExponent.isNumeralChar (h : IsExponent cs) : ∀ c ∈ cs, isNumeralChar c = true := by
  rcases h with rfl | ⟨mark, front, digits, rfl, hmark, hfront, hdigits⟩
  · simp
  · intro c hc
    rcases List.mem_cons.mp hc with rfl | hc
    · rcases hmark with rfl | rfl <;> decide
    · rcases List.mem_append.mp hc with hc | hc
      · exact isNumeralChar_of_isSign hfront c hc
      · exact isNumeralChar_of_isDigit (hdigits c hc)

theorem IsExponent.count_dot (h : IsExponent cs) : cs.count '.' = 0 := by
  rcases h with rfl | ⟨mark, front, digits, rfl, hmark, hfront, hdigits⟩
  · rfl
  · rw [List.count_cons, List.count_append, count_dot_of_isSign hfront,
      count_dot_of_digits hdigits]
    rcases hmark with rfl | rfl <;> rfl

/-- A number has no other characters. -/
theorem IsNumeral.isNumeralChar (h : IsNumeral cs) :
    ∀ c ∈ cs, ConfigVariable.isNumeralChar c = true := by
  obtain ⟨front, whole, back, rfl, hfront, hwhole, hback⟩ := h.exists_parts
  intro c hc
  rcases List.mem_append.mp hc with hc | hc
  · exact isNumeralChar_of_isSign hfront c hc
  · rcases List.mem_append.mp hc with hc | hc
    · exact isNumeralChar_of_isDigit (hwhole c hc)
    · rcases hback with rfl | ⟨fraction, exponent, rfl, hfraction, hexponent⟩
      · cases hc
      · rcases List.mem_cons.mp hc with rfl | hc
        · decide
        · rcases List.mem_append.mp hc with hc | hc
          · exact isNumeralChar_of_isDigit (hfraction c hc)
          · exact hexponent.isNumeralChar c hc

/-- A number has one point at most. -/
theorem IsNumeral.count_dot_le (h : IsNumeral cs) : cs.count '.' ≤ 1 := by
  obtain ⟨front, whole, back, rfl, hfront, hwhole, hback⟩ := h.exists_parts
  rw [List.count_append, List.count_append, count_dot_of_isSign hfront,
    count_dot_of_digits hwhole]
  rcases hback with rfl | ⟨fraction, exponent, rfl, hfraction, hexponent⟩
  · simp
  · have hone : ('.' :: (fraction ++ exponent)).count '.' = 1 := by
      rw [List.count_cons_self, List.count_append, count_dot_of_digits hfraction,
        hexponent.count_dot]
    omega

/-! ## Texts that are numbers -/

/-- Digits behind a plus or nothing are a number unless they are too large. -/
theorem isNumeral_of_sign {digits : List Char} (hsign : Numeral.sign cs = (false, digits))
    (hne : digits ≠ []) (hdigits : ∀ c ∈ digits, c.isDigit = true)
    (hsize : Nat.ofDigitChars 10 digits 0 < Nat.pow 2 64) : IsNumeral cs := by
  have hnumber := isNumber_iff.mpr ⟨hne, hdigits⟩
  refine .inr (.inl ?_)
  unfold unsigned?
  rw [hsign]
  simp [hnumber, Numeral.value, hsize]

theorem isNumeral_of_digits (hne : cs ≠ []) (hdigits : ∀ c ∈ cs, c.isDigit = true)
    (hsize : Nat.ofDigitChars 10 cs 0 < Nat.pow 2 64) : IsNumeral cs := by
  refine isNumeral_of_sign ?_ hne hdigits hsize
  obtain ⟨c, others, rfl⟩ := List.exists_cons_of_ne_nil hne
  exact Numeral.sign_of_isDigit (hdigits c List.mem_cons_self) others

/-- Digits with a point among them are a number. -/
theorem isNumeral_of_point {whole fraction : List Char} (hne : whole ≠ [])
    (hwhole : ∀ c ∈ whole, c.isDigit = true) (hfraction : ∀ c ∈ fraction, c.isDigit = true) :
    IsNumeral (whole ++ '.' :: fraction) := by
  have hchars : ∀ c ∈ whole ++ '.' :: fraction, (c == 'e' || c == 'E') = false := by
    intro c hc
    have hc : c.isDigit = true ∨ c = '.' := by
      rcases List.mem_append.mp hc with hc | hc
      · exact .inl (hwhole c hc)
      · rcases List.mem_cons.mp hc with rfl | hc
        · exact .inr rfl
        · exact .inl (hfraction c hc)
    refine Bool.eq_false_iff.mpr fun hmark => ?_
    simp only [Bool.or_eq_true, beq_iff_eq] at hmark
    rcases hmark with rfl | rfl <;> exact absurd hc (by decide)
  have hpoint : ∀ c ∈ whole, (c == '.') = false := by
    intro c hc
    refine Bool.eq_false_iff.mpr fun h => ?_
    exact absurd (eq_of_beq h ▸ hwhole c hc) (by decide)
  have hdigits : isNumber (whole ++ fraction) = true :=
    isNumber_iff.mpr ⟨List.append_ne_nil_of_left_ne_nil hne _, fun c hc =>
      (List.mem_append.mp hc).elim (hwhole c) (hfraction c)⟩
  have hsign : Numeral.sign (whole ++ '.' :: fraction) = (false, whole ++ '.' :: fraction) := by
    obtain ⟨c, others, rfl⟩ := List.exists_cons_of_ne_nil hne
    exact Numeral.sign_of_isDigit (hwhole c List.mem_cons_self) _
  refine .inl ?_
  unfold float? Numeral.ofChars
  rw [hsign]
  dsimp only
  rw [Numeral.cut_of_forall hchars]
  dsimp only
  rw [Numeral.cut_append_cons hpoint rfl]
  simp [hdigits]

end ConfigVariable
end PluginHost
