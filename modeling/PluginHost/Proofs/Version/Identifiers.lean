import PluginHost.Proofs.Version.Spelling

/-! # Numbers and identifiers of versions

The parts of a version are read back from their notation, and nothing else is read as them.
Digits without leading zeros are the digits of their value (`digits_ofDigitChars`), and other
digits have zeros in front of these (`exists_zeros`).  So the notation of a pre-release
identifier is a word, or a number without leading zeros (`PreIdentifier.exists_chars_iff`), and
that of a build identifier is any text of the characters of identifiers
(`BuildIdentifier.exists_chars_iff`). -/
namespace PluginHost
namespace Version

variable {cs : List Char} {n : Nat}

/-! ## Digits -/

/-- A digit has a value below ten, and is `0` when its value is. -/
theorem value_of_isDigit {c : Char} (h : c.isDigit = true) :
    c.toNat - '0'.toNat < 10 ∧ (c ≠ '0' → 0 < c.toNat - '0'.toNat) := by
  obtain ⟨hlow, hhigh⟩ := Char.isDigit_iff_toNat.mp h
  have hzero : '0'.toNat = 48 := rfl
  have hnine : '9'.toNat = 57 := rfl
  refine ⟨by omega, fun hne => ?_⟩
  have htoNat : c.toNat ≠ '0'.toNat := fun heq => hne (Char.toNat_inj.mp heq)
  omega

theorem digits_value {c : Char} (h : c.isDigit = true) : digits (c.toNat - '0'.toNat) = [c] := by
  obtain ⟨hlow, -⟩ := Char.isDigit_iff_toNat.mp h
  have hzero : '0'.toNat = 48 := rfl
  have hlt := (value_of_isDigit h).1
  have hchar : Nat.digitChar (c.toNat - '0'.toNat) = c := by
    apply Char.toNat_inj.mp
    rw [Nat.toNat_digitChar_of_lt_ten hlt]
    omega
  rw [digits, Nat.toDigits_of_lt_base hlt, hchar]

/-- Digits that are appended to those of a number go on with it. -/
theorem digits_append (hn : 0 < n) (hdigit : ∀ c ∈ cs, c.isDigit = true) :
    digits n ++ cs = digits (Nat.ofDigitChars 10 cs n) := by
  induction cs generalizing n with
  | nil => rw [List.append_nil, Nat.ofDigitChars_nil]
  | cons c cs ih =>
    have hc := hdigit c List.mem_cons_self
    have hstep : digits n ++ [c] = digits (10 * n + (c.toNat - '0'.toNat)) := by
      rw [← digits_value hc]
      exact Nat.toDigits_append_toDigits (by decide) hn (value_of_isDigit hc).1
    rw [Nat.ofDigitChars_cons, ← ih (by omega) fun d hd => hdigit d (List.mem_cons_of_mem c hd),
      ← hstep, List.append_assoc, List.singleton_append]

theorem isDigit_of_mem_digits {c : Char} (h : c ∈ digits n) : c.isDigit = true :=
  Nat.isDigit_of_mem_toDigits (by decide) (by decide) h

theorem digits_ne_nil (n : Nat) : digits n ≠ [] := Nat.toDigits_ne_nil

/-- Digits that begin with `0` only if they are `0`. -/
def NoLeadingZeros (cs : List Char) : Prop := ∀ rest, cs = '0' :: rest → rest = []

theorem isPlain_iff : isPlain cs = true ↔ NoLeadingZeros cs := by
  unfold isPlain NoLeadingZeros
  cases cs with
  | nil => simp
  | cons c rest => by_cases hc : c = '0' <;> simp [hc]

/-- The digits of a number that is not zero do not begin with `0`. -/
theorem head?_digits (hn : 0 < n) : (digits n).head? ≠ some '0' := by
  induction n using Nat.strongRecOn with
  | ind n ih =>
    rw [digits, Nat.toDigits_eq_if (by decide)]
    split
    · rename_i hlt
      intro h
      have hzero : Nat.digitChar n = '0' := Option.some.inj h
      rw [Nat.digitChar_eq_zero] at hzero
      omega
    · rename_i hge
      have hdiv : 0 < n / 10 := by omega
      obtain ⟨c, rest, hcons⟩ := List.exists_cons_of_ne_nil (digits_ne_nil (n / 10))
      have hhead := ih (n / 10) (by omega) hdiv
      rw [hcons] at hhead
      rw [← digits, hcons]
      exact hhead

theorem noLeadingZeros_digits (n : Nat) : NoLeadingZeros (digits n) := by
  intro rest h
  rcases Nat.eq_zero_or_pos n with rfl | hn
  · exact (List.cons.inj h).2.symm
  · exact absurd (congrArg List.head? h) (head?_digits hn)

/-- Digits without leading zeros are the digits of their value. -/
theorem digits_ofDigitChars (hne : cs ≠ []) (hdigit : ∀ c ∈ cs, c.isDigit = true)
    (hplain : NoLeadingZeros cs) : digits (Nat.ofDigitChars 10 cs 0) = cs := by
  obtain ⟨c, rest, rfl⟩ := List.exists_cons_of_ne_nil hne
  have hc := hdigit c List.mem_cons_self
  by_cases hzero : c = '0'
  · subst hzero
    rw [hplain rest rfl]
    rfl
  · rw [Nat.ofDigitChars_cons, Nat.mul_zero, Nat.zero_add,
      ← digits_append ((value_of_isDigit hc).2 hzero) fun d hd =>
        hdigit d (List.mem_cons_of_mem c hd),
      digits_value hc, List.singleton_append]

/-- Digits are those of their value with zeros in front. -/
theorem exists_zeros (hne : cs ≠ []) (hdigit : ∀ c ∈ cs, c.isDigit = true) :
    ∃ zeros, cs = List.replicate zeros '0' ++ digits (Nat.ofDigitChars 10 cs 0) := by
  induction cs with
  | nil => exact absurd rfl hne
  | cons c rest ih =>
    by_cases hzero : c = '0' ∧ rest ≠ []
    · obtain ⟨rfl, hrest⟩ := hzero
      obtain ⟨zeros, heq⟩ := ih hrest fun d hd => hdigit d (List.mem_cons_of_mem _ hd)
      exact ⟨zeros + 1, congrArg ('0' :: ·) heq⟩
    · refine ⟨0, (digits_ofDigitChars hne hdigit fun others h => ?_).symm⟩
      obtain ⟨rfl, rfl⟩ := List.cons.inj h
      exact not_not.mp fun hrest => hzero ⟨rfl, hrest⟩

/-! ## Numbers -/

theorem number?_eq_some_iff {m : UInt64} :
    number? cs = some m ↔ IsNumber cs ∧ Nat.ofDigitChars 10 cs 0 = m.toNat := by
  constructor
  · intro h
    have hnumber := isNumber_of_number? h
    refine ⟨hnumber, ?_⟩
    unfold number? at h
    dsimp only at h
    split at h
    · rw [← Option.some.inj h, UInt64.toNat_ofNat', Nat.mod_eq_of_lt hnumber.lt]
    · cases h
  · rintro ⟨⟨hne, hdigit, hlt⟩, hvalue⟩
    have hall : (!cs.isEmpty && cs.all Char.isDigit &&
        decide (Nat.ofDigitChars 10 cs 0 < UInt64.size)) = true := by
      simp only [Bool.and_eq_true, Bool.not_eq_true', List.isEmpty_eq_false_iff, List.all_eq_true,
        decide_eq_true_eq]
      exact ⟨⟨hne, hdigit⟩, hlt⟩
    rw [number?, if_pos hall, hvalue, UInt64.ofNat_toNat]

/-- The digits of a number of 64 bits. -/
theorem isNumber_digits (m : UInt64) : IsNumber (digits m.toNat) where
  ne_nil := digits_ne_nil _
  isDigit _ h := isDigit_of_mem_digits h
  lt := by
    rw [digits, Nat.ofDigitChars_ten_toDigits]
    exact m.toNat_lt_size

theorem strictNumber?_eq_some_iff {m : UInt64} :
    strictNumber? cs = some m ↔ digits m.toNat = cs := by
  unfold strictNumber?
  constructor
  · intro h
    split at h
    · rename_i hplain
      obtain ⟨hnumber, hvalue⟩ := number?_eq_some_iff.mp h
      rw [← hvalue]
      exact digits_ofDigitChars hnumber.ne_nil hnumber.isDigit (isPlain_iff.mp hplain)
    · cases h
  · rintro rfl
    rw [if_pos (isPlain_iff.mpr (noLeadingZeros_digits _))]
    exact number?_eq_some_iff.mpr ⟨isNumber_digits m, Nat.ofDigitChars_ten_toDigits⟩

/-! ## Identifiers -/

/-- A text of characters of identifiers. -/
def IsIdentifier (cs : List Char) : Prop := cs ≠ [] ∧ ∀ c ∈ cs, isIdentifierChar c = true

/-- An identifier of a pre-release: if it is a number, it has no leading zeros. -/
def IsPreIdentifier (cs : List Char) : Prop :=
  IsIdentifier cs ∧ ((∀ c ∈ cs, c.isDigit = true) → NoLeadingZeros cs)

theorem isIdentifierChar_of_isDigit {c : Char} (h : c.isDigit = true) :
    isIdentifierChar c = true := by
  simp [isIdentifierChar, Char.isAlphanum, h]

/-- The characters of a word: they are those of an identifier, and one is no digit. -/
theorem Word.chars_spec (w : Word) :
    IsIdentifier w.chars ∧ ¬∀ c ∈ w.chars, c.isDigit = true := by
  obtain ⟨chars, hvalid⟩ := w
  obtain ⟨hall, hany⟩ := Bool.and_eq_true_iff.mp hvalid
  obtain ⟨c, hc, hdigit⟩ := List.any_eq_true.mp hany
  refine ⟨⟨List.ne_nil_of_mem hc, List.all_eq_true.mp hall⟩, fun hdigits => ?_⟩
  rw [hdigits c hc] at hdigit
  cases hdigit

theorem Word.of?_eq_some_iff {w : Word} : Word.of? cs = some w ↔ w.chars = cs := by
  unfold Word.of?
  constructor
  · intro h
    split at h
    · rw [← Option.some.inj h]
    · cases h
  · rintro rfl
    rw [dif_pos w.valid]

/-- An identifier that is no number is a word. -/
theorem Word.exists_of_isIdentifier (h : IsIdentifier cs) (hdigit : ¬∀ c ∈ cs, c.isDigit = true) :
    ∃ w : Word, w.chars = cs := by
  refine ⟨⟨cs, Bool.and_eq_true_iff.mpr ⟨List.all_eq_true.mpr h.2, List.any_eq_true.mpr ?_⟩⟩, rfl⟩
  push Not at hdigit
  obtain ⟨c, hc, hno⟩ := hdigit
  exact ⟨c, hc, by simp [hno]⟩

theorem allDigits_iff : (!cs.isEmpty && cs.all Char.isDigit) = true ↔
    cs ≠ [] ∧ ∀ c ∈ cs, c.isDigit = true := by
  simp

/-- Digits as the notation of a number, and words: none is both. -/
theorem Word.not_allDigits (w : Word) : ¬(!w.chars.isEmpty && w.chars.all Char.isDigit) = true :=
  fun h => w.chars_spec.2 (allDigits_iff.mp h).2

theorem PreIdentifier.of?_eq_some_iff {i : PreIdentifier} :
    PreIdentifier.of? cs = some i ↔ i.chars = cs := by
  constructor
  · intro h
    unfold PreIdentifier.of? at h
    split at h
    · rename_i hdigits
      obtain ⟨hne, hdigit⟩ := allDigits_iff.mp hdigits
      split at h
      · rename_i hplain
        rw [← Option.some.inj h]
        exact digits_ofDigitChars hne hdigit (isPlain_iff.mp hplain)
      · cases h
    · obtain ⟨w, hw, rfl⟩ := Option.map_eq_some_iff.mp h
      exact Word.of?_eq_some_iff.mp hw
  · rintro rfl
    unfold PreIdentifier.of?
    cases i with
    | number n =>
      have hdigits := allDigits_iff.mpr ⟨digits_ne_nil n, fun c => isDigit_of_mem_digits (n := n)⟩
      rw [PreIdentifier.chars, if_pos hdigits, if_pos (isPlain_iff.mpr (noLeadingZeros_digits n)),
        digits, Nat.ofDigitChars_ten_toDigits]
    | word w =>
      rw [PreIdentifier.chars, if_neg w.not_allDigits, Word.of?_eq_some_iff.mpr rfl]
      rfl

/-- The texts of pre-release identifiers. -/
theorem PreIdentifier.exists_chars_iff :
    (∃ i : PreIdentifier, i.chars = cs) ↔ IsPreIdentifier cs := by
  constructor
  · rintro ⟨i, rfl⟩
    cases i with
    | number n =>
      exact ⟨⟨digits_ne_nil n, fun c hc => isIdentifierChar_of_isDigit (isDigit_of_mem_digits hc)⟩,
        fun _ => noLeadingZeros_digits n⟩
    | word w => exact ⟨w.chars_spec.1, fun hdigit => absurd hdigit w.chars_spec.2⟩
  · rintro ⟨hidentifier, hplain⟩
    by_cases hdigit : ∀ c ∈ cs, c.isDigit = true
    · exact ⟨.number _, digits_ofDigitChars hidentifier.1 hdigit (hplain hdigit)⟩
    · obtain ⟨w, hw⟩ := Word.exists_of_isIdentifier hidentifier hdigit
      exact ⟨.word w, hw⟩

/-- The digits of a build number are those of its value behind its zeros. -/
theorem BuildIdentifier.isDigit_of_mem {zeros value : Nat} {c : Char}
    (h : c ∈ (BuildIdentifier.number zeros value).chars) : c.isDigit = true := by
  rcases List.mem_append.mp h with hzero | hdigit
  · rw [List.eq_of_mem_replicate hzero]
    rfl
  · exact isDigit_of_mem_digits hdigit

theorem BuildIdentifier.chars_number_ne_nil (zeros value : Nat) :
    (BuildIdentifier.number zeros value).chars ≠ [] :=
  List.append_ne_nil_of_right_ne_nil _ (digits_ne_nil value)

theorem BuildIdentifier.of?_eq_some_iff {i : BuildIdentifier} :
    BuildIdentifier.of? cs = some i ↔ i.chars = cs := by
  constructor
  · intro h
    unfold BuildIdentifier.of? at h
    split at h
    · rename_i hdigits
      obtain ⟨hne, hdigit⟩ := allDigits_iff.mp hdigits
      obtain ⟨zeros, heq⟩ := exists_zeros hne hdigit
      have hlength := congrArg List.length heq
      rw [List.length_append, List.length_replicate] at hlength
      rw [← Option.some.inj h, BuildIdentifier.chars, hlength, Nat.add_sub_cancel]
      exact heq.symm
    · obtain ⟨w, hw, rfl⟩ := Option.map_eq_some_iff.mp h
      exact Word.of?_eq_some_iff.mp hw
  · rintro rfl
    unfold BuildIdentifier.of?
    cases i with
    | number zeros value =>
      have hdigits := allDigits_iff.mpr ⟨BuildIdentifier.chars_number_ne_nil zeros value,
        fun c => BuildIdentifier.isDigit_of_mem⟩
      have hvalue : Nat.ofDigitChars 10 (BuildIdentifier.number zeros value).chars 0 = value := by
        rw [BuildIdentifier.chars, Nat.ofDigitChars_append, Nat.ofDigitChars_replicate_zero,
          Nat.mul_zero, digits, Nat.ofDigitChars_ten_toDigits]
      rw [if_pos hdigits]
      dsimp only
      rw [hvalue, BuildIdentifier.chars, List.length_append, List.length_replicate,
        Nat.add_sub_cancel]
    | word w =>
      rw [BuildIdentifier.chars, if_neg w.not_allDigits, Word.of?_eq_some_iff.mpr rfl]
      rfl

/-- The texts of build identifiers. -/
theorem BuildIdentifier.exists_chars_iff :
    (∃ i : BuildIdentifier, i.chars = cs) ↔ IsIdentifier cs := by
  constructor
  · rintro ⟨i, rfl⟩
    cases i with
    | number zeros value =>
      exact ⟨BuildIdentifier.chars_number_ne_nil zeros value,
        fun c hc => isIdentifierChar_of_isDigit (BuildIdentifier.isDigit_of_mem hc)⟩
    | word w => exact w.chars_spec.1
  · intro hidentifier
    by_cases hdigit : ∀ c ∈ cs, c.isDigit = true
    · obtain ⟨zeros, heq⟩ := exists_zeros hidentifier.1 hdigit
      exact ⟨.number zeros _, heq.symm⟩
    · obtain ⟨w, hw⟩ := Word.exists_of_isIdentifier hidentifier hdigit
      exact ⟨.word w, hw⟩

end Version
end PluginHost
