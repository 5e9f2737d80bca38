import PluginHost.Proofs.Json.Tokens

/-! # How a token is spelled

`SpellsToken token word` is the grammar of one token: of punctuation, of the three literals, of
strings with their escapes, and of numbers with their parts.  It says nothing about what stands
behind a word.  The reader finds each word as the token that it spells, unless it is a number and
what stands behind would continue it (`first?_of_spells`); and whatever the reader takes for a
token is a word (`exists_word_of_first?`). -/
namespace PluginHost
namespace JsonToken

/-! ## The grammar -/

/-- The content of a string, part by part. -/
inductive SpellsContent : List Piece → List Char → Prop
  | nil : SpellsContent [] []
  /-- A byte that stands for itself. -/
  | plain {c : Char} {pieces : List Piece} {cs : List Char} (hcontrol : 0x20 ≤ c.toNat)
      (hquote : c ≠ '"') (hbackslash : c ≠ '\\') (hrest : SpellsContent pieces cs) :
      SpellsContent (.byte c.toUInt8 :: pieces) (c :: cs)
  /-- A short escape. -/
  | short {e c : Char} {pieces : List Piece} {cs : List Char} (hescape : shortEscape? e = some c)
      (hrest : SpellsContent pieces cs) :
      SpellsContent (.byte c.toUInt8 :: pieces) ('\\' :: e :: cs)
  /-- An escape by number. -/
  | code {c₁ c₂ c₃ c₄ : Char} {value : Nat} {pieces : List Piece} {cs : List Char}
      (hunit : unit? c₁ c₂ c₃ c₄ = some value) (hrest : SpellsContent pieces cs) :
      SpellsContent (.unit value :: pieces) ('\\' :: 'u' :: c₁ :: c₂ :: c₃ :: c₄ :: cs)

/-- One digit or more. -/
structure SpellsDigits (digits : List Nat) (cs : List Char) : Prop where
  ne_nil : cs ≠ []
  isDigit : ∀ c ∈ cs, c.isDigit = true
  values : digits = cs.map fun c => c.toNat - '0'.toNat

/-- The digits behind the point, if there is a point. -/
inductive SpellsFraction : List Nat → List Char → Prop
  | absent : SpellsFraction [] []
  | digits {digits : List Nat} {cs : List Char} (h : SpellsDigits digits cs) :
      SpellsFraction digits ('.' :: cs)

/-- The sign of a power of ten. -/
inductive SpellsSign : Bool → List Char → Prop
  | none : SpellsSign false []
  | plus : SpellsSign false ['+']
  | minus : SpellsSign true ['-']

/-- The value of a row of digits. -/
def decimal (digits : List Nat) : Nat := digits.foldl (fun n d => n * 10 + d) 0

/-- The power of ten, if one is written. -/
inductive SpellsExponent : Option Int → List Char → Prop
  | absent : SpellsExponent none []
  | power {mark : Char} {negative : Bool} {sign cs : List Char} {digits : List Nat}
      (hmark : mark = 'e' ∨ mark = 'E') (hsign : SpellsSign negative sign)
      (hdigits : SpellsDigits digits cs) :
      SpellsExponent (some (if negative then -Int.ofNat (decimal digits)
        else Int.ofNat (decimal digits))) (mark :: (sign ++ cs))

/-- A number behind its sign.  Digits start with zero only if there is no other in front of the
point. -/
inductive SpellsNumber : JsonNumber → List Char → Prop
  | parts {negative : Bool} {whole fraction : List Nat} {exponent : Option Int}
      {cs ds es : List Char} (hwhole : SpellsDigits whole cs)
      (hzero : whole.head? = some 0 → whole.length = 1) (hfraction : SpellsFraction fraction ds)
      (hexponent : SpellsExponent exponent es) :
      SpellsNumber ⟨negative, whole, fraction, exponent⟩ (cs ++ ds ++ es)

/-- A token and its spelling. -/
inductive SpellsToken : JsonToken → List Char → Prop
  | punctuation {c : Char} {token : JsonToken} (h : Json.punctuation? c = some token) :
      SpellsToken token [c]
  | null : SpellsToken (.scalar .null) "null".toList
  | boolean (b : Bool) : SpellsToken (.scalar (.boolean b)) (Json.spelling b)
  | string {pieces : List Piece} {cs : List Char} (h : SpellsContent pieces cs) :
      SpellsToken (.scalar (.string (textOf? pieces))) ('"' :: (cs ++ ['"']))
  | positive {n : JsonNumber} {cs : List Char} (hsign : n.negative = false)
      (h : SpellsNumber n cs) : SpellsToken (.scalar (.number n)) cs
  | negative {n : JsonNumber} {cs : List Char} (hsign : n.negative = true)
      (h : SpellsNumber n cs) : SpellsToken (.scalar (.number n)) ('-' :: cs)

/-! ## Strings -/

/-- A content is read up to the quote behind it. -/
theorem stringBody_of_spells {pieces : List Piece} {cs : List Char} (h : SpellsContent pieces cs)
    (rest : List Char) : stringBody (cs ++ '"' :: rest) = some (pieces, rest) := by
  induction h with
  | nil => rw [List.nil_append, stringBody]
  | @plain c pieces cs hcontrol hquote hbackslash _ ih =>
    rw [List.cons_append, stringBody, ih]
    · exact if_neg (Nat.not_lt.mpr hcontrol)
    · exact hquote
    · exact fun _ _ _ _ _ hc _ => hbackslash hc
    · exact fun _ _ hc _ => hbackslash hc
  | @short e c pieces cs hescape _ ih =>
    have hcode : e ≠ 'u' := by
      rintro rfl
      cases hescape
    rw [List.cons_append, List.cons_append, stringBody, ih, hescape]
    · rfl
    · exact fun _ _ _ _ _ hc _ => hcode hc
  | code hunit _ ih =>
    simp only [List.cons_append]
    rw [stringBody, ih, hunit]
    rfl

/-- What is read as a content is one, with a quote behind it. -/
theorem exists_content {cs rest : List Char} {pieces : List Piece}
    (h : stringBody cs = some (pieces, rest)) :
    ∃ content, cs = content ++ '"' :: rest ∧ SpellsContent pieces content := by
  fun_induction stringBody cs generalizing pieces rest with
  | case1 => cases h
  | case2 behind =>
    obtain ⟨rfl, rfl⟩ := Prod.mk.inj (Option.some.inj h)
    exact ⟨[], rfl, .nil⟩
  | case3 c₁ c₂ c₃ c₄ behind ih =>
    obtain ⟨⟨pieces, rest⟩, hread, h⟩ := Option.bind_eq_some_iff.mp h
    obtain ⟨value, hunit, h⟩ := Option.bind_eq_some_iff.mp h
    obtain ⟨rfl, rfl⟩ := Prod.mk.inj (Option.some.inj h)
    obtain ⟨content, rfl, hcontent⟩ := ih hread
    exact ⟨_, rfl, .code hunit hcontent⟩
  | case4 e behind _ ih =>
    obtain ⟨⟨pieces, rest⟩, hread, h⟩ := Option.bind_eq_some_iff.mp h
    obtain ⟨c, hescape, h⟩ := Option.bind_eq_some_iff.mp h
    obtain ⟨rfl, rfl⟩ := Prod.mk.inj (Option.some.inj h)
    obtain ⟨content, rfl, hcontent⟩ := ih hread
    exact ⟨_, rfl, .short hescape hcontent⟩
  | case5 c behind hquote _ hbackslash ih =>
    obtain ⟨⟨pieces, rest⟩, hread, h⟩ := Option.bind_eq_some_iff.mp h
    dsimp only at h
    split at h
    · cases h
    · rename_i hcontrol
      obtain ⟨rfl, rfl⟩ := Prod.mk.inj (Option.some.inj h)
      obtain ⟨content, rfl, hcontent⟩ := ih hread
      refine ⟨c :: content, rfl, .plain (Nat.not_lt.mp hcontrol) hquote ?_ hcontent⟩
      -- A backslash in front of what follows would be read as an escape.
      rintro rfl
      cases content with
      | nil => exact hbackslash _ _ rfl rfl
      | cons d content => exact hbackslash _ _ rfl rfl

/-! ## Digits -/

/-- What stands behind a row of digits ends it. -/
def EndsDigits (rest : List Char) : Prop := ∀ c ∈ rest.head?, c.isDigit = false

/-- Digits are read to their end. -/
theorem digitRun_append {cs rest : List Char} (hcs : ∀ c ∈ cs, c.isDigit = true)
    (hrest : EndsDigits rest) :
    digitRun (cs ++ rest) = (cs.map fun c => c.toNat - '0'.toNat, rest) := by
  have hnone : rest.takeWhile Char.isDigit = [] ∧ rest.dropWhile Char.isDigit = rest := by
    cases rest with
    | nil => exact ⟨rfl, rfl⟩
    | cons c rest =>
      have hc : c.isDigit = false := hrest c rfl
      exact ⟨List.takeWhile_cons_of_neg (by simp [hc]), List.dropWhile_cons_of_neg (by simp [hc])⟩
  rw [digitRun, List.takeWhile_append_of_pos hcs, List.dropWhile_append_of_pos hcs, hnone.1,
    hnone.2, List.append_nil]

theorem digitRun?_of_spells {digits : List Nat} {cs rest : List Char} (h : SpellsDigits digits cs)
    (hrest : EndsDigits rest) : digitRun? (cs ++ rest) = some (digits, rest) := by
  have hne : (cs.map fun c => c.toNat - '0'.toNat).isEmpty = false := by
    rw [List.isEmpty_map]
    exact List.isEmpty_eq_false_iff.mpr h.ne_nil
  rw [digitRun?, digitRun_append h.isDigit hrest, if_neg (by rw [hne]; exact Bool.false_ne_true),
    h.values]

theorem exists_digits {digits : List Nat} {cs rest : List Char}
    (h : digitRun? cs = some (digits, rest)) :
    ∃ word, cs = word ++ rest ∧ SpellsDigits digits word := by
  unfold digitRun? at h
  split at h
  · cases h
  · rename_i hne
    obtain ⟨rfl, rfl⟩ := Prod.mk.inj (Option.some.inj h)
    refine ⟨cs.takeWhile Char.isDigit, List.takeWhile_append_dropWhile.symm, ?_, ?_, rfl⟩
    · intro hnil
      simp [digitRun, hnil] at hne
    · intro c hc
      exact List.all_eq_true.mp List.all_takeWhile c hc

/-! ## Numbers -/

/-- Whether a character may continue a number. -/
def continuesNumber (c : Char) : Bool := c.isDigit || c == '.' || c == 'e' || c == 'E'

/-- What stands behind a number ends it. -/
def EndsNumber (rest : List Char) : Prop := ∀ c ∈ rest.head?, continuesNumber c = false

theorem EndsNumber.endsDigits {rest : List Char} (h : EndsNumber rest) : EndsDigits rest := by
  intro c hc
  have hother := h c hc
  simp only [continuesNumber, Bool.or_eq_false_iff] at hother
  exact hother.1.1.1

theorem wholePart?_of_spells {whole : List Nat} {cs rest : List Char} (h : SpellsDigits whole cs)
    (hzero : whole.head? = some 0 → whole.length = 1) (hrest : EndsDigits rest) :
    wholePart? (cs ++ rest) = some (whole, rest) := by
  rw [wholePart?, digitRun?_of_spells h hrest]
  refine if_neg fun hleading => ?_
  simp only [Bool.and_eq_true, beq_iff_eq, bne_iff_ne] at hleading
  exact hleading.2 (hzero hleading.1)

theorem fractionPart?_of_spells {fraction : List Nat} {cs rest : List Char}
    (h : SpellsFraction fraction cs) (hpoint : rest.head? ≠ some '.') (hrest : EndsDigits rest) :
    fractionPart? (cs ++ rest) = some (fraction, rest) := by
  cases h with
  | absent =>
    rw [List.nil_append, fractionPart?]
    rintro behind rfl
    exact hpoint rfl
  | digits h =>
    rw [List.cons_append, fractionPart?, digitRun?_of_spells h hrest]

/-- The sign of a power of ten, which may be left out, and what stands behind it. -/
def splitSign : List Char → Bool × List Char
  | '-' :: rest => (true, rest)
  | '+' :: rest => (false, rest)
  | rest => (false, rest)

theorem exists_sign (cs : List Char) :
    ∃ sign, cs = sign ++ (splitSign cs).2 ∧ SpellsSign (splitSign cs).1 sign := by
  unfold splitSign
  split
  · exact ⟨['-'], rfl, .minus⟩
  · exact ⟨['+'], rfl, .plus⟩
  · exact ⟨[], rfl, .none⟩

theorem splitSign_append {negative : Bool} {sign behind : List Char}
    (hsign : SpellsSign negative sign) (hbehind : ∀ c ∈ behind.head?, c.isDigit = true) :
    splitSign (sign ++ behind) = (negative, behind) := by
  cases hsign with
  | none =>
    rw [List.nil_append]
    unfold splitSign
    split
    · exact absurd (hbehind '-' rfl) (by decide)
    · exact absurd (hbehind '+' rfl) (by decide)
    · rfl
  | plus => rfl
  | minus => rfl

/-- A power of ten is read as its sign and its digits. -/
theorem exponentPart?_cons {mark : Char} (hmark : mark = 'e' ∨ mark = 'E') (behind : List Char) :
    exponentPart? (mark :: behind) = (digitRun? (splitSign behind).2).map fun (digits, rest) =>
      (some (if (splitSign behind).1 then -Int.ofNat (decimal digits)
        else Int.ofNat (decimal digits)), rest) := by
  have hletter : (mark == 'e' || mark == 'E') = true := by simpa using hmark
  have hsplit : exponentPart? (mark :: behind) = (digitRun? (splitSign behind).2).bind fun parts =>
      some (some (if (splitSign behind).1 then -Int.ofNat (decimal parts.1)
        else Int.ofNat (decimal parts.1)), parts.2) := by
    unfold exponentPart?
    dsimp only
    rw [if_pos hletter]
    rfl
  rw [hsplit]
  cases digitRun? (splitSign behind).2 <;> rfl

theorem exponentPart?_of_spells {exponent : Option Int} {cs rest : List Char}
    (h : SpellsExponent exponent cs) (hrest : EndsNumber rest) :
    exponentPart? (cs ++ rest) = some (exponent, rest) := by
  cases h with
  | absent =>
    cases rest with
    | nil => rfl
    | cons c rest =>
      have hother : continuesNumber c = false := hrest c rfl
      simp only [continuesNumber, Bool.or_eq_false_iff] at hother
      have hletter : (c == 'e' || c == 'E') = false := by rw [hother.2, hother.1.2]; rfl
      unfold exponentPart?
      dsimp only [List.nil_append]
      rw [hletter]
      rfl
  | @power mark negative sign ds digits hmark hsign hdigits =>
    have hfirst : ∀ c ∈ (ds ++ rest).head?, c.isDigit = true := by
      intro c hc
      obtain ⟨d, ds, rfl⟩ := List.exists_cons_of_ne_nil hdigits.ne_nil
      obtain rfl : d = c := Option.some.inj hc
      exact hdigits.isDigit d List.mem_cons_self
    rw [List.cons_append, List.append_assoc, exponentPart?_cons hmark,
      splitSign_append hsign hfirst, digitRun?_of_spells hdigits hrest.endsDigits]
    rfl

/-- A number is read to its end. -/
theorem number?_of_spells {n : JsonNumber} {cs rest : List Char} (h : SpellsNumber n cs)
    (hrest : EndsNumber rest) : number? n.negative (cs ++ rest) = some (n, rest) := by
  cases h with
  | @parts negative whole fraction exponent cs ds es hwhole hzero hfraction hexponent =>
    have hexponentEnds : (es ++ rest).head? ≠ some '.' ∧ EndsDigits (es ++ rest) := by
      cases hexponent with
      | absent =>
        refine ⟨fun hpoint => ?_, hrest.endsDigits⟩
        exact absurd (hrest '.' hpoint) (by decide)
      | power hmark =>
        refine ⟨fun hpoint => ?_, fun c hc => ?_⟩
        · obtain rfl := Option.some.inj hpoint
          exact absurd hmark (by decide)
        · obtain rfl := Option.some.inj hc
          obtain rfl | rfl := hmark <;> decide
    have hfractionEnds : EndsDigits (ds ++ (es ++ rest)) := by
      cases hfraction with
      | absent => exact hexponentEnds.2
      | digits =>
        intro c hc
        obtain rfl := Option.some.inj hc
        decide
    rw [number?, List.append_assoc, List.append_assoc,
      wholePart?_of_spells hwhole hzero hfractionEnds]
    simp only [Option.bind_eq_bind, Option.bind_some,
      fractionPart?_of_spells hfraction hexponentEnds.1 hexponentEnds.2,
      exponentPart?_of_spells hexponent hrest]
    rfl

theorem exists_whole {whole : List Nat} {cs rest : List Char}
    (h : wholePart? cs = some (whole, rest)) :
    ∃ word, cs = word ++ rest ∧ SpellsDigits whole word ∧
      (whole.head? = some 0 → whole.length = 1) := by
  obtain ⟨⟨digits, behind⟩, hread, h⟩ := Option.bind_eq_some_iff.mp h
  dsimp only at h
  split at h
  · cases h
  · rename_i hleading
    obtain ⟨rfl, rfl⟩ := Prod.mk.inj (Option.some.inj h)
    obtain ⟨word, rfl, hword⟩ := exists_digits hread
    refine ⟨word, rfl, hword, fun hzero => ?_⟩
    simpa [hzero] using hleading

theorem exists_fraction {fraction : List Nat} {cs rest : List Char}
    (h : fractionPart? cs = some (fraction, rest)) :
    ∃ word, cs = word ++ rest ∧ SpellsFraction fraction word := by
  unfold fractionPart? at h
  split at h
  · obtain ⟨word, rfl, hword⟩ := exists_digits h
    exact ⟨_, rfl, .digits hword⟩
  · obtain ⟨rfl, rfl⟩ := Prod.mk.inj (Option.some.inj h)
    exact ⟨[], rfl, .absent⟩

theorem exists_exponent {exponent : Option Int} {cs rest : List Char}
    (h : exponentPart? cs = some (exponent, rest)) :
    ∃ word, cs = word ++ rest ∧ SpellsExponent exponent word := by
  cases cs with
  | nil =>
    obtain ⟨rfl, rfl⟩ := Prod.mk.inj (Option.some.inj h)
    exact ⟨[], rfl, .absent⟩
  | cons c behind =>
    by_cases hmark : c = 'e' ∨ c = 'E'
    · rw [exponentPart?_cons hmark] at h
      obtain ⟨⟨digits, rest⟩, hread, h⟩ := Option.map_eq_some_iff.mp h
      obtain ⟨rfl, rfl⟩ := Prod.mk.inj h
      obtain ⟨sign, hbehind, hsign⟩ := exists_sign behind
      obtain ⟨word, hword, hdigits⟩ := exists_digits hread
      refine ⟨c :: (sign ++ word), ?_, .power hmark hsign hdigits⟩
      rw [List.cons_append, List.append_assoc, ← hword, ← hbehind]
    · have hletter : (c == 'e' || c == 'E') = false := by simpa using hmark
      unfold exponentPart? at h
      dsimp only at h
      rw [hletter] at h
      obtain ⟨rfl, rfl⟩ := Prod.mk.inj (Option.some.inj h)
      exact ⟨[], rfl, .absent⟩

/-- What is read as a number is one. -/
theorem exists_number {negative : Bool} {n : JsonNumber} {cs rest : List Char}
    (h : number? negative cs = some (n, rest)) :
    ∃ word, cs = word ++ rest ∧ SpellsNumber n word ∧ n.negative = negative := by
  obtain ⟨⟨whole, behind⟩, hwhole, h⟩ := Option.bind_eq_some_iff.mp h
  obtain ⟨⟨fraction, behind'⟩, hfraction, h⟩ := Option.bind_eq_some_iff.mp h
  obtain ⟨⟨exponent, behind''⟩, hexponent, h⟩ := Option.bind_eq_some_iff.mp h
  obtain ⟨rfl, rfl⟩ := Prod.mk.inj (Option.some.inj h)
  obtain ⟨cs, rfl, hcs, hzero⟩ := exists_whole hwhole
  obtain ⟨ds, rfl, hds⟩ := exists_fraction hfraction
  obtain ⟨es, rfl, hes⟩ := exists_exponent hexponent
  exact ⟨cs ++ ds ++ es, by simp only [List.append_assoc], .parts hcs hzero hds hes, rfl⟩

/-! ## Tokens -/

theorem exists_digit_of_spells {n : JsonNumber} {cs : List Char} (h : SpellsNumber n cs) :
    ∃ c more, cs = c :: more ∧ c.isDigit = true := by
  cases h with
  | @parts _ _ _ _ cs ds es hwhole =>
    obtain ⟨c, more, rfl⟩ := List.exists_cons_of_ne_nil hwhole.ne_nil
    exact ⟨c, more ++ ds ++ es, rfl, hwhole.isDigit c List.mem_cons_self⟩

/-- What starts with a digit is read as a number. -/
theorem first?_of_isDigit {c : Char} (h : c.isDigit = true) (cs : List Char) :
    first? (c :: cs) = (number? false (c :: cs)).map fun (n, r) => (.scalar (.number n), r) := by
  have hne {d : Char} (hd : d.isDigit = false) : c ≠ d := by
    rintro rfl
    rw [h] at hd
    cases hd
  unfold first?
  split
  case h_12 => rfl
  all_goals
    rename_i heq
    exact absurd (List.cons.inj heq).1 (hne (by decide))

/-- **A word is read as its token**, if a number ends where its word ends. -/
theorem first?_of_spells {token : JsonToken} {word rest : List Char} (h : SpellsToken token word)
    (hrest : ∀ n, token = .scalar (.number n) → EndsNumber rest) :
    first? (word ++ rest) = some (token, rest) := by
  cases h with
  | punctuation h =>
    unfold Json.punctuation? at h
    split at h <;> cases h <;> rfl
  | null => rfl
  | boolean b => cases b <;> rfl
  | string h =>
    rw [List.cons_append, List.append_assoc, List.singleton_append, first?,
      stringBody_of_spells h]
    rfl
  | positive hsign h =>
    obtain ⟨c, more, rfl, hdigit⟩ := exists_digit_of_spells h
    have hread := number?_of_spells h (hrest _ rfl)
    rw [hsign] at hread
    rw [List.cons_append, first?_of_isDigit hdigit, ← List.cons_append, hread]
    rfl
  | negative hsign h =>
    have hread := number?_of_spells h (hrest _ rfl)
    rw [hsign] at hread
    rw [List.cons_append, first?, hread]
    rfl

theorem eq_append_of_after? {expected cs rest : List Char} (h : after? expected cs = some rest) :
    cs = expected ++ rest := by
  fun_induction after? expected cs with
  | case1 => exact Option.some.inj h
  | case2 e es c cs heq ih => rw [ih h, eq_of_beq heq, List.cons_append]
  | case3 => cases h
  | case4 => cases h

/-- **What is read as a token is a word.** -/
theorem exists_word {token : JsonToken} {cs rest : List Char} (h : first? cs = some (token, rest)) :
    ∃ word, cs = word ++ rest ∧ SpellsToken token word := by
  unfold first? at h
  split at h
  case h_7 =>
    obtain ⟨⟨pieces, rest⟩, hread, h⟩ := Option.map_eq_some_iff.mp h
    obtain ⟨rfl, rfl⟩ := Prod.mk.inj h
    obtain ⟨content, rfl, hcontent⟩ := exists_content hread
    refine ⟨_, ?_, .string hcontent⟩
    rw [List.cons_append, List.append_assoc, List.singleton_append]
  case h_8 =>
    obtain ⟨rest, hread, h⟩ := Option.map_eq_some_iff.mp h
    obtain ⟨rfl, rfl⟩ := Prod.mk.inj h
    rw [eq_append_of_after? hread]
    exact ⟨_, rfl, .null⟩
  case h_9 =>
    obtain ⟨rest, hread, h⟩ := Option.map_eq_some_iff.mp h
    obtain ⟨rfl, rfl⟩ := Prod.mk.inj h
    rw [eq_append_of_after? hread]
    exact ⟨_, rfl, .boolean true⟩
  case h_10 =>
    obtain ⟨rest, hread, h⟩ := Option.map_eq_some_iff.mp h
    obtain ⟨rfl, rfl⟩ := Prod.mk.inj h
    rw [eq_append_of_after? hread]
    exact ⟨_, rfl, .boolean false⟩
  case h_11 =>
    obtain ⟨⟨n, rest⟩, hread, h⟩ := Option.map_eq_some_iff.mp h
    obtain ⟨rfl, rfl⟩ := Prod.mk.inj h
    obtain ⟨word, rfl, hword, hsign⟩ := exists_number hread
    exact ⟨'-' :: word, rfl, .negative hsign hword⟩
  case h_12 =>
    obtain ⟨⟨n, rest⟩, hread, h⟩ := Option.map_eq_some_iff.mp h
    obtain ⟨rfl, rfl⟩ := Prod.mk.inj h
    obtain ⟨word, rfl, hword, hsign⟩ := exists_number hread
    exact ⟨word, rfl, .positive hsign hword⟩
  all_goals
    obtain ⟨rfl, rfl⟩ := Prod.mk.inj (Option.some.inj h)
    exact ⟨[_], rfl, .punctuation rfl⟩

/-- A word does not start with white space. -/
theorem exists_cons_of_spells {token : JsonToken} {word : List Char} (h : SpellsToken token word) :
    ∃ c letters, word = c :: letters ∧ isSpace c = false := by
  have hdigit {c : Char} (hc : c.isDigit = true) : isSpace c = false := by
    refine Bool.eq_false_iff.mpr fun hspace => ?_
    simp only [isSpace, Bool.or_eq_true, beq_iff_eq] at hspace
    obtain ((rfl | rfl) | rfl) | rfl := hspace <;> cases hc
  cases h with
  | @punctuation c _ h =>
    refine ⟨c, [], rfl, ?_⟩
    unfold Json.punctuation? at h
    split at h <;> first | rfl | cases h
  | null => exact ⟨'n', _, rfl, rfl⟩
  | boolean b =>
    cases b with
    | true => exact ⟨'t', _, rfl, rfl⟩
    | false => exact ⟨'f', _, rfl, rfl⟩
  | string _ => exact ⟨'"', _, rfl, rfl⟩
  | positive _ h =>
    obtain ⟨c, more, rfl, hc⟩ := exists_digit_of_spells h
    exact ⟨c, more, rfl, hdigit hc⟩
  | negative _ _ => exact ⟨'-', _, rfl, rfl⟩

end JsonToken
end PluginHost
