import Mathlib.Tactic.SplitIfs
import PluginHost.Proofs.Text.Positions
import PluginHost.Toml.Text

/-! # Strings are read back

What `TomlText.write` writes is read as the text that it was made of, whatever stands behind
it but a quote (`TomlText.read?_write`).  The four forms differ in what may stand between
their quotes.  In the two with escapes every character is read back on its own
(`between_escaped`).  In the two on several lines up to two quotes in a row stand as they are,
and three would end the string; so these are read run by run, and the statements that are
proved by induction carry the quotes of a run that has been begun
(`multiBasic?_escapedText`, `multiLiteral?_append`). -/
namespace PluginHost

namespace TomlText

variable {c : Char} {cs rest : List Char}

/-- A text with several more characters in front, and what is left behind it. -/
def pushAll (front : List Char) (read : List Char × List Char) : List Char × List Char :=
  (front ++ read.1, read.2)

/-! ## Reading one character -/

theorem basic?_quote (rest : List Char) : basic? ('"' :: rest) = some ([], rest) := by
  rw [basic?]

theorem basic?_escape (h : Text.escape? cs = some (c, rest)) :
    basic? ('\\' :: cs) = (basic? rest).map (push c) := by
  rw [basic?]
  split
  · rename_i hnone
    rw [h] at hnone
    cases hnone
  · rename_i hsome
    rw [h] at hsome
    obtain ⟨rfl, rfl⟩ := Prod.mk.inj (Option.some.inj hsome)
    rfl

theorem basic?_plain (hplain : isPlain c = true) (hquote : c ≠ '"') (hslash : c ≠ '\\')
    (rest : List Char) : basic? (c :: rest) = (basic? rest).map (push c) := by
  rw [basic?, if_pos hplain]
  · exact hquote
  · exact hslash

theorem multiBasic?_escape (h : Text.escape? cs = some (c, rest)) :
    multiBasic? ('\\' :: cs) = (multiBasic? rest).map (push c) := by
  rw [multiBasic?]
  split
  · rename_i hsome
    rw [h] at hsome
    obtain ⟨rfl, rfl⟩ := Prod.mk.inj (Option.some.inj hsome)
    rfl
  · rename_i hnone
    rw [h] at hnone
    cases hnone

theorem multiBasic?_quotes (rest : List Char) :
    multiBasic? ('"' :: '"' :: '"' :: rest) = some (closingRun '"' rest) := by
  rw [multiBasic?]

theorem multiBasic?_break (rest : List Char) :
    multiBasic? ('\n' :: rest) = (multiBasic? rest).map (push '\n') := by
  rw [multiBasic?]

/-- A plain character stands for itself unless it is the first of three quotes. -/
theorem multiBasic?_plain (hplain : isPlain c = true) (hslash : c ≠ '\\')
    (hquotes : ¬['"', '"', '"'] <+: c :: rest) :
    multiBasic? (c :: rest) = (multiBasic? rest).map (push c) := by
  rw [multiBasic?, if_pos hplain]
  · rintro t rfl rfl
    exact hquotes ⟨t, rfl⟩
  · exact hslash
  · rintro rfl
    cases hplain
  · rintro t rfl
    cases hplain

/-! ## Escapes -/

theorem hexValue?_hexDigit : ∀ n < 16, Text.hexValue? (hexDigit n) = some n := by decide

theorem lt_of_not_isPlain (h : isPlain c = false) : c.toNat < 128 := by
  simp [isPlain] at h
  omega

/-- A character that is written by its code is read back. -/
theorem escape?_code (h : c.toNat < 128) (rest : List Char) :
    Text.escape? ('u' :: '0' :: '0' :: hexDigit (c.toNat / 16) :: hexDigit (c.toNat % 16) :: rest) =
      some (c, rest) := by
  have hhigh := hexValue?_hexDigit (c.toNat / 16) (by omega)
  have hlow := hexValue?_hexDigit (c.toNat % 16) (by omega)
  have hzero : Text.hexValue? '0' = some 0 := by decide
  have hvalue : c.toNat / 16 * 16 + c.toNat % 16 = c.toNat := Nat.div_add_mod' _ _
  have hvalid : c.toNat.isValidChar := c.valid
  simp [Text.escape?, Text.code?, List.mapM_cons, hhigh, hlow, hzero, hvalue, hvalid,
    Char.ofNat_toNat]

/-- Reads a string with escapes, on one line or on several, behind its opening quotes. -/
def between : (multi : Bool) → List Char → Option (List Char × List Char)
  | false => basic?
  | true => multiBasic?

theorem between_escape (multi : Bool) (h : Text.escape? cs = some (c, rest)) :
    between multi ('\\' :: cs) = (between multi rest).map (push c) := by
  cases multi
  · exact basic?_escape h
  · exact multiBasic?_escape h

theorem between_plain (multi : Bool) (hplain : isPlain c = true) (hquote : c ≠ '"')
    (hslash : c ≠ '\\') (rest : List Char) :
    between multi (c :: rest) = (between multi rest).map (push c) := by
  cases multi
  · exact basic?_plain hplain hquote hslash rest
  · exact multiBasic?_plain hplain hslash fun h => hquote (List.cons_prefix_cons.mp h).1.symm

/-- A character other than a quote is read back from what is written for it. -/
theorem between_escaped (multi : Bool) (hquote : c ≠ '"') (rest : List Char) :
    between multi (escaped multi c ++ rest) = (between multi rest).map (push c) := by
  unfold escaped
  split_ifs with hb ht hn hmulti hf hr hslash hplain
  · subst hb
    exact between_escape multi rfl
  · subst ht
    exact between_escape multi rfl
  · subst hn hmulti
    exact multiBasic?_break rest
  · subst hn
    exact between_escape multi rfl
  · subst hf
    exact between_escape multi rfl
  · subst hr
    exact between_escape multi rfl
  · subst hslash
    exact between_escape multi rfl
  · exact between_plain multi hplain hquote hslash rest
  · exact between_escape multi
      (escape?_code (lt_of_not_isPlain (Bool.eq_false_iff.mpr hplain)) rest)

/-- An escaped quote is read back. -/
theorem between_quote (multi : Bool) (rest : List Char) :
    between multi ('\\' :: '"' :: rest) = (between multi rest).map (push '"') :=
  between_escape multi rfl

/-- What is written for a character other than a quote begins with no quote, and with a line
end only where it is one. -/
theorem exists_cons_escaped (multi : Bool) (hquote : c ≠ '"') : ∃ first others,
    escaped multi c = first :: others ∧ first ≠ '"' ∧ first ≠ '\r' ∧ (first = '\n' → c = '\n') := by
  have hback (others : List Char) : ∃ first others', '\\' :: others = first :: others' ∧
      first ≠ '"' ∧ first ≠ '\r' ∧ (first = '\n' → c = '\n') :=
    ⟨'\\', others, rfl, by decide, by decide, fun h => absurd h (by decide)⟩
  unfold escaped
  split_ifs with hb ht hn hmulti hf hr hslash hplain
  · exact hback _
  · exact hback _
  · exact ⟨'\n', [], rfl, by decide, by decide, fun _ => hn⟩
  · exact hback _
  · exact hback _
  · exact hback _
  · exact hback _
  · exact ⟨c, [], rfl, hquote, hr, id⟩
  · exact hback _

/-! ## Strings on one line -/

theorem basic?_escapedText (run : Nat) (cs rest : List Char) :
    basic? (escapedText false run cs ++ '"' :: rest) = some (cs, rest) := by
  induction cs generalizing run with
  | nil => exact basic?_quote rest
  | cons c cs ih =>
    by_cases hquote : c = '"'
    · subst hquote
      have hread := between_quote false (escapedText false 0 cs ++ '"' :: rest)
      rw [between, ih 0] at hread
      exact hread
    · have hread := between_escaped false hquote (escapedText false 0 cs ++ '"' :: rest)
      rw [between, ih 0] at hread
      rw [escapedText, List.append_assoc]
      · exact hread
      · exact hquote

theorem literal?_append {cs : List Char} (hplain : ∀ c ∈ cs, isPlain c = true ∧ c ≠ '\'')
    (rest : List Char) : literal? (cs ++ '\'' :: rest) = some (cs, rest) := by
  induction cs with
  | nil => rw [List.nil_append, literal?]
  | cons c cs ih =>
    obtain ⟨hc, hquote⟩ := hplain c List.mem_cons_self
    rw [List.cons_append, literal?, if_pos hc, ih fun d hd => hplain d (List.mem_cons_of_mem c hd)]
    · rfl
    · exact hquote

/-! ## Runs of quotes -/

/-- Up to two quotes stand in front of the three that end a string. -/
theorem closingRun_replicate {quote : Char} {run : Nat} (hrun : run ≤ 2)
    (hrest : ∀ c ∈ rest.head?, c ≠ quote) :
    closingRun quote (List.replicate run quote ++ rest) = (List.replicate run quote, rest) := by
  have hhead : ∀ c cs, rest = c :: cs → ¬(c == quote) = true := by
    rintro c cs rfl
    simpa using hrest c rfl
  match run, hrun with
  | 0, _ =>
    cases rest with
    | nil => rfl
    | cons c cs => cases cs <;> simp_all [closingRun]
  | 1, _ =>
    cases rest with
    | nil => simp [closingRun]
    | cons c cs => cases cs <;> simp_all [closingRun, List.replicate]
  | 2, _ => simp [closingRun, List.replicate]

/-- A run of quotes and one more are the longer run. -/
theorem replicate_append_cons (run : Nat) (quote : Char) (cs : List Char) :
    List.replicate run quote ++ quote :: cs = List.replicate (run + 1) quote ++ cs := by
  rw [List.replicate_succ', List.append_assoc, List.singleton_append]

theorem replicate_append_three (run : Nat) (quote : Char) (cs : List Char) :
    List.replicate run quote ++ quote :: quote :: quote :: cs =
      quote :: quote :: quote :: (List.replicate run quote ++ cs) := by
  rw [replicate_append_cons, replicate_append_cons, replicate_append_cons]
  rfl

/-- A run of at most two quotes ends no string. -/
theorem not_three_isPrefix {quote : Char} {run : Nat} (hrun : run ≤ 2) (hc : c ≠ quote)
    (cs : List Char) : ¬[quote, quote, quote] <+: List.replicate run quote ++ c :: cs := by
  match run, hrun with
  | 0, _ | 1, _ | 2, _ => simp [List.replicate, List.cons_prefix_cons, hc.symm]

theorem multiBasic?_run {run : Nat} (hrun : run ≤ 2) (hc : c ≠ '"') (cs : List Char) :
    multiBasic? (List.replicate run '"' ++ c :: cs) =
      (multiBasic? (c :: cs)).map (pushAll (List.replicate run '"')) := by
  induction run with
  | zero => cases h : multiBasic? (c :: cs) <;> simp [h, pushAll]
  | succ run ih =>
    have hquotes := not_three_isPrefix hrun hc cs
    rw [List.replicate_succ, List.cons_append] at hquotes ⊢
    rw [multiBasic?_plain rfl (by decide) hquotes, ih (by omega), Option.map_map]
    rfl

/-- A text on several lines is read back behind a run of quotes that has been begun. -/
theorem multiBasic?_escapedText {run : Nat} (hrun : run ≤ 2)
    (hrest : ∀ c ∈ rest.head?, c ≠ '"') (cs : List Char) :
    multiBasic? (List.replicate run '"' ++ (escapedText true run cs ++ '"' :: '"' :: '"' :: rest)) =
      some (List.replicate run '"' ++ cs, rest) := by
  induction cs generalizing run with
  | nil =>
    rw [escapedText, List.nil_append, replicate_append_three, multiBasic?_quotes,
      closingRun_replicate hrun hrest, List.append_nil]
  | cons c cs ih =>
    have hback := ih (Nat.zero_le 2)
    rw [List.replicate_zero, List.nil_append, List.nil_append] at hback
    by_cases hquote : c = '"'
    · subst hquote
      rw [escapedText, Bool.true_and]
      by_cases hmore : run < 2
      · rw [if_pos (decide_eq_true hmore), List.cons_append, replicate_append_cons,
          replicate_append_cons]
        exact ih hmore
      · rw [if_neg (by simpa using hmore), List.cons_append, List.cons_append,
          multiBasic?_run hrun (by decide)]
        have hread := between_quote true (escapedText true 0 cs ++ '"' :: '"' :: '"' :: rest)
        rw [between, hback] at hread
        rw [hread]
        rfl
    · obtain ⟨first, others, heq, hfirst, -⟩ := exists_cons_escaped true hquote
      have hread := between_escaped true hquote (escapedText true 0 cs ++ '"' :: '"' :: '"' :: rest)
      rw [between, hback, heq] at hread
      rw [escapedText, heq, List.append_assoc, List.cons_append, multiBasic?_run hrun hfirst]
      · rw [List.cons_append] at hread
        rw [hread]
        rfl
      · exact hquote

/-! ## Literal strings on several lines -/

theorem multiLiteral?_quotes (rest : List Char) :
    multiLiteral? ('\'' :: '\'' :: '\'' :: rest) = some (closingRun '\'' rest) := by
  rw [multiLiteral?]

/-- A character stands for itself unless it is the first of three quotes. -/
theorem multiLiteral?_cons (hc : isPlain c = true ∨ c = '\n')
    (hquotes : ¬['\'', '\'', '\''] <+: c :: rest) :
    multiLiteral? (c :: rest) = (multiLiteral? rest).map (push c) := by
  rcases hc with hplain | rfl
  · rw [multiLiteral?, if_pos hplain]
    · rintro t rfl rfl
      exact hquotes ⟨t, rfl⟩
    · rintro rfl
      cases hplain
    · rintro t rfl
      cases hplain
  · rw [multiLiteral?]

theorem multiLiteral?_run {run : Nat} (hrun : run ≤ 2) (hc : c ≠ '\'') (cs : List Char) :
    multiLiteral? (List.replicate run '\'' ++ c :: cs) =
      (multiLiteral? (c :: cs)).map (pushAll (List.replicate run '\'')) := by
  induction run with
  | zero => cases h : multiLiteral? (c :: cs) <;> simp [h, pushAll]
  | succ run ih =>
    have hquotes := not_three_isPrefix hrun hc cs
    rw [List.replicate_succ, List.cons_append] at hquotes ⊢
    rw [multiLiteral?_cons (.inl rfl) hquotes, ih (by omega), Option.map_map]
    rfl

/-- A literal text on several lines is read back behind a run of quotes that has been begun. -/
theorem multiLiteral?_append {run : Nat} (hrun : run ≤ 2) (hrest : ∀ c ∈ rest.head?, c ≠ '\'')
    {cs : List Char} (hplain : ∀ c ∈ cs, isPlain c = true ∨ c = '\n')
    (hquotes : ¬['\'', '\'', '\''] <:+: List.replicate run '\'' ++ cs) :
    multiLiteral? (List.replicate run '\'' ++ (cs ++ '\'' :: '\'' :: '\'' :: rest)) =
      some (List.replicate run '\'' ++ cs, rest) := by
  induction cs generalizing run with
  | nil =>
    rw [List.nil_append, replicate_append_three, multiLiteral?_quotes,
      closingRun_replicate hrun hrest, List.append_nil]
  | cons c cs ih =>
    have hothers : ∀ d ∈ cs, isPlain d = true ∨ d = '\n' := fun d hd =>
      hplain d (List.mem_cons_of_mem c hd)
    by_cases hquote : c = '\''
    · subst hquote
      rw [replicate_append_cons] at hquotes
      have hmore : run + 1 ≤ 2 := by
        rcases Nat.lt_or_eq_of_le hrun with hlt | rfl
        · exact hlt
        · exact absurd ⟨[], cs, rfl⟩ hquotes
      rw [List.cons_append, replicate_append_cons, replicate_append_cons]
      exact ih hmore hothers hquotes
    · have hsuffix : cs <:+ List.replicate run '\'' ++ c :: cs :=
        (List.suffix_cons c cs).trans (List.suffix_append _ _)
      have hback := ih (Nat.zero_le 2) hothers fun h => hquotes (h.trans hsuffix.isInfix)
      rw [List.replicate_zero, List.nil_append, List.nil_append] at hback
      rw [List.cons_append, multiLiteral?_run hrun hquote,
        multiLiteral?_cons (hplain c List.mem_cons_self)
          fun h => hquote (List.cons_prefix_cons.mp h).1.symm, hback]
      rfl

/-! ## Whole strings -/

/-- The line end behind the opening quotes is skipped, and no other. -/
theorem skipFirstBreak_openingBreak {cs back : List Char}
    (hback : '\n' ∉ cs → ∀ c ∈ back.head?, c ≠ '\n' ∧ c ≠ '\r') :
    skipFirstBreak (openingBreak cs ++ back) = back := by
  unfold openingBreak
  by_cases hbreak : '\n' ∈ cs
  · rw [if_pos (List.contains_iff_mem.mpr hbreak)]
    rfl
  · rw [if_neg fun h => hbreak (List.contains_iff_mem.mp h), List.nil_append]
    unfold skipFirstBreak
    split
    · exact absurd rfl (hback hbreak _ rfl).1
    · exact absurd rfl (hback hbreak _ rfl).2
    · rfl

/-- What is written between three double quotes begins with a line end only if the text does. -/
theorem head?_escapedText (cs back : List Char) (hcs : '\n' ∉ cs) :
    ∀ c ∈ (escapedText true 0 cs ++ '"' :: back).head?, c ≠ '\n' ∧ c ≠ '\r' := by
  cases cs with
  | nil => simp [escapedText]
  | cons c cs =>
    by_cases hquote : c = '"'
    · subst hquote
      simp [escapedText]
    · obtain ⟨first, others, heq, -, hreturn, hbreak⟩ := exists_cons_escaped true hquote
      rw [escapedText, heq, List.cons_append, List.cons_append, List.head?_cons]
      · intro d hd
        obtain rfl := Option.some.inj hd
        exact ⟨fun h => hcs (hbreak h ▸ List.mem_cons_self), hreturn⟩
      · exact hquote

/-- A double quote that no two others follow opens a string on one line. -/
theorem read?_basic (h : ¬['"', '"'] <+: cs) : read? ('"' :: cs) = basic? cs := by
  rw [read?]
  rintro t rfl
  exact h ⟨t, rfl⟩

theorem read?_literal (h : ¬['\'', '\''] <+: cs) : read? ('\'' :: cs) = literal? cs := by
  rw [read?]
  rintro t rfl
  exact h ⟨t, rfl⟩

/-- Two quotes in a row do not stand at the start of a text on one line, which ends it, unless
another follows. -/
theorem not_two_isPrefix {quote : Char} {cs : List Char} (hcs : cs.head? ≠ some quote)
    (hrest : ∀ c ∈ rest.head?, c ≠ quote) : ¬[quote, quote] <+: cs ++ quote :: rest := by
  rintro ⟨t, ht⟩
  cases cs with
  | nil =>
    rw [List.nil_append] at ht
    obtain rfl := List.cons.inj ht |>.2
    exact hrest quote rfl rfl
  | cons c cs => exact hcs (congrArg some (List.cons.inj ht).1.symm)

theorem head?_escapedText_ne (cs : List Char) : (escapedText false 0 cs).head? ≠ some '"' := by
  cases cs with
  | nil => simp [escapedText]
  | cons c cs =>
    by_cases hquote : c = '"'
    · subst hquote
      simp [escapedText]
    · obtain ⟨first, others, heq, hfirst, -⟩ := exists_cons_escaped false hquote
      rw [escapedText, heq]
      · simpa using hfirst
      · exact hquote

section
variable (hrest : ∀ c ∈ rest.head?, c ≠ '"' ∧ c ≠ '\'') (cs : List Char)
include hrest

theorem read?_writeAs_basic : read? (writeAs .basic cs ++ rest) = some (cs, rest) := by
  have hquotes := not_two_isPrefix (head?_escapedText_ne cs) fun c hc => (hrest c hc).1
  rw [writeAs, List.append_assoc, List.cons_append]
  exact (read?_basic hquotes).trans (basic?_escapedText 0 cs rest)

theorem read?_writeAs_literal (hplain : ∀ c ∈ cs, isPlain c = true ∧ c ≠ '\'') :
    read? (writeAs .literal cs ++ rest) = some (cs, rest) := by
  have hhead : cs.head? ≠ some '\'' := fun h => (hplain _ (List.mem_of_head? h)).2 rfl
  have hquotes := not_two_isPrefix hhead fun c hc => (hrest c hc).2
  rw [writeAs, List.append_assoc, List.cons_append]
  exact (read?_literal hquotes).trans (literal?_append hplain rest)

theorem read?_writeAs_multiBasic : read? (writeAs .multiBasic cs ++ rest) = some (cs, rest) := by
  have hskip := skipFirstBreak_openingBreak (head?_escapedText cs ('"' :: '"' :: rest))
  have hread := multiBasic?_escapedText (Nat.zero_le 2) (fun c hc => (hrest c hc).1) cs
  simp only [writeAs, List.append_assoc, List.cons_append, List.nil_append, read?, hskip]
  exact hread

theorem read?_writeAs_multiLiteral (hplain : ∀ c ∈ cs, isPlain c = true ∨ c = '\n')
    (hquotes : ¬['\'', '\'', '\''] <:+: cs) :
    read? (writeAs .multiLiteral cs ++ rest) = some (cs, rest) := by
  have hhead : '\n' ∉ cs → ∀ c ∈ (cs ++ '\'' :: '\'' :: '\'' :: rest).head?,
      c ≠ '\n' ∧ c ≠ '\r' := by
    intro hbreak c hc
    cases cs with
    | nil =>
      obtain rfl := Option.some.inj hc
      decide
    | cons d cs =>
      obtain rfl := Option.some.inj hc
      have hne : d ≠ '\n' := fun h => hbreak (h ▸ List.mem_cons_self)
      refine ⟨hne, ?_⟩
      rintro rfl
      exact absurd (hplain _ List.mem_cons_self) (by decide)
  have hskip := skipFirstBreak_openingBreak hhead
  have hread := multiLiteral?_append (Nat.zero_le 2) (fun c hc => (hrest c hc).2) hplain hquotes
  simp only [writeAs, List.append_assoc, List.cons_append, List.nil_append, read?, hskip]
  exact hread

end

/-! ## The form that is chosen -/

theorem isPlain_of_not_needsEscapes {cs : List Char} (h : needsEscapes cs = false) :
    ∀ c ∈ cs, isPlain c = true ∨ c = '\n' := by
  intro c hc
  have hfits := List.any_eq_false.mp h c hc
  by_cases hbreak : c = '\n'
  · exact .inr hbreak
  · left
    simpa [hbreak] using hfits

/-- **A string that is written is read back**, whatever stands behind it but a quote. -/
theorem read?_write (hrest : ∀ c ∈ rest.head?, c ≠ '"' ∧ c ≠ '\'') (cs : List Char) :
    read? (write cs ++ rest) = some (cs, rest) := by
  unfold write formOf
  split_ifs with hbasic hliteral hmultiBasic hmultiLiteral hbreak
  · exact read?_writeAs_basic hrest cs
  · refine read?_writeAs_literal hrest cs fun c hc => ?_
    simp only [fitsLiteral, Bool.not_eq_true', Bool.or_eq_false_iff] at hliteral
    obtain ⟨⟨hplain, hbreak⟩, hquote⟩ := hliteral
    refine ⟨(isPlain_of_not_needsEscapes hplain c hc).resolve_right ?_, ?_⟩
    · rintro rfl
      exact absurd (List.contains_iff_mem.mpr hc) (Bool.eq_false_iff.mp hbreak)
    · rintro rfl
      exact absurd (List.contains_iff_mem.mpr hc) (Bool.eq_false_iff.mp hquote)
  · exact read?_writeAs_multiBasic hrest cs
  · simp only [fitsMultiLiteral, Bool.not_eq_true', Bool.or_eq_false_iff] at hmultiLiteral
    obtain ⟨hplain, htriple⟩ := hmultiLiteral
    refine read?_writeAs_multiLiteral hrest cs (isPlain_of_not_needsEscapes hplain) fun hinfix => ?_
    exact absurd (Text.occursIn_of_isInfix hinfix) (Bool.eq_false_iff.mp htriple)
  · exact read?_writeAs_multiBasic hrest cs
  · exact read?_writeAs_basic hrest cs

end TomlText
end PluginHost
