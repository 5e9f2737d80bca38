import Mathlib.Data.Set.List
import PluginHost.Proofs.Version.Identifiers

/-! # The strict notation of versions

`Version.IsStrict` is the grammar of full versions: three numbers without leading zeros, then
perhaps identifiers of a pre-release behind `-`, then perhaps identifiers of a build behind `+`.
The texts of this grammar are the notations of versions (`Version.isStrict_iff`), and
`Version.ofStrict?` reads a text as the version of which it is the notation
(`Version.ofStrict?_eq_some_iff`): no part holds the sign that stands behind it, so the text is
cut where it was put together. -/
namespace PluginHost
namespace Version

variable {cs : List Char}

/-! ## Parts between signs -/

/-- A text that a sign announces, if there is one. -/
def behind (sign : Char) : Option (List Char) → List Char
  | none => []
  | some cs => sign :: cs

/-- Identifiers that a sign announces, if there are any. -/
def announced (sign : Char) (parts : List (List Char)) : List Char :=
  if parts.isEmpty then [] else sign :: ['.'].intercalate parts

theorem append_cut (sign : Char) (cs : List Char) :
    (cut sign cs).1 ++ behind sign (cut sign cs).2 = cs := by
  unfold cut
  induction cs with
  | nil => rfl
  | cons c cs ih =>
    by_cases hc : c = sign
    · simp [hc, behind]
    · simp only [bne_iff_ne, ne_eq, hc, not_false_eq_true, List.takeWhile_cons_of_pos,
        List.dropWhile_cons_of_pos, List.cons_append]
      exact congrArg (c :: ·) ih

theorem cut_append {sign : Char} {front : List Char} (h : sign ∉ front)
    (back : Option (List Char)) : cut sign (front ++ behind sign back) = (front, back) := by
  have hfront : ∀ c ∈ front, (c != sign) = true := fun c hc =>
    bne_iff_ne.mpr fun heq => h (heq ▸ hc)
  unfold cut
  rw [List.takeWhile_append_of_pos hfront, List.dropWhile_append_of_pos hfront]
  cases back <;> simp [behind]

theorem mapM_eq_some_iff {α : Type} {read : List Char → Option α} {written : α → List Char}
    (hread : ∀ cs a, read cs = some a ↔ written a = cs) {parts : List (List Char)}
    {items : List α} : parts.mapM read = some items ↔ items.map written = parts := by
  induction parts generalizing items with
  | nil => cases items <;> simp
  | cons part parts ih =>
    rw [List.mapM_cons, Option.bind_eq_bind, Option.bind_eq_some_iff]
    constructor
    · rintro ⟨a, ha, h⟩
      obtain ⟨others, hothers, heq⟩ := Option.bind_eq_some_iff.mp h
      rw [← Option.some.inj heq, List.map_cons, (hread part a).mp ha, ih.mp hothers]
    · intro h
      obtain ⟨a, others, rfl, ha, hothers⟩ := List.map_eq_cons_iff.mp h
      refine ⟨a, (hread part a).mpr ha, ?_⟩
      rw [ih.mpr hothers]
      rfl

/-- Identifiers are read when a sign announces their texts. -/
theorem identifiers?_eq_some_iff {α : Type} {read : List Char → Option α}
    {written : α → List Char} (hread : ∀ cs a, read cs = some a ↔ written a = cs)
    (hdot : ∀ a, '.' ∉ written a) (sign : Char) {back : Option (List Char)} {items : List α} :
    identifiers? read back = some items ↔
      behind sign back = announced sign (items.map written) := by
  cases back with
  | none =>
    cases items with
    | nil => simp [identifiers?, behind, announced]
    | cons a items => simp [identifiers?, behind, announced]
  | some cs =>
    rw [identifiers?, mapM_eq_some_iff hread, behind, announced]
    cases items with
    | nil =>
      constructor
      · exact fun h => absurd h.symm (List.splitOn_ne_nil '.' cs)
      · exact fun h => absurd h (List.cons_ne_nil sign cs)
    | cons a items =>
      rw [if_neg (by simp), List.cons_inj_right]
      constructor
      · intro h
        rw [h, List.intercalate_splitOn]
      · rintro rfl
        refine (List.splitOn_intercalate '.' (fun part hpart => ?_) (by simp)).symm
        obtain ⟨b, -, rfl⟩ := List.mem_map.mp hpart
        exact hdot b

theorem dot_not_mem_of_isIdentifier (h : IsIdentifier cs) : '.' ∉ cs :=
  fun hdot => absurd (h.2 '.' hdot) (by decide)

theorem preIdentifiers?_eq_some_iff {back : Option (List Char)} {pre : List PreIdentifier} :
    identifiers? PreIdentifier.of? back = some pre ↔
      behind '-' back = announced '-' (pre.map (·.chars)) :=
  identifiers?_eq_some_iff (fun _ _ => PreIdentifier.of?_eq_some_iff)
    (fun i => dot_not_mem_of_isIdentifier (PreIdentifier.exists_chars_iff.mp ⟨i, rfl⟩).1) '-'

theorem buildIdentifiers?_eq_some_iff {back : Option (List Char)} {build : List BuildIdentifier} :
    identifiers? BuildIdentifier.of? back = some build ↔
      behind '+' back = announced '+' (build.map (·.chars)) :=
  identifiers?_eq_some_iff (fun _ _ => BuildIdentifier.of?_eq_some_iff)
    (fun i => dot_not_mem_of_isIdentifier (BuildIdentifier.exists_chars_iff.mp ⟨i, rfl⟩)) '+'

/-- Every list of identifiers that a sign announces stands behind it. -/
theorem exists_behind (sign : Char) (parts : List (List Char)) :
    ∃ back, behind sign back = announced sign parts := by
  cases parts with
  | nil => exact ⟨none, rfl⟩
  | cons part parts => exact ⟨some _, rfl⟩

/-! ## Full versions -/

/-- Three texts with points between them. -/
def dotted (a b c : List Char) : List Char := a ++ '.' :: b ++ '.' :: c

/-- The grammar of full versions. -/
def IsStrict (cs : List Char) : Prop :=
  ∃ (major minor patch : List Char) (pre build : List (List Char)),
    cs = dotted major minor patch ++ announced '-' pre ++ announced '+' build ∧
    (∀ number ∈ [major, minor, patch], IsNumber number ∧ NoLeadingZeros number) ∧
    (∀ identifier ∈ pre, IsPreIdentifier identifier) ∧
    ∀ identifier ∈ build, IsIdentifier identifier

/-- The notation of a version by its parts. -/
theorem chars_eq (v : Version) :
    v.chars = dotted (digits v.major.toNat) (digits v.minor.toNat) (digits v.patch.toNat) ++
      announced '-' (v.pre.map (·.chars)) ++ announced '+' (v.build.map (·.chars)) := by
  simp [chars, dotted, announced, preChars, buildChars]

theorem splitOn_eq_iff {a b c : List Char} (ha : '.' ∉ a) (hb : '.' ∉ b) (hc : '.' ∉ c) :
    cs.splitOn '.' = [a, b, c] ↔ cs = dotted a b c := by
  have hdotted : ['.'].intercalate [a, b, c] = dotted a b c := by
    simp [List.intercalate, dotted]
  constructor
  · intro h
    rw [eq_of_splitOn h, hdotted]
  · rintro rfl
    rw [← hdotted]
    refine List.splitOn_intercalate '.' ?_ (List.cons_ne_nil _ _)
    simp [ha, hb, hc]

theorem IsNumber.not_mem (h : IsNumber cs) {c : Char} (hc : c.isDigit = false) : c ∉ cs := by
  intro hmem
  rw [h.isDigit c hmem] at hc
  cases hc

theorem mem_intercalate {parts : List (List Char)} {c : Char}
    (h : c ∈ ['.'].intercalate parts) : c = '.' ∨ ∃ part ∈ parts, c ∈ part := by
  induction parts with
  | nil => cases h
  | cons part parts ih =>
    by_cases hparts : parts = []
    · subst hparts
      rw [List.intercalate_singleton] at h
      exact .inr ⟨part, List.mem_cons_self, h⟩
    · rw [List.intercalate_cons_of_ne_nil hparts] at h
      rcases List.mem_append.mp h with h | h
      · rcases List.mem_append.mp h with h | h
        · exact .inr ⟨part, List.mem_cons_self, h⟩
        · exact .inl (List.mem_singleton.mp h)
      · exact (ih h).imp_right fun ⟨other, hother, hc⟩ =>
          ⟨other, List.mem_cons_of_mem part hother, hc⟩

theorem mem_announced {sign : Char} {parts : List (List Char)}
    (h : ∀ part ∈ parts, IsIdentifier part) {c : Char} (hc : c ∈ announced sign parts) :
    c = sign ∨ c = '.' ∨ isIdentifierChar c = true := by
  unfold announced at hc
  split at hc
  · cases hc
  · rcases List.mem_cons.mp hc with heq | hmem
    · exact .inl heq
    · exact .inr ((mem_intercalate hmem).imp_right fun ⟨part, hpart, hc⟩ => (h part hpart).2 c hc)

theorem isIdentifier_of_mem_pre (v : Version) :
    ∀ part ∈ v.pre.map (·.chars), IsIdentifier part := by
  intro part hpart
  obtain ⟨i, -, rfl⟩ := List.mem_map.mp hpart
  exact (PreIdentifier.exists_chars_iff.mp ⟨i, rfl⟩).1

theorem isIdentifier_of_mem_build (v : Version) :
    ∀ part ∈ v.build.map (·.chars), IsIdentifier part := by
  intro part hpart
  obtain ⟨i, -, rfl⟩ := List.mem_map.mp hpart
  exact BuildIdentifier.exists_chars_iff.mp ⟨i, rfl⟩

theorem not_mem_dotted {a b c : List Char} {d : Char} (ha : d ∉ a) (hb : d ∉ b) (hc : d ∉ c)
    (hdot : d ≠ '.') : d ∉ dotted a b c := by
  simp [dotted, ha, hb, hc, hdot]

/-- **What is read strictly is the version that a text is the notation of.** -/
theorem ofStrict?_eq_some_iff {v : Version} : ofStrict? cs = some v ↔ v.chars = cs := by
  have hdigits (m : UInt64) {c : Char} (hc : c.isDigit = false) : c ∉ digits m.toNat :=
    (isNumber_digits m).not_mem hc
  constructor
  · intro h
    unfold ofStrict? at h
    dsimp only at h
    obtain ⟨build, hbuild, h⟩ := Option.bind_eq_some_iff.mp h
    obtain ⟨pre, hpre, h⟩ := Option.bind_eq_some_iff.mp h
    split at h
    · rename_i a b c hsplit
      obtain ⟨major, hmajor, h⟩ := Option.bind_eq_some_iff.mp h
      obtain ⟨minor, hminor, h⟩ := Option.bind_eq_some_iff.mp h
      obtain ⟨patch, hpatch, hversion⟩ := Option.bind_eq_some_iff.mp h
      obtain rfl := strictNumber?_eq_some_iff.mp hmajor
      obtain rfl := strictNumber?_eq_some_iff.mp hminor
      obtain rfl := strictNumber?_eq_some_iff.mp hpatch
      rw [splitOn_eq_iff (hdigits _ rfl) (hdigits _ rfl) (hdigits _ rfl)] at hsplit
      rw [← Option.some.inj hversion, chars_eq, ← hsplit, ← preIdentifiers?_eq_some_iff.mp hpre,
        append_cut, ← buildIdentifiers?_eq_some_iff.mp hbuild, append_cut]
    · cases h
  · rintro rfl
    obtain ⟨buildPart, hbuild⟩ := exists_behind '+' (v.build.map (·.chars))
    obtain ⟨prePart, hpre⟩ := exists_behind '-' (v.pre.map (·.chars))
    have hnumbers {c : Char} (hdigit : c.isDigit = false) (hdot : c ≠ '.') :=
      not_mem_dotted (hdigits v.major hdigit) (hdigits v.minor hdigit) (hdigits v.patch hdigit) hdot
    -- The first `+` is the sign of the build, and the first `-` in front of it that of the
    -- pre-release.
    have hplus : '+' ∉ dotted (digits v.major.toNat) (digits v.minor.toNat)
        (digits v.patch.toNat) ++ behind '-' prePart := by
      rw [hpre, List.mem_append, not_or]
      refine ⟨hnumbers rfl (by decide), fun hmem => ?_⟩
      exact absurd (mem_announced v.isIdentifier_of_mem_pre hmem) (by decide)
    have hread (m : UInt64) : strictNumber? (digits m.toNat) = some m :=
      strictNumber?_eq_some_iff.mpr rfl
    unfold ofStrict?
    rw [chars_eq, ← hbuild, ← hpre, cut_append hplus]
    dsimp only
    rw [cut_append (hnumbers rfl (by decide))]
    dsimp only
    rw [preIdentifiers?_eq_some_iff.mpr hpre, buildIdentifiers?_eq_some_iff.mpr hbuild,
      (splitOn_eq_iff (hdigits _ rfl) (hdigits _ rfl) (hdigits _ rfl)).mpr rfl]
    simp [hread]

theorem exists_map_eq {α : Type} {written : α → List Char} {parts : List (List Char)}
    (h : ∀ part ∈ parts, ∃ a, written a = part) : ∃ items : List α, items.map written = parts := by
  have hrange : parts ∈ Set.range (List.map written) := by
    rw [Set.range_list_map]
    exact h
  exact hrange

/-- **The grammar of full versions** holds the notations of versions and nothing else. -/
theorem isStrict_iff : IsStrict cs ↔ ∃ v : Version, v.chars = cs := by
  constructor
  · rintro ⟨major, minor, patch, pre, build, rfl, hnumbers, hpre, hbuild⟩
    have hnumber : ∀ number ∈ [major, minor, patch], ∃ m : UInt64, digits m.toNat = number := by
      intro number hmem
      obtain ⟨⟨hne, hdigit, hlt⟩, hplain⟩ := hnumbers number hmem
      refine ⟨UInt64.ofNat (Nat.ofDigitChars 10 number 0), ?_⟩
      rw [UInt64.toNat_ofNat', Nat.mod_eq_of_lt hlt]
      exact digits_ofDigitChars hne hdigit hplain
    obtain ⟨m, rfl⟩ := hnumber major (by simp)
    obtain ⟨n, rfl⟩ := hnumber minor (by simp)
    obtain ⟨k, rfl⟩ := hnumber patch (by simp)
    obtain ⟨pre, rfl⟩ := exists_map_eq fun part hpart =>
      PreIdentifier.exists_chars_iff.mpr (hpre part hpart)
    obtain ⟨build, rfl⟩ := exists_map_eq fun part hpart =>
      BuildIdentifier.exists_chars_iff.mpr (hbuild part hpart)
    exact ⟨⟨m, n, k, pre, build⟩, chars_eq _⟩
  · rintro ⟨v, rfl⟩
    refine ⟨_, _, _, _, _, v.chars_eq, ?_, ?_, ?_⟩
    · intro number hmem
      have hdigits (m : UInt64) : IsNumber (digits m.toNat) ∧ NoLeadingZeros (digits m.toNat) :=
        ⟨isNumber_digits m, noLeadingZeros_digits _⟩
      rcases (by simpa using hmem) with rfl | rfl | rfl
      all_goals exact hdigits _
    · intro part hpart
      obtain ⟨i, -, rfl⟩ := List.mem_map.mp hpart
      exact PreIdentifier.exists_chars_iff.mp ⟨i, rfl⟩
    · exact v.isIdentifier_of_mem_build

end Version
end PluginHost
