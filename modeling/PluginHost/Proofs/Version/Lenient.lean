import PluginHost.Config.Options
import PluginHost.Proofs.Text.Trimming
import PluginHost.Proofs.Version.Notation
import PluginHost.Scan

/-! # Which texts are versions

A text is a version when, blanks at its ends aside, it is in the strict notation
(`Version.IsStrict`), or else when it is one to three numbers with points between them
(`Version.IsShort`), which stand for a release.  The two grammars overlap in the triples of
numbers without leading zeros, and there both say the same (`IsShort.isStrict_iff`,
`IsShort.exists_both`).  All other texts are refused with an error that carries the text as
it was given (`Version.IsRefused`).

`Version.reads_lenient_grammar` puts this together. -/
namespace PluginHost
namespace Version

variable {cs : List Char} {parts : List (List Char)} {v w : Version}

/-! ## Short versions -/

/-- One to three numbers with points between them. -/
structure IsShort (cs : List Char) (parts : List (List Char)) : Prop where
  eq_intercalate : cs = ['.'].intercalate parts
  ne_nil : parts ≠ []
  length_le : parts.length ≤ 3
  isNumber : ∀ part ∈ parts, IsNumber part

/-- The number at a place, which is zero where no part stands. -/
def valueAt (parts : List (List Char)) (i : Nat) : Nat :=
  parts[i]?.elim 0 fun part => Nat.ofDigitChars 10 part 0

/-- A release with the numbers of these parts. -/
structure IsReleaseOf (v : Version) (parts : List (List Char)) : Prop where
  major : v.major.toNat = valueAt parts 0
  minor : v.minor.toNat = valueAt parts 1
  patch : v.patch.toNat = valueAt parts 2
  pre : v.pre = []
  build : v.build = []

/-- The parts tell the release. -/
theorem IsReleaseOf.unique (hv : v.IsReleaseOf parts) (hw : w.IsReleaseOf parts) : v = w := by
  obtain ⟨hmajor, hminor, hpatch, hpre, hbuild⟩ := hv
  obtain ⟨hmajor', hminor', hpatch', hpre', hbuild'⟩ := hw
  cases v
  cases w
  simp only [Version.mk.injEq]
  exact ⟨UInt64.toNat_inj.mp (hmajor.trans hmajor'.symm),
    UInt64.toNat_inj.mp (hminor.trans hminor'.symm),
    UInt64.toNat_inj.mp (hpatch.trans hpatch'.symm), hpre.trans hpre'.symm,
    hbuild.trans hbuild'.symm⟩

/-- The parts of a short version are what stands between its points. -/
theorem IsShort.splitOn_eq (h : IsShort cs parts) : cs.splitOn '.' = parts := by
  rw [h.eq_intercalate]
  exact List.splitOn_intercalate '.' (fun part hpart => (h.isNumber part hpart).not_mem rfl)
    h.ne_nil

theorem exists_number (h : IsNumber cs) :
    ∃ m : UInt64, number? cs = some m ∧ m.toNat = Nat.ofDigitChars 10 cs 0 := by
  have hvalue : (UInt64.ofNat (Nat.ofDigitChars 10 cs 0)).toNat = Nat.ofDigitChars 10 cs 0 := by
    rw [UInt64.toNat_ofNat', Nat.mod_eq_of_lt h.lt]
  exact ⟨_, number?_eq_some_iff.mpr ⟨h, hvalue.symm⟩, hvalue⟩

/-- Short versions are read as releases. -/
theorem IsShort.exists_release (h : IsShort cs parts) :
    ∃ v : Version, ofShort? cs = some v ∧ v.IsReleaseOf parts := by
  have hsplit := h.splitOn_eq
  obtain ⟨-, hne, hlength, hnumber⟩ := h
  unfold ofShort?
  rw [hsplit]
  match parts, hne, hlength with
  | [a], _, _ =>
    obtain ⟨m, hm, hvalue⟩ := exists_number (hnumber a (by simp))
    exact ⟨release m 0 0, by simp [hm], hvalue, rfl, rfl, rfl, rfl⟩
  | [a, b], _, _ =>
    obtain ⟨m, hm, hvalue⟩ := exists_number (hnumber a (by simp))
    obtain ⟨n, hn, hvalue'⟩ := exists_number (hnumber b (by simp))
    exact ⟨release m n 0, by simp [hm, hn], hvalue, hvalue', rfl, rfl, rfl⟩
  | [a, b, c], _, _ =>
    obtain ⟨m, hm, hvalue⟩ := exists_number (hnumber a (by simp))
    obtain ⟨n, hn, hvalue'⟩ := exists_number (hnumber b (by simp))
    obtain ⟨k, hk, hvalue''⟩ := exists_number (hnumber c (by simp))
    exact ⟨release m n k, by simp [hm, hn, hk], hvalue, hvalue', hvalue'', rfl, rfl⟩

/-- What is read as a release is a short version. -/
theorem exists_isShort (h : ofShort? cs = some v) : ∃ parts, IsShort cs parts := by
  have hparts {numbers : List UInt64} (hnumbers : (cs.splitOn '.').mapM number? = some numbers)
      (hle : numbers.length ≤ 3) : IsShort cs (cs.splitOn '.') := by
    obtain ⟨hlength, hnumber⟩ := isNumber_of_mapM hnumbers
    exact ⟨eq_of_splitOn rfl, List.splitOn_ne_nil '.' cs, hlength.trans_le hle, hnumber⟩
  unfold ofShort? at h
  split at h
  · rename_i hnumbers
    exact ⟨_, hparts hnumbers (by simp)⟩
  · rename_i hnumbers
    exact ⟨_, hparts hnumbers (by simp)⟩
  · rename_i hnumbers
    exact ⟨_, hparts hnumbers (by simp)⟩
  · cases h

/-- **What is read as a short version is the release of its numbers.** -/
theorem ofShort?_eq_some_iff :
    ofShort? cs = some v ↔ ∃ parts, IsShort cs parts ∧ v.IsReleaseOf parts := by
  constructor
  · intro h
    obtain ⟨parts, hparts⟩ := exists_isShort h
    obtain ⟨w, hw, hrelease⟩ := hparts.exists_release
    obtain rfl := Option.some.inj (h.symm.trans hw)
    exact ⟨parts, hparts, hrelease⟩
  · rintro ⟨parts, hparts, hrelease⟩
    obtain ⟨w, hw, hrelease'⟩ := hparts.exists_release
    rw [hw, hrelease.unique hrelease']

/-! ## Texts in both grammars -/

theorem IsShort.not_mem (h : IsShort cs parts) {c : Char} (hdigit : c.isDigit = false)
    (hdot : c ≠ '.') : c ∉ cs := by
  intro hmem
  rw [h.eq_intercalate] at hmem
  rcases mem_intercalate hmem with heq | ⟨part, hpart, hc⟩
  · exact hdot heq
  · exact (h.isNumber part hpart).not_mem hdigit hc

/-- A version in the notation of a short one is a release of three numbers. -/
theorem IsShort.of_chars (h : IsShort v.chars parts) :
    parts = [digits v.major.toNat, digits v.minor.toNat, digits v.patch.toNat] ∧
      v.pre = [] ∧ v.build = [] := by
  have hsplit := h.splitOn_eq
  have hdash : '-' ∉ v.chars := h.not_mem rfl (by decide)
  have hplus : '+' ∉ v.chars := h.not_mem rfl (by decide)
  have hdigits (m : UInt64) : '.' ∉ digits m.toNat := (isNumber_digits m).not_mem rfl
  have hpre : v.pre = [] := by
    cases hp : v.pre with
    | nil => rfl
    | cons i pre => simp [chars_eq, hp, announced] at hdash
  have hbuild : v.build = [] := by
    cases hb : v.build with
    | nil => rfl
    | cons i build => simp [chars_eq, hb, announced] at hplus
  have hchars : v.chars =
      dotted (digits v.major.toNat) (digits v.minor.toNat) (digits v.patch.toNat) := by
    simp [chars_eq, hpre, hbuild, announced]
  rw [(splitOn_eq_iff (hdigits _) (hdigits _) (hdigits _)).mpr hchars] at hsplit
  exact ⟨hsplit.symm, hpre, hbuild⟩

/-- A short version is in the strict notation when it is three numbers without leading zeros. -/
theorem IsShort.isStrict_iff (h : IsShort cs parts) :
    IsStrict cs ↔ parts.length = 3 ∧ ∀ part ∈ parts, NoLeadingZeros part := by
  constructor
  · intro hstrict
    obtain ⟨v, rfl⟩ := Version.isStrict_iff.mp hstrict
    obtain ⟨rfl, -, -⟩ := h.of_chars
    refine ⟨rfl, fun part hpart => ?_⟩
    rcases (by simpa using hpart) with rfl | rfl | rfl
    all_goals exact noLeadingZeros_digits _
  · rintro ⟨hlength, hplain⟩
    obtain ⟨a, b, c, rfl⟩ := List.length_eq_three.mp hlength
    refine ⟨a, b, c, [], [], ?_, fun part hpart => ⟨h.isNumber part hpart, hplain part hpart⟩,
      by simp, by simp⟩
    rw [h.eq_intercalate]
    simp [List.intercalate, dotted, announced]

/-- A version in the notation of a short one is the release of its numbers. -/
theorem IsShort.isReleaseOf_of_chars (h : IsShort v.chars parts) : v.IsReleaseOf parts := by
  obtain ⟨rfl, hpre, hbuild⟩ := h.of_chars
  refine ⟨?_, ?_, ?_, hpre, hbuild⟩
  all_goals exact Nat.ofDigitChars_ten_toDigits.symm

/-- **A text in both grammars is read as the same version** by either route. -/
theorem IsShort.exists_both (h : IsShort cs parts) (hstrict : IsStrict cs) :
    ∃ v, ofStrict? cs = some v ∧ ofShort? cs = some v := by
  obtain ⟨v, rfl⟩ := Version.isStrict_iff.mp hstrict
  exact ⟨v, ofStrict?_eq_some_iff.mpr rfl,
    ofShort?_eq_some_iff.mpr ⟨parts, h, h.isReleaseOf_of_chars⟩⟩

/-! ## Blanks -/

theorem isBlank_of_isIdentifierChar {c : Char} (h : isIdentifierChar c = true) :
    Text.isBlank c = false := by
  rcases Bool.or_eq_true_iff.mp h with h | h
  · exact Text.isBlank_of_isAlphanum h
  · rw [beq_iff_eq.mp h]
    decide

/-- The notation of a version has no blanks. -/
theorem isBlank_of_mem_chars {c : Char} (h : c ∈ v.chars) : Text.isBlank c = false := by
  have hdigits {m : UInt64} (hc : c ∈ digits m.toNat) : isIdentifierChar c = true :=
    isIdentifierChar_of_isDigit (isDigit_of_mem_digits hc)
  have hkind : isIdentifierChar c = true ∨ c = '.' ∨ c = '+' := by
    rw [chars_eq, List.mem_append, List.mem_append] at h
    rcases h with (h | h) | h
    · simp only [dotted, List.mem_append, List.mem_cons] at h
      rcases h with (h | rfl | h) | rfl | h
      · exact .inl (hdigits h)
      · exact .inr (.inl rfl)
      · exact .inl (hdigits h)
      · exact .inr (.inl rfl)
      · exact .inl (hdigits h)
    · rcases mem_announced v.isIdentifier_of_mem_pre h with rfl | rfl | hc
      · exact .inl rfl
      · exact .inr (.inl rfl)
      · exact .inl hc
    · rcases mem_announced v.isIdentifier_of_mem_build h with rfl | rfl | hc
      · exact .inr (.inr rfl)
      · exact .inr (.inl rfl)
      · exact .inl hc
  rcases hkind with hc | rfl | rfl
  · exact isBlank_of_isIdentifierChar hc
  · decide
  · decide

theorem trim_chars (v : Version) : Text.trim v.chars = v.chars :=
  Text.trim_eq_self_iff.mpr ⟨fun _ h => isBlank_of_mem_chars (List.mem_of_mem_head? h),
    fun _ h => isBlank_of_mem_chars (List.mem_of_mem_getLast? h)⟩

/-! ## Comparing releases -/

/-- The order of the numbers that parts stand for, the first number first. -/
def cmpValues (parts parts' : List (List Char)) : Ordering :=
  (compare (valueAt parts 0) (valueAt parts' 0)).then <|
  (compare (valueAt parts 1) (valueAt parts' 1)).then <|
  compare (valueAt parts 2) (valueAt parts' 2)

theorem compare_eq_compare_toNat (m n : UInt64) : compare m n = compare m.toNat n.toNat := by
  change compareOfLessAndEq m n = compareOfLessAndEq m.toNat n.toNat
  simp only [compareOfLessAndEq, UInt64.lt_iff_toNat_lt, UInt64.toNat_inj]

/-- Releases are in the order of their numbers. -/
theorem IsReleaseOf.cmp_eq {parts' : List (List Char)} (hv : v.IsReleaseOf parts)
    (hw : w.IsReleaseOf parts') : v.cmp w = cmpValues parts parts' := by
  obtain ⟨hmajor, hminor, hpatch, hpre, hbuild⟩ := hv
  obtain ⟨hmajor', hminor', hpatch', hpre', hbuild'⟩ := hw
  have hrest : (preCmp v.pre w.pre).then
      (List.compareLex BuildIdentifier.cmp v.build w.build) = .eq := by
    rw [hpre, hpre', hbuild, hbuild']
    rfl
  rw [cmp, hrest, Ordering.then_eq, compare_eq_compare_toNat, compare_eq_compare_toNat,
    compare_eq_compare_toNat, hmajor, hminor, hpatch, hmajor', hminor', hpatch', cmpValues]

/-! ## Reading with both grammars -/

variable {s : String}

/-- The strict notation goes before the short one. -/
theorem ofText?_eq_some_iff : ofText? s = some v ↔
    v.chars = Text.trim s.toList ∨ ¬IsStrict (Text.trim s.toList) ∧
      ∃ parts, IsShort (Text.trim s.toList) parts ∧ v.IsReleaseOf parts := by
  unfold ofText?
  dsimp only
  cases hstrict : ofStrict? (Text.trim s.toList) with
  | some w =>
    have hw := ofStrict?_eq_some_iff.mp hstrict
    have hnot : ¬¬IsStrict (Text.trim s.toList) := fun h => h (isStrict_iff.mpr ⟨w, hw⟩)
    change some w = some v ↔ _
    rw [or_iff_left fun h => hnot h.1, ← hstrict, ofStrict?_eq_some_iff]
  | none =>
    have hnone (v : Version) : v.chars ≠ Text.trim s.toList := fun h => by
      rw [ofStrict?_eq_some_iff.mpr h] at hstrict
      cases hstrict
    have hnot : ¬IsStrict (Text.trim s.toList) := fun h => by
      obtain ⟨w, hw⟩ := isStrict_iff.mp h
      exact hnone w hw
    change ofShort? (Text.trim s.toList) = some v ↔ _
    rw [or_iff_right (hnone v), and_iff_right hnot, ofShort?_eq_some_iff]

/-- A short version is read as the release of its numbers, also if it is in both grammars. -/
theorem IsShort.exists_ofText? (h : IsShort (Text.trim s.toList) parts) :
    ∃ v, ofText? s = some v ∧ v.IsReleaseOf parts := by
  by_cases hstrict : IsStrict (Text.trim s.toList)
  · obtain ⟨v, hv⟩ := Version.isStrict_iff.mp hstrict
    rw [← hv] at h
    exact ⟨v, ofText?_eq_some_iff.mpr (.inl hv), h.isReleaseOf_of_chars⟩
  · obtain ⟨v, -, hv⟩ := h.exists_release
    exact ⟨v, ofText?_eq_some_iff.mpr (.inr ⟨hstrict, parts, h, hv⟩), hv⟩

theorem ofText?_eq_none_iff : ofText? s = none ↔
    ¬IsStrict (Text.trim s.toList) ∧ ∀ parts, ¬IsShort (Text.trim s.toList) parts := by
  constructor
  · intro h
    have hnone (v : Version) : ofText? s ≠ some v := fun hv => by
      rw [h] at hv
      cases hv
    have hstrict : ¬IsStrict (Text.trim s.toList) := fun hstrict => by
      obtain ⟨v, hv⟩ := isStrict_iff.mp hstrict
      exact hnone v (ofText?_eq_some_iff.mpr (.inl hv))
    refine ⟨hstrict, fun parts hparts => ?_⟩
    obtain ⟨v, hv, -⟩ := hparts.exists_ofText?
    exact hnone v hv
  · rintro ⟨hstrict, hshort⟩
    cases h : ofText? s with
    | none => rfl
    | some v =>
      rcases ofText?_eq_some_iff.mp h with hv | ⟨-, parts, hparts, -⟩
      · exact absurd (isStrict_iff.mpr ⟨v, hv⟩) hstrict
      · exact absurd hparts (hshort parts)

/-- A text that is no version, whoever reads it: the error carries the text as it was given. -/
structure IsRefused (s : String) : Prop where
  setting : ∀ runtime, (HostConfig.mk runtime (some s)).release = .error (.invalidVersion s)
  description : ∀ path (m : Metadata) wild, m.identity ≠ "" → m.version = s →
    Candidate.of path m wild = .error (.moduleRead path (.version s))
  demand : ∀ host, isNewEnough host (some s) = .error s

/-- What is not read is refused. -/
theorem isRefused_iff : IsRefused s ↔ ofText? s = none := by
  constructor
  · intro h
    have hsetting := h.setting ""
    unfold HostConfig.release at hsetting
    cases hread : ofText? s with
    | none => rfl
    | some v =>
      dsimp only at hsetting
      rw [hread] at hsetting
      cases hsetting
  · intro h
    refine ⟨fun runtime => ?_, fun path m wild hname hversion => ?_, fun host => ?_⟩
    · rw [HostConfig.release]
      dsimp only
      rw [h]
    · subst hversion
      unfold Candidate.of
      rw [dif_neg hname]
      split
      · rfl
      · rename_i hsome
        rw [h] at hsome
        cases hsome
    · rw [isNewEnough, h]

/-- **Versions are read by a lenient grammar, and by nothing else.**  A text in the strict
notation, blanks at its ends aside, is the version it is the notation of.  Another text is a
release if it is one to three numbers with points between them, and is refused if not, with an
error that carries it as it was given.  The strict texts are the notations of versions.  A text
in both grammars is three numbers without leading zeros, and either route reads it as the same
version.  A version is read back from its notation, and short versions compare like the triples
of their numbers. -/
theorem reads_lenient_grammar :
    (∀ s v, ofText? s = some v ↔
      v.chars = Text.trim s.toList ∨ ¬IsStrict (Text.trim s.toList) ∧
        ∃ parts, IsShort (Text.trim s.toList) parts ∧ v.IsReleaseOf parts) ∧
    (∀ s, IsRefused s ↔
      ¬IsStrict (Text.trim s.toList) ∧ ∀ parts, ¬IsShort (Text.trim s.toList) parts) ∧
    (∀ cs, IsStrict cs ↔ ∃ v : Version, v.chars = cs) ∧
    (∀ cs parts, IsShort cs parts →
      (IsStrict cs ↔ parts.length = 3 ∧ ∀ part ∈ parts, NoLeadingZeros part) ∧
      (IsStrict cs → ∃ v, ofStrict? cs = some v ∧ ofShort? cs = some v)) ∧
    (∀ v : Version, ofText? v.text = some v) ∧
    ∀ s s' parts parts', IsShort (Text.trim s.toList) parts → IsShort (Text.trim s'.toList) parts' →
      ∃ v v', ofText? s = some v ∧ ofText? s' = some v' ∧ v.cmp v' = cmpValues parts parts' := by
  refine ⟨fun _ _ => ofText?_eq_some_iff, fun s => ?refused, fun _ => isStrict_iff,
    fun cs parts h => ⟨h.isStrict_iff, h.exists_both⟩, fun v => ?back, ?compare⟩
  case refused => rw [isRefused_iff, ofText?_eq_none_iff]
  case back =>
    refine ofText?_eq_some_iff.mpr (.inl ?_)
    rw [text, String.toList_ofList, trim_chars]
  case compare =>
    intro s s' parts parts' h h'
    obtain ⟨v, hread, hv⟩ := h.exists_ofText?
    obtain ⟨v', hread', hv'⟩ := h'.exists_ofText?
    exact ⟨v, v', hread, hread', hv.cmp_eq hv'⟩

/-- A short version with blanks and leading zeros is below a triple that is in both grammars, and
four numbers are refused. -/
theorem reads_lenient_grammar_of_padded :
    (∃ v v', ofText? " 01.9 " = some v ∧ ofText? "1.10.0" = some v' ∧ v.cmp v' = .lt) ∧
      (∃ v, ofStrict? "1.10.0".toList = some v ∧ ofShort? "1.10.0".toList = some v) ∧
      IsRefused "1.2.3.4" := by
  have hnumber (part : List Char) (h : (number? part).isSome = true) : IsNumber part := by
    obtain ⟨m, hm⟩ := Option.isSome_iff_exists.mp h
    exact isNumber_of_number? hm
  have hpadded : IsShort (Text.trim " 01.9 ".toList) [['0', '1'], ['9']] :=
    ⟨by decide +kernel, by decide, by decide, fun part hpart => hnumber part (by
      revert part
      decide)⟩
  have htriple : IsShort "1.10.0".toList [['1'], ['1', '0'], ['0']] :=
    ⟨by decide +kernel, by decide, by decide, fun part hpart => hnumber part (by
      revert part
      decide)⟩
  have htrim : Text.trim "1.10.0".toList = "1.10.0".toList := by decide +kernel
  have hplain : ∀ part ∈ [['1'], ['1', '0'], ['0']], NoLeadingZeros part := by
    intro part hpart
    rw [← isPlain_iff]
    revert part
    decide
  obtain ⟨-, hrefused, -, hboth, -, hcompare⟩ := reads_lenient_grammar
  obtain ⟨hstrict, hagree⟩ := hboth _ _ htriple
  obtain ⟨v, v', hv, hv', hcmp⟩ := hcompare " 01.9 " "1.10.0" _ _ hpadded (htrim ▸ htriple)
  refine ⟨⟨v, v', hv, hv', ?_⟩, hagree (hstrict.mpr ⟨rfl, hplain⟩), ?_⟩
  · rw [hcmp]
    decide
  · rw [hrefused, ← ofText?_eq_none_iff]
    decide +kernel

end Version
end PluginHost
