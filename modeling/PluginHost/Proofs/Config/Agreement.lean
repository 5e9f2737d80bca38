import PluginHost.Proofs.Config.Layering
import PluginHost.Proofs.Config.Notation
import PluginHost.Proofs.Config.Validity
import PluginHost.Proofs.Version.Spelling

/-! # Variables instead of files

A setting that a file sets to a text can be given by its variable instead.  The result is the
same just when the text has no notation of its own, because variables are read as values and
the strings of a file are not (`Config.variables_agree_with_files`).  So every runtime can be
given by a variable, but a level only by its name, and a version only with two points at
least. -/
namespace PluginHost

open ConfigVariable (HasNotation IsNumeral valueOf)

/-! ## What the texts of settings look like -/

/-- A name that cannot be taken for anything else: it is no word for a truth value, not all of
its characters are those of numbers, and it begins with no mark. -/
def IsPlainName (name : List Char) : Prop :=
  name ≠ ['t', 'r', 'u', 'e'] ∧ name ≠ ['f', 'a', 'l', 's', 'e'] ∧
    name.all ConfigVariable.isNumeralChar = false ∧
    name.head?.all (fun c => c != '\'' && c != '"' && c != '[' && c != '\x7b') = true

instance (name : List Char) : Decidable (IsPlainName name) := instDecidableAnd

theorem toLower_of_isDigit {c : Char} (h : c.isDigit = true) : c.toLower = c := by
  simp only [Char.isDigit, Bool.and_eq_true, decide_eq_true_eq] at h
  unfold Char.toLower
  rw [dif_neg]
  rintro ⟨hlow, -⟩
  exact absurd (UInt32.le_trans hlow h.2) (by decide)

theorem isNumeralChar_toLower {c : Char} (h : ConfigVariable.isNumeralChar c = true) :
    ConfigVariable.isNumeralChar c.toLower = true := by
  have hchar := h
  simp only [ConfigVariable.isNumeralChar, Bool.or_eq_true, beq_iff_eq] at h
  rcases h with ((((hdigit | rfl) | rfl) | rfl) | rfl) | rfl
  · rw [toLower_of_isDigit hdigit]
    exact hchar
  all_goals decide

/-- A name in any case has no notation. -/
theorem IsPlainName.not_hasNotation {cs : List Char} (h : IsPlainName (cs.map Char.toLower)) :
    ¬HasNotation cs := by
  obtain ⟨hyes, hno, hletter, hhead⟩ := h
  intro hwritten
  cases hwritten with
  | yes => exact hyes rfl
  | no => exact hno rfl
  | number hnumber =>
    have hall : (cs.map Char.toLower).all ConfigVariable.isNumeralChar = true := by
      rw [List.all_map, List.all_eq_true]
      exact fun c hc => isNumeralChar_toLower (hnumber.isNumeralChar c hc)
    rw [hall] at hletter
    cases hletter
  | character | quoted | list | table => cases hhead

/-- The name of a runtime has no notation. -/
theorem RuntimeFamily.not_hasNotation {text : String} {family : RuntimeFamily}
    (h : ofText? text = some family) : ¬HasNotation text.toList := by
  have hname := List.find?_some h
  have hlower := eq_of_beq hname
  refine IsPlainName.not_hasNotation ?_
  rw [← hlower]
  cases family <;> decide +kernel

/-- Behind the plus that may stand in front, a number that is not negative begins. -/
theorem LogLevel.sign_of_digits {cs digits : List Char}
    (hcs : cs = '+' :: digits ∨ cs = digits) (hne : digits ≠ [])
    (hdigits : ∀ c ∈ digits, c.isDigit = true) : Numeral.sign cs = (false, digits) := by
  rcases hcs with rfl | rfl
  · rfl
  · obtain ⟨c, others, rfl⟩ := List.exists_cons_of_ne_nil hne
    exact Numeral.sign_of_isDigit (hdigits c List.mem_cons_self) others

/-- The number of a level is written with digits, and perhaps a plus in front. -/
theorem LogLevel.exists_sign_of_number? {cs : List Char} {n : Nat} (h : number? cs = some n) :
    ∃ digits, Numeral.sign cs = (false, digits) ∧ digits ≠ [] ∧
      (∀ c ∈ digits, c.isDigit = true) ∧ n = Nat.ofDigitChars 10 digits 0 := by
  have hparts (digits : List Char) (hcs : cs = '+' :: digits ∨ cs = digits)
      (h : (if !digits.isEmpty && digits.all Char.isDigit then
        some (Nat.ofDigitChars 10 digits 0) else none) = some n) :
      ∃ digits, Numeral.sign cs = (false, digits) ∧ digits ≠ [] ∧
        (∀ c ∈ digits, c.isDigit = true) ∧ n = Nat.ofDigitChars 10 digits 0 := by
    simp only [Option.ite_none_right_eq_some, Bool.and_eq_true, Bool.not_eq_true',
      List.isEmpty_eq_false_iff, List.all_eq_true, Option.some.injEq] at h
    obtain ⟨⟨hne, hdigits⟩, hvalue⟩ := h
    exact ⟨digits, sign_of_digits hcs hne hdigits, hne, hdigits, hvalue.symm⟩
  unfold number? at h
  split at h
  · exact hparts _ (.inl rfl) h
  · exact hparts _ (.inr rfl) h

/-- A level of the log has a notation when it is a number. -/
theorem LogLevel.hasNotation_iff {text : String} {level : LogLevel}
    (h : ofText? text = some level) :
    HasNotation text.toList ↔ (number? text.toList).isSome = true := by
  unfold ofText? at h
  cases hnumber : number? text.toList with
  | none =>
    rw [hnumber] at h
    have hname := List.find?_some h
    have hlower := eq_of_beq hname
    have hplain : IsPlainName (text.toList.map Char.toLower) := by
      rw [← hlower]
      cases level <;> decide +kernel
    exact iff_of_false hplain.not_hasNotation (by simp)
  | some n =>
    rw [hnumber] at h
    refine iff_of_true (.number ?_) rfl
    cases n with
    | zero => cases h
    | succ n =>
      have hlevel : n < all.length := (List.getElem?_eq_some_iff.mp h).1
      have hsize : n + 1 < Nat.pow 2 64 := Nat.lt_of_le_of_lt hlevel (by decide)
      obtain ⟨digits, hsign, hne, hdigits, hvalue⟩ := exists_sign_of_number? hnumber
      exact ConfigVariable.isNumeral_of_sign hsign hne hdigits (hvalue ▸ hsize)

/-- A version begins with a digit, and is a number when it has less than two points. -/
theorem Version.isNumeral_iff {text : String} {version : Version}
    (h : ofText? text = some version) :
    ∃ d ds, Text.trim text.toList = d :: ds ∧ d.isDigit = true ∧
      (IsNumeral (d :: ds) ↔ (d :: ds).count '.' < 2) := by
  have hhead {a : List Char} (ha : IsNumber a) (back : List Char) :
      ∃ d ds, a ++ back = d :: ds ∧ d.isDigit = true := by
    obtain ⟨d, ds, rfl⟩ := List.exists_cons_of_ne_nil ha.ne_nil
    exact ⟨d, ds ++ back, rfl, ha.isDigit d List.mem_cons_self⟩
  rcases exists_parts_of_ofText? h with hnumber | ⟨a, b, heq, ha, hb⟩ | ⟨a, back, heq, ha, hback⟩
  · obtain ⟨d, ds, heq⟩ := List.exists_cons_of_ne_nil hnumber.ne_nil
    rw [heq] at hnumber
    refine ⟨d, ds, heq, hnumber.isDigit d List.mem_cons_self, ?_⟩
    refine iff_of_true
      (ConfigVariable.isNumeral_of_digits hnumber.ne_nil hnumber.isDigit hnumber.lt) ?_
    rw [ConfigVariable.count_dot_of_digits hnumber.isDigit]
    decide
  · obtain ⟨d, ds, hcons, hd⟩ := hhead ha ('.' :: b)
    refine ⟨d, ds, heq.trans hcons, hd, ?_⟩
    rw [← hcons]
    refine iff_of_true (ConfigVariable.isNumeral_of_point ha.ne_nil ha.isDigit hb.isDigit) ?_
    rw [List.count_append, List.count_cons_self, ConfigVariable.count_dot_of_digits ha.isDigit,
      ConfigVariable.count_dot_of_digits hb.isDigit]
    decide
  · obtain ⟨d, ds, hcons, hd⟩ := hhead ha back
    refine ⟨d, ds, heq.trans hcons, hd, ?_⟩
    rw [← hcons]
    have hcount : 2 ≤ (a ++ back).count '.' := by
      rw [List.count_append]
      omega
    exact iff_of_false (fun h => absurd h.count_dot_le (by omega)) (by omega)

/-- A text that begins with a digit has a notation just when it is a number. -/
theorem ConfigVariable.hasNotation_iff_of_isDigit {d : Char} {ds : List Char}
    (hd : d.isDigit = true) : HasNotation (d :: ds) ↔ IsNumeral (d :: ds) := by
  refine ⟨fun h => ?_, .number⟩
  cases h with
  | number h => exact h
  | yes | no | character | quoted | list | table => exact absurd hd (by decide)

/-- A version without blanks has a notation when it has less than two points. -/
theorem Version.hasNotation_iff {text : String} {version : Version}
    (h : ofText? text = some version) (htrim : Text.trim text.toList = text.toList) :
    HasNotation text.toList ↔ text.toList.count '.' < 2 := by
  obtain ⟨d, ds, heq, hd, hnumeral⟩ := isNumeral_iff h
  rw [← htrim, heq, ConfigVariable.hasNotation_iff_of_isDigit hd, hnumeral]

/-- Blanks around a version do not matter. -/
theorem Version.ofText?_congr {text other : String}
    (h : Text.trim text.toList = Text.trim other.toList) : ofText? text = ofText? other := by
  rw [ofText?, ofText?, h]

/-- There is no point among blanks. -/
theorem Text.count_dot_trim (cs : List Char) : (Text.trim cs).count '.' = cs.count '.' := by
  obtain ⟨front, back, heq, hfront, hback⟩ := Text.exists_trim cs
  have hnone {blanks : List Char} (hblanks : ∀ c ∈ blanks, Text.isBlank c = true) :
      blanks.count '.' = 0 :=
    List.count_eq_zero.mpr fun hmem => absurd (hblanks '.' hmem) (by decide)
  conv => rhs; rw [heq]
  rw [List.count_append, List.count_append, hnone hfront, hnone hback]
  omega

/-- What a variable makes of a version: another spelling of it, or no text if it has less
than two points. -/
theorem Version.exists_valueOf_iff {text : String} {version : Version}
    (h : ofText? text = some version) :
    (∃ w, valueOf text = .string w ∧ ofText? w = some version) ↔ 2 ≤ text.toList.count '.' := by
  obtain ⟨d, ds, heq, hd, hnumeral⟩ := isNumeral_iff h
  obtain ⟨hnumber, htext⟩ := ConfigVariable.valueOf_of_digit heq hd
  rw [← Text.count_dot_trim, heq]
  constructor
  · rintro ⟨w, hw, -⟩
    exact Nat.le_of_not_lt fun hlt => hnumber (hnumeral.mpr hlt) w hw
  · intro hle
    obtain ⟨w, hw, htrim⟩ := htext (mt hnumeral.mp (Nat.not_lt.mpr hle))
    exact ⟨w, hw, (ofText?_congr (htrim.trans heq.symm)).trans h⟩

/-- The family of a host is that of its runtime. -/
theorem HostConfig.family_congr {h other : HostConfig} (heq : h.runtime = other.runtime) :
    h.family = other.family := by
  rw [family, family, heq]

/-- The version of a host is that of its text. -/
theorem HostConfig.release_eq_some_iff {h : HostConfig} {version : Version} :
    h.release = .ok (some version) ↔
      ∃ text, h.version = some text ∧ Version.ofText? text = some version := by
  unfold HostConfig.release
  cases h.version with
  | none => simp
  | some text => cases hversion : Version.ofText? text <;> simp [hversion]

/-! ## Reading with one more variable -/

namespace ConfigLayer.Determine

variable {layers : List ConfigLayer} {get : Setting → Option String} {c : Config}
variable {before after : Environment} {s : Setting} {v : String}

/-- What is read from layers is what they determine, over the defaults. -/
theorem get?_eq (h : Determine layers get) {sources : List ConfigSource}
    (hread : Config.readLayers sources layers = .ok c) (other : Setting) :
    c.get? other = (get other).or (({} : Config).get? other) := by
  obtain ⟨c', hc', hget⟩ := h.readLayers sources
  obtain rfl := Except.ok.inj (hc'.symm.trans hread)
  exact hget other

/-- Layers with one more variable above are read just when the variable is a text, which is
that of its setting then. -/
theorem readLayers_adds_iff (h : Determine layers get) (hadds : before.Adds s v after)
    (sources : List ConfigSource) :
    Config.readLayers sources (layers ++ [.ok (.ofEnvironment after)]) = .ok c ↔
      ∃ w, valueOf v = .string w ∧ ∀ other, c.get? other =
        if other = s then some w
        else ((before.text? other).or (get other)).or (({} : Config).get? other) := by
  have hexpected {w : String} (hw : valueOf v = .string w) (other : Setting) :
      ((after.text? other).or (get other)).or (({} : Config).get? other) =
        if other = s then some w
        else ((before.text? other).or (get other)).or (({} : Config).get? other) := by
    rw [(hadds.setsTexts hw).2 other]
    split <;> rfl
  constructor
  · intro hread
    have htext : ∃ w, valueOf v = .string w := by
      obtain ⟨tables, rfl, htables, -⟩ := h
      have hbelow := (Config.text?_foldl_onto htables Config.followsSchema_defaultTable).1
      have hlaid : Config.readLayers sources
          ((tables ++ [ConfigTable.ofEnvironment after]).map .ok) = .ok c := by
        rw [List.map_append]
        exact hread
      rw [Config.readLayers_eq_ok_iff, List.foldl_append] at hlaid
      exact hadds.exists_eq_string
        ((Config.ofTable_onto_eq_ok_iff hadds.valueAt?_ofEnvironment.1 hbelow).mp hlaid).1
    obtain ⟨w, hw⟩ := htext
    refine ⟨w, hw, fun other => ?_⟩
    rw [(h.append (hadds.setsTexts hw).1.determine).get?_eq hread other, hexpected hw]
  · rintro ⟨w, hw, hget⟩
    obtain ⟨c', hread, hget'⟩ :=
      (h.append (hadds.setsTexts hw).1.determine).readLayers sources
    have hsame : c' = c := Config.ext_get? fun other => by rw [hget', hget, hexpected hw]
    exact hsame ▸ hread

end ConfigLayer.Determine

/-! ## Files and variables -/

namespace Config

variable {before after environment : Environment} {s : Setting} {v : String}
variable {fs fs' : FileSystem} {below : Setting → Option String} {t t' : TomlTable}
variable {loaded loaded' : Except (List ConfigError) Config} {c : Config}

/-- What is loaded where a file sets what `t` says: from this file and the variables alone, or
from all layers, of which those below the file set what `below` says. -/
inductive Loads (fs : FileSystem) (environment : Environment) : (Setting → Option String) →
    TomlTable → Except (List ConfigError) Config → Prop where
  | file {file : Path} {t : TomlTable} : fs.Sets file t → t.FollowsSchema →
    Loads fs environment (fun _ => none) t (ofFile fs environment file)
  | layers {system user here : TomlTable} : fs.OffersLayers environment system user here →
    system.FollowsSchema → user.FollowsSchema → here.FollowsSchema →
    Loads fs environment (fun s => (user.text? s).or (system.text? s)) here (load fs environment)

/-- What is loaded is read from the layers of files and that of the variables, and checked. -/
theorem Loads.exists_layers (h : Loads fs environment below t loaded) :
    ∃ sources layers, ConfigLayer.Determine layers (fun s => (t.text? s).or (below s)) ∧
      loaded = readLayers sources (layers ++ [.ok (.ofEnvironment environment)]) >>= checked := by
  cases h with
  | @file file _ hsets ht =>
    have hlayer := ConfigLayer.Determine.nil.append (hsets.determine ht)
    exact ⟨sources fs [file], [.ofFile fs file], hlayer, rfl⟩
  | layers hlayers hsystem huser hhere =>
    have hfiles := ((hlayers.ofSystem.determine hsystem).append
      (hlayers.determine_user huser)).append (hlayers.ofHere.determine hhere)
    refine ⟨sources fs ((Path.ofLocation fs.workingDirectory).join localFile ::
      (userFile? environment).toList ++ [systemFile]), _, hfiles, ?_⟩
    rw [load, readAll]
    simp only [List.map_append, List.map_cons, List.map_nil, List.cons_append, List.nil_append]

/-- A valid text of a setting has a notation only if it is a version with less than two points,
the number of a level, a pattern or a directory. -/
theorem hasNotation_of_valid (hvalid : c.violations = []) (hget : c.get? s = some v)
    (htrim : Text.trimmed v = v) :
    (s = .runtime → ¬HasNotation v.toList) ∧
    (s = .version → (HasNotation v.toList ↔ v.toList.count '.' < 2)) ∧
    (s = .level → (HasNotation v.toList ↔ (LogLevel.number? v.toList).isSome = true)) := by
  obtain ⟨hsetsUp, hsensible⟩ := violations_eq_nil_iff.mp hvalid
  obtain ⟨⟨host, hfamily⟩, ⟨release, hrelease⟩, -, -⟩ := setsUp_iff.mp hsetsUp
  refine ⟨?_, ?_, ?_⟩
  · rintro rfl
    obtain rfl : c.host.runtime = v := Option.some.inj hget
    rw [HostConfig.family, htrim] at hfamily
    cases hname : RuntimeFamily.ofText? c.host.runtime with
    | none =>
      rw [hname] at hfamily
      cases hfamily
    | some family => exact RuntimeFamily.not_hasNotation hname
  · rintro rfl
    have hgiven : c.host.version = some v := hget
    rw [HostConfig.release, hgiven] at hrelease
    dsimp only at hrelease
    cases hversion : Version.ofText? v with
    | none =>
      rw [hversion] at hrelease
      cases hrelease
    | some version =>
      exact Version.hasNotation_iff hversion (by rw [← Text.toList_trimmed, htrim])
  · rintro rfl
    obtain rfl : c.log.level = v := Option.some.inj hget
    have hlevel := hsensible.level
    rw [htrim] at hlevel
    obtain ⟨level, hlevel⟩ := Option.isSome_iff_exists.mp hlevel
    exact LogLevel.hasNotation_iff hlevel

/-- A configuration with this text for the version. -/
def withVersion (c : Config) (text : String) : Config :=
  { c with host := { c.host with version := some text } }

theorem runtime_withVersion (c : Config) (text : String) :
    (c.withVersion text).host.runtime = c.host.runtime := rfl

theorem get?_withVersion (c : Config) (text : String) (other : Setting) :
    (c.withVersion text).get? other = if other = .version then some text else c.get? other := by
  cases other <;> rfl

/-- One version can stand for another. -/
theorem violations_withVersion (hvalid : c.violations = []) {text : String} {version : Version}
    (hversion : Version.ofText? text = some version) : (c.withVersion text).violations = [] := by
  obtain ⟨hsetsUp, hsensible⟩ := violations_eq_nil_iff.mp hvalid
  obtain ⟨hruntime, -, hpatterns⟩ := setsUp_iff.mp hsetsUp
  have hrelease : (c.withVersion text).host.release = .ok (some version) :=
    HostConfig.release_eq_some_iff.mpr ⟨text, rfl, hversion⟩
  have hsetsUp' : (c.withVersion text).SetsUp := by
    rw [setsUp_iff, HostConfig.family_congr (runtime_withVersion c text)]
    exact ⟨hruntime, ⟨_, hrelease⟩, hpatterns⟩
  exact violations_eq_nil_iff.mpr ⟨hsetsUp', hsensible.manifestPattern, hsensible.modulePattern,
    hsensible.start, hsensible.level⟩

/-- **A variable does what a file does just when its text has no notation.**  Let a setting be
given by a variable, where it was not before, while the files set the others to what they did
before.  If a file set it to the same text, without blanks at the ends, and this was loaded,
then the same is loaded now just when the text has no notation of its own.  No runtime has one;
a version has one when it has less than two points, and a level when it is a number.  A version
with blanks or without is loaded from a variable when it has two points at least. -/
theorem variables_agree_with_files (hadds : before.Adds s v after)
    (hfile : Loads fs before below t loaded) (hvariable : Loads fs' after below t' loaded')
    (hothers : ∀ other, other ≠ s → t'.text? other = t.text? other) (hloaded : loaded = .ok c) :
    (t.text? s = some v → Text.trimmed v = v →
      (loaded' = .ok c ↔ ¬HasNotation v.toList) ∧
      (s = .runtime → ¬HasNotation v.toList) ∧
      (s = .version → (HasNotation v.toList ↔ v.toList.count '.' < 2)) ∧
      (s = .level → (HasNotation v.toList ↔ (LogLevel.number? v.toList).isSome = true))) ∧
    (s = .version → ∀ version, Version.ofText? v = some version →
      ((∃ c', loaded' = .ok c' ∧ c'.host.release = .ok (some version)) ↔
        2 ≤ v.toList.count '.')) := by
  obtain ⟨sources, layers, hlayers, rfl⟩ := hfile.exists_layers
  obtain ⟨sources', layers', hlayers', rfl⟩ := hvariable.exists_layers
  obtain ⟨hread, hvalid⟩ := bind_checked_eq_ok_iff.mp hloaded
  have hget := (hlayers.append hadds.texts.determine).get?_eq hread
  have hsame : ∀ other, other ≠ s → c.get? other =
      ((before.text? other).or ((t'.text? other).or (below other))).or
        (({} : Config).get? other) := by
    intro other hother
    rw [hget other, hothers other hother]
  constructor
  · intro htext htrim
    have hgets : c.get? s = some v := by
      rw [hget s, hadds.unset, htext]
      rfl
    have htrimmed : Text.trim v.toList = v.toList := by rw [← Text.toList_trimmed, htrim]
    refine ⟨?_, hasNotation_of_valid hvalid hgets htrim⟩
    rw [bind_checked_eq_ok_iff, hlayers'.readLayers_adds_iff hadds,
      ← ConfigVariable.valueOf_eq_string_iff htrimmed]
    constructor
    · rintro ⟨⟨w, hw, hgets'⟩, -⟩
      have hsetting := hgets' s
      rw [if_pos rfl, hgets, Option.some.injEq] at hsetting
      exact hw.trans (congrArg _ hsetting.symm)
    · intro hv
      refine ⟨⟨v, hv, fun other => ?_⟩, hvalid⟩
      by_cases hother : other = s
      · rw [if_pos hother, hother, hgets]
      · rw [if_neg hother, hsame other hother]
  · rintro rfl version htext
    rw [← Version.exists_valueOf_iff htext]
    constructor
    · rintro ⟨c', hloaded', hrelease⟩
      obtain ⟨w, hw, hget'⟩ := (hlayers'.readLayers_adds_iff hadds sources').mp
        (bind_checked_eq_ok_iff.mp hloaded').1
      obtain ⟨text, hversion, htext'⟩ := HostConfig.release_eq_some_iff.mp hrelease
      have hsetting : some text = some w :=
        hversion.symm.trans ((hget' .version).trans (if_pos rfl))
      exact ⟨w, hw, Option.some.inj hsetting ▸ htext'⟩
    · rintro ⟨w, hw, htext'⟩
      refine ⟨c.withVersion w, bind_checked_eq_ok_iff.mpr ⟨?_, ?_⟩, ?_⟩
      · refine (hlayers'.readLayers_adds_iff hadds sources').mpr ⟨w, hw, fun other => ?_⟩
        rw [get?_withVersion]
        by_cases hother : other = .version
        · rw [if_pos hother, if_pos hother]
        · rw [if_neg hother, if_neg hother, hsame other hother]
      · exact violations_withVersion hvalid htext'
      · exact HostConfig.release_eq_some_iff.mpr ⟨w, rfl, htext'⟩

/-- A file in the working directory, and no other. -/
def besideFile (text : String) : FileSystem :=
  (FileSystem.empty.write ⟨"/work/gauntlet.toml"⟩ (Utf8.encode text)).enter ⟨"/work"⟩

/-- A file that gives the version and the level of the log. -/
def versionedText : String := "[host]\nversion = '1.2.3'\n[log]\nlevel = 'debug'\n"

/-- A file that gives the level of the log only. -/
def levelText : String := "[log]\nlevel = 'debug'\n"

/-- Variables that give the runtime only. -/
def runtimeVariables : Environment := [("GAUNTLET_HOST_RUNTIME", "desktop")]

/-- Variables that give the version too. -/
def versionedVariables : Environment := ("GAUNTLET_HOST_VERSION", "1.2.3") :: runtimeVariables

/-- What is loaded beside a file, where variables name no file of a user. -/
theorem loads_besideFile (environment : Environment) {text : String} {t : TomlTable}
    (ht : TomlTable.ofText? text = some t) (hschema : t.FollowsSchema)
    (huser : userFile? environment = none)
    (habsent : (besideFile text).nearest? systemFile = none)
    (hfound : (besideFile text).nearest? localFile = some ⟨"/work/gauntlet.toml"⟩)
    (hread : ((besideFile text).readText ⟨"/work/gauntlet.toml"⟩).toOption = some text) :
    Loads (besideFile text) environment
      (fun s => (TomlTable.text? [] s).or (TomlTable.text? [] s)) t
      (load (besideFile text) environment) := by
  refine .layers ⟨.absent habsent, fun file h => ?_, fun _ => rfl, ?_⟩
    TomlTable.followsSchema_nil TomlTable.followsSchema_nil hschema
  · rw [huser] at h
    cases h
  · exact .found hfound (eq_ok_of_toOption hread) ht

/-- A version with two points is the same from a file and from a variable. -/
theorem variables_agree_with_files_of_full_version :
    ∃ c, load (besideFile versionedText) runtimeVariables = .ok c ∧
      c.host.version = some "1.2.3" ∧ load (besideFile levelText) versionedVariables = .ok c := by
  obtain ⟨t, ht, hschema, htexts⟩ := exists_followsSchema_of_computed versionedText
    [none, some "1.2.3", none, none, none, some "debug"] (by decide +kernel) (by decide +kernel)
  obtain ⟨t', ht', hschema', htexts'⟩ := exists_followsSchema_of_computed levelText
    [none, none, none, none, none, some "debug"] (by decide +kernel) (by decide +kernel)
  have hloaded : ((load (besideFile versionedText) runtimeVariables).toOption.any
      fun c => c.host.version == some "1.2.3") = true := by decide +kernel
  obtain ⟨c, hc, hversion⟩ := (Option.any_eq_true _ _).mp hloaded
  have hfile := loads_besideFile runtimeVariables ht hschema
    (by decide +kernel) (by decide +kernel) (by decide +kernel) (by decide +kernel)
  have hvariable := loads_besideFile versionedVariables ht' hschema'
    (by decide +kernel) (by decide +kernel) (by decide +kernel) (by decide +kernel)
  have hadds : runtimeVariables.Adds .version "1.2.3" versionedVariables :=
    ⟨by decide +kernel, by decide +kernel, [], runtimeVariables, rfl, rfl⟩
  simp only [Setting.all, List.map_cons, List.map_nil, List.cons.injEq, and_true] at htexts htexts'
  have hothers : ∀ other, other ≠ Setting.version → t'.text? other = t.text? other := by
    intro other hother
    cases other <;> simp_all
  obtain ⟨hagree, -⟩ :=
    variables_agree_with_files hadds hfile hvariable hothers (eq_ok_of_toOption hc)
  obtain ⟨hsame, -, hwritten, -⟩ := hagree htexts.2.1 (by decide +kernel)
  refine ⟨c, eq_ok_of_toOption hc, eq_of_beq hversion, hsame.mpr ?_⟩
  rw [hwritten rfl]
  decide +kernel

/-- The codes of the errors for which nothing is loaded. -/
def errorCodes : Except (List ConfigError) Config → List String
  | .ok _ => []
  | .error errors => errors.map (·.code)

/-- **A short version cannot be given by its variable.**  It is a version, and a file that sets
it is loaded; but where the variable sets it instead, it is read as a number. -/
theorem short_version_needs_file : Version.ofText? "1.2" = some (.release 1 2 0) ∧
    (∃ c, load (besideFile "[host]\nversion = '1.2'\n") [] = .ok c ∧
      c.host.version = some "1.2") ∧
    errorCodes (load FileSystem.empty [("GAUNTLET_HOST_VERSION", "1.2")]) =
      ["gauntlet::config::invalid_type"] := by
  have hloaded : ((load (besideFile "[host]\nversion = '1.2'\n") []).toOption.any
      fun c => c.host.version == some "1.2") = true := by decide +kernel
  obtain ⟨c, hc, hversion⟩ := (Option.any_eq_true _ _).mp hloaded
  exact ⟨by decide +kernel, ⟨c, eq_ok_of_toOption hc, eq_of_beq hversion⟩, by decide +kernel⟩

end Config

end PluginHost
