import PluginHost.Config.Printing
import PluginHost.Proofs.Config.Tables

/-! # The settings of a configuration

A configuration is six settings, each a key in a section that holds a text or is absent
(`Config.get?`).  A table follows the schema when all it holds is texts under these keys
(`TomlTable.FollowsSchema`, `ConfigTable.FollowsSchema`); `text?` is what it then sets.  The
tables of a TOML text follow the schema just when the text does
(`ConfigTable.followsSchema_ofToml_iff`), and where two tables do, so does the one laid onto
the other, in which each setting has its upper text, or else its lower
(`ConfigTable.FollowsSchema.text?_onto`). -/
namespace PluginHost

/-- A setting of a configuration. -/
inductive Setting where
  | runtime
  | version
  | startDirectory
  | manifestPattern
  | modulePattern
  | level
deriving DecidableEq, Repr

namespace Setting

/-- The section that a setting stands in. -/
def sectionName : Setting → String
  | runtime | version => "host"
  | startDirectory | manifestPattern | modulePattern => "discovery"
  | level => "log"

/-- The key of a setting in its section. -/
def key : Setting → String
  | runtime => "runtime"
  | version => "version"
  | startDirectory => "start_directory"
  | manifestPattern => "manifest_pattern"
  | modulePattern => "module_pattern"
  | level => "level"

/-- Every setting. -/
def all : List Setting :=
  [runtime, version, startDirectory, manifestPattern, modulePattern, level]

theorem mem_all (s : Setting) : s ∈ all := by cases s <;> decide

/-- A setting is known by its section and its key. -/
theorem ext {s s' : Setting} (hname : s.sectionName = s'.sectionName) (hkey : s.key = s'.key) :
    s = s' := by
  revert hname hkey
  cases s <;> cases s' <;> decide

end Setting

namespace Config

/-- The text of a setting. -/
def get? (c : Config) : Setting → Option String
  | .runtime => some c.host.runtime
  | .version => c.host.version
  | .startDirectory => c.discovery.startDirectory.map (·.text)
  | .manifestPattern => some c.discovery.manifestPattern
  | .modulePattern => some c.discovery.modulePattern
  | .level => some c.log.level

/-- A configuration is its settings. -/
theorem ext_get? {c c' : Config} (h : ∀ s, c.get? s = c'.get? s) : c = c' := by
  obtain ⟨⟨runtime, version⟩, ⟨start, manifestPattern, modulePattern⟩, ⟨level⟩⟩ := c
  obtain ⟨⟨runtime', version'⟩, ⟨start', manifestPattern', modulePattern'⟩, ⟨level'⟩⟩ := c'
  have hstart : start = start' :=
    Option.map_injective (fun p q hpq => by cases p; cases q; cases hpq; rfl) (h .startDirectory)
  cases h .runtime
  cases h .version
  cases hstart
  cases h .manifestPattern
  cases h .modulePattern
  cases h .level
  rfl

end Config

/-! ## Tables of TOML texts -/

/-- The text that a value is. -/
def Toml.text? : Toml → Option String
  | .string text => some text
  | _ => none

/-- What a table holds under a key, if the value is a table. -/
def Toml.member? (key : String) : Toml → Option Toml
  | .table _ members => members.lookup key
  | _ => none

namespace TomlTable

variable (t : TomlTable)

/-- The text that a table sets a setting to. -/
def text? (s : Setting) : Option String :=
  ((t.lookup s.sectionName).bind (Toml.member? s.key)).bind Toml.text?

/-- Where a section of a configuration is set, it is a table. -/
def HasSections : Prop :=
  ∀ (s : Setting) (value : Toml), t.lookup s.sectionName = some value →
    ∃ origin members, value = .table origin members

/-- A table that holds nothing but sections of a configuration, in which nothing stands but
texts under the keys of the section. -/
structure FollowsSchema : Prop where
  sections : ∀ name value, t.lookup name = some value →
    (∃ s : Setting, s.sectionName = name) ∧ ∃ origin members, value = .table origin members
  settings : ∀ name origin members, t.lookup name = some (.table origin members) →
    ∀ key value, members.lookup key = some value →
      ∃ s : Setting, s.sectionName = name ∧ s.key = key ∧ ∃ text, value = .string text

theorem followsSchema_nil : FollowsSchema [] := by
  constructor <;> simp

end TomlTable

/-! ## Tables of settings -/

/-- The text that a value is. -/
def ConfigValue.text? : ConfigValue → Option String
  | .string text => some text
  | _ => none

/-- What a table holds under a key, if the value is a table. -/
def ConfigValue.member? (key : String) : ConfigValue → Option ConfigValue
  | .table members => ConfigTable.value? members key
  | _ => none

namespace ConfigTable

/-- The text that a table sets a setting to. -/
def text? (t : ConfigTable) (s : Setting) : Option String :=
  ((t.value? s.sectionName).bind (ConfigValue.member? s.key)).bind ConfigValue.text?

/-- The members of a section: nothing but texts under the keys of the section. -/
structure IsSection (name : String) (members : ConfigTable) : Prop where
  ascending : members.Ascending
  settings : ∀ key value, members.value? key = some value →
    ∃ s : Setting, s.sectionName = name ∧ s.key = key ∧ ∃ text, value = .string text

/-- A table that holds nothing but sections of a configuration. -/
structure FollowsSchema (t : ConfigTable) : Prop where
  ascending : t.Ascending
  sections : ∀ name value, t.value? name = some value → (∃ s : Setting, s.sectionName = name) ∧
    ∃ members, value = .table members ∧ IsSection name members

theorem followsSchema_nil : FollowsSchema [] := ⟨.nil, by simp⟩

/-! ### From TOML texts -/

/-- A value of a TOML text is a table just when what it stands for is one. -/
theorem ofToml_eq_table {file : Option Path} {value : Toml} {members : ConfigTable} :
    ConfigValue.ofToml file value = .table members ↔
      ∃ origin inner, value = .table origin inner ∧ members = ofToml file inner := by
  cases value with
  | table origin inner =>
    rw [ConfigValue.ofToml]
    constructor
    · intro h
      exact ⟨origin, inner, rfl, (ConfigValue.table.inj h).symm⟩
    · rintro ⟨_, _, h, rfl⟩
      cases h
      rfl
  | string | integer | float | boolean | array | tables => simp [ConfigValue.ofToml]

theorem ofToml_eq_string {file : Option Path} {value : Toml} {text : String} :
    ConfigValue.ofToml file value = .string text ↔ value = .string text := by
  cases value <;> simp [ConfigValue.ofToml]

theorem text?_ofToml (file : Option Path) (value : Toml) :
    (ConfigValue.ofToml file value).text? = value.text? := by
  cases value <;> rfl

theorem member?_ofToml (file : Option Path) (key : String) (value : Toml) :
    (ConfigValue.ofToml file value).member? key =
      (value.member? key).map (ConfigValue.ofToml file) := by
  cases value with
  | table origin members => exact value?_ofToml file members key
  | string | integer | float | boolean | array | tables => rfl

/-- The table of a TOML text sets what the text does. -/
theorem text?_ofToml_table (file : Option Path) (t : TomlTable) (s : Setting) :
    (ofToml file t).text? s = t.text? s := by
  rw [text?, value?_ofToml, TomlTable.text?]
  cases t.lookup s.sectionName with
  | none => rfl
  | some value =>
    rw [Option.map_some, Option.bind_some, Option.bind_some, member?_ofToml]
    cases value.member? s.key with
    | none => rfl
    | some inner => exact text?_ofToml file inner

/-- The table of a TOML text follows the schema just when the text does. -/
theorem followsSchema_ofToml_iff {file : Option Path} {t : TomlTable} :
    (ofToml file t).FollowsSchema ↔ t.FollowsSchema := by
  constructor
  · rintro ⟨-, h⟩
    have hlookup : ∀ {name value}, t.lookup name = some value →
        (ofToml file t).value? name = some (ConfigValue.ofToml file value) :=
      fun hvalue => by rw [value?_ofToml, hvalue, Option.map_some]
    refine ⟨fun name value hvalue => ?_, fun name origin members hvalue key value hkey => ?_⟩
    · obtain ⟨hname, members, htable, -⟩ := h name _ (hlookup hvalue)
      obtain ⟨origin, inner, rfl, -⟩ := ofToml_eq_table.mp htable
      exact ⟨hname, origin, inner, rfl⟩
    · obtain ⟨-, _, htable, hsection⟩ := h name _ (hlookup hvalue)
      rw [ConfigValue.ofToml, ConfigValue.table.injEq] at htable
      subst htable
      have hinner : (ofToml file members).value? key = some (ConfigValue.ofToml file value) := by
        rw [value?_ofToml, hkey, Option.map_some]
      obtain ⟨s, hname, hs, text, htext⟩ := hsection.settings key _ hinner
      exact ⟨s, hname, hs, text, ofToml_eq_string.mp htext⟩
  · intro h
    refine ⟨ascending_ofToml file t, fun name value hvalue => ?_⟩
    rw [value?_ofToml] at hvalue
    obtain ⟨outer, houter, rfl⟩ := Option.map_eq_some_iff.mp hvalue
    obtain ⟨hname, origin, members, rfl⟩ := h.sections name outer houter
    refine ⟨hname, ofToml file members, ofToml_eq_table.mpr ⟨origin, members, rfl, rfl⟩,
      ascending_ofToml file members, fun key inner hinner => ?_⟩
    rw [value?_ofToml] at hinner
    obtain ⟨innerToml, hkey, rfl⟩ := Option.map_eq_some_iff.mp hinner
    obtain ⟨s, hs, hskey, text, rfl⟩ := h.settings name origin members houter key innerToml hkey
    exact ⟨s, hs, hskey, text, rfl⟩

/-! ### Laying one onto another -/

/-- A table laid onto a table is a table. -/
theorem onto_table (upper lower : ConfigTable) :
    (ConfigValue.table upper).onto (.table lower) = .table (upper.onto lower) := by
  rw [ConfigValue.onto, ConfigTable.onto]

/-- A value that is no table replaces what was there. -/
theorem onto_of_ne_table {value : ConfigValue} (h : ∀ members, value ≠ .table members)
    (lower : ConfigValue) : value.onto lower = value := by
  rw [ConfigValue.onto]
  exact fun members heq => h members heq

theorem onto_string (text : String) (lower : ConfigValue) :
    (ConfigValue.string text).onto lower = .string text :=
  onto_of_ne_table (fun _ h => by cases h) lower

theorem IsSection.onto {name : String} {upper lower : ConfigTable} (hupper : IsSection name upper)
    (hlower : IsSection name lower) : IsSection name (upper.onto lower) := by
  refine ⟨hlower.ascending.onto upper, fun key value hvalue => ?_⟩
  rw [value?_onto hupper.ascending] at hvalue
  cases hu : upper.value? key with
  | none =>
    rw [hu] at hvalue
    exact hlower.settings key value hvalue
  | some above =>
    obtain ⟨s, hname, hkey, text, rfl⟩ := hupper.settings key above hu
    refine ⟨s, hname, hkey, text, ?_⟩
    rw [hu] at hvalue
    cases hl : lower.value? key with
    | none =>
      rw [hl] at hvalue
      exact (Option.some.inj hvalue).symm
    | some below =>
      rw [hl, laidOnto, onto_string] at hvalue
      exact (Option.some.inj hvalue).symm

namespace FollowsSchema

variable {upper lower : ConfigTable}

theorem onto (hupper : upper.FollowsSchema) (hlower : lower.FollowsSchema) :
    (upper.onto lower).FollowsSchema := by
  refine ⟨hlower.ascending.onto upper, fun name value hvalue => ?_⟩
  rw [value?_onto hupper.ascending] at hvalue
  cases hu : upper.value? name with
  | none =>
    rw [hu] at hvalue
    exact hlower.sections name value hvalue
  | some above =>
    obtain ⟨hname, members, rfl, hmembers⟩ := hupper.sections name above hu
    rw [hu] at hvalue
    cases hl : lower.value? name with
    | none =>
      rw [hl] at hvalue
      exact ⟨hname, members, (Option.some.inj hvalue).symm, hmembers⟩
    | some below =>
      obtain ⟨-, inner, rfl, hinner⟩ := hlower.sections name below hl
      rw [hl, laidOnto, onto_table] at hvalue
      exact ⟨hname, _, (Option.some.inj hvalue).symm, hmembers.onto hinner⟩

/-- Where a table is laid onto another, each setting has its upper text, or else its lower. -/
theorem text?_onto (hupper : upper.FollowsSchema) (hlower : lower.FollowsSchema) (s : Setting) :
    (upper.onto lower).text? s = (upper.text? s).or (lower.text? s) := by
  rw [text?, text?, text?, value?_onto hupper.ascending]
  cases hu : upper.value? s.sectionName with
  | none => rfl
  | some above =>
    obtain ⟨-, members, rfl, hmembers⟩ := hupper.sections _ above hu
    cases hl : lower.value? s.sectionName with
    | none => exact (Option.or_none).symm
    | some below =>
      obtain ⟨-, inner, rfl, hinner⟩ := hlower.sections _ below hl
      simp only [laidOnto, onto_table, Option.bind_some, ConfigValue.member?]
      rw [value?_onto hmembers.ascending]
      cases hk : value? members s.key with
      | none => rfl
      | some value =>
        obtain ⟨-, -, -, text, rfl⟩ := hmembers.settings s.key value hk
        cases value? inner s.key with
        | none => rfl
        | some other =>
          rw [laidOnto, onto_string]
          rfl

end FollowsSchema
end ConfigTable

/-! ## A configuration as a table -/

namespace Config

variable (c : Config)

/-- A section is written with nothing but settings that stand in it. -/
theorem exists_setting_of_mem_printed {name : String} {settings : List (String × String)}
    (hsection : (name, settings) ∈ c.printed) : (∃ s : Setting, s.sectionName = name) ∧
      ∀ key text, (key, text) ∈ settings → ∃ s : Setting, s.sectionName = name ∧ s.key = key := by
  simp only [printed, setting?, List.mem_cons, Prod.mk.injEq, List.not_mem_nil, or_false]
    at hsection
  rcases hsection with ⟨rfl, rfl⟩ | ⟨rfl, rfl⟩ | ⟨rfl, rfl⟩
  · refine ⟨⟨.runtime, rfl⟩, fun key text h => ?_⟩
    simp only [List.mem_cons, List.mem_map, Prod.mk.injEq] at h
    rcases h with ⟨rfl, -⟩ | ⟨_, -, rfl, -⟩
    · exact ⟨.runtime, rfl, rfl⟩
    · exact ⟨.version, rfl, rfl⟩
  · refine ⟨⟨.startDirectory, rfl⟩, fun key text h => ?_⟩
    simp only [List.mem_append, List.mem_cons, List.mem_map, Prod.mk.injEq, List.not_mem_nil,
      or_false] at h
    rcases h with ⟨_, -, rfl, -⟩ | ⟨rfl, -⟩ | ⟨rfl, -⟩
    · exact ⟨.startDirectory, rfl, rfl⟩
    · exact ⟨.manifestPattern, rfl, rfl⟩
    · exact ⟨.modulePattern, rfl, rfl⟩
  · refine ⟨⟨.level, rfl⟩, fun key text h => ?_⟩
    simp only [List.mem_cons, Prod.mk.injEq, List.not_mem_nil, or_false] at h
    exact ⟨.level, rfl, h.1.symm⟩

theorem exists_printed_of_lookup_toml {name : String} {value : Toml}
    (h : c.toml.lookup name = some value) : ∃ settings, (name, settings) ∈ c.printed ∧
      value = .table .header (settings.map fun (key, text) => (key, .string text)) := by
  obtain ⟨front, back, heq, -⟩ := List.lookup_eq_some_iff.mp h
  have hmem : (name, value) ∈ c.toml := heq ▸ List.mem_append_right front List.mem_cons_self
  obtain ⟨⟨name', settings⟩, hprinted, hvalue⟩ := List.mem_map.mp hmem
  obtain ⟨rfl, rfl⟩ := Prod.mk.inj hvalue
  exact ⟨settings, hprinted, rfl⟩

/-- What a configuration is written as follows the schema. -/
theorem followsSchema_toml : c.toml.FollowsSchema := by
  refine ⟨fun name value hvalue => ?_, fun name origin members hvalue key value hkey => ?_⟩
  · obtain ⟨settings, hprinted, rfl⟩ := c.exists_printed_of_lookup_toml hvalue
    exact ⟨(c.exists_setting_of_mem_printed hprinted).1, _, _, rfl⟩
  · obtain ⟨settings, hprinted, htable⟩ := c.exists_printed_of_lookup_toml hvalue
    obtain ⟨-, rfl⟩ := Toml.table.inj htable
    obtain ⟨front, back, heq, -⟩ := List.lookup_eq_some_iff.mp hkey
    have hmem := heq ▸ List.mem_append_right front List.mem_cons_self
    obtain ⟨⟨key', text⟩, hsetting, hpair⟩ := List.mem_map.mp hmem
    obtain ⟨rfl, rfl⟩ := Prod.mk.inj hpair
    obtain ⟨s, hname, hs⟩ := (c.exists_setting_of_mem_printed hprinted).2 key' text hsetting
    exact ⟨s, hname, hs, text, rfl⟩

/-- What a configuration is written as sets just its settings. -/
theorem text?_toml (s : Setting) : c.toml.text? s = c.get? s := by
  obtain ⟨⟨runtime, version⟩, ⟨start, manifestPattern, modulePattern⟩, ⟨level⟩⟩ := c
  cases version <;> cases start <;> cases s <;> rfl

end Config
end PluginHost
