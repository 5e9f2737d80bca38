import PluginHost.Config.Error
import PluginHost.Proofs.Config.Schema
import PluginHost.Proofs.Toml.Documents

/-! # Which key is told to be unknown

A fault about an unknown key is about a member of the table that is read, and about one whose
key no field of this table has (`ConfigFormat.error_of_readTable`).  The defaults have no
such members, so the key stands in the text: at the top, or in a section
(`Config.unknownKey_of_ofTable`).

The path of the fault ends with the key itself, and with this path the place of the key is
searched for (`Config.unknownKey_of_ofText`). -/
namespace PluginHost

variable {path : List String} {key : String} {known : List String} {file : Option Path}

namespace ConfigFormat

variable {α : Type} {format : ConfigFormat α} {fault : ConfigFault} {full : List String}

/-- Reading a table fails at a member that has the key of no field, or whose value the field
does not take. -/
theorem error_of_readTable {members : ConfigTable}
    (h : format.readTable path members = .error fault) : ∃ key file value,
      (key, file, value) ∈ members ∧
        (key ∉ format.keys ∧ fault = .unknownKey (path ++ [key]) key format.keys file ∨
          ∃ field ∈ format.fields, field.name = key ∧
            ∃ record, field.store (path ++ [key]) value record = .error fault) := by
  obtain ⟨⟨key, file, value⟩, hmem, record, hread⟩ := exists_of_foldlM_error h
  refine ⟨key, file, value, hmem, ?_⟩
  rw [readMember] at hread
  cases hfind : format.fields.find? (·.name == key) with
  | none =>
    rw [hfind] at hread
    refine .inl ⟨fun hkey => ?_, (Except.error.inj hread).symm⟩
    obtain ⟨field, hfield, hname⟩ := List.mem_map.mp hkey
    exact List.find?_eq_none.mp hfind field hfield (beq_iff_eq.mpr hname)
  | some field =>
    rw [hfind] at hread
    have hname := List.find?_some hfind
    exact .inr ⟨field, List.mem_of_find?_eq_some hfind, eq_of_beq hname, record, hread⟩

/-- All that the fields of a format take is texts. -/
def TakesTexts (format : ConfigFormat α) : Prop :=
  ∀ field ∈ format.fields, ∃ expected put, field = .text field.name expected put

/-- A field that takes texts tells nothing about unknown keys. -/
theorem TakesTexts.store_ne (h : format.TakesTexts) {field : ConfigField α}
    (hfield : field ∈ format.fields) {value : ConfigValue} {record : α} :
    field.store path value record ≠ .error (.unknownKey full key known file) := by
  obtain ⟨expected, put, hform⟩ := h field hfield
  rw [hform, ConfigField.text]
  cases value with
  | boolean | signed | unsigned | float | string | sequence | table => rintro ⟨⟩

/-- A section is said to have an unknown key only where it is a table with this key. -/
theorem TakesTexts.unknownKey_of_read (h : format.TakesTexts) {value : ConfigValue}
    (hread : format.read path value = .error (.unknownKey full key known file)) :
    ∃ members inner, value = .table members ∧ (key, file, inner) ∈ members ∧
      key ∉ known ∧ known = format.keys ∧ full = path ++ [key] := by
  cases value with
  | table members =>
    obtain ⟨name, _, inner, hmem, ⟨hkey, hfault⟩ | ⟨field, hfield, -, record, hstore⟩⟩ :=
      error_of_readTable hread
    · obtain ⟨rfl, rfl, rfl, rfl⟩ := ConfigFault.unknownKey.inj hfault
      exact ⟨members, inner, rfl, hmem, hkey, rfl, rfl⟩
    · exact absurd hstore (h.store_ne hfield)
  | sequence items =>
    obtain ⟨⟨⟨field, item⟩, index⟩, hmem, record, hstore⟩ := exists_of_foldlM_error hread
    have hfield : field ∈ format.fields := by
      have hzip := List.mem_map_of_mem (f := Prod.fst) hmem
      rw [List.zipIdx_map_fst] at hzip
      exact (List.of_mem_zip hzip).1
    exact absurd hstore (h.store_ne hfield)
  | boolean | signed | unsigned | float | string => cases hread

end ConfigFormat

theorem HostConfig.takesTexts : HostConfig.format.TakesTexts := by
  simp only [ConfigFormat.TakesTexts, HostConfig.format, List.forall_mem_cons]
  exact ⟨⟨_, _, rfl⟩, ⟨_, _, rfl⟩, fun _ h => by cases h⟩

theorem DiscoveryConfig.takesTexts : DiscoveryConfig.format.TakesTexts := by
  simp only [ConfigFormat.TakesTexts, DiscoveryConfig.format, List.forall_mem_cons]
  exact ⟨⟨_, _, rfl⟩, ⟨_, _, rfl⟩, ⟨_, _, rfl⟩, fun _ h => by cases h⟩

theorem LogConfig.takesTexts : LogConfig.format.TakesTexts := by
  simp only [ConfigFormat.TakesTexts, LogConfig.format, List.forall_mem_cons]
  exact ⟨⟨_, _, rfl⟩, fun _ h => by cases h⟩

/-! ## The tables of a configuration -/

/-- The tables that a configuration may have, the one at the top first, with the keys that each
may have. -/
def Config.tables : List (Option String × List String) :=
  [(none, Config.format.keys), (some "host", HostConfig.format.keys),
    (some "discovery", DiscoveryConfig.format.keys), (some "log", LogConfig.format.keys)]

/-- A member of settings, which stands at the top or in a section. -/
inductive ConfigTable.Has (t : ConfigTable) : Option String → String → Option Path → Prop where
  | top {key : String} {file : Option Path} {value : ConfigValue} (h : (key, file, value) ∈ t) :
    Has t none key file
  | inside {name key : String} {outer file : Option Path} {members : ConfigTable}
    {value : ConfigValue} (hsection : (name, outer, .table members) ∈ t)
    (h : (key, file, value) ∈ members) : Has t (some name) key file

namespace Config

variable {t : TomlTable} {table : Option String} {name : String}

/-- The keys of a section are those of the settings that stand in it. -/
theorem mem_known_iff (h : (some name, known) ∈ tables) :
    key ∈ known ↔ ∃ s : Setting, s.sectionName = name ∧ s.key = key := by
  simp only [tables, List.mem_cons, Prod.mk.injEq, reduceCtorEq, false_and, false_or,
    Option.some_inj, List.not_mem_nil, or_false] at h
  rcases h with ⟨rfl, rfl⟩ | ⟨rfl, rfl⟩ | ⟨rfl, rfl⟩
  · exact HostConfig.readsSection.mem_keys_iff key
  · exact DiscoveryConfig.readsSection.mem_keys_iff key
  · exact LogConfig.readsSection.mem_keys_iff key

theorem sectionName_mem_keys (s : Setting) : s.sectionName ∈ Config.format.keys := by
  cases s <;> decide

/-- A fault about an unknown key is about a member of one of the tables, and its path is that
of the member. -/
theorem unknownKey_of_ofTable {settings : ConfigTable}
    (h : ofTable settings = .error (.unknownKey path key known file)) :
    ∃ table, (table, known) ∈ tables ∧ key ∉ known ∧ path = table.toList ++ [key] ∧
      settings.Has table key file := by
  obtain ⟨name, _, value, hmem, ⟨hkey, hfault⟩ | ⟨field, hfield, hname, record, hstore⟩⟩ :=
    ConfigFormat.error_of_readTable h
  · obtain ⟨rfl, rfl, rfl, rfl⟩ := ConfigFault.unknownKey.inj hfault
    exact ⟨none, List.mem_cons_self, hkey, rfl, .top hmem⟩
  · -- The field of a section passes on what reading the section tells.
    simp only [Config.format, ConfigFormat.field, List.mem_cons, List.not_mem_nil, or_false]
      at hfield
    rcases hfield with rfl | rfl | rfl
    all_goals
      obtain rfl := hname
      have hread := map_eq_error_iff.mp hstore
    · obtain ⟨members, inner, rfl, hinner, hkey, rfl, rfl⟩ :=
        HostConfig.takesTexts.unknownKey_of_read hread
      exact ⟨some "host", by simp [tables], hkey, rfl, .inside hmem hinner⟩
    · obtain ⟨members, inner, rfl, hinner, hkey, rfl, rfl⟩ :=
        DiscoveryConfig.takesTexts.unknownKey_of_read hread
      exact ⟨some "discovery", by simp [tables], hkey, rfl, .inside hmem hinner⟩
    · obtain ⟨members, inner, rfl, hinner, hkey, rfl, rfl⟩ :=
        LogConfig.takesTexts.unknownKey_of_read hread
      exact ⟨some "log", by simp [tables], hkey, rfl, .inside hmem hinner⟩

/-! ## Unknown keys stand in the text -/

/-- A member of a section that follows the schema has a known key. -/
theorem mem_known_of_isSection {members : ConfigTable} {value : ConfigValue}
    (htable : (some name, known) ∈ tables) (h : members.IsSection name)
    (hmem : (key, file, value) ∈ members) : key ∈ known := by
  obtain ⟨s, hname, hkey, -⟩ := h.settings key value (h.ascending.value?_of_mem hmem)
  exact (mem_known_iff htable).mpr ⟨s, hname, hkey⟩

/-- What has an unknown key where a text was laid onto the defaults comes from the text. -/
theorem holds_of_has (htable : (table, known) ∈ tables) (hkey : key ∉ known)
    (h : ((ConfigTable.ofToml none t).onto defaultTable).Has table key file) :
    file = none ∧ t.Holds table key := by
  have hdefaults := followsSchema_defaultTable
  cases h with
  | top hmem =>
    obtain rfl : known = Config.format.keys := by
      simpa [tables] using htable
    rcases ConfigTable.mem_onto hmem with ⟨above, hmem⟩ | hmem
    · obtain ⟨hlookup, hfile⟩ := ConfigTable.mem_ofToml hmem
      exact ⟨hfile, hlookup⟩
    · obtain ⟨⟨s, hs⟩, -⟩ :=
        hdefaults.sections key _ (hdefaults.ascending.value?_of_mem hmem)
      exact absurd (hs ▸ sectionName_mem_keys s) hkey
  | @inside name _ _ _ members _ hsection hmem =>
    have htext {origin : TableOrigin} {inner : TomlTable}
        (hinner : t.lookup name = some (.table origin inner)) {value : ConfigValue}
        (hmem : (key, file, value) ∈ ConfigTable.ofToml none inner) :
        file = none ∧ t.Holds (some name) key := by
      obtain ⟨hlookup, hfile⟩ := ConfigTable.mem_ofToml hmem
      exact ⟨hfile, origin, inner, hinner, hlookup⟩
    have hvalue := (hdefaults.ascending.onto (.ofToml none t)).value?_of_mem hsection
    rw [ConfigTable.value?_onto (ConfigTable.ascending_ofToml none t),
      ConfigTable.value?_ofToml] at hvalue
    cases hlookup : t.lookup name with
    | none =>
      -- The section is that of the defaults, in which all keys are known.
      rw [hlookup] at hvalue
      obtain ⟨-, _, ⟨⟩, hschema⟩ := hdefaults.sections name _ hvalue
      exact absurd (mem_known_of_isSection htable hschema hmem) hkey
    | some value =>
      rw [hlookup, Option.map_some] at hvalue
      cases hbelow : defaultTable.value? name with
      | none =>
        rw [hbelow] at hvalue
        obtain ⟨origin, inner, rfl, rfl⟩ := ConfigTable.ofToml_eq_table.mp (Option.some.inj hvalue)
        exact htext hlookup hmem
      | some below =>
        rw [hbelow] at hvalue
        obtain ⟨-, lower, rfl, hschema⟩ := hdefaults.sections name below hbelow
        -- What is no table replaces the section, and a table is what was read.
        obtain ⟨upper, hupper, rfl⟩ := ConfigTable.exists_table_of_onto (Option.some.inj hvalue)
        obtain ⟨origin, inner, rfl, rfl⟩ := ConfigTable.ofToml_eq_table.mp hupper
        rcases ConfigTable.mem_onto hmem with ⟨above, hmem⟩ | hmem
        · exact htext hlookup hmem
        · exact absurd (mem_known_of_isSection htable hschema hmem) hkey

theorem eq_violations_of_checked {c : Config} {errors : List ConfigError}
    (h : checked c = .error errors) : errors = c.violations.map .violation := by
  unfold checked at h
  generalize c.violations = violations at h ⊢
  cases violations with
  | nil => cases h
  | cons violation others => exact (Except.error.inj h).symm

/-- Unknown keys are told of by the reading, and not by the checks. -/
theorem readText_of_unknownKey {text : String} {errors : List ConfigError}
    {place : Option SourceSpan} (h : ofText text = .error errors)
    (hmem : .unknownKey key known place ∈ errors) : readText text = .error errors := by
  rw [ofText] at h
  rcases bind_eq_error h with hread | ⟨c, -, hchecked⟩
  · exact hread
  · rw [eq_violations_of_checked hchecked] at hmem
    obtain ⟨_, -, heq⟩ := List.mem_map.mp hmem
    cases heq

/-- What is wrong with a text that is TOML is the first fault of reading its table. -/
theorem exists_fault_of_readText {text : String} {errors : List ConfigError}
    (ht : TomlTable.ofText? text = some t) (h : readText text = .error errors) :
    ∃ fault, ofTable ((ConfigTable.ofToml none t).onto defaultTable) = .error fault ∧
      errors = [.ofFault [inlineSource text] fault] := by
  rw [readText, ConfigLayer.ofText, ht] at h
  replace h : (ofTable ((ConfigTable.ofToml none t).onto defaultTable)).mapError
      (fun fault => [ConfigError.ofFault [inlineSource text] fault]) = .error errors := h
  cases hread : ofTable ((ConfigTable.ofToml none t).onto defaultTable) with
  | ok c =>
    rw [hread] at h
    cases h
  | error fault =>
    rw [hread] at h
    exact ⟨fault, rfl, (Except.error.inj h).symm⟩

/-- **An unknown key that is told of stands in the text**, at the top or in a section, and is
none of the keys that this table may have.  Its place is searched for with the name of the
section, if there is one, and the key behind it. -/
theorem unknownKey_of_ofText {text : String} {errors : List ConfigError}
    {place : Option SourceSpan} (h : ofText text = .error errors)
    (hmem : .unknownKey key known place ∈ errors) :
    ∃ t table, TomlTable.ofText? text = some t ∧ (table, known) ∈ tables ∧ key ∉ known ∧
      t.Holds table key ∧
      place = ConfigError.placeOf? [inlineSource text] (table.toList ++ [key]) key none := by
  have hread := readText_of_unknownKey h hmem
  cases ht : TomlTable.ofText? text with
  | none =>
    rw [readText_of_malformed ht] at hread
    obtain rfl := Except.error.inj hread
    cases List.mem_singleton.mp hmem
  | some t =>
    obtain ⟨fault, hfault, rfl⟩ := exists_fault_of_readText ht hread
    replace hmem := List.mem_singleton.mp hmem
    cases fault with
    | invalidType => cases hmem
    | unknownKey path key' known' file =>
      rw [ConfigError.ofFault] at hmem
      obtain ⟨rfl, rfl, hplace⟩ := ConfigError.unknownKey.inj hmem
      obtain ⟨table, htable, hkey, rfl, hhas⟩ := unknownKey_of_ofTable hfault
      obtain ⟨rfl, hholds⟩ := holds_of_has htable hkey hhas
      exact ⟨t, table, rfl, htable, hkey, hholds, hplace⟩

end Config
end PluginHost
