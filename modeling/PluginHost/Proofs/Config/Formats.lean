import PluginHost.Config.Reading
import PluginHost.Proofs.Config.Settings
import PluginHost.Proofs.Results

/-! # What is read from a table

A format reads the members of a table one by one into a record.  Its fields are independent
when each stores what its value means in a place of its own
(`ConfigFormat.Independent`); then the order of the members does not matter.  A table is read
just when every member is, and each place of the record holds what the member of this key
means, or the default where there is none (`Independent.get_of_readTable`,
`Independent.readTable_isOk`).

The sections of a configuration and the configuration itself have such formats, so a table
whose sections are tables is read just when it follows the schema, and then each setting has
the text of the table, or its default (`Config.ofTable_eq_ok_iff`). -/
namespace PluginHost
namespace ConfigFormat

variable {α β : Type} {format : ConfigFormat α} {path : List String} {get : α → String → β}
  {means : String → ConfigValue → β → Prop}

/-- The fields of a format keep to places of their own: `get` looks a record up by the names
of the fields, and `means` tells what a value under a name stands for. -/
structure Independent (format : ConfigFormat α) (path : List String) (get : α → String → β)
    (means : String → ConfigValue → β → Prop) : Prop where
  stores : ∀ field ∈ format.fields, ∀ value record record',
    field.store (path ++ [field.name]) value record = .ok record' →
      means field.name value (get record' field.name) ∧
      ∀ key, key ≠ field.name → get record' key = get record key
  accepts : ∀ field ∈ format.fields, ∀ value b, means field.name value b →
    ∀ record, ∃ record', field.store (path ++ [field.name]) value record = .ok record'

namespace Independent

/-- A member that is read has the key of a field, and changes only what is under this key. -/
theorem of_readMember (h : format.Independent path get means) {key : String}
    {file : Option Path} {value : ConfigValue} {record record' : α}
    (hread : format.readMember path record (key, file, value) = .ok record') :
    key ∈ format.keys ∧ means key value (get record' key) ∧
      ∀ other, other ≠ key → get record' other = get record other := by
  rw [readMember] at hread
  cases hfind : format.fields.find? (·.name == key) with
  | none =>
    rw [hfind] at hread
    cases hread
  | some field =>
    rw [hfind] at hread
    have hmem := List.mem_of_find?_eq_some hfind
    have hname := List.find?_some hfind
    obtain rfl := eq_of_beq hname
    obtain ⟨hmeans, hframe⟩ := h.stores field hmem value record record' hread
    exact ⟨List.mem_map_of_mem hmem, hmeans, hframe⟩

theorem readMember_isOk (h : format.Independent path get means) {key : String}
    {value : ConfigValue} {b : β} (hkey : key ∈ format.keys)
    (hmeans : means key value b) (file : Option Path) (record : α) :
    ∃ record', format.readMember path record (key, file, value) = .ok record' := by
  obtain ⟨known, hknown, hname⟩ := List.mem_map.mp hkey
  rw [readMember]
  cases hfind : format.fields.find? (·.name == key) with
  | none => exact absurd (beq_iff_eq.mpr hname) (List.find?_eq_none.mp hfind known hknown)
  | some field =>
    have hname := List.find?_some hfind
    obtain rfl := eq_of_beq hname
    exact h.accepts field (List.mem_of_find?_eq_some hfind) value b hmeans record

/-- Where a table is read, every key holds what its member means, and the keys without a
member hold what they did. -/
theorem get_of_foldlM (h : format.Independent path get means) {t : ConfigTable}
    (ht : t.Ascending) {record record' : α}
    (hread : t.foldlM (format.readMember path) record = .ok record') (key : String) :
    match t.value? key with
    | some value => key ∈ format.keys ∧ means key value (get record' key)
    | none => get record' key = get record key := by
  induction t generalizing record with
  | nil =>
    obtain rfl := Except.ok.inj hread
    rfl
  | cons head rest ih =>
    obtain ⟨name, file, value⟩ := head
    rw [List.foldlM_cons] at hread
    obtain ⟨first, hfirst, hrest⟩ := bind_eq_ok hread
    obtain ⟨hname, hmeans, hframe⟩ := h.of_readMember hfirst
    have hlast := ih ht.tail hrest
    rw [ConfigTable.value?_cons]
    by_cases hkey : key = name
    · subst hkey
      rw [ht.value?_tail] at hlast
      rw [if_pos rfl]
      exact ⟨hname, hlast ▸ hmeans⟩
    · rw [if_neg hkey]
      rw [hframe key hkey] at hlast
      exact hlast

theorem get_of_readTable (h : format.Independent path get means) {t : ConfigTable}
    (ht : t.Ascending) {record : α}
    (hread : format.readTable path t = .ok record) (key : String) :
    match t.value? key with
    | some value => key ∈ format.keys ∧ means key value (get record key)
    | none => get record key = get format.defaults key :=
  h.get_of_foldlM ht hread key

/-- A table is read when each of its members has the key of a field and a meaning. -/
theorem readTable_isOk (h : format.Independent path get means) {t : ConfigTable} (ht : t.Ascending)
    (hmembers : ∀ key value, t.value? key = some value →
      key ∈ format.keys ∧ ∃ b, means key value b) :
    ∃ record, format.readTable path t = .ok record := by
  unfold readTable
  generalize format.defaults = start
  induction t generalizing start with
  | nil => exact ⟨start, rfl⟩
  | cons head rest ih =>
    obtain ⟨name, file, value⟩ := head
    obtain ⟨hkey, b, hmeans⟩ := hmembers name value (by rw [ConfigTable.value?_cons, if_pos rfl])
    obtain ⟨first, hfirst⟩ := h.readMember_isOk hkey hmeans file start
    have hrest : ∀ key value, ConfigTable.value? rest key = some value →
        key ∈ format.keys ∧ ∃ b, means key value b := by
      intro key value hvalue
      have hne : key ≠ name := by
        rintro rfl
        rw [ht.value?_tail] at hvalue
        cases hvalue
      exact hmembers key value (by rw [ConfigTable.value?_cons, if_neg hne, hvalue])
    rw [List.foldlM_cons, hfirst]
    exact ih ht.tail hrest first

end Independent

/-! ## Records of texts -/

/-- A value means the text that it is. -/
def MeansText (value : ConfigValue) (b : Option String) : Prop :=
  ∃ text, value = .string text ∧ b = some text

/-- Fields that hold texts are independent when each is put into a place of its own. -/
theorem independent_of_texts {get : α → String → Option String}
    (h : ∀ field ∈ format.fields, ∃ expected put, field = .text field.name expected put ∧
      ∀ text record, get (put text record) field.name = some text ∧
        ∀ key, key ≠ field.name → get (put text record) key = get record key)
    (path : List String) : format.Independent path get fun _ => MeansText := by
  constructor
  · intro field hfield value record record' hstore
    obtain ⟨expected, put, hform, hput⟩ := h field hfield
    rw [hform, ConfigField.text] at hstore
    cases value with
    | string text =>
      obtain rfl := Except.ok.inj hstore
      obtain ⟨hget, hframe⟩ := hput text record
      exact ⟨⟨text, rfl, hget⟩, hframe⟩
    | boolean | signed | unsigned | float | sequence | table => cases hstore
  · rintro field hfield value b ⟨text, rfl, rfl⟩ record
    obtain ⟨expected, put, hform, -⟩ := h field hfield
    rw [hform]
    exact ⟨put text record, rfl⟩

end ConfigFormat

/-! ## The sections of a configuration -/

/-- The text under a key of the section `host`. -/
def HostConfig.get? (h : HostConfig) : String → Option String
  | "runtime" => some h.runtime
  | "version" => h.version
  | _ => none

/-- The text under a key of the section `discovery`. -/
def DiscoveryConfig.get? (d : DiscoveryConfig) : String → Option String
  | "start_directory" => d.startDirectory.map (·.text)
  | "manifest_pattern" => some d.manifestPattern
  | "module_pattern" => some d.modulePattern
  | _ => none

/-- The text under a key of the section `log`. -/
def LogConfig.get? (l : LogConfig) : String → Option String
  | "level" => some l.level
  | _ => none

theorem HostConfig.independent (path : List String) :
    HostConfig.format.Independent path HostConfig.get? fun _ => ConfigFormat.MeansText := by
  refine ConfigFormat.independent_of_texts ?_ path
  simp only [HostConfig.format, List.forall_mem_cons]
  refine ⟨⟨_, _, rfl, fun text record => ⟨rfl, fun key hkey => ?_⟩⟩,
    ⟨_, _, rfl, fun text record => ⟨rfl, fun key hkey => ?_⟩⟩, fun _ h => by cases h⟩
  all_goals
    unfold HostConfig.get?
    split <;> first | rfl | exact absurd rfl hkey

theorem DiscoveryConfig.independent (path : List String) :
    DiscoveryConfig.format.Independent path DiscoveryConfig.get?
      fun _ => ConfigFormat.MeansText := by
  refine ConfigFormat.independent_of_texts ?_ path
  simp only [DiscoveryConfig.format, List.forall_mem_cons]
  refine ⟨⟨_, _, rfl, fun text record => ⟨rfl, fun key hkey => ?_⟩⟩,
    ⟨_, _, rfl, fun text record => ⟨rfl, fun key hkey => ?_⟩⟩,
    ⟨_, _, rfl, fun text record => ⟨rfl, fun key hkey => ?_⟩⟩, fun _ h => by cases h⟩
  all_goals
    unfold DiscoveryConfig.get?
    split <;> first | rfl | exact absurd rfl hkey

theorem LogConfig.independent (path : List String) :
    LogConfig.format.Independent path LogConfig.get? fun _ => ConfigFormat.MeansText := by
  refine ConfigFormat.independent_of_texts ?_ path
  simp only [LogConfig.format, List.forall_mem_cons]
  refine ⟨⟨_, _, rfl, fun text record => ⟨rfl, fun key hkey => ?_⟩⟩, fun _ h => by cases h⟩
  unfold LogConfig.get?
  split <;> first | rfl | exact absurd rfl hkey

namespace Config

/-- The texts of a section, by their keys. -/
def section? (c : Config) : String → String → Option String
  | "host" => c.host.get?
  | "discovery" => c.discovery.get?
  | "log" => c.log.get?
  | _ => fun _ => none

theorem get?_eq (c : Config) (s : Setting) : c.get? s = c.section? s.sectionName s.key := by
  cases s <;> rfl

/-- The texts of the section that a value is read as. -/
def MeansSection : String → ConfigValue → (String → Option String) → Prop
  | "host", value, b => ∃ h, HostConfig.format.read ["host"] value = .ok h ∧ b = h.get?
  | "discovery", value, b =>
    ∃ d, DiscoveryConfig.format.read ["discovery"] value = .ok d ∧ b = d.get?
  | "log", value, b => ∃ l, LogConfig.format.read ["log"] value = .ok l ∧ b = l.get?
  | _, _, _ => False

theorem independent : Config.format.Independent [] section? MeansSection := by
  constructor
  · simp only [Config.format, List.forall_mem_cons, ConfigFormat.field, List.nil_append]
    refine ⟨fun value c c' hstore => ?_, fun value c c' hstore => ?_,
      fun value c c' hstore => ?_, fun _ h => by cases h⟩
    all_goals
      obtain ⟨record, hread, rfl⟩ := map_eq_ok_iff.mp hstore
      refine ⟨⟨record, hread, rfl⟩, fun key hkey => ?_⟩
      unfold section?
      split <;> first | rfl | exact absurd rfl hkey
  · simp only [Config.format, List.forall_mem_cons, ConfigFormat.field, List.nil_append]
    refine ⟨fun value b hmeans c => ?_, fun value b hmeans c => ?_, fun value b hmeans c => ?_,
      fun _ h => by cases h⟩
    all_goals
      obtain ⟨record, hread, rfl⟩ := hmeans
      exact ⟨_, map_eq_ok_iff.mpr ⟨record, hread, rfl⟩⟩

end Config

/-! ## What a configuration is read from -/

/-- What a format whose fields hold texts makes of the members of a section. -/
structure ConfigFormat.ReadsSection {α : Type} (format : ConfigFormat α) (name : String)
    (get? : α → String → Option String) : Prop where
  independent : format.Independent [name] get? fun _ => MeansText
  mem_keys_iff : ∀ key, key ∈ format.keys ↔ ∃ s : Setting, s.sectionName = name ∧ s.key = key
  defaults : get? format.defaults = ({} : Config).section? name

namespace ConfigFormat.ReadsSection

variable {α : Type} {format : ConfigFormat α} {name : String} {get? : α → String → Option String}

/-- A section that is read holds nothing but texts under keys of the section, and these or
the defaults are what has been read. -/
theorem of_read (h : format.ReadsSection name get?) {members : ConfigTable}
    (hmembers : members.Ascending) {record : α}
    (hread : format.read [name] (.table members) = .ok record) :
    members.IsSection name ∧ ∀ key, get? record key =
      ((members.value? key).bind ConfigValue.text?).or (({} : Config).section? name key) := by
  have hget := h.independent.get_of_readTable hmembers hread
  refine ⟨⟨hmembers, fun key value hvalue => ?_⟩, fun key => ?_⟩
  · have hkey := hget key
    rw [hvalue] at hkey
    obtain ⟨hmem, text, htext, -⟩ := hkey
    obtain ⟨s, hname, hs⟩ := (h.mem_keys_iff key).mp hmem
    exact ⟨s, hname, hs, text, htext⟩
  · have hkey := hget key
    cases hvalue : members.value? key with
    | none =>
      rw [hvalue, h.defaults] at hkey
      exact hkey
    | some value =>
      rw [hvalue] at hkey
      obtain ⟨-, text, rfl, htext⟩ := hkey
      exact htext

theorem read_isOk (h : format.ReadsSection name get?) {members : ConfigTable}
    (hmembers : members.IsSection name) :
    ∃ record, format.read [name] (.table members) = .ok record := by
  refine h.independent.readTable_isOk hmembers.ascending fun key value hvalue => ?_
  obtain ⟨s, hname, hkey, text, rfl⟩ := hmembers.settings key value hvalue
  exact ⟨(h.mem_keys_iff key).mpr ⟨s, hname, hkey⟩, some text, text, rfl, rfl⟩

end ConfigFormat.ReadsSection

theorem HostConfig.readsSection : HostConfig.format.ReadsSection "host" HostConfig.get? := by
  refine ⟨HostConfig.independent _, fun key => ⟨fun h => ?_, ?_⟩, rfl⟩
  · simp only [ConfigFormat.keys, HostConfig.format, List.map_cons, List.map_nil, List.mem_cons,
      List.not_mem_nil, or_false] at h
    rcases h with rfl | rfl
    · exact ⟨.runtime, rfl, rfl⟩
    · exact ⟨.version, rfl, rfl⟩
  · rintro ⟨s, hs, rfl⟩
    revert hs
    cases s <;> decide

theorem DiscoveryConfig.readsSection :
    DiscoveryConfig.format.ReadsSection "discovery" DiscoveryConfig.get? := by
  refine ⟨DiscoveryConfig.independent _, fun key => ⟨fun h => ?_, ?_⟩, rfl⟩
  · simp only [ConfigFormat.keys, DiscoveryConfig.format, List.map_cons, List.map_nil,
      List.mem_cons, List.not_mem_nil, or_false] at h
    rcases h with rfl | rfl | rfl
    · exact ⟨.startDirectory, rfl, rfl⟩
    · exact ⟨.manifestPattern, rfl, rfl⟩
    · exact ⟨.modulePattern, rfl, rfl⟩
  · rintro ⟨s, hs, rfl⟩
    revert hs
    cases s <;> decide

theorem LogConfig.readsSection : LogConfig.format.ReadsSection "log" LogConfig.get? := by
  refine ⟨LogConfig.independent _, fun key => ⟨fun h => ?_, ?_⟩, rfl⟩
  · simp only [ConfigFormat.keys, LogConfig.format, List.map_cons, List.map_nil, List.mem_cons,
      List.not_mem_nil, or_false] at h
    exact h ▸ ⟨.level, rfl, rfl⟩
  · rintro ⟨s, hs, rfl⟩
    revert hs
    cases s <;> decide

/-- A table whose sections are tables themselves. -/
structure ConfigTable.HasSections (t : ConfigTable) : Prop where
  ascending : t.Ascending
  sections : ∀ (s : Setting) value, t.value? s.sectionName = some value →
    ∃ members, value = .table members ∧ ConfigTable.Ascending members

namespace Config

variable {t : ConfigTable} {c : Config}

/-- The name of a section that has a meaning is that of a setting. -/
theorem MeansSection.exists_setting {name : String} {value : ConfigValue}
    {b : String → Option String} (h : MeansSection name value b) :
    ∃ s : Setting, s.sectionName = name := by
  unfold MeansSection at h
  split at h
  · exact ⟨.runtime, rfl⟩
  · exact ⟨.startDirectory, rfl⟩
  · exact ⟨.level, rfl⟩
  · exact h.elim

theorem MeansSection.of_table {name : String} {members : ConfigTable} {b : String → Option String}
    (h : MeansSection name (.table members) b) (hmembers : members.Ascending) :
    members.IsSection name ∧ ∀ key, b key =
      ((members.value? key).bind ConfigValue.text?).or (({} : Config).section? name key) := by
  unfold MeansSection at h
  split at h
  · obtain ⟨record, hread, rfl⟩ := h
    exact HostConfig.readsSection.of_read hmembers hread
  · obtain ⟨record, hread, rfl⟩ := h
    exact DiscoveryConfig.readsSection.of_read hmembers hread
  · obtain ⟨record, hread, rfl⟩ := h
    exact LogConfig.readsSection.of_read hmembers hread
  · exact h.elim

theorem exists_meansSection {s : Setting} {members : ConfigTable}
    (h : members.IsSection s.sectionName) :
    s.sectionName ∈ Config.format.keys ∧ ∃ b, MeansSection s.sectionName (.table members) b := by
  cases s with
  | runtime | version =>
    obtain ⟨record, hread⟩ := HostConfig.readsSection.read_isOk h
    exact ⟨by decide, _, record, hread, rfl⟩
  | startDirectory | manifestPattern | modulePattern =>
    obtain ⟨record, hread⟩ := DiscoveryConfig.readsSection.read_isOk h
    exact ⟨by decide, _, record, hread, rfl⟩
  | level =>
    obtain ⟨record, hread⟩ := LogConfig.readsSection.read_isOk h
    exact ⟨by decide, _, record, hread, rfl⟩

/-- A table that is read follows the schema, and each setting has the text of the table, or
its default. -/
theorem of_ofTable (ht : t.HasSections) (hread : ofTable t = .ok c) :
    t.FollowsSchema ∧ ∀ s, c.get? s = (t.text? s).or (({} : Config).get? s) := by
  have hget := independent.get_of_readTable ht.ascending hread
  refine ⟨⟨ht.ascending, fun name value hvalue => ?_⟩, fun s => ?_⟩
  · have hname := hget name
    rw [hvalue] at hname
    obtain ⟨s, rfl⟩ := hname.2.exists_setting
    obtain ⟨members, rfl, hmembers⟩ := ht.sections s value hvalue
    exact ⟨⟨s, rfl⟩, members, rfl, (hname.2.of_table hmembers).1⟩
  · have hname := hget s.sectionName
    rw [get?_eq, get?_eq, ConfigTable.text?]
    cases hvalue : t.value? s.sectionName with
    | none =>
      rw [hvalue] at hname
      exact congrFun hname s.key
    | some value =>
      rw [hvalue] at hname
      obtain ⟨members, rfl, hmembers⟩ := ht.sections s value hvalue
      exact (hname.2.of_table hmembers).2 s.key

theorem ofTable_isOk (h : t.FollowsSchema) : ∃ c, ofTable t = .ok c := by
  refine independent.readTable_isOk h.ascending fun name value hvalue => ?_
  obtain ⟨⟨s, rfl⟩, members, rfl, hmembers⟩ := h.sections name value hvalue
  exact exists_meansSection hmembers

/-- A table whose sections are tables is read just when it follows the schema, and each setting
then has the text of the table, or its default. -/
theorem ofTable_eq_ok_iff (ht : t.HasSections) : ofTable t = .ok c ↔
    t.FollowsSchema ∧ ∀ s, c.get? s = (t.text? s).or (({} : Config).get? s) := by
  refine ⟨of_ofTable ht, fun ⟨hschema, hget⟩ => ?_⟩
  obtain ⟨c', hread⟩ := ofTable_isOk hschema
  have hsame : c' = c := ext_get? fun s => by rw [(of_ofTable ht hread).2 s, hget s]
  rw [hread, hsame]

end Config
end PluginHost
