import PluginHost.Config.Loading
import PluginHost.Proofs.Config.Formats

/-! # Layers of settings

Tables are laid onto each other and the result is read.  What is read from a table with
sections, laid onto one that follows the schema, is the upper text of each setting, or else the
lower, or else the default (`Config.ofTable_onto_eq_ok_iff`).  So nothing that does not follow
the schema is covered up by what lies above or below it. -/
namespace PluginHost
namespace ConfigTable

variable {upper lower : ConfigTable} {name : String}

/-- A table that follows the schema has tables for sections. -/
theorem FollowsSchema.hasSections {t : ConfigTable} (h : t.FollowsSchema) : t.HasSections := by
  refine ⟨h.ascending, fun s value hvalue => ?_⟩
  obtain ⟨-, members, rfl, hmembers⟩ := h.sections _ value hvalue
  exact ⟨members, rfl, hmembers.ascending⟩

theorem hasSections_ofToml {t : TomlTable} (h : t.HasSections) (file : Option Path) :
    (ofToml file t).HasSections := by
  refine ⟨ascending_ofToml file t, fun s value hvalue => ?_⟩
  rw [value?_ofToml] at hvalue
  obtain ⟨outer, houter, rfl⟩ := Option.map_eq_some_iff.mp hvalue
  obtain ⟨origin, members, rfl⟩ := h s outer houter
  exact ⟨_, ofToml_eq_table.mpr ⟨origin, members, rfl, rfl⟩, ascending_ofToml file members⟩

/-! ## What is laid onto another stays recognizable -/

/-- A table that is laid onto a value is a table again, with the members of the value under
its own if the value has any. -/
theorem table_onto_cases (members : ConfigTable) (below : ConfigValue) :
    (ConfigValue.table members).onto below = .table members ∨
      ∃ inner, below = .table inner ∧
        (ConfigValue.table members).onto below = .table (members.onto inner) := by
  cases below with
  | table inner => exact .inr ⟨inner, rfl, onto_table members inner⟩
  | string | boolean | signed | unsigned | float | sequence =>
    left
    simp [ConfigValue.onto]

/-- What makes a table when it is laid onto one is a table. -/
theorem exists_table_of_onto {value : ConfigValue} {inner members : ConfigTable}
    (h : value.onto (.table inner) = .table members) :
    ∃ upper : ConfigTable, value = .table upper ∧ members = upper.onto inner := by
  by_cases htable : ∃ upper, value = .table upper
  · obtain ⟨upper, rfl⟩ := htable
    rw [onto_table] at h
    exact ⟨upper, rfl, (ConfigValue.table.inj h).symm⟩
  · rw [onto_of_ne_table fun upper heq => htable ⟨upper, heq⟩] at h
    exact absurd ⟨members, h⟩ htable

/-- A value that makes a text, whatever it is laid onto, is this text. -/
theorem eq_string_of_onto {value below : ConfigValue} {text : String}
    (h : value.onto below = .string text) : value = .string text := by
  by_cases htable : ∃ members, value = .table members
  · obtain ⟨members, rfl⟩ := htable
    rcases table_onto_cases members below with heq | ⟨inner, -, heq⟩
    all_goals
      rw [heq] at h
      cases h
  · rw [onto_of_ne_table fun members heq => htable ⟨members, heq⟩] at h
    exact h

/-- A value of the upper table is found after laying it onto the lower, or what it makes with
the lower value is. -/
theorem value?_onto_of_some (hupper : upper.Ascending) {key : String} {value : ConfigValue}
    (hvalue : upper.value? key = some value) (lower : ConfigTable) :
    (upper.onto lower).value? key = some value ∨
      ∃ below, lower.value? key = some below ∧
        (upper.onto lower).value? key = some (value.onto below) := by
  rw [value?_onto hupper, hvalue]
  cases lower.value? key with
  | none => exact .inl rfl
  | some below => exact .inr ⟨below, rfl, rfl⟩

theorem IsSection.of_onto (hupper : upper.Ascending) (h : (upper.onto lower).IsSection name) :
    upper.IsSection name := by
  refine ⟨hupper, fun key value hvalue => ?_⟩
  rcases value?_onto_of_some hupper hvalue lower with hlaid | ⟨below, -, hlaid⟩
  · exact h.settings key value hlaid
  · obtain ⟨s, hname, hkey, text, htext⟩ := h.settings key _ hlaid
    exact ⟨s, hname, hkey, text, eq_string_of_onto htext⟩

/-- What follows the schema after it was laid onto another table did before. -/
theorem FollowsSchema.of_onto (hupper : upper.HasSections) (h : (upper.onto lower).FollowsSchema) :
    upper.FollowsSchema := by
  refine ⟨hupper.ascending, fun name value hvalue => ?_⟩
  rcases value?_onto_of_some hupper.ascending hvalue lower with hlaid | ⟨below, -, hlaid⟩
  · exact h.sections name value hlaid
  · obtain ⟨⟨s, rfl⟩, members', hmembers', hsection⟩ := h.sections name _ hlaid
    obtain ⟨members, rfl, hmembers⟩ := hupper.sections s value hvalue
    refine ⟨⟨s, rfl⟩, members, rfl, ?_⟩
    rcases table_onto_cases members below with heq | ⟨inner, -, heq⟩
    · obtain rfl := ConfigValue.table.inj (heq.symm.trans hmembers')
      exact hsection
    · obtain rfl := ConfigValue.table.inj (heq.symm.trans hmembers')
      exact hsection.of_onto hmembers

theorem HasSections.onto (hupper : upper.HasSections) (hlower : lower.HasSections) :
    (upper.onto lower).HasSections := by
  refine ⟨hlower.ascending.onto upper, fun s value hvalue => ?_⟩
  rw [value?_onto hupper.ascending] at hvalue
  cases hu : upper.value? s.sectionName with
  | none =>
    rw [hu] at hvalue
    exact hlower.sections s value hvalue
  | some above =>
    obtain ⟨members, rfl, hmembers⟩ := hupper.sections s above hu
    rw [hu] at hvalue
    cases hl : lower.value? s.sectionName with
    | none =>
      rw [hl] at hvalue
      exact ⟨members, (Option.some.inj hvalue).symm, hmembers⟩
    | some below =>
      obtain ⟨inner, rfl, hinner⟩ := hlower.sections s below hl
      rw [hl, laidOnto, onto_table] at hvalue
      exact ⟨_, (Option.some.inj hvalue).symm, hinner.onto members⟩

/-! ## What stands at a setting -/

/-- What a table holds where it sets a setting, be it a text or not. -/
def valueAt? (t : ConfigTable) (s : Setting) : Option ConfigValue :=
  (t.value? s.sectionName).bind (ConfigValue.member? s.key)

theorem text?_eq (t : ConfigTable) (s : Setting) :
    t.text? s = (t.valueAt? s).bind ConfigValue.text? := rfl

/-- Nothing but texts stands at settings where the schema is followed. -/
theorem FollowsSchema.eq_string_of_valueAt? {t : ConfigTable} (h : t.FollowsSchema) {s : Setting}
    {value : ConfigValue} (hvalue : t.valueAt? s = some value) : ∃ text, value = .string text := by
  obtain ⟨outer, houter, hinner⟩ := Option.bind_eq_some_iff.mp hvalue
  obtain ⟨-, members, rfl, hmembers⟩ := h.sections _ outer houter
  obtain ⟨-, -, -, htext⟩ := hmembers.settings s.key value hinner
  exact htext

/-- What stands at a setting is laid onto what stood there, and onto nothing else. -/
theorem HasSections.valueAt?_onto (hupper : upper.HasSections) (hlower : lower.HasSections)
    (s : Setting) :
    (upper.onto lower).valueAt? s = laidOnto (upper.valueAt? s) (lower.valueAt? s) := by
  rw [valueAt?, valueAt?, valueAt?, value?_onto hupper.ascending]
  cases hu : upper.value? s.sectionName with
  | none => rfl
  | some above =>
    obtain ⟨members, rfl, hmembers⟩ := hupper.sections s above hu
    cases hl : lower.value? s.sectionName with
    | none =>
      rw [laidOnto, Option.bind_some, Option.bind_none]
      cases (ConfigValue.table members).member? s.key <;> rfl
    | some below =>
      obtain ⟨inner, rfl, -⟩ := hlower.sections s below hl
      rw [laidOnto, onto_table]
      exact value?_onto hmembers inner s.key

/-- Tables that hold nothing at a setting leave what stands there when they are laid onto
another. -/
theorem valueAt?_foldl_onto {s : Setting} {tables : List ConfigTable}
    (htables : ∀ t ∈ tables, t.HasSections ∧ t.valueAt? s = none) (hlower : lower.HasSections) :
    (tables.foldl (fun lower upper => upper.onto lower) lower).HasSections ∧
      (tables.foldl (fun lower upper => upper.onto lower) lower).valueAt? s =
        lower.valueAt? s := by
  induction tables generalizing lower with
  | nil => exact ⟨hlower, rfl⟩
  | cons t rest ih =>
    obtain ⟨ht, hnone⟩ := htables t List.mem_cons_self
    obtain ⟨hsections, hvalue⟩ :=
      ih (fun u hu => htables u (List.mem_cons_of_mem t hu)) (ht.onto hlower)
    refine ⟨hsections, hvalue.trans ?_⟩
    rw [ht.valueAt?_onto hlower, hnone, laidOnto_none]

end ConfigTable

/-! ## What is read from layers -/

namespace Config

variable {upper lower : ConfigTable} {c : Config}

/-- A table with sections that is laid onto one that follows the schema is read just when it
follows the schema too.  Each setting then has its upper text, or else its lower, or else its
default. -/
theorem ofTable_onto_eq_ok_iff (hupper : upper.HasSections) (hlower : lower.FollowsSchema) :
    ofTable (upper.onto lower) = .ok c ↔ upper.FollowsSchema ∧
      ∀ s, c.get? s = ((upper.text? s).or (lower.text? s)).or (({} : Config).get? s) := by
  rw [ofTable_eq_ok_iff (hupper.onto hlower.hasSections)]
  constructor
  · rintro ⟨h, hget⟩
    have hschema := h.of_onto hupper
    exact ⟨hschema, fun s => by rw [hget s, hschema.text?_onto hlower]⟩
  · rintro ⟨hschema, hget⟩
    exact ⟨hschema.onto hlower, fun s => by rw [hget s, hschema.text?_onto hlower]⟩

/-- A valid configuration passes the checks as it is. -/
theorem checked_eq_ok_iff {c c' : Config} : checked c = .ok c' ↔ c.violations = [] ∧ c = c' := by
  unfold checked
  cases c.violations <;> simp

/-- What is loaded has been read and is valid. -/
theorem bind_checked_eq_ok_iff {read : Except (List ConfigError) Config} :
    read >>= checked = .ok c ↔ read = .ok c ∧ c.violations = [] := by
  cases read with
  | error errors => simp [bind, Except.bind]
  | ok c' =>
    simp only [bind, Except.bind, checked_eq_ok_iff, Except.ok.injEq]
    constructor
    · rintro ⟨hvalid, rfl⟩
      exact ⟨rfl, hvalid⟩
    · rintro ⟨rfl, hvalid⟩
      exact ⟨hvalid, rfl⟩

theorem followsSchema_defaultTable : defaultTable.FollowsSchema :=
  ConfigTable.followsSchema_ofToml_iff.mpr (followsSchema_toml {})

theorem text?_defaultTable (s : Setting) : defaultTable.text? s = ({} : Config).get? s := by
  rw [defaultTable, ConfigTable.text?_ofToml_table, text?_toml]

theorem readLayers_eq_ok_iff {sources : List ConfigSource} {tables : List ConfigTable} :
    readLayers sources (tables.map .ok) = .ok c ↔
      ofTable (tables.foldl (fun lower upper => upper.onto lower) defaultTable) = .ok c := by
  have herrors : (tables.map Except.ok).filterMap ConfigLayer.error? = [] := by
    rw [List.filterMap_map]
    exact List.filterMap_eq_nil_iff.mpr fun _ _ => rfl
  have htables : (tables.map Except.ok).map ConfigLayer.table = tables := by
    rw [List.map_map]
    exact List.map_id tables
  unfold readLayers
  rw [herrors, merged, htables]
  dsimp only
  cases ofTable (tables.foldl (fun lower upper => upper.onto lower) defaultTable) <;>
    simp [Except.mapError]

/-- Tables that follow the schema make one that does when they are laid onto each other, and
the highest that sets a setting counts. -/
theorem text?_foldl_onto {tables : List ConfigTable} (htables : ∀ t ∈ tables, t.FollowsSchema)
    (hlower : lower.FollowsSchema) :
    (tables.foldl (fun lower upper => upper.onto lower) lower).FollowsSchema ∧
      ∀ s, (tables.foldl (fun lower upper => upper.onto lower) lower).text? s =
        (tables.reverse.findSome? (·.text? s)).or (lower.text? s) := by
  induction tables generalizing lower with
  | nil => exact ⟨hlower, fun _ => rfl⟩
  | cons t rest ih =>
    have ht := htables t List.mem_cons_self
    obtain ⟨hschema, htext⟩ :=
      ih (fun u hu => htables u (List.mem_cons_of_mem t hu)) (ht.onto hlower)
    refine ⟨hschema, fun s => ?_⟩
    rw [List.foldl_cons, htext s, ht.text?_onto hlower, List.reverse_cons,
      List.findSome?_append, Option.or_assoc]
    cases ht' : t.text? s <;> simp [List.findSome?, ht']

/-- **Layers that follow the schema are read**, and each setting has the text of the highest
layer that sets it, or its default. -/
theorem readLayers_of_followsSchema (sources : List ConfigSource) {tables : List ConfigTable}
    (htables : ∀ t ∈ tables, t.FollowsSchema) :
    ∃ c, readLayers sources (tables.map .ok) = .ok c ∧ ∀ s, c.get? s =
      (tables.reverse.findSome? (·.text? s)).or (({} : Config).get? s) := by
  obtain ⟨hschema, htext⟩ := text?_foldl_onto htables followsSchema_defaultTable
  obtain ⟨c, hread⟩ := ofTable_isOk hschema
  refine ⟨c, readLayers_eq_ok_iff.mpr hread, fun s => ?_⟩
  rw [(of_ofTable hschema.hasSections hread).2 s, htext s, text?_defaultTable, Option.or_assoc,
    Option.or_self]

end Config
end PluginHost
