import PluginHost.Proofs.Config.Layers

/-! # Which texts are configurations

A text whose sections are tables, however they are written, is read as a configuration just
when it is TOML and follows the schema; what it sets is then the configuration, and what it
does not set has its default (`Config.readText_eq_ok_iff`).  In particular a key that no
setting has is an error, whatever else is set (`Config.accepts_exactly_schema`). -/
namespace PluginHost

namespace TomlTable

/-- There is a key that no setting has: at the top, or in a section. -/
def HasUnknownKey (t : TomlTable) : Prop :=
  (∃ name value, t.lookup name = some value ∧ ∀ s : Setting, s.sectionName ≠ name) ∨
  ∃ name origin members, t.lookup name = some (.table origin members) ∧
    ∃ key value, members.lookup key = some value ∧
      ∀ s : Setting, s.sectionName = name → s.key ≠ key

theorem HasUnknownKey.not_followsSchema {t : TomlTable} (h : t.HasUnknownKey) :
    ¬t.FollowsSchema := by
  intro hschema
  rcases h with ⟨name, value, hvalue, hunknown⟩ | ⟨name, origin, members, hmembers, key, value,
    hvalue, hunknown⟩
  · obtain ⟨⟨s, hs⟩, -⟩ := hschema.sections name value hvalue
    exact hunknown s hs
  · obtain ⟨s, hname, hkey, -⟩ := hschema.settings name origin members hmembers key value hvalue
    exact hunknown s hname hkey

/-- Whether a value is a table. -/
def isTable : Toml → Bool
  | .table _ _ => true
  | _ => false

instance (t : TomlTable) : Decidable t.HasSections :=
  decidable_of_iff (∀ s ∈ Setting.all, (t.lookup s.sectionName).all isTable = true) <| by
    constructor
    · intro h s value hvalue
      have htable := h s s.mem_all
      rw [hvalue] at htable
      cases value with
      | table origin members => exact ⟨origin, members, rfl⟩
      | string | integer | float | boolean | array | tables => cases htable
    · intro h s _
      cases hvalue : t.lookup s.sectionName with
      | none => rfl
      | some value =>
        obtain ⟨origin, members, rfl⟩ := h s value hvalue
        rfl

end TomlTable

namespace Config

variable {text : String} {t : TomlTable} {c : Config}

theorem readText_of_malformed (h : TomlTable.ofText? text = none) :
    readText text = .error [.malformed] := by
  rw [readText, ConfigLayer.ofText, h]
  rfl

/-- What is wrong with a text that is TOML is told by one error. -/
theorem readText_cases (h : TomlTable.ofText? text = some t) :
    (∃ c, readText text = .ok c) ∨ ∃ error, readText text = .error [error] := by
  rw [readText, ConfigLayer.ofText, h]
  unfold readLayers
  cases ofTable (merged [.ok (.ofToml none t)]) with
  | ok c => exact .inl ⟨c, rfl⟩
  | error fault => exact .inr ⟨_, rfl⟩

/-- A text that is TOML is one layer. -/
theorem readText_eq_readLayers (h : TomlTable.ofText? text = some t) :
    readText text = readLayers [inlineSource text] ([ConfigTable.ofToml none t].map .ok) := by
  rw [readText, ConfigLayer.ofText, h]
  rfl

theorem readText_isOk (h : TomlTable.ofText? text = some t) (hschema : t.FollowsSchema) :
    ∃ c, readText text = .ok c := by
  have htable : ∀ u ∈ [ConfigTable.ofToml none t], u.FollowsSchema :=
    List.forall_mem_singleton.mpr (ConfigTable.followsSchema_ofToml_iff.mpr hschema)
  obtain ⟨c, hread, -⟩ := readLayers_of_followsSchema [inlineSource text] htable
  exact ⟨c, (readText_eq_readLayers h).trans hread⟩

/-- A text that is TOML with tables for sections is read just when it follows the schema, and
each setting then has the text that it is set to, or its default. -/
theorem readText_eq_ok_iff (h : TomlTable.ofText? text = some t) (hsections : t.HasSections) :
    readText text = .ok c ↔
      t.FollowsSchema ∧ ∀ s, c.get? s = (t.text? s).or (({} : Config).get? s) := by
  rw [readText_eq_readLayers h, readLayers_eq_ok_iff, List.foldl_cons, List.foldl_nil,
    ofTable_onto_eq_ok_iff (ConfigTable.hasSections_ofToml hsections none)
      followsSchema_defaultTable, ConfigTable.followsSchema_ofToml_iff]
  simp only [ConfigTable.text?_ofToml_table, text?_defaultTable, Option.or_assoc, Option.or_self]

/-- **A text is accepted just when it follows the schema.**  Where sections are tables, a text
is read as a configuration just when it is TOML, has no keys at the top but the sections, and
no keys in a section but those of its settings, which hold texts.  What is read is what the
text sets, and the defaults besides.  An unknown key is an error, whatever else is set. -/
theorem accepts_exactly_schema (text : String)
    (hsections : ∀ t, TomlTable.ofText? text = some t → t.HasSections) :
    ((∃ c, readText text = .ok c) ↔
      ∃ t, TomlTable.ofText? text = some t ∧ t.FollowsSchema) ∧
    (∀ t c, TomlTable.ofText? text = some t → readText text = .ok c →
      ∀ s, c.get? s = (t.text? s).or (({} : Config).get? s)) ∧
    ∀ t, TomlTable.ofText? text = some t → t.HasUnknownKey →
      ∃ error, readText text = .error [error] := by
  cases ht : TomlTable.ofText? text with
  | none =>
    rw [readText_of_malformed ht]
    refine ⟨⟨?_, ?_⟩, fun _ _ h => ?_, fun _ h => ?_⟩
    · rintro ⟨c, h⟩
      cases h
    · rintro ⟨t, h, -⟩
      cases h
    all_goals cases h
  | some t =>
    have hiff : ∀ {c}, readText text = .ok c ↔
        t.FollowsSchema ∧ ∀ s, c.get? s = (t.text? s).or (({} : Config).get? s) :=
      readText_eq_ok_iff ht (hsections t ht)
    refine ⟨⟨?_, ?_⟩, ?_, ?_⟩
    · rintro ⟨c, hread⟩
      exact ⟨t, rfl, (hiff.mp hread).1⟩
    · rintro ⟨_, h, hschema⟩
      obtain rfl := Option.some.inj h
      exact readText_isOk ht hschema
    · intro _ c h hread
      obtain rfl := Option.some.inj h
      exact (hiff.mp hread).2
    · intro _ h hunknown
      obtain rfl := Option.some.inj h
      rcases readText_cases ht with ⟨c, hread⟩ | herror
      · exact absurd (hiff.mp hread).1 hunknown.not_followsSchema
      · exact herror

/-- A text in which the sections are written between braces, with a dotted key and below a
header. -/
def mixedText : String :=
  "log = \x7b level = 'warn' \x7d\nhost.runtime = 'desktop'\n" ++
    "[discovery]\nmodule_pattern = '*.mod'\n"

/-- A text that follows the schema in every notation is accepted, and sets what it says. -/
theorem accepts_exactly_schema_of_mixed :
    ∃ t c, TomlTable.ofText? mixedText = some t ∧ t.HasSections ∧ t.FollowsSchema ∧
      readText mixedText = .ok c ∧ c.get? .level = some "warn" ∧
      c.get? .runtime = some "desktop" ∧ c.get? .modulePattern = some "*.mod" ∧
      c.get? .manifestPattern = some "*.addins" ∧ c.get? .version = none := by
  have htable : ((TomlTable.ofText? mixedText).any fun t => decide t.HasSections &&
      Setting.all.map t.text? ==
        [some "desktop", none, none, none, some "*.mod", some "warn"]) = true := by
    decide +kernel
  have hread : ((readText mixedText).toOption.any fun _ => true) = true := by decide +kernel
  obtain ⟨t, ht, htable⟩ := (Option.any_eq_true _ _).mp htable
  obtain ⟨hsections, htexts⟩ := Bool.and_eq_true_iff.mp htable
  obtain ⟨c, hc, -⟩ := (Option.any_eq_true _ _).mp hread
  have hread := eq_ok_of_toOption hc
  have hsections := of_decide_eq_true hsections
  have hall : ∀ t', TomlTable.ofText? mixedText = some t' → t'.HasSections := by
    intro t' ht'
    obtain rfl := Option.some.inj (ht.symm.trans ht')
    exact hsections
  obtain ⟨hiff, hget, -⟩ := accepts_exactly_schema mixedText hall
  obtain ⟨t', ht', hschema⟩ := hiff.mp ⟨c, hread⟩
  obtain rfl := Option.some.inj (ht.symm.trans ht')
  have hget := hget t c ht hread
  have htexts := eq_of_beq htexts
  simp only [Setting.all, List.map_cons, List.cons.injEq] at htexts
  obtain ⟨hruntime, hversion, -, hmanifest, hmodule, hlevel, -⟩ := htexts
  refine ⟨t, c, ht, hsections, hschema, hread, ?_, ?_, ?_, ?_, ?_⟩
  · rw [hget, hlevel]; rfl
  · rw [hget, hruntime]; rfl
  · rw [hget, hmodule]; rfl
  · rw [hget, hmanifest]; rfl
  · rw [hget, hversion]; rfl

end Config
end PluginHost
