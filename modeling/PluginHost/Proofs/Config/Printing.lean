import PluginHost.Proofs.Config.Schema
import PluginHost.Proofs.Toml.Sections

/-! # A printed configuration is read back

A configuration is printed as sections with settings below their headers, each name once and
none with quotes (`PrintedSection.IsWritable`).  Such a text is the table of its sections
(`PrintedSection.ofText?_texts`), whatever texts the settings hold, so reading what was printed
gives the configuration again (`Config.printed_reads_back`). -/
namespace PluginHost

namespace PrintedSection

/-- The pieces of the text of a section. -/
def pieces : PrintedSection → List TomlPiece
  | (name, settings) =>
    .header ⟨[], name⟩ :: settings.map fun (key, text) => .setting ⟨[], key⟩ (.string text)

/-- A section of which the name and the keys need no quotes, and which has each key once. -/
structure IsWritable (s : PrintedSection) : Prop where
  name : TomlText.IsBareName s.1.toList
  keys : ∀ setting ∈ s.2, TomlText.IsBareName setting.1.toList
  nodup : (s.2.map Prod.fst).Nodup

/-! ## The text of a section -/

theorem toList_settingLine (key text : String) : (settingLine key text).toList =
    key.toList ++ ' ' :: '=' :: ' ' :: (TomlText.write text.toList ++ ['\n']) := by
  simp [settingLine]

/-- The text of a section holds its pieces. -/
theorem IsWritable.spells {s : PrintedSection} (h : s.IsWritable) :
    TomlText.Spells s.text.toList s.pieces := by
  obtain ⟨name, settings⟩ := s
  have hheader := TomlText.spells_header h.name
  have hlines : TomlText.Spells
      (settings.flatMap fun setting => (settingLine setting.1 setting.2).toList)
      (settings.flatMap fun setting => [.setting ⟨[], setting.1⟩ (.string setting.2)]) := by
    refine .flatMap fun setting hmem => ?_
    have hsetting := TomlText.spells_setting (h.keys setting hmem) setting.2.toList
    rw [String.ofList_toList, String.ofList_toList] at hsetting
    rw [toList_settingLine]
    exact hsetting
  have htext : PrintedSection.text (name, settings) = "[" ++ name ++ "]\n" ++
      String.join (settings.map fun setting => settingLine setting.1 setting.2) := rfl
  rw [String.ofList_toList] at hheader
  rw [htext, String.toList_append, String.toList_join, List.flatMap_map]
  have hfirst : ("[" ++ name ++ "]\n").toList = '[' :: (name.toList ++ [']', '\n']) := by simp
  rw [hfirst, pieces, ← List.flatMap_singleton' (settings.map _), List.flatMap_map]
  exact hheader.append hlines

/-! ## The table of a section -/

/-- Settings with new keys go into the table that was begun last. -/
theorem foldlM_add_settings {t : TomlTable} {name : String} (hname : t.lookup name = none)
    {settings : List (String × String)} (hnodup : (settings.map Prod.fst).Nodup)
    {members : TomlTable} (hkeys : ∀ setting ∈ settings, members.lookup setting.1 = none) :
    (settings.map fun (key, text) => TomlPiece.setting ⟨[], key⟩ (.string text)).foldlM
        TomlTable.add ([name], t ++ [(name, .table .header members)]) =
      some ([name], t ++ [(name, .table .header
        (members ++ settings.map fun (key, text) => (key, .string text)))]) := by
  induction settings generalizing members with
  | nil => simp
  | cons setting settings ih =>
    obtain ⟨key, text⟩ := setting
    obtain ⟨hnew, hnodup⟩ := List.nodup_cons.mp hnodup
    have hadded : ∀ other ∈ settings,
        (members ++ [(key, Toml.string text)]).lookup other.1 = none := by
      intro other hmem
      have hother : other.1 ∈ settings.map Prod.fst := List.mem_map_of_mem hmem
      have hne : other.1 ≠ key := fun h => hnew (h ▸ hother)
      rw [List.lookup_append, hkeys other (List.mem_cons_of_mem _ hmem),
        Lists.lookup_cons_eq_ite, if_neg hne]
      rfl
    rw [List.map_cons, List.foldlM_cons,
      TomlTable.add_setting hname (hkeys (key, text) List.mem_cons_self)]
    refine (ih hnodup hadded).trans ?_
    rw [List.append_assoc, List.map_cons, List.singleton_append]

/-- A section with a new name is added to the table. -/
theorem IsWritable.foldlM_add {s : PrintedSection} (h : s.IsWritable) {t : TomlTable}
    (hname : t.lookup s.1 = none) (here : List String) :
    s.pieces.foldlM TomlTable.add (here, t) = some ([s.1], t ++ [s.toml]) := by
  obtain ⟨name, settings⟩ := s
  rw [pieces, List.foldlM_cons, TomlTable.add_header here hname]
  exact foldlM_add_settings hname h.nodup fun _ _ => rfl

/-- Sections with new names are added to the table one after the other. -/
theorem foldlM_add_sections {sections : List PrintedSection}
    (hwritable : ∀ s ∈ sections, s.IsWritable) (hnodup : (sections.map Prod.fst).Nodup)
    {t : TomlTable} (hnames : ∀ s ∈ sections, t.lookup s.1 = none) (here : List String) :
    ((sections.flatMap pieces).foldlM TomlTable.add (here, t)).map Prod.snd =
      some (t ++ sections.map PrintedSection.toml) := by
  induction sections generalizing t here with
  | nil => simp
  | cons s sections ih =>
    obtain ⟨hnew, hnodup⟩ := List.nodup_cons.mp hnodup
    have hadded : ∀ other ∈ sections, (t ++ [s.toml]).lookup other.1 = none := by
      intro other hmem
      have hne : other.1 ≠ s.1 := fun h => hnew (h ▸ List.mem_map_of_mem hmem)
      obtain ⟨name, settings⟩ := s
      rw [List.lookup_append, hnames other (List.mem_cons_of_mem _ hmem), PrintedSection.toml,
        Lists.lookup_cons_eq_ite, if_neg hne]
      rfl
    rw [List.flatMap_cons, List.foldlM_append,
      (hwritable s List.mem_cons_self).foldlM_add (hnames s List.mem_cons_self)]
    refine (ih (fun u hu => hwritable u (List.mem_cons_of_mem s hu)) hnodup hadded _).trans ?_
    rw [List.append_assoc, List.map_cons, List.singleton_append]

/-! ## Reading sections -/

theorem skipMark_texts (sections : List PrintedSection) :
    TomlText.skipMark (List.intercalate ['\n'] (sections.map fun s => s.text.toList)) =
      List.intercalate ['\n'] (sections.map fun s => s.text.toList) := by
  cases sections with
  | nil => rfl
  | cons s sections =>
    -- A section begins with a bracket, and so does the text.
    obtain ⟨others, hothers⟩ : ∃ others, s.text.toList = '[' :: others := by
      obtain ⟨name, settings⟩ := s
      simp [PrintedSection.text]
    cases sections with
    | nil =>
      rw [List.map_singleton, List.intercalate_singleton, hothers]
      rfl
    | cons s' sections =>
      rw [List.map_cons, List.map_cons, List.intercalate_cons_cons, hothers]
      rfl

/-- The text of sections with different names is their table. -/
theorem ofText?_texts {sections : List PrintedSection} (hwritable : ∀ s ∈ sections, s.IsWritable)
    (hnodup : (sections.map Prod.fst).Nodup) :
    TomlTable.ofText? ("\n".intercalate (sections.map PrintedSection.text)) =
      some (sections.map PrintedSection.toml) := by
  have hspells : TomlText.Spells (List.intercalate ['\n'] (sections.map fun s => s.text.toList))
      (sections.flatMap pieces) := .intercalate fun s hs => (hwritable s hs).spells
  have htext : ("\n".intercalate (sections.map PrintedSection.text)).toList =
      List.intercalate ['\n'] (sections.map fun s => s.text.toList) := by
    rw [String.toList_intercalate, List.map_map]
    rfl
  rw [TomlTable.ofText?, htext, skipMark_texts, hspells.pieces?_eq, Option.bind_some,
    TomlTable.ofPieces]
  exact foldlM_add_sections hwritable hnodup (fun _ _ => rfl) []

end PrintedSection

namespace Setting

/-- The names of settings need no quotes. -/
theorem isBareName (s : Setting) :
    TomlText.IsBareName s.sectionName.toList ∧ TomlText.IsBareName s.key.toList := by
  cases s <;> decide +kernel

end Setting

namespace Config

variable (c : Config)

/-- All sections of a configuration can be written. -/
theorem isWritable_of_mem_printed : ∀ s ∈ c.printed, s.IsWritable := by
  rintro ⟨name, settings⟩ hmem
  obtain ⟨⟨s, rfl⟩, hkeys⟩ := c.exists_setting_of_mem_printed hmem
  refine ⟨s.isBareName.1, fun ⟨key, text⟩ hsetting => ?_, ?_⟩
  · obtain ⟨s', -, rfl⟩ := hkeys key text hsetting
    exact s'.isBareName.2
  · simp only [printed, List.mem_cons, Prod.mk.injEq, List.not_mem_nil, or_false] at hmem
    rcases hmem with ⟨-, rfl⟩ | ⟨-, rfl⟩ | ⟨-, rfl⟩
    · cases c.host.version <;> simp [setting?]
    · cases c.discovery.startDirectory <;> simp [setting?]
    · simp

/-- What is printed of a configuration is its table. -/
theorem ofText?_text : TomlTable.ofText? c.text = some c.toml :=
  PrintedSection.ofText?_texts c.isWritable_of_mem_printed (by simp [printed])

/-- **A printed configuration is read back.**  Whatever its settings are, and whichever are
absent, what is read from its text is the configuration itself; and it is valid just when the
configuration that is loaded from the text, with all checks, is the same again. -/
theorem printed_reads_back :
    readText c.text = .ok c ∧ (c.violations = [] ↔ ofText c.text = .ok c) := by
  have hsections : c.toml.HasSections := fun s value hvalue =>
    (c.followsSchema_toml.sections _ value hvalue).2
  have hread : readText c.text = .ok c := by
    refine (readText_eq_ok_iff c.ofText?_text hsections).mpr ⟨c.followsSchema_toml, fun s => ?_⟩
    rw [text?_toml]
    cases s <;> simp [get?]
  have hload : ofText c.text = checked c := by
    rw [ofText, hread]
    simp only [bind, Except.bind]
  refine ⟨hread, fun hvalid => ?_, fun hloaded => ?_⟩
  · rw [hload]
    exact checked_eq_ok_iff.mpr ⟨hvalid, rfl⟩
  · rw [hload] at hloaded
    exact (checked_eq_ok_iff.mp hloaded).1

end Config
end PluginHost
