import PluginHost.Proofs.Config.Layers
import PluginHost.Proofs.Lists

/-! # Settings in environment variables

A variable sets what its name says: `Environment.assignments` are the paths that variables
set, with the texts of the variables, and `Environment.text?` is what the last of them sets a
setting to.  Every setting has a variable (`Setting.pathOf?_variableName`), and as only texts
are set under the paths of settings, the table of an environment follows the schema and sets
what its variables do (`Environment.SetsTexts.ofEnvironment`). -/
namespace PluginHost

namespace Setting

/-- The names that lead to a setting. -/
def path (s : Setting) : List String := [s.sectionName, s.key]

/-- Two settings differ in their paths. -/
theorem path_inj {s s' : Setting} : s.path = s'.path ↔ s = s' := by
  refine ⟨fun h => ?_, fun h => h ▸ rfl⟩
  obtain ⟨hname, hkey⟩ := List.cons.inj h
  exact ext hname (List.cons.inj hkey).1

/-- The name of the variable that sets a setting. -/
def variableName : Setting → String
  | runtime => "GAUNTLET_HOST_RUNTIME"
  | version => "GAUNTLET_HOST_VERSION"
  | startDirectory => "GAUNTLET_DISCOVERY_START_DIRECTORY"
  | manifestPattern => "GAUNTLET_DISCOVERY_MANIFEST_PATTERN"
  | modulePattern => "GAUNTLET_DISCOVERY_MODULE_PATTERN"
  | level => "GAUNTLET_LOG_LEVEL"

/-- The variable of a setting leads to this setting, however many underscores its key has. -/
theorem pathOf?_variableName (s : Setting) :
    ConfigVariable.pathOf? s.variableName = some s.path := by
  cases s <;> decide +kernel

end Setting

/-! ## A value at the path of a setting -/

namespace ConfigTable

variable (value : ConfigValue) (s : Setting)

theorem nest_path : ConfigVariable.nest value s.path =
    [(s.sectionName, none, .table [(s.key, none, value)])] := rfl

theorem hasSections_nest : HasSections (ConfigVariable.nest value s.path) := by
  refine ⟨.singleton _, fun other inner hinner => ?_⟩
  rw [nest_path, value?_cons] at hinner
  by_cases hname : other.sectionName = s.sectionName
  · rw [if_pos hname] at hinner
    exact ⟨_, (Option.some.inj hinner).symm, .singleton _⟩
  · rw [if_neg hname] at hinner
    cases hinner

/-- Only a text may stand at the path of a setting. -/
theorem followsSchema_nest_iff :
    FollowsSchema (ConfigVariable.nest value s.path) ↔ ∃ text, value = .string text := by
  constructor
  · intro h
    obtain ⟨-, members, hmembers, hsection⟩ :=
      h.sections s.sectionName (.table [(s.key, none, value)])
        (by rw [nest_path, value?_cons, if_pos rfl])
    obtain rfl := ConfigValue.table.inj hmembers
    obtain ⟨-, -, -, htext⟩ :=
      hsection.settings s.key value (by rw [value?_cons, if_pos rfl])
    exact htext
  · rintro ⟨text, rfl⟩
    refine ⟨.singleton _, fun name inner hinner => ?_⟩
    rw [nest_path, value?_cons] at hinner
    by_cases hname : name = s.sectionName
    · rw [if_pos hname] at hinner
      refine ⟨⟨s, hname.symm⟩, _, (Option.some.inj hinner).symm, .singleton _, ?_⟩
      intro key below hbelow
      rw [value?_cons] at hbelow
      by_cases hkey : key = s.key
      · rw [if_pos hkey] at hbelow
        exact ⟨s, hname.symm, hkey.symm, text, (Option.some.inj hbelow).symm⟩
      · rw [if_neg hkey] at hbelow
        cases hbelow
    · rw [if_neg hname] at hinner
      cases hinner

/-- A value at the path of a setting stands at no other setting. -/
theorem valueAt?_nest (other : Setting) :
    valueAt? (ConfigVariable.nest value s.path) other = if s = other then some value else none := by
  rw [valueAt?, nest_path, value?_cons]
  by_cases hname : other.sectionName = s.sectionName
  · rw [if_pos hname, Option.bind_some, ConfigValue.member?, value?_cons]
    by_cases hkey : other.key = s.key
    · rw [if_pos hkey, if_pos (Setting.ext hname hkey).symm]
    · rw [if_neg hkey, if_neg fun h : s = other => hkey (h ▸ rfl)]
      rfl
  · rw [if_neg hname, if_neg fun h : s = other => hname (h ▸ rfl)]
    rfl

theorem text?_nest (other : Setting) :
    text? (ConfigVariable.nest value s.path) other = if s = other then value.text? else none := by
  rw [text?_eq, valueAt?_nest]
  split <;> rfl

end ConfigTable

/-! ## What variables set -/

namespace Environment

variable (environment : Environment)

/-- The paths that variables set, with the texts of these variables. -/
def assignments : List (List String × String) :=
  environment.filterMap fun (name, text) => (ConfigVariable.pathOf? name).map (·, text)

/-- What the last variable that sets a setting to a text sets it to. -/
def text? (s : Setting) : Option String :=
  environment.assignments.reverse.findSome? fun (path, text) =>
    if path = s.path then (ConfigVariable.valueOf text).text? else none

/-- Variables set nothing but settings, and these to texts. -/
def SetsTexts : Prop :=
  ∀ assignment ∈ environment.assignments, (∃ s : Setting, assignment.1 = s.path) ∧
    ∃ text, ConfigVariable.valueOf assignment.2 = .string text

instance : Decidable environment.SetsTexts :=
  decidable_of_iff (∀ assignment ∈ environment.assignments,
      assignment.1 ∈ Setting.all.map Setting.path ∧
        (ConfigVariable.valueOf assignment.2).text?.isSome = true) <| by
    have hpath (path : List String) :
        path ∈ Setting.all.map Setting.path ↔ ∃ s : Setting, path = s.path := by
      simp [Setting.mem_all, eq_comm]
    have htext (value : ConfigValue) :
        value.text?.isSome = true ↔ ∃ text, value = .string text := by
      cases value <;> simp [ConfigValue.text?]
    simp only [hpath, htext, SetsTexts]

/-- The tables that variables set, one for each. -/
def tables : List ConfigTable :=
  environment.assignments.map fun (path, text) =>
    ConfigVariable.nest (ConfigVariable.valueOf text) path

/-- The table of an environment is made of those of its variables. -/
theorem ofEnvironment_eq : ConfigTable.ofEnvironment environment =
    environment.tables.foldl (fun lower upper => upper.onto lower) [] := by
  rw [tables, assignments, List.map_filterMap, List.foldl_filterMap]
  unfold ConfigTable.ofEnvironment
  congr 1
  funext t ⟨name, text⟩
  dsimp only
  cases ConfigVariable.pathOf? name <;> rfl

variable {environment}

/-- Where variables set nothing but texts of settings, their table follows the schema, and the
last variable that sets a setting counts. -/
theorem SetsTexts.ofEnvironment (h : environment.SetsTexts) :
    (ConfigTable.ofEnvironment environment).FollowsSchema ∧
      ∀ s, (ConfigTable.ofEnvironment environment).text? s = environment.text? s := by
  have htables : ∀ t ∈ environment.tables, t.FollowsSchema := by
    intro t ht
    obtain ⟨⟨path, text⟩, hmem, rfl⟩ := List.mem_map.mp ht
    obtain ⟨⟨s, rfl⟩, htext⟩ := h _ hmem
    exact (ConfigTable.followsSchema_nest_iff _ s).mpr htext
  obtain ⟨hschema, htext⟩ := Config.text?_foldl_onto htables ConfigTable.followsSchema_nil
  rw [ofEnvironment_eq]
  refine ⟨hschema, fun s => ?_⟩
  rw [htext s, tables, ← List.map_reverse, List.findSome?_map, Environment.text?]
  refine (Option.or_none).trans (Lists.findSome?_congr fun ⟨path, text⟩ hmem => ?_)
  obtain ⟨⟨other, hpath⟩, -⟩ := h _ (List.mem_reverse.mp hmem)
  obtain rfl : path = other.path := hpath
  simp only [Function.comp_apply, ConfigTable.text?_nest, Setting.path_inj]

/-! ## One more variable -/

/-- What a variable sets a setting to, if its value is a text. -/
def textOf? (s : Setting) (assignment : List String × String) : Option String :=
  if assignment.1 = s.path then (ConfigVariable.valueOf assignment.2).text? else none

theorem text?_eq (environment : Environment) (s : Setting) :
    environment.text? s = environment.assignments.reverse.findSome? (textOf? s) := rfl

/-- The table that a variable sets. -/
def tableOf (assignment : List String × String) : ConfigTable :=
  ConfigVariable.nest (ConfigVariable.valueOf assignment.2) assignment.1

theorem tables_eq (environment : Environment) :
    environment.tables = environment.assignments.map tableOf := rfl

variable {before after : Environment} {s : Setting} {v : String}

/-- Variables with one more among them, for a setting that the others do not set. -/
structure Adds (before : Environment) (s : Setting) (v : String) (after : Environment) :
    Prop where
  texts : before.SetsTexts
  unset : before.text? s = none
  among : ∃ front back, before = front ++ back ∧ after = front ++ (s.variableName, v) :: back

namespace Adds

theorem exists_assignments (h : before.Adds s v after) : ∃ front back,
    before.assignments = front ++ back ∧ after.assignments = front ++ (s.path, v) :: back := by
  obtain ⟨front, back, rfl, rfl⟩ := h.among
  have hadded : assignments ((s.variableName, v) :: back) = (s.path, v) :: back.assignments := by
    rw [assignments, List.filterMap_cons]
    dsimp only
    rw [s.pathOf?_variableName]
    rfl
  refine ⟨front.assignments, back.assignments, List.filterMap_append, ?_⟩
  rw [← hadded]
  exact List.filterMap_append

/-- The other variables set other settings. -/
theorem exists_path (h : before.Adds s v after) {assignment : List String × String}
    (hmem : assignment ∈ before.assignments) :
    ∃ other : Setting, assignment.1 = other.path ∧ other ≠ s := by
  obtain ⟨⟨other, hpath⟩, text, htext⟩ := h.texts assignment hmem
  refine ⟨other, hpath, ?_⟩
  rintro rfl
  have hnone := List.findSome?_eq_none_iff.mp h.unset assignment (List.mem_reverse.mpr hmem)
  dsimp only at hnone
  rw [if_pos hpath, htext] at hnone
  cases hnone

theorem textOf?_eq_none (h : before.Adds s v after) {assignment : List String × String}
    (hmem : assignment ∈ before.assignments) : textOf? s assignment = none := by
  obtain ⟨other, hpath, hne⟩ := h.exists_path hmem
  rw [textOf?, hpath, if_neg (mt Setting.path_inj.mp hne)]

/-- A variable whose value is a text sets its setting to this text, and no other setting. -/
theorem setsTexts (h : before.Adds s v after) {w : String}
    (hw : ConfigVariable.valueOf v = .string w) : after.SetsTexts ∧
      ∀ other, after.text? other = if other = s then some w else before.text? other := by
  obtain ⟨front, back, hbefore, hafter⟩ := h.exists_assignments
  refine ⟨fun assignment hassignment => ?_, fun other => ?_⟩
  · rw [hafter] at hassignment
    rcases List.mem_append.mp hassignment with hfront | hassignment
    · exact h.texts assignment (hbefore ▸ List.mem_append_left back hfront)
    · rcases List.mem_cons.mp hassignment with rfl | hback
      · exact ⟨⟨s, rfl⟩, w, hw⟩
      · exact h.texts assignment (hbefore ▸ List.mem_append_right front hback)
  · have hadded : textOf? other (s.path, v) = if other = s then some w else none := by
      simp only [textOf?, hw, Setting.path_inj, eq_comm, ConfigValue.text?]
    have hsplit : after.text? other = ((back.reverse.findSome? (textOf? other)).or
        (if other = s then some w else none)).or (front.reverse.findSome? (textOf? other)) := by
      rw [text?_eq, hafter, List.reverse_append, List.reverse_cons, List.findSome?_append,
        List.findSome?_append, List.findSome?_singleton, hadded]
    rw [hsplit]
    by_cases hother : other = s
    · subst hother
      have hnone : ∀ assignment ∈ back.reverse, textOf? other assignment = none :=
        fun assignment hback =>
          h.textOf?_eq_none (hbefore ▸ List.mem_append_right front (List.mem_reverse.mp hback))
      rw [if_pos rfl, if_pos rfl, List.findSome?_eq_none_iff.mpr hnone]
      rfl
    · rw [if_neg hother, if_neg hother, Option.or_none, text?_eq, hbefore, List.reverse_append,
        List.findSome?_append]

/-- The tables of the other variables hold nothing at the setting. -/
theorem valueAt?_tableOf (h : before.Adds s v after) {assignments : List (List String × String)}
    (hmem : ∀ assignment ∈ assignments, assignment ∈ before.assignments) :
    ∀ t ∈ assignments.map tableOf, t.HasSections ∧ t.valueAt? s = none := by
  intro t ht
  obtain ⟨assignment, hassignment, rfl⟩ := List.mem_map.mp ht
  obtain ⟨other, hpath, hne⟩ := h.exists_path (hmem assignment hassignment)
  rw [tableOf, hpath, ConfigTable.valueAt?_nest, if_neg hne]
  exact ⟨ConfigTable.hasSections_nest _ other, rfl⟩

/-- A variable stands at its setting with its value, whatever this is. -/
theorem valueAt?_ofEnvironment (h : before.Adds s v after) :
    (ConfigTable.ofEnvironment after).HasSections ∧
      (ConfigTable.ofEnvironment after).valueAt? s = some (ConfigVariable.valueOf v) := by
  obtain ⟨front, back, hbefore, hafter⟩ := h.exists_assignments
  have hfront := h.valueAt?_tableOf fun _ hf => hbefore ▸ List.mem_append_left back hf
  have hback := h.valueAt?_tableOf fun _ hb => hbefore ▸ List.mem_append_right front hb
  have hadded := ConfigTable.hasSections_nest (ConfigVariable.valueOf v) s
  obtain ⟨hbelow, hnone⟩ :=
    ConfigTable.valueAt?_foldl_onto hfront ConfigTable.followsSchema_nil.hasSections
  obtain ⟨hall, hstays⟩ := ConfigTable.valueAt?_foldl_onto hback (hadded.onto hbelow)
  rw [ofEnvironment_eq, tables_eq, hafter, List.map_append, List.map_cons, List.foldl_append,
    List.foldl_cons]
  refine ⟨hall, hstays.trans ?_⟩
  refine (hadded.valueAt?_onto hbelow s).trans ?_
  rw [hnone, ConfigTable.valueAt?_nest, if_pos rfl]
  rfl

/-- Where the table of the environment follows the schema, the value of the variable is a
text. -/
theorem exists_eq_string (h : before.Adds s v after)
    (hschema : (ConfigTable.ofEnvironment after).FollowsSchema) :
    ∃ w, ConfigVariable.valueOf v = .string w :=
  hschema.eq_string_of_valueAt? h.valueAt?_ofEnvironment.2

end Adds

end Environment
end PluginHost
