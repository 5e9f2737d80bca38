import PluginHost.FileSystem.Edit
import PluginHost.Proofs.Config.Schema
import PluginHost.Proofs.Config.Variables

/-! # The highest layer counts

Every setting is looked up on its own: it has the text of the highest layer that sets it, or
its default, whatever the layers hold besides.  What layers determine is put together layer by
layer (`ConfigLayer.Determine.append`).  The layers are the variables of the environment, the
local file, the file of the user and that of the system (`FileSystem.OffersLayers`); where one
file is asked for, that file and the variables are all there is
(`Config.highest_layer_counts`). -/
namespace PluginHost

/-! ## What layers determine -/

/-- Layers that can be read and follow the schema, of which the highest that sets a setting
sets it to what `get` says. -/
def ConfigLayer.Determine (layers : List ConfigLayer) (get : Setting → Option String) : Prop :=
  ∃ tables : List ConfigTable, layers = tables.map .ok ∧ (∀ t ∈ tables, t.FollowsSchema) ∧
    ∀ s, tables.reverse.findSome? (·.text? s) = get s

namespace ConfigLayer.Determine

variable {lower upper : List ConfigLayer} {getLower getUpper : Setting → Option String}

theorem nil : Determine [] fun _ => none :=
  ⟨[], rfl, fun _ h => absurd h List.not_mem_nil, fun _ => rfl⟩

theorem singleton {t : ConfigTable} (ht : t.FollowsSchema) : Determine [.ok t] t.text? := by
  refine ⟨[t], rfl, List.forall_mem_singleton.mpr ht, fun s => ?_⟩
  rw [List.reverse_singleton, List.findSome?_singleton]

/-- The layers above count before those below. -/
theorem append (hlower : Determine lower getLower) (hupper : Determine upper getUpper) :
    Determine (lower ++ upper) fun s => (getUpper s).or (getLower s) := by
  obtain ⟨below, rfl, hbelow, hgetBelow⟩ := hlower
  obtain ⟨above, rfl, habove, hgetAbove⟩ := hupper
  refine ⟨below ++ above, List.map_append.symm, fun t ht => ?_, fun s => ?_⟩
  · exact (List.mem_append.mp ht).elim (hbelow t) (habove t)
  · rw [List.reverse_append, List.findSome?_append, hgetAbove s, hgetBelow s]

/-- What layers do not determine has its default. -/
theorem readLayers (h : Determine upper getUpper) (sources : List ConfigSource) :
    ∃ c, Config.readLayers sources upper = .ok c ∧
      ∀ s, c.get? s = (getUpper s).or (({} : Config).get? s) := by
  obtain ⟨tables, rfl, htables, hget⟩ := h
  obtain ⟨c, hread, htexts⟩ := Config.readLayers_of_followsSchema sources htables
  exact ⟨c, hread, fun s => by rw [htexts s, hget s]⟩

end ConfigLayer.Determine

/-- Variables that set nothing but texts of settings are a layer. -/
theorem Environment.SetsTexts.determine {environment : Environment}
    (h : environment.SetsTexts) :
    ConfigLayer.Determine [.ok (.ofEnvironment environment)] environment.text? := by
  obtain ⟨hschema, htext⟩ := h.ofEnvironment
  rw [← funext htext]
  exact .singleton hschema

/-! ## What files set -/

namespace FileSystem

/-- What is set by the file that a path means: what its text says, and nothing where there is
no file. -/
inductive Sets (fs : FileSystem) (file : Path) : TomlTable → Prop where
  | absent : fs.nearest? file = none → Sets fs file []
  | found {place : Path} {text : String} {t : TomlTable} : fs.nearest? file = some place →
    fs.readText place = .ok text → TomlTable.ofText? text = some t → Sets fs file t

/-- What the files of the system, of the user and of the working directory set. -/
structure OffersLayers (fs : FileSystem) (environment : Environment)
    (system user here : TomlTable) : Prop where
  ofSystem : fs.Sets systemFile system
  ofUser : ∀ file, userFile? environment = some file → fs.Sets file user
  noUser : userFile? environment = none → user = []
  ofHere : fs.Sets localFile here

variable {fs : FileSystem} {environment : Environment} {file : Path}
variable {t system user here : TomlTable}

/-- A file is a layer with the table of its text. -/
theorem Sets.ofFile_eq (h : fs.Sets file t) :
    ∃ place, ConfigLayer.ofFile fs file = .ok (.ofToml place t) := by
  unfold ConfigLayer.ofFile
  cases h with
  | absent hnone =>
    rw [hnone]
    exact ⟨none, rfl⟩
  | @found place text _ hplace htext ht =>
    rw [hplace]
    dsimp only
    rw [htext]
    dsimp only
    rw [ConfigLayer.ofText, ht]
    exact ⟨some place, rfl⟩

theorem Sets.determine (h : fs.Sets file t) (ht : t.FollowsSchema) :
    ConfigLayer.Determine [ConfigLayer.ofFile fs file] t.text? := by
  obtain ⟨found, hlayer⟩ := h.ofFile_eq
  rw [hlayer, ← funext (ConfigTable.text?_ofToml_table found t)]
  exact .singleton (ConfigTable.followsSchema_ofToml_iff.mpr ht)

theorem OffersLayers.determine_user (h : fs.OffersLayers environment system user here)
    (huser : user.FollowsSchema) :
    ConfigLayer.Determine ((userFile? environment).toList.map (ConfigLayer.ofFile fs))
      user.text? := by
  cases hfile : userFile? environment with
  | none =>
    obtain rfl := h.noUser hfile
    exact .nil
  | some file => exact (h.ofUser file hfile).determine huser

end FileSystem

/-! ## What is loaded -/

namespace Config

variable {fs : FileSystem} {environment : Environment}

/-- **The highest layer that sets a setting counts**, for each setting on its own.  All layers
are read where each follows the schema, and the variables set texts: a setting has the text of
its variable, or else that of the local file, of the user, of the system, or its default.  Of
one file and the variables the same holds, and no other file is looked at.  Every setting has
a variable, which sets nothing else. -/
theorem highest_layer_counts (henvironment : environment.SetsTexts) :
    (∀ system user here, fs.OffersLayers environment system user here →
      system.FollowsSchema → user.FollowsSchema → here.FollowsSchema →
      ∃ c, readAll fs environment = .ok c ∧ ∀ s, c.get? s =
        (environment.text? s).or ((here.text? s).or ((user.text? s).or
          ((system.text? s).or (({} : Config).get? s))))) ∧
    (∀ file t, fs.Sets file t → t.FollowsSchema →
      ∃ c, readFile fs environment file = .ok c ∧ ∀ s, c.get? s =
        (environment.text? s).or ((t.text? s).or (({} : Config).get? s))) ∧
    ∀ s : Setting, ConfigVariable.pathOf? s.variableName = some s.path := by
  refine ⟨fun system user here h hsystem huser hhere => ?_, fun file t h ht => ?_,
    Setting.pathOf?_variableName⟩
  · have hfiles := ((h.ofSystem.determine hsystem).append (h.determine_user huser)).append
      (h.ofHere.determine hhere)
    obtain ⟨c, hread, hget⟩ := (hfiles.append henvironment.determine).readLayers
      (sources fs ((Path.ofLocation fs.workingDirectory).join localFile ::
        (userFile? environment).toList ++ [systemFile]))
    refine ⟨c, ?_, fun s => by simp only [hget s, Option.or_assoc]⟩
    rw [readAll, ← hread]
    simp
  · obtain ⟨c, hread, hget⟩ := ((h.determine ht).append henvironment.determine).readLayers
      (sources fs [file])
    exact ⟨c, hread, fun s => by rw [hget s, Option.or_assoc]⟩

/-- What a user has written down. -/
def sampleUserText : String := "host = \x7b version = '2.0.0' \x7d\nlog.level = 'warn'\n"

/-- What stands in a working directory. -/
def sampleLocalText : String := "[host]\nruntime = 'desktop'\n[log]\nlevel = 'debug'\n"

/-- The file of a user. -/
def sampleUserFile : Path := ⟨"/home/me/.config/gauntlet/gauntlet.toml"⟩

/-- A file of the user, one in the working directory, and none of the system. -/
def sampleFiles : FileSystem :=
  ((FileSystem.empty.write sampleUserFile (Utf8.encode sampleUserText)).write
    ⟨"/work/gauntlet.toml"⟩ (Utf8.encode sampleLocalText)).enter ⟨"/work"⟩

/-- Variables of which two set something. -/
def sampleVariables : Environment :=
  [("HOME", "/home/me"), ("GAUNTLET_LOG_LEVEL", "trace"),
    ("gauntlet_discovery_start_directory", "plugins")]

/-- A text that is read follows the schema. -/
theorem exists_followsSchema_of_computed (text : String) (texts : List (Option String))
    (htable : ((TomlTable.ofText? text).any fun t => decide t.HasSections &&
      Setting.all.map t.text? == texts) = true)
    (hread : ((readText text).toOption.any fun _ => true) = true) :
    ∃ t, TomlTable.ofText? text = some t ∧ t.FollowsSchema ∧ Setting.all.map t.text? = texts := by
  obtain ⟨t, ht, htable⟩ := (Option.any_eq_true _ _).mp htable
  obtain ⟨hsections, htexts⟩ := Bool.and_eq_true_iff.mp htable
  obtain ⟨c, hc, -⟩ := (Option.any_eq_true _ _).mp hread
  have hschema :=
    (readText_eq_ok_iff ht (of_decide_eq_true hsections)).mp (eq_ok_of_toOption hc)
  exact ⟨t, ht, hschema.1, eq_of_beq htexts⟩

/-- Settings come from three layers and the defaults: the version is the user's although the
local file has the section `host` as well. -/
theorem highest_layer_counts_in_sample : ∃ c, readAll sampleFiles sampleVariables = .ok c ∧
    Setting.all.map c.get? = [some "desktop", some "2.0.0", some "plugins", some "*.addins",
      some "*.wasm", some "trace"] := by
  obtain ⟨user, huserText, huser, huserTexts⟩ :=
    exists_followsSchema_of_computed sampleUserText
      [none, some "2.0.0", none, none, none, some "warn"] (by decide +kernel) (by decide +kernel)
  obtain ⟨here, hhereText, hhere, hhereTexts⟩ :=
    exists_followsSchema_of_computed sampleLocalText
      [some "desktop", none, none, none, none, some "debug"] (by decide +kernel) (by decide +kernel)
  have hfile : userFile? sampleVariables = some sampleUserFile := by decide +kernel
  have huserFound : sampleFiles.nearest? sampleUserFile = some sampleUserFile := by
    decide +kernel
  have huserRead : (sampleFiles.readText sampleUserFile).toOption = some sampleUserText := by
    decide +kernel
  have hhereFound : sampleFiles.nearest? localFile = some ⟨"/work/gauntlet.toml"⟩ := by
    decide +kernel
  have hhereRead : (sampleFiles.readText ⟨"/work/gauntlet.toml"⟩).toOption =
      some sampleLocalText := by decide +kernel
  have habsent : sampleFiles.nearest? systemFile = none := by decide +kernel
  have huserSets : sampleFiles.Sets sampleUserFile user :=
    .found huserFound (eq_ok_of_toOption huserRead) huserText
  have hhereSets : sampleFiles.Sets localFile here :=
    .found hhereFound (eq_ok_of_toOption hhereRead) hhereText
  have hlayers : sampleFiles.OffersLayers sampleVariables [] user here := by
    refine ⟨.absent habsent, fun file h => ?_, fun h => ?_, hhereSets⟩
    · rw [hfile] at h
      exact Option.some.inj h ▸ huserSets
    · rw [hfile] at h
      cases h
  have hvariables : sampleVariables.SetsTexts := by decide +kernel
  obtain ⟨c, hread, hget⟩ :=
    (highest_layer_counts hvariables).1 [] user here hlayers TomlTable.followsSchema_nil huser hhere
  refine ⟨c, hread, ?_⟩
  have hvariableTexts : Setting.all.map sampleVariables.text? =
      [none, none, some "plugins", none, none, some "trace"] := by decide +kernel
  simp only [Setting.all, List.map_cons, List.map_nil, List.cons.injEq, and_true]
    at huserTexts hhereTexts hvariableTexts
  simp only [Setting.all, List.map_cons, List.map_nil, hget, huserTexts, hhereTexts,
    hvariableTexts]
  rfl

end Config
end PluginHost
