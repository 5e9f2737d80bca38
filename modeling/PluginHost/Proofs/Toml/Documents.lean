import Mathlib.Data.List.Induction
import PluginHost.Proofs.Toml.Sections

/-! # Documents of sections

A line of a document says nothing, sets a key to a text, or begins a section (`LineContent`).
What a line sets goes into the section that was begun last before it, or into the table at the
top where none was (`LineContent.Sets`).

While the pieces of such lines are put together, the table holds a key just where a line has set
it, and a section just where a line has begun it (`LineContent.Reflects`).  A line that sets a
key where one before it did is refused, so in what is accepted each key is set in a table once
(`LineContent.not_sets_before`). -/
namespace PluginHost

/-- What a line of a document says. -/
inductive LineContent where
  | nothing
  | setting (key text : String)
  | header (name : String)
deriving DecidableEq, Repr

namespace LineContent

variable {contents before after : List LineContent} {content : LineContent}
  {table : Option String} {key text name : String}

/-- The piece that is read from a line. -/
def piece? : LineContent → Option TomlPiece
  | nothing => none
  | setting key text => some (.setting ⟨[], key⟩ (.string text))
  | header name => some (.header ⟨[], name⟩)

/-- The section that a line begins. -/
def begun? : LineContent → Option String
  | header name => some name
  | _ => none

/-- The section that lines leave open, if they begin any: that of the last header. -/
def openTable (contents : List LineContent) : Option String :=
  (contents.filterMap begun?).getLast?

/-- One of the lines sets a key in a section, or at the top. -/
def Sets (contents : List LineContent) (table : Option String) (key : String) : Prop :=
  ∃ before text after, contents = before ++ setting key text :: after ∧ openTable before = table

theorem openTable_concat_header (contents : List LineContent) (name : String) :
    openTable (contents ++ [header name]) = some name := by
  simp [openTable, begun?]

theorem openTable_append_of_forall (h : ∀ c ∈ after, c.begun? = none) :
    openTable (before ++ after) = openTable before := by
  rw [openTable, List.filterMap_append, List.filterMap_eq_nil_iff.mpr h, List.append_nil]
  rfl

/-- Behind a header its section is open until the next one. -/
theorem openTable_header (h : ∀ c ∈ after, c.begun? = none) :
    openTable (before ++ header name :: after) = some name := by
  rw [← List.singleton_append, ← List.append_assoc, openTable_append_of_forall h,
    openTable_concat_header]

/-- The section that lines leave open was begun on one of them, and none behind it. -/
theorem exists_header_of_openTable (h : openTable contents = some name) :
    ∃ before after, contents = before ++ header name :: after ∧
      ∀ c ∈ after, c.begun? = none := by
  obtain ⟨names, hnames⟩ := List.getLast?_eq_some_iff.mp h
  obtain ⟨front, back, rfl, -, hback⟩ := List.filterMap_eq_append_iff.mp hnames
  obtain ⟨between, c, after, rfl, -, hc, hafter⟩ := List.filterMap_eq_cons_iff.mp hback
  refine ⟨front ++ between, after, ?_, List.filterMap_eq_nil_iff.mp hafter⟩
  cases c with
  | header other =>
    obtain rfl := Option.some.inj hc
    rw [List.append_assoc]
  | nothing | setting => cases hc

/-- What lines set is set by the last of them or by those before it. -/
theorem sets_concat_iff : Sets (contents ++ [content]) table key ↔
    Sets contents table key ∨
      (∃ text, content = setting key text) ∧ openTable contents = table := by
  constructor
  · rintro ⟨before, text, after, heq, htable⟩
    rcases List.eq_nil_or_concat after with rfl | ⟨others, last, rfl⟩
    · obtain ⟨rfl, hlast⟩ := List.append_inj' heq rfl
      exact .inr ⟨⟨text, List.singleton_inj.mp hlast⟩, htable⟩
    · rw [List.concat_eq_append, ← List.cons_append, ← List.append_assoc] at heq
      exact .inl ⟨before, text, others, (List.append_inj' heq rfl).1, htable⟩
  · rintro (⟨before, text, after, rfl, htable⟩ | ⟨⟨text, rfl⟩, htable⟩)
    · exact ⟨before, text, after ++ [content], by rw [List.append_assoc]; rfl, htable⟩
    · exact ⟨contents, text, [], rfl, htable⟩

end LineContent

/-! ## What a table holds -/

namespace TomlTable

variable {t members : TomlTable} {name key : String} {v : Toml}

/-- A table holds a key at the top, or in the section of a name. -/
def Holds (t : TomlTable) : Option String → String → Prop
  | none, key => (t.lookup key).isSome = true
  | some name, key => ∃ origin members, t.lookup name = some (.table origin members) ∧
      (members.lookup key).isSome = true

/-- Texts stand at the top, and sections that headers began. -/
def IsSectioned (t : TomlTable) : Prop := ∀ name v, t.lookup name = some v →
  (∃ text, v = .string text) ∨ ∃ members, v = .table .header members

theorem lookup_put (name : String) (v : Toml) (t : TomlTable) (other : String) :
    (t.put name v).lookup other = if other = name then some v else t.lookup other := by
  induction t with
  | nil => rw [put, Lists.lookup_cons_eq_ite]
  | cons head rest ih =>
    obtain ⟨first, w⟩ := head
    rw [put]
    by_cases hfirst : first = name
    · rw [if_pos (beq_iff_eq.mpr hfirst), Lists.lookup_cons_eq_ite, Lists.lookup_cons_eq_ite,
        hfirst]
      split <;> rfl
    · rw [if_neg (by simpa using hfirst), Lists.lookup_cons_eq_ite, Lists.lookup_cons_eq_ite, ih]
      by_cases hother : other = first
      · rw [if_pos hother, if_pos hother, if_neg fun h => hfirst (hother.symm.trans h)]
      · rw [if_neg hother, if_neg hother]

theorem isSome_lookup_put (name : String) (v : Toml) (t : TomlTable) (other : String) :
    ((t.put name v).lookup other).isSome = true ↔
      (t.lookup other).isSome = true ∨ other = name := by
  rw [lookup_put]
  by_cases h : other = name
  · simp [h]
  · simp [h]

theorem IsSectioned.put (h : t.IsSectioned)
    (hv : (∃ text, v = .string text) ∨ ∃ members, v = .table .header members) (name : String) :
    (t.put name v).IsSectioned := by
  intro other w hw
  rw [lookup_put] at hw
  split at hw
  · exact Option.some.inj hw ▸ hv
  · exact h other w hw

/-- A new name adds nothing but itself, if no members stand below it. -/
theorem holds_put_new (h : t.lookup name = none)
    (hv : ∀ origin members, v = .table origin members → members = []) {table : Option String} :
    (t.put name v).Holds table key ↔ t.Holds table key ∨ table = none ∧ key = name := by
  cases table with
  | none =>
    rw [Holds, Holds, isSome_lookup_put, and_iff_right rfl]
  | some other =>
    simp only [Holds, lookup_put, reduceCtorEq, false_and, or_false]
    by_cases hother : other = name
    · rw [if_pos hother, hother, h]
      constructor
      · rintro ⟨origin, members, heq, hkey⟩
        rw [hv origin members (Option.some.inj heq)] at hkey
        cases hkey
      · rintro ⟨_, _, heq, -⟩
        cases heq
    · rw [if_neg hother]

/-- A new key in a section adds nothing else. -/
theorem holds_put_member {new : String} (h : t.lookup name = some (.table .header members))
    {table : Option String} :
    (t.put name (.table .header (members.put new v))).Holds table key ↔
      t.Holds table key ∨ table = some name ∧ key = new := by
  cases table with
  | none =>
    simp only [Holds, isSome_lookup_put, reduceCtorEq, false_and, or_false]
    refine or_iff_left_of_imp ?_
    rintro rfl
    rw [h]
    rfl
  | some other =>
    simp only [Holds, lookup_put, Option.some_inj]
    by_cases hother : other = name
    · rw [if_pos hother, hother, h]
      constructor
      · rintro ⟨_, _, heq, hkey⟩
        obtain ⟨rfl, rfl⟩ := Toml.table.inj (Option.some.inj heq)
        exact ((isSome_lookup_put new v members key).mp hkey).imp
          (fun hkey => ⟨_, members, rfl, hkey⟩) fun heq => ⟨rfl, heq⟩
      · rintro (⟨_, _, heq, hkey⟩ | ⟨-, heq⟩)
        · obtain ⟨rfl, rfl⟩ := Toml.table.inj (Option.some.inj heq)
          exact ⟨_, _, rfl, (isSome_lookup_put new v members key).mpr (.inl hkey)⟩
        · exact ⟨_, _, rfl, (isSome_lookup_put new v members key).mpr (.inr heq)⟩
    · rw [if_neg hother, or_iff_left fun hnew => hother hnew.1]

theorem exists_of_add_header {here : List String} {state : List String × TomlTable}
    (ht : t.IsSectioned) (h : add (here, t) (.header ⟨[], name⟩) = some state) :
    t.lookup name = none ∧ state = ([name], t.put name (.table .header [])) := by
  obtain ⟨t', hchange, rfl⟩ := Option.map_eq_some_iff.mp h
  replace hchange : addHeader name t = some t' := hchange
  rw [addHeader] at hchange
  cases hlookup : t.lookup name with
  | none =>
    rw [hlookup] at hchange
    obtain rfl := Option.some.inj hchange
    exact ⟨rfl, rfl⟩
  | some value =>
    rw [hlookup] at hchange
    rcases ht name value hlookup with ⟨text, rfl⟩ | ⟨members, rfl⟩ <;> cases hchange

theorem addSetting_eq_some_iff {t' : TomlTable} :
    addSetting name v [] t = some t' ↔ t.lookup name = none ∧ t' = t.put name v := by
  rw [addSetting]
  cases t.lookup name with
  | none => simp [eq_comm]
  | some value => simp

/-- A setting below a header goes into the section of this header. -/
theorem exists_of_add_setting {state : List String × TomlTable} (ht : t.IsSectioned)
    (hname : (t.lookup name).isSome = true)
    (h : add ([name], t) (.setting ⟨[], key⟩ v) = some state) :
    ∃ members, t.lookup name = some (.table .header members) ∧ members.lookup key = none ∧
      state = ([name], t.put name (.table .header (put key v members))) := by
  obtain ⟨value, hlookup⟩ := Option.isSome_iff_exists.mp hname
  obtain ⟨t', hchange, rfl⟩ := Option.map_eq_some_iff.mp h
  rw [changeAt, hlookup] at hchange
  rcases ht name value hlookup with ⟨text, rfl⟩ | ⟨members, rfl⟩
  · cases hchange
  · obtain ⟨inner, hinner, rfl⟩ := Option.map_eq_some_iff.mp hchange
    obtain ⟨hkey, rfl⟩ := addSetting_eq_some_iff.mp hinner
    exact ⟨members, hlookup, hkey, rfl⟩

end TomlTable

/-! ## From lines to the table -/

namespace LineContent

variable {contents before after : List LineContent} {state state' : List String × TomlTable}
  {table : Option String} {key text name : String}

/-- What has been put together tells what the lines say: which section is open, where each key
is set, and which sections were begun. -/
structure Reflects (contents : List LineContent) (state : List String × TomlTable) : Prop where
  here : state.1 = (openTable contents).toList
  sectioned : state.2.IsSectioned
  holds : ∀ table key, state.2.Holds table key ↔
    Sets contents table key ∨ table = none ∧ header key ∈ contents

theorem reflects_nil : Reflects [] ([], []) := by
  constructor
  · rfl
  · intro name v h
    cases h
  · intro table key
    cases table <;> simp [TomlTable.Holds, Sets]

theorem Reflects.nothing (h : Reflects contents state) :
    Reflects (contents ++ [nothing]) state := by
  refine ⟨?_, h.sectioned, fun table key => ?_⟩
  · rw [openTable_append_of_forall (List.forall_mem_singleton.mpr rfl)]
    exact h.here
  · rw [h.holds, sets_concat_iff]
    simp

theorem Reflects.header (h : Reflects contents state)
    (hadd : TomlTable.add state (.header ⟨[], name⟩) = some state') :
    Reflects (contents ++ [header name]) state' := by
  obtain ⟨here, t⟩ := state
  obtain ⟨hnew, rfl⟩ := TomlTable.exists_of_add_header h.sectioned hadd
  refine ⟨?_, h.sectioned.put (.inr ⟨[], rfl⟩) name, fun table key => ?_⟩
  · rw [openTable_concat_header]
    rfl
  · have hempty : ∀ origin members,
        Toml.table .header [] = .table origin members → members = [] := by
      rintro _ _ ⟨⟩
      rfl
    rw [TomlTable.holds_put_new hnew hempty, h.holds, sets_concat_iff]
    simp only [List.mem_append, List.mem_singleton, header.injEq]
    grind

/-- A setting goes where the lines before it have not set its key. -/
theorem Reflects.setting (h : Reflects contents state)
    (hadd : TomlTable.add state (.setting ⟨[], key⟩ (.string text)) = some state') :
    ¬Sets contents (openTable contents) key ∧ Reflects (contents ++ [setting key text]) state' := by
  obtain ⟨here, t⟩ := state
  obtain rfl : here = (openTable contents).toList := h.here
  have hopen : openTable (contents ++ [LineContent.setting key text]) = openTable contents :=
    openTable_append_of_forall (List.forall_mem_singleton.mpr rfl)
  have hsets (table : Option String) (other : String) :
      Sets (contents ++ [.setting key text]) table other ↔
        Sets contents table other ∨ table = openTable contents ∧ other = key := by
    rw [sets_concat_iff]
    grind
  cases htable : openTable contents with
  | none =>
    rw [htable] at hadd hopen hsets
    obtain ⟨t', hchange, rfl⟩ := Option.map_eq_some_iff.mp hadd
    obtain ⟨hnew, rfl⟩ := TomlTable.addSetting_eq_some_iff.mp hchange
    refine ⟨fun hset => ?_, hopen ▸ rfl, h.sectioned.put (.inl ⟨text, rfl⟩) key,
      fun table other => ?_⟩
    · have hholds : (t.lookup key).isSome = true := (h.holds none key).mpr (.inl hset)
      rw [hnew] at hholds
      cases hholds
    · rw [TomlTable.holds_put_new hnew (fun _ _ h => by cases h), h.holds, hsets]
      simp only [List.mem_append, List.mem_singleton, reduceCtorEq, or_false]
      grind
  | some name =>
    rw [htable] at hadd hopen hsets
    obtain ⟨front, back, hcontents, -⟩ := exists_header_of_openTable htable
    have hbegun : (t.lookup name).isSome = true := (h.holds none name).mpr
      (.inr ⟨rfl, hcontents ▸ List.mem_append_right front List.mem_cons_self⟩)
    obtain ⟨members, hlookup, hnew, rfl⟩ := TomlTable.exists_of_add_setting h.sectioned hbegun hadd
    refine ⟨fun hset => ?_, hopen ▸ rfl, h.sectioned.put (.inr ⟨_, rfl⟩) name,
      fun table other => ?_⟩
    · obtain ⟨origin, others, hothers, hkey⟩ := (h.holds (some name) key).mpr (.inl hset)
      obtain ⟨-, rfl⟩ := Toml.table.inj (Option.some.inj (hlookup.symm.trans hothers))
      rw [hnew] at hkey
      cases hkey
    · rw [TomlTable.holds_put_member hlookup, h.holds, hsets]
      simp only [List.mem_append, List.mem_singleton, reduceCtorEq, or_false]
      grind

/-- The pieces of lines are put together to what the lines say. -/
theorem reflects_of_foldlM (h : (contents.filterMap piece?).foldlM TomlTable.add ([], []) =
    some state) : Reflects contents state := by
  induction contents using List.reverseRecOn generalizing state with
  | nil =>
    obtain rfl := Option.some.inj h
    exact reflects_nil
  | append_singleton contents content ih =>
    rw [List.filterMap_append, List.foldlM_append] at h
    obtain ⟨first, hfirst, hlast⟩ := Option.bind_eq_some_iff.mp h
    cases content with
    | nothing =>
      obtain rfl := Option.some.inj hlast
      exact (ih hfirst).nothing
    | setting key text =>
      obtain ⟨_, hadd, ⟨⟩⟩ := Option.bind_eq_some_iff.mp hlast
      exact ((ih hfirst).setting hadd).2
    | header name =>
      obtain ⟨_, hadd, ⟨⟩⟩ := Option.bind_eq_some_iff.mp hlast
      exact (ih hfirst).header hadd

/-- **The table of a document holds what its lines say**: a key of a section where a line sets
it there, and at the top the keys that lines set before all headers, and the sections. -/
theorem holds_iff {t : TomlTable} (h : TomlTable.ofPieces (contents.filterMap piece?) = some t)
    (table : Option String) (key : String) :
    t.Holds table key ↔ Sets contents table key ∨ table = none ∧ header key ∈ contents := by
  obtain ⟨state, hstate, rfl⟩ := Option.map_eq_some_iff.mp h
  exact (reflects_of_foldlM hstate).holds table key

/-- In a document no key is set in a table again. -/
theorem not_sets_before {t : TomlTable}
    (h : TomlTable.ofPieces (contents.filterMap piece?) = some t)
    (hcontents : contents = before ++ setting key text :: after) :
    ¬Sets before (openTable before) key := by
  obtain ⟨state, hstate, -⟩ := Option.map_eq_some_iff.mp h
  rw [hcontents, List.filterMap_append, List.foldlM_append] at hstate
  obtain ⟨first, hfirst, hrest⟩ := Option.bind_eq_some_iff.mp hstate
  obtain ⟨_, hadd, -⟩ := Option.bind_eq_some_iff.mp hrest
  exact ((reflects_of_foldlM hfirst).setting hadd).1

/-- In a section of a document no key is set again. -/
theorem not_set_between {t : TomlTable} {front back : List LineContent}
    (h : TomlTable.ofPieces (contents.filterMap piece?) = some t)
    (hcontents : contents = front ++ header name :: back ++ setting key text :: after)
    (hback : ∀ c ∈ back, c.begun? = none) (other : String) : setting key other ∉ back := by
  intro hmem
  refine not_sets_before h hcontents ?_
  obtain ⟨passed, rest, rfl⟩ := List.append_of_mem hmem
  rw [openTable_header hback]
  refine ⟨front ++ header name :: passed, other, rest, ?_, openTable_header fun c hc => ?_⟩
  · rw [List.append_assoc, List.cons_append]
  · exact hback c (List.mem_append_left _ hc)

end LineContent
end PluginHost
