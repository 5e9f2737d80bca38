import PluginHost.Config.Value
import Mathlib.Data.String.Basic
import PluginHost.Proofs.Lists

/-! # What tables of settings hold

A table is looked at through `ConfigTable.value?`, the value under a key.  Putting a value
into a table changes what is under its key and nothing else (`value?_put`), and laying a
table onto another is done key by key (`value?_onto`): where only one of the two holds a
value it counts, and where both do the upper is laid onto the lower.

Keys ascend in every table that is built by putting values into it
(`Ascending.put`, `Ascending.onto`, `ascending_ofToml`), so no key stands twice and reading a
table member by member meets each value once. -/
namespace PluginHost
namespace ConfigTable

variable {t : ConfigTable} {key : String} {file : Option Path} {value : ConfigValue}

/-- The value under a key. -/
def value? (t : ConfigTable) (key : String) : Option ConfigValue := (t.lookup key).map Prod.snd

/-- The keys of a table ascend. -/
def Ascending (t : ConfigTable) : Prop := t.Pairwise fun a b => a.1 < b.1

@[simp] theorem value?_nil (key : String) : value? [] key = none := rfl

theorem value?_cons (entry : String × Option Path × ConfigValue) (t : ConfigTable) (key : String) :
    value? (entry :: t) key = if key = entry.1 then some entry.2.2 else t.value? key := by
  obtain ⟨name, file, value⟩ := entry
  rw [value?, value?, Lists.lookup_cons_eq_ite, apply_ite (Option.map Prod.snd)]
  rfl

theorem value?_eq_none (h : ∀ entry ∈ t, key ≠ entry.1) : t.value? key = none := by
  induction t with
  | nil => rfl
  | cons head rest ih =>
    rw [value?_cons, if_neg (h head List.mem_cons_self)]
    exact ih fun entry hmem => h entry (List.mem_cons_of_mem head hmem)

/-! ## Putting a value into a table -/

theorem value?_put (key other : String) (file : Option Path) (value : ConfigValue)
    (t : ConfigTable) :
    (put key file value t).value? other = if other = key then some value else t.value? other := by
  induction t with
  | nil => rw [put, value?_cons]
  | cons head rest ih =>
    rw [put]
    by_cases hlt : key < head.1
    · rw [if_pos hlt, value?_cons]
    · by_cases heq : key = head.1
      · rw [if_neg hlt, if_pos heq, value?_cons, value?_cons, heq]
        split <;> rfl
      · rw [if_neg hlt, if_neg heq, value?_cons, ih, value?_cons]
        by_cases hother : other = key
        · have hne : other ≠ head.1 := fun h => heq (hother.symm.trans h)
          rw [if_neg hne, if_pos hother, if_pos hother]
        · rw [if_neg hother, if_neg hother]

/-- What a table holds after a value was put into it is this value or was there before. -/
theorem mem_put {entry : String × Option Path × ConfigValue}
    (h : entry ∈ put key file value t) : entry = (key, file, value) ∨ entry ∈ t := by
  induction t with
  | nil => exact .inl (List.mem_singleton.mp h)
  | cons head rest ih =>
    rw [put] at h
    by_cases hlt : key < head.1
    · rw [if_pos hlt] at h
      exact List.mem_cons.mp h
    · rw [if_neg hlt] at h
      by_cases heq : key = head.1
      · rw [if_pos heq] at h
        exact (List.mem_cons.mp h).imp_right (List.mem_cons_of_mem head)
      · rw [if_neg heq] at h
        rcases List.mem_cons.mp h with rfl | h
        · exact .inr List.mem_cons_self
        · exact (ih h).imp_right (List.mem_cons_of_mem head)

namespace Ascending

theorem nil : Ascending [] := List.Pairwise.nil

theorem singleton (entry : String × Option Path × ConfigValue) : Ascending [entry] :=
  List.pairwise_singleton _ _

theorem tail {entry : String × Option Path × ConfigValue} (h : Ascending (entry :: t)) :
    Ascending t := (List.pairwise_cons.mp h).2

/-- The first key of a table does not stand in it again. -/
theorem value?_tail {entry : String × Option Path × ConfigValue} (h : Ascending (entry :: t)) :
    t.value? entry.1 = none :=
  value?_eq_none fun other hmem => ((List.pairwise_cons.mp h).1 other hmem).ne

/-- Each member of a table is found under its key. -/
theorem value?_of_mem {entry : String × Option Path × ConfigValue} (h : t.Ascending)
    (hmem : entry ∈ t) : t.value? entry.1 = some entry.2.2 := by
  induction t with
  | nil => cases hmem
  | cons head rest ih =>
    rw [value?_cons]
    rcases List.mem_cons.mp hmem with rfl | hmem
    · exact if_pos rfl
    · rw [if_neg ((List.pairwise_cons.mp h).1 entry hmem).ne']
      exact ih h.tail hmem

theorem put (h : t.Ascending) (key : String) (file : Option Path) (value : ConfigValue) :
    (put key file value t).Ascending := by
  induction t with
  | nil => exact singleton _
  | cons head rest ih =>
    have hfirst := (List.pairwise_cons.mp h).1
    rw [ConfigTable.put]
    by_cases hlt : key < head.1
    · rw [if_pos hlt]
      refine List.pairwise_cons.mpr ⟨fun entry hmem => ?_, h⟩
      rcases List.mem_cons.mp hmem with rfl | hmem
      · exact hlt
      · exact hlt.trans (hfirst entry hmem)
    · rw [if_neg hlt]
      by_cases heq : key = head.1
      · rw [if_pos heq]
        exact List.pairwise_cons.mpr ⟨fun entry hmem => heq ▸ hfirst entry hmem, h.tail⟩
      · rw [if_neg heq]
        refine List.pairwise_cons.mpr ⟨fun entry hmem => ?_, ih h.tail⟩
        rcases mem_put hmem with rfl | hmem
        · exact lt_of_le_of_ne (not_lt.mp hlt) (Ne.symm heq)
        · exact hfirst entry hmem

end Ascending

/-! ## Laying a table onto another -/

/-- The value that counts where one that may be absent is laid onto another. -/
def laidOnto (upper lower : Option ConfigValue) : Option ConfigValue :=
  match upper, lower with
  | some upper, some lower => some (upper.onto lower)
  | some upper, none => some upper
  | none, lower => lower

@[simp] theorem laidOnto_none (lower : Option ConfigValue) : laidOnto none lower = lower := rfl

/-- Laying a table onto another begins with its first member. -/
theorem onto_cons (key : String) (file : Option Path) (value : ConfigValue)
    (upper lower : ConfigTable) : ∃ laid, laidOnto (some value) (lower.value? key) = some laid ∧
      onto ((key, file, value) :: upper) lower = upper.onto (put key file laid lower) := by
  unfold onto
  rw [ConfigValue.membersOnto, value?]
  cases lower.lookup key with
  | none => exact ⟨value, rfl, rfl⟩
  | some below => exact ⟨value.onto below.2, rfl, rfl⟩

/-- A table is laid onto another key by key. -/
theorem value?_onto {upper : ConfigTable} (hupper : upper.Ascending) (lower : ConfigTable)
    (other : String) :
    (upper.onto lower).value? other = laidOnto (upper.value? other) (lower.value? other) := by
  induction upper generalizing lower with
  | nil => rfl
  | cons head rest ih =>
    obtain ⟨key, file, value⟩ := head
    obtain ⟨laid, hlaid, honto⟩ := onto_cons key file value rest lower
    rw [honto, ih hupper.tail, value?_put, value?_cons]
    by_cases h : other = key
    · -- The rest of the upper table does not hold this key, so nothing more is laid onto it.
      have hrest : value? rest other = none := h ▸ hupper.value?_tail
      rw [if_pos h, if_pos h, hrest, h, hlaid, laidOnto_none]
    · rw [if_neg h, if_neg h]

theorem Ascending.onto {lower : ConfigTable} (upper : ConfigTable) (h : lower.Ascending) :
    (upper.onto lower).Ascending := by
  induction upper generalizing lower with
  | nil => exact h
  | cons head rest ih =>
    obtain ⟨key, file, value⟩ := head
    obtain ⟨laid, -, honto⟩ := onto_cons key file value rest lower
    rw [honto]
    exact ih (h.put key file laid)

/-- What a table holds after another was laid onto it has its key and its file from one of the
two. -/
theorem mem_onto {upper lower : ConfigTable} {entry : String × Option Path × ConfigValue}
    (h : entry ∈ upper.onto lower) :
    (∃ value, (entry.1, entry.2.1, value) ∈ upper) ∨ entry ∈ lower := by
  induction upper generalizing lower with
  | nil => exact .inr h
  | cons head rest ih =>
    obtain ⟨key, file, value⟩ := head
    obtain ⟨laid, -, honto⟩ := onto_cons key file value rest lower
    rw [honto] at h
    rcases ih h with ⟨above, hmem⟩ | hmem
    · exact .inl ⟨above, List.mem_cons_of_mem _ hmem⟩
    · rcases mem_put hmem with rfl | hmem
      · exact .inl ⟨value, List.mem_cons_self⟩
      · exact .inr hmem

/-! ## Tables of TOML texts -/

/-- A member of the table of a text has a key of the text, and the file of the text. -/
theorem mem_ofToml {t : TomlTable} {entry : String × Option Path × ConfigValue}
    (h : entry ∈ ofToml file t) : (t.lookup entry.1).isSome = true ∧ entry.2.1 = file := by
  induction t with
  | nil => cases h
  | cons head rest ih =>
    obtain ⟨name, value⟩ := head
    rw [Lists.lookup_cons_eq_ite]
    replace h : entry ∈ put name file (ConfigValue.ofToml file value) (ofToml file rest) := h
    rcases mem_put h with rfl | hmem
    · exact ⟨by rw [if_pos rfl]; rfl, rfl⟩
    · refine ⟨?_, (ih hmem).2⟩
      split
      · rfl
      · exact (ih hmem).1

theorem ascending_ofToml (file : Option Path) (t : TomlTable) : (ofToml file t).Ascending := by
  induction t with
  | nil => exact .nil
  | cons head rest ih => exact Ascending.put ih _ _ _

theorem value?_ofToml (file : Option Path) (t : TomlTable) (key : String) :
    (ofToml file t).value? key = (t.lookup key).map (ConfigValue.ofToml file) := by
  induction t with
  | nil => rfl
  | cons head rest ih =>
    obtain ⟨name, value⟩ := head
    have hput : ofToml file ((name, value) :: rest) =
        put name file (ConfigValue.ofToml file value) (ofToml file rest) := rfl
    rw [hput, value?_put, ih, Lists.lookup_cons_eq_ite,
      apply_ite (Option.map (ConfigValue.ofToml file))]
    rfl

end ConfigTable
end PluginHost
