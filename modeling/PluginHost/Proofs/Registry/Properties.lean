import Mathlib.Data.String.Basic
import PluginHost.Proofs.Lists
import PluginHost.Registry
import PluginHost.Scan

/-! # Properties of extensions

Names are kept in ascending order, each once, and a value that is added goes to the end of the
row of its name (`Properties.values_add`).  A new name is put in front of the first greater one
without a look at what stands behind, so this holds only because the names ascend
(`Properties.Ascending.insert`).  Hence an extension has under each name the values that its mark
gives for that name, in the order of the mark (`ExtensionMark.values_propertyMap`). -/
namespace PluginHost
namespace Properties

/-- Rows whose names ascend. -/
def Ascending (rows : List (String × List String)) : Prop := rows.Pairwise fun a b => a.1 < b.1

variable {rows : List (String × List String)}

/-- A value brings no other name than its own. -/
theorem name_of_mem_insert {name value : String} {row : String × List String}
    (h : row ∈ insert name value rows) : row.1 = name ∨ ∃ old ∈ rows, old.1 = row.1 := by
  induction rows with
  | nil =>
    rw [insert, List.mem_singleton] at h
    exact .inl (congrArg Prod.fst h)
  | cons first rows ih =>
    rw [insert] at h
    by_cases hlt : name < first.1
    · rw [if_pos hlt] at h
      rcases List.mem_cons.mp h with rfl | h
      · exact .inl rfl
      · exact .inr ⟨row, h, rfl⟩
    · rw [if_neg hlt] at h
      by_cases heq : name = first.1
      · rw [if_pos heq] at h
        rcases List.mem_cons.mp h with rfl | h
        · exact .inl heq.symm
        · exact .inr ⟨row, List.mem_cons_of_mem first h, rfl⟩
      · rw [if_neg heq] at h
        rcases List.mem_cons.mp h with rfl | h
        · exact .inr ⟨row, List.mem_cons_self, rfl⟩
        · rcases ih h with hname | ⟨old, hold, hsame⟩
          · exact .inl hname
          · exact .inr ⟨old, List.mem_cons_of_mem first hold, hsame⟩

/-- The names still ascend when a value is added. -/
theorem Ascending.insert (h : Ascending rows) (name value : String) :
    Ascending (insert name value rows) := by
  induction rows with
  | nil => exact List.pairwise_singleton _ _
  | cons first rows ih =>
    obtain ⟨hfirst, hrows⟩ := List.pairwise_cons.mp h
    rw [Properties.insert]
    by_cases hlt : name < first.1
    · rw [if_pos hlt]
      refine List.pairwise_cons.mpr ⟨fun row hrow => ?_, h⟩
      rcases List.mem_cons.mp hrow with rfl | hrow
      · exact hlt
      · exact hlt.trans (hfirst row hrow)
    · rw [if_neg hlt]
      by_cases heq : name = first.1
      · rw [if_pos heq]
        exact List.pairwise_cons.mpr ⟨hfirst, hrows⟩
      · rw [if_neg heq]
        have hgt : first.1 < name := lt_of_le_of_ne (not_lt.mp hlt) (Ne.symm heq)
        refine List.pairwise_cons.mpr ⟨fun row hrow => ?_, ih hrows⟩
        rcases name_of_mem_insert hrow with hname | ⟨old, hold, hsame⟩
        · rwa [hname]
        · rw [← hsame]
          exact hfirst old hold

/-- A name that is smaller than all others is not there. -/
theorem lookup_eq_none_of_lt {name : String} (h : ∀ row ∈ rows, name < row.1) :
    rows.lookup name = none := by
  rw [List.lookup_eq_none_iff]
  intro row hrow
  exact bne_iff_ne.mpr (h row hrow).ne

/-- **A value that is added is the last of its name**, and no other name gets it. -/
theorem lookup_insert (h : Ascending rows) (name value asked : String) :
    (insert name value rows).lookup asked =
      if asked = name then some ((rows.lookup name).getD [] ++ [value])
      else rows.lookup asked := by
  induction rows with
  | nil =>
    rw [insert, Lists.lookup_cons_eq_ite]
    rfl
  | cons first rows ih =>
    obtain ⟨hfirst, hrows⟩ := List.pairwise_cons.mp h
    rw [insert]
    by_cases hlt : name < first.1
    · have hnew : (first :: rows).lookup name = none := by
        refine lookup_eq_none_of_lt fun row hrow => ?_
        rcases List.mem_cons.mp hrow with rfl | hrow
        · exact hlt
        · exact hlt.trans (hfirst row hrow)
      rw [if_pos hlt, Lists.lookup_cons_eq_ite, hnew]
      rfl
    · rw [if_neg hlt]
      by_cases heq : name = first.1
      · rw [if_pos heq, Lists.lookup_cons_eq_ite, Lists.lookup_cons_eq_ite,
          Lists.lookup_cons_eq_ite, if_pos heq, ← heq]
        by_cases hasked : asked = name
        · rw [if_pos hasked, if_pos hasked]
          rfl
        · rw [if_neg hasked, if_neg hasked, if_neg hasked]
      · rw [if_neg heq, Lists.lookup_cons_eq_ite, Lists.lookup_cons_eq_ite,
          Lists.lookup_cons_eq_ite, if_neg heq, ih hrows]
        by_cases hasked : asked = first.1
        · have hother : asked ≠ name := fun hname => heq (hname.symm.trans hasked)
          rw [if_pos hasked, if_neg hother, if_pos hasked]
        · rw [if_neg hasked, if_neg hasked]

/-- The values of a name when one more value was added, under that name or another. -/
theorem values_add {p : Properties} (h : Ascending p.rows) (name value asked : String) :
    (p.add name value).values asked =
      p.values asked ++ if asked = name then [value] else [] := by
  rw [values, add, lookup_insert h]
  by_cases hasked : asked = name
  · rw [if_pos hasked, if_pos hasked, hasked]
    rfl
  · rw [if_neg hasked, if_neg hasked, List.append_nil]
    rfl

/-- Values that are added one after the other stand in this order behind those of their name. -/
theorem values_foldl_add {p : Properties} (h : Ascending p.rows) (added : List Property)
    (asked : String) :
    (added.foldl (fun p property => p.add property.name property.value) p).values asked =
      p.values asked ++ (added.filter (·.name == asked)).map (·.value) := by
  induction added generalizing p with
  | nil => exact (List.append_nil _).symm
  | cons property added ih =>
    have hadd : Ascending (p.add property.name property.value).rows :=
      h.insert property.name property.value
    rw [List.foldl_cons, ih hadd, values_add h, List.append_assoc]
    by_cases hname : property.name = asked
    · simp [hname]
    · simp [hname, Ne.symm hname]

end Properties

/-- **An extension has the values that its mark gives for a name**, in the order of the mark. -/
theorem ExtensionMark.values_propertyMap (mark : ExtensionMark) (name : String) :
    mark.propertyMap.values name = (mark.properties.filter (·.name == name)).map (·.value) := by
  have hempty : Properties.Ascending ({} : Properties).rows := List.Pairwise.nil
  exact Properties.values_foldl_add hempty mark.properties name

end PluginHost
