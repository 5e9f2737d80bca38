import Mathlib.Data.List.Basic

/-! # First occurrences

What occurs first in a list occurs first in the list without repetitions
(`Lists.idxOf_eraseDups_lt_iff`).  In a list that is put together from parts it is what stands
in an earlier part, or further in front in the same part (`Lists.idxOf_flatMap_lt_iff`). -/
namespace PluginHost
namespace Lists

variable {α : Type} [BEq α] [LawfulBEq α]

/-- Members that pass a test keep their order when the others are left out. -/
theorem idxOf_filter_lt_iff {p : α → Bool} {a b : α} (ha : p a = true) (hb : p b = true)
    (as : List α) :
    (as.filter p).idxOf a < (as.filter p).idxOf b ↔ as.idxOf a < as.idxOf b := by
  induction as with
  | nil => rfl
  | cons c as ih =>
    by_cases hca : c = a
    · subst hca
      by_cases hcb : c = b
      · simp [hcb]
      · simp [ha, List.idxOf_cons_ne _ hcb]
    · by_cases hcb : c = b
      · subst hcb
        simp [hb]
      · cases hc : p c <;> simp [hc, List.idxOf_cons_ne _ hca, List.idxOf_cons_ne _ hcb, ih]

/-- What occurs first is kept in front. -/
theorem idxOf_eraseDups_lt_iff (as : List α) (a b : α) :
    as.eraseDups.idxOf a < as.eraseDups.idxOf b ↔ as.idxOf a < as.idxOf b := by
  induction hn : as.length using Nat.strongRecOn generalizing as with
  | ind n ih =>
    cases as with
    | nil => rfl
    | cons c as =>
      rw [List.eraseDups_cons]
      by_cases hca : c = a
      · subst hca
        by_cases hcb : c = b
        · simp [hcb]
        · simp [List.idxOf_cons_ne _ hcb]
      · by_cases hcb : c = b
        · simp [hcb]
        · have hlt : (as.filter fun d => !d == c).length < n := by
            rw [← hn]
            exact Nat.lt_succ_of_le (List.length_filter_le _ as)
          have hrest := ih _ hlt _ rfl
          rw [idxOf_filter_lt_iff (by simpa using Ne.symm hca) (by simpa using Ne.symm hcb)]
            at hrest
          simpa [List.idxOf_cons_ne _ hca, List.idxOf_cons_ne _ hcb] using hrest

/-- Of two members of the parts that a list is put together from, the one whose first part
comes first stands in front, and of two members of one part the one that stands in front
there. -/
theorem idxOf_flatMap_lt_iff {β : Type} [BEq β] [LawfulBEq β] {f : β → List α} {bs : List β}
    {a a' : α} {b b' : β} (h : bs.find? (fun c => (f c).contains a) = some b)
    (h' : bs.find? (fun c => (f c).contains a') = some b') :
    (bs.flatMap f).idxOf a < (bs.flatMap f).idxOf a' ↔
      bs.idxOf b < bs.idxOf b' ∨ b = b' ∧ (f b).idxOf a < (f b).idxOf a' := by
  induction bs with
  | nil => cases h
  | cons c bs ih =>
    rw [List.find?_cons] at h h'
    rw [List.flatMap_cons]
    -- What is not in the first part is first found in another one.
    have hother {a : α} {b : β} (hc : a ∉ f c)
        (h : bs.find? (fun c => (f c).contains a) = some b) : c ≠ b := by
      rintro rfl
      have hfound := List.find?_some h
      exact hc (List.contains_iff_mem.mp hfound)
    by_cases ha : a ∈ f c
    · obtain rfl : c = b := by simpa [ha] using h
      by_cases ha' : a' ∈ f c
      · obtain rfl : c = b' := by simpa [ha'] using h'
        simp [List.idxOf_append_of_mem ha, List.idxOf_append_of_mem ha']
      · have hne := hother ha' (by simpa [ha'] using h')
        have hlt : (f c).idxOf a < (f c).length := List.idxOf_lt_length_iff.mpr ha
        simp only [List.idxOf_append_of_mem ha, List.idxOf_append_of_notMem ha',
          List.idxOf_cons_self, List.idxOf_cons_ne _ hne]
        omega
    · replace h : bs.find? (fun c => (f c).contains a) = some b := by simpa [ha] using h
      have hne := hother ha h
      by_cases ha' : a' ∈ f c
      · obtain rfl : c = b' := by simpa [ha'] using h'
        have hlt : (f c).idxOf a' < (f c).length := List.idxOf_lt_length_iff.mpr ha'
        simp only [List.idxOf_append_of_mem ha', List.idxOf_append_of_notMem ha,
          List.idxOf_cons_self, Ne.symm hne, false_and, or_false]
        omega
      · replace h' : bs.find? (fun c => (f c).contains a') = some b' := by simpa [ha'] using h'
        have hne' := hother ha' h'
        simpa [List.idxOf_append_of_notMem ha, List.idxOf_append_of_notMem ha',
          List.idxOf_cons_ne _ hne, List.idxOf_cons_ne _ hne'] using ih h h'

/-- What a search finds stands in front of all else that it might find. -/
theorem idxOf_le_of_find?_eq_some {p : α → Bool} {as : List α} {a b : α}
    (h : as.find? p = some a) (hb : p b = true) : as.idxOf a ≤ as.idxOf b := by
  induction as with
  | nil => cases h
  | cons c as ih =>
    rw [List.find?_cons] at h
    cases hc : p c with
    | true =>
      rw [hc] at h
      obtain rfl := Option.some.inj h
      rw [List.idxOf_cons_self]
      exact Nat.zero_le _
    | false =>
      rw [hc] at h
      have hcb : c ≠ b := fun heq => by rw [heq, hb] at hc; cases hc
      have hca : c ≠ a := fun heq => by rw [heq, List.find?_some h] at hc; cases hc
      rw [List.idxOf_cons_ne _ hca, List.idxOf_cons_ne _ hcb]
      exact Nat.succ_le_succ (ih h)

end Lists
end PluginHost
