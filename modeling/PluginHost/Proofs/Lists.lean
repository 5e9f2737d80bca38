/-! # Lists

`List.eraseDups` keeps the first occurrence of every member.  Lists that grow at
their end are built by it one member at a time (`eraseDups_concat_of_mem`,
`eraseDups_concat_of_not_mem`).  A list can be sorted into parts by a key
(`perm_flatMap_filter`).  Where the members that match are alike, it does not matter which
of them a search finds (`map_find?_eq_of_perm`). -/
namespace PluginHost
namespace Lists

/-- How far a list goes depends on its own members only. -/
theorem takeWhile_congr {α : Type} {p q : α → Bool} {as : List α} (h : ∀ a ∈ as, p a = q a) :
    as.takeWhile p = as.takeWhile q := by
  induction as with
  | nil => rfl
  | cons a as ih =>
    rw [List.takeWhile_cons, List.takeWhile_cons, h a List.mem_cons_self,
      ih fun b hb => h b (List.mem_cons_of_mem a hb)]

/-- What a search finds depends on what it is told of the members. -/
theorem findSome?_congr {α β : Type} {f g : α → Option β} {as : List α}
    (h : ∀ a ∈ as, f a = g a) : as.findSome? f = as.findSome? g := by
  induction as with
  | nil => rfl
  | cons a as ih =>
    rw [List.findSome?_cons, List.findSome?_cons, h a List.mem_cons_self,
      ih fun b hb => h b (List.mem_cons_of_mem a hb)]

/-- The members of a list, looked up one after the other. -/
theorem filterMap_getElem?_range {α : Type} (as : List α) :
    (List.range as.length).filterMap (as[·]?) = as := by
  induction as with
  | nil => rfl
  | cons a as ih =>
    rw [List.length_cons, List.range_succ_eq_map, List.filterMap_cons, List.filterMap_map]
    simpa [Function.comp_def] using ih

/-- The first entry is found by its key, and by another key what stands behind it. -/
theorem lookup_cons_eq_ite {κ β : Type} [BEq κ] [LawfulBEq κ] [DecidableEq κ] (key name : κ)
    (b : β) (t : List (κ × β)) :
    ((name, b) :: t).lookup key = if key = name then some b else t.lookup key := by
  rw [List.lookup_cons]
  by_cases h : key = name
  · rw [if_pos h, beq_iff_eq.mpr h]
  · rw [if_neg h, beq_eq_false_iff_ne.mpr h]

/-- A list has the same members as its parts by a key, each as often. -/
theorem perm_flatMap_filter {α κ : Type} [BEq κ] [LawfulBEq κ] (key : α → κ) {keys : List κ}
    (hnodup : keys.Nodup) {as : List α} (h : ∀ a ∈ as, key a ∈ keys) :
    as.Perm (keys.flatMap fun k => as.filter (key · == k)) := by
  induction keys generalizing as with
  | nil =>
    rw [List.eq_nil_iff_forall_not_mem.mpr fun a ha => List.not_mem_nil (h a ha)]
    rfl
  | cons k keys ih =>
    obtain ⟨hk, hnodup⟩ := List.nodup_cons.mp hnodup
    have hothers : ∀ a ∈ as.filter fun a => !(key a == k), key a ∈ keys := by
      intro a ha
      obtain ⟨hmem, hne⟩ := List.mem_filter.mp ha
      exact (List.mem_cons.mp (h a hmem)).resolve_left (by simpa using hne)
    have hrest := ih hnodup hothers
    -- Taking out the members of one key leaves the parts of the other keys as they are.
    have hsame : ∀ k' ∈ keys, (as.filter fun a => !(key a == k)).filter (key · == k') =
        as.filter (key · == k') := by
      intro k' hk'
      rw [List.filter_filter]
      refine List.filter_congr fun a _ => ?_
      by_cases ha : key a = k'
      · have hne : key a ≠ k := fun heq => hk (heq ▸ ha ▸ hk')
        simp [ha, ha ▸ hne]
      · simp [ha]
    rw [List.flatMap_cons]
    refine (List.filter_append_perm (key · == k) as).symm.trans (.append_left _ ?_)
    rw [List.flatMap_def, List.map_congr_left hsame, ← List.flatMap_def] at hrest
    exact hrest

/-- What is told of the first member that is found does not depend on the order of the list,
if the same is told of all members that might be found. -/
theorem map_find?_eq_of_perm {α β : Type} {p : α → Bool} {f : α → β} {as bs : List α}
    (hperm : as.Perm bs) (hone : ∀ a ∈ as, ∀ b ∈ as, p a = true → p b = true → f a = f b) :
    (as.find? p).map f = (bs.find? p).map f := by
  cases ha : as.find? p with
  | none =>
    have hnone : bs.find? p = none := by
      rw [List.find?_eq_none] at ha ⊢
      exact fun b hb => ha b (hperm.mem_iff.mpr hb)
    rw [hnone]
  | some a =>
    cases hb : bs.find? p with
    | none =>
      have hnot := List.find?_eq_none.mp hb a (hperm.mem_iff.mp (List.mem_of_find?_eq_some ha))
      exact absurd (List.find?_some ha) hnot
    | some b =>
      exact congrArg some (hone a (List.mem_of_find?_eq_some ha) b
        (hperm.mem_iff.mpr (List.mem_of_find?_eq_some hb)) (List.find?_some ha)
        (List.find?_some hb))

/-- A list without repetitions whose members are all the same has one member at most. -/
theorem eq_toList_of_forall_eq {α : Type} {as : List α} {a : α} (hnodup : as.Nodup)
    (h : ∀ b ∈ as, b = a) : ∃ found : Option α, as = found.toList := by
  match as with
  | [] => exact ⟨none, rfl⟩
  | [b] => exact ⟨some b, rfl⟩
  | b :: c :: as =>
    have hb : b = a := h b List.mem_cons_self
    have hc : c = a := h c (List.mem_cons_of_mem _ List.mem_cons_self)
    exact absurd (hb.trans hc.symm) (List.ne_of_not_mem_cons (List.nodup_cons.mp hnodup).1)

variable {α : Type} [BEq α] [LawfulBEq α]

/-- A member that has occurred is not kept again. -/
theorem eraseDups_concat_of_mem {as : List α} {a : α} (h : a ∈ as) :
    (as ++ [a]).eraseDups = as.eraseDups := by
  rw [List.eraseDups_append, List.removeAll, List.filter_cons_of_neg (by simpa using h)]
  simp

/-- A member that has not occurred is kept. -/
theorem eraseDups_concat_of_not_mem {as : List α} {a : α} (h : a ∉ as) :
    (as ++ [a]).eraseDups = as.eraseDups ++ [a] := by
  rw [List.eraseDups_append, List.removeAll, List.filter_cons_of_pos (by simpa using h)]
  simp [List.eraseDups_cons]

/-- No member is kept twice. -/
theorem nodup_eraseDups (as : List α) : as.eraseDups.Nodup := by
  induction hn : as.length using Nat.strongRecOn generalizing as with
  | ind n ih =>
    cases as with
    | nil => exact List.nodup_nil
    | cons a as =>
      rw [List.eraseDups_cons, List.nodup_cons]
      refine ⟨by simp, ih _ ?_ _ rfl⟩
      rw [← hn]
      exact Nat.lt_succ_of_le (List.length_filter_le _ as)

end Lists
end PluginHost
