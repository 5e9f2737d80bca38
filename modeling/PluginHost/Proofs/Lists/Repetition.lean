import Mathlib.Data.List.Induction
import PluginHost.Proofs.Lists

/-! # When repetitions are left out

`List.eraseDups` keeps the first occurrence of every member.  Where a list is put together
from parts, repetitions can be left out at the end only, or in the parts already, or among the
members that the parts belong to: the first occurrences are the same
(`eraseDups_flatMap_eraseDups`, `eraseDups_flatMap_congr`).  So a list that grows in rounds,
without its repetitions after each, is the list of the parts that grow from the single members
(`foldl_eraseDups_flatMap`), and a round that only finds what is there moves nothing
(`eraseDups_flatMap_twice`). -/
namespace PluginHost
namespace Lists

variable {α β : Type} [BEq α] [LawfulBEq α]

theorem eraseDups_of_nodup {as : List α} (h : as.Nodup) : as.eraseDups = as := by
  induction as with
  | nil => rfl
  | cons a as ih =>
    obtain ⟨ha, has⟩ := List.nodup_cons.mp h
    have hself : as.filter (fun b => !b == a) = as :=
      List.filter_eq_self.mpr fun b hb => by simpa using fun heq : b = a => ha (heq ▸ hb)
    rw [List.eraseDups_cons, hself, ih has]

theorem eraseDups_eraseDups (as : List α) : as.eraseDups.eraseDups = as.eraseDups :=
  eraseDups_of_nodup (nodup_eraseDups as)

/-- What has occurred already is not kept. -/
theorem eraseDups_append_of_subset {as bs : List α} (h : bs ⊆ as) :
    (as ++ bs).eraseDups = as.eraseDups := by
  have hnone : bs.removeAll as = [] :=
    List.filter_eq_nil_iff.mpr fun b hb => by simpa using h hb
  rw [List.eraseDups_append, hnone, List.eraseDups_nil, List.append_nil]

/-! ## Lists in two parts -/

theorem eraseDups_eraseDups_append (as bs : List α) :
    (as.eraseDups ++ bs).eraseDups = (as ++ bs).eraseDups := by
  have hsame : bs.removeAll as.eraseDups = bs.removeAll as :=
    List.filter_congr fun b _ => by simp [List.mem_eraseDups]
  rw [List.eraseDups_append, List.eraseDups_append, eraseDups_eraseDups, hsame]

theorem eraseDups_append_eraseDups (as bs : List α) :
    (as ++ bs.eraseDups).eraseDups = (as ++ bs).eraseDups := by
  induction bs using List.reverseRecOn with
  | nil => rfl
  | append_singleton bs b ih =>
    rw [← List.append_assoc, ← eraseDups_eraseDups_append (as ++ bs), ← ih,
      eraseDups_eraseDups_append]
    by_cases hb : b ∈ bs
    · rw [eraseDups_concat_of_mem hb]
      have hoccurs : b ∈ as ++ bs.eraseDups :=
        List.mem_append_right as (List.mem_eraseDups.mpr hb)
      exact (eraseDups_append_of_subset (List.cons_subset.mpr ⟨hoccurs, List.nil_subset _⟩)).symm
    · rw [eraseDups_concat_of_not_mem hb, List.append_assoc]

theorem eraseDups_append_congr {as as' bs bs' : List α} (h : as.eraseDups = as'.eraseDups)
    (h' : bs.eraseDups = bs'.eraseDups) : (as ++ bs).eraseDups = (as' ++ bs').eraseDups := by
  rw [← eraseDups_eraseDups_append as, ← eraseDups_append_eraseDups _ bs, h, h',
    eraseDups_append_eraseDups, eraseDups_eraseDups_append]

/-! ## Lists in many parts -/

/-- Repetitions in the parts do not matter. -/
theorem eraseDups_flatMap_congr {f g : β → List α} {bs : List β}
    (h : ∀ b ∈ bs, (f b).eraseDups = (g b).eraseDups) :
    (bs.flatMap f).eraseDups = (bs.flatMap g).eraseDups := by
  induction bs with
  | nil => rfl
  | cons b bs ih =>
    rw [List.flatMap_cons, List.flatMap_cons]
    exact eraseDups_append_congr (h b List.mem_cons_self)
      (ih fun c hc => h c (List.mem_cons_of_mem b hc))

/-- Repetitions among the members that the parts belong to do not matter. -/
theorem eraseDups_flatMap_eraseDups [BEq β] [LawfulBEq β] (f : β → List α) (bs : List β) :
    (bs.eraseDups.flatMap f).eraseDups = (bs.flatMap f).eraseDups := by
  induction bs using List.reverseRecOn with
  | nil => rfl
  | append_singleton bs b ih =>
    rw [List.flatMap_append, List.flatMap_singleton]
    by_cases hb : b ∈ bs
    · have hsub : f b ⊆ bs.flatMap f := fun a ha => List.mem_flatMap.mpr ⟨b, hb, ha⟩
      rw [eraseDups_concat_of_mem hb, ih, eraseDups_append_of_subset hsub]
    · rw [eraseDups_concat_of_not_mem hb, List.flatMap_append, List.flatMap_singleton]
      exact eraseDups_append_congr ih rfl

/-- A second round adds nothing when every part holds its member first and then all that its
members grow to. -/
theorem eraseDups_flatMap_twice {grow : α → List α} {as : List α}
    (hself : ∀ a ∈ as, ∃ more, grow a = a :: more)
    (hclosed : ∀ a ∈ as, ∀ b ∈ grow a, grow b ⊆ grow a) :
    ((as.flatMap grow).eraseDups.flatMap grow).eraseDups = (as.flatMap grow).eraseDups := by
  rw [eraseDups_flatMap_eraseDups, List.flatMap_assoc]
  refine eraseDups_flatMap_congr fun a ha => ?_
  obtain ⟨more, hmore⟩ := hself a ha
  have hsub : more.flatMap grow ⊆ grow a := fun c hc => by
    obtain ⟨b, hb, hc⟩ := List.mem_flatMap.mp hc
    exact hclosed a ha b (hmore ▸ List.mem_cons_of_mem a hb) hc
  calc ((grow a).flatMap grow).eraseDups
      = (grow a ++ more.flatMap grow).eraseDups := by rw [hmore, List.flatMap_cons, ← hmore]
    _ = (grow a).eraseDups := eraseDups_append_of_subset hsub

/-- A list that grows in rounds, without its repetitions after each, grows from each member on
its own. -/
theorem foldl_eraseDups_flatMap {σ : Type} (grow : σ → α → List α) (rounds : List σ)
    {as : List α} (h : as.Nodup) :
    rounds.foldl (fun as round => (as.flatMap (grow round)).eraseDups) as =
      (as.flatMap fun a =>
        rounds.foldl (fun as round => (as.flatMap (grow round)).eraseDups) [a]).eraseDups := by
  induction rounds generalizing as with
  | nil =>
    simp only [List.foldl_nil]
    rw [List.flatMap_singleton', eraseDups_of_nodup h]
  | cons round rounds ih =>
    simp only [List.foldl_cons, List.flatMap_singleton]
    rw [ih (nodup_eraseDups _), eraseDups_flatMap_eraseDups, List.flatMap_assoc]
    refine eraseDups_flatMap_congr fun a _ => ?_
    rw [ih (nodup_eraseDups _), eraseDups_flatMap_eraseDups, eraseDups_eraseDups]

end Lists
end PluginHost
