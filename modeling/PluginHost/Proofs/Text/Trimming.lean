import Mathlib.Data.List.DropRight
import PluginHost.Text.Blank

/-! # Trimmed texts

Trimming takes blanks from the ends of a text and nothing else (`Text.exists_trim`), and leaves
a text alone that neither begins nor ends with a blank (`Text.trim_eq_self_iff`). -/
namespace PluginHost
namespace Text

variable {cs : List Char}

/-- Letters and digits of ASCII are no blanks. -/
theorem isBlank_of_isAlphanum {c : Char} (h : c.isAlphanum = true) : isBlank c = false := by
  refine Bool.eq_false_iff.mpr fun hblank => ?_
  have hrange : c.toNat ≤ 32 ∨ 128 ≤ c.toNat := by
    simp only [isBlank, blankRanges, List.any_cons, List.any_nil, Bool.or_false,
      Bool.or_eq_true, Bool.and_eq_true, decide_eq_true_eq] at hblank
    omega
  have hrun : ∃ low high : UInt32, low ≤ c.val ∧ c.val ≤ high ∧ 48 ≤ low.toNat ∧
      high.toNat ≤ 122 := by
    rcases Bool.or_eq_true_iff.mp h with h | h
    · rcases Bool.or_eq_true_iff.mp h with hupper | hlower
      · obtain ⟨hlow, hhigh⟩ := of_decide_eq_true hupper
        exact ⟨_, _, hlow, hhigh, by decide, by decide⟩
      · obtain ⟨hlow, hhigh⟩ := Bool.and_eq_true_iff.mp hlower
        exact ⟨_, _, of_decide_eq_true hlow, of_decide_eq_true hhigh, by decide, by decide⟩
    · obtain ⟨hlow, hhigh⟩ := Bool.and_eq_true_iff.mp h
      exact ⟨_, _, of_decide_eq_true hlow, of_decide_eq_true hhigh, by decide, by decide⟩
  obtain ⟨low, high, hlow, hhigh, hleast, hgreatest⟩ := hrun
  have htoNat : c.toNat = c.val.toNat := rfl
  rw [UInt32.le_iff_toNat_le, ← htoNat] at hlow hhigh
  omega

theorem trimEnd_eq_rdropWhile (cs : List Char) : trimEnd cs = cs.rdropWhile isBlank := rfl

theorem head?_trimStart (cs : List Char) : ∀ c ∈ (trimStart cs).head?, isBlank c = false := by
  intro c hc
  have hnot := List.head?_dropWhile_not isBlank cs
  rw [trimStart] at hc
  rw [Option.mem_def.mp hc] at hnot
  exact hnot

theorem getLast?_trimEnd (cs : List Char) : ∀ c ∈ (trimEnd cs).getLast?, isBlank c = false := by
  intro c hc
  obtain ⟨hne, rfl⟩ := List.mem_getLast?_eq_getLast hc
  exact Bool.eq_false_iff.mpr (List.rdropWhile_last_not isBlank cs hne)

/-- A text is trimmed when it neither begins nor ends with a blank. -/
theorem trim_eq_self_iff : trim cs = cs ↔
    (∀ c ∈ cs.head?, isBlank c = false) ∧ ∀ c ∈ cs.getLast?, isBlank c = false := by
  constructor
  · intro h
    have hsuffix : trimStart cs <:+ cs := List.dropWhile_suffix isBlank
    have hprefix : trim cs <+: trimStart cs := List.rdropWhile_prefix isBlank (trimStart cs)
    have hlength := hprefix.length_le
    rw [h] at hlength
    have hstart : trimStart cs = cs :=
      hsuffix.eq_of_length (Nat.le_antisymm hsuffix.length_le hlength)
    rw [trim, hstart] at h
    exact ⟨hstart ▸ head?_trimStart cs, h ▸ getLast?_trimEnd cs⟩
  · rintro ⟨hhead, hlast⟩
    have hstart : trimStart cs = cs := by
      cases cs with
      | nil => rfl
      | cons c cs => exact trimStart_of_not_blank (hhead c rfl) cs
    rw [trim, hstart, trimEnd_eq_rdropWhile, List.rdropWhile_eq_self_iff]
    intro hne
    exact Bool.eq_false_iff.mp (hlast _ (List.getLast?_eq_getLast_of_ne_nil hne))

/-- A text is what trimming leaves of it between blanks. -/
theorem exists_trim (cs : List Char) : ∃ front back, cs = front ++ (trim cs ++ back) ∧
    (∀ c ∈ front, isBlank c = true) ∧ ∀ c ∈ back, isBlank c = true := by
  have hback := congrArg List.reverse
    (List.takeWhile_append_dropWhile (p := isBlank) (l := (trimStart cs).reverse))
  rw [List.reverse_append, List.reverse_reverse] at hback
  refine ⟨cs.takeWhile isBlank, ((trimStart cs).reverse.takeWhile isBlank).reverse, ?_,
    fun c hc => List.mem_takeWhile_imp hc,
    fun c hc => List.mem_takeWhile_imp (List.mem_reverse.mp hc)⟩
  exact (List.takeWhile_append_dropWhile (p := isBlank)).symm.trans (congrArg _ hback.symm)

/-- Every character is a blank or stays when a text is trimmed. -/
theorem isBlank_or_mem_trim {c : Char} (h : c ∈ cs) : isBlank c = true ∨ c ∈ trim cs := by
  obtain ⟨front, back, heq, hfront, hback⟩ := exists_trim cs
  rw [heq] at h
  rcases List.mem_append.mp h with h | h
  · exact .inl (hfront c h)
  · exact (List.mem_append.mp h).elim .inr fun h => .inl (hback c h)

theorem mem_of_mem_trim {c : Char} (h : c ∈ trim cs) : c ∈ cs := by
  obtain ⟨front, back, heq, -, -⟩ := exists_trim cs
  rw [heq]
  exact List.mem_append_right front (List.mem_append_left back h)

theorem trim_trim (cs : List Char) : trim (trim cs) = trim cs := by
  refine trim_eq_self_iff.mpr ⟨fun c hc => ?_, getLast?_trimEnd (trimStart cs)⟩
  obtain ⟨others, hothers⟩ : trim cs <+: trimStart cs := List.rdropWhile_prefix isBlank _
  refine head?_trimStart cs c ?_
  rw [← hothers, List.head?_append, Option.mem_def.mp hc]
  rfl

/-- A text of blanks only. -/
def Blank (text : String) : Prop := ∀ c ∈ text.toList, isBlank c = true

theorem trimmed_eq_empty_iff {text : String} : trimmed text = "" ↔ Blank text := by
  rw [← String.toList_eq_nil_iff, toList_trimmed]
  constructor
  · intro h c hc
    refine (isBlank_or_mem_trim hc).resolve_right fun hmem => ?_
    rw [h] at hmem
    cases hmem
  · intro h
    have hstart : trimStart text.toList = [] := List.dropWhile_eq_nil_iff.mpr h
    rw [trim, hstart]
    rfl

end Text
end PluginHost
