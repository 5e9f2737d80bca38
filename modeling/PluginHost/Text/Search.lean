/-! # Finding a text in another

`Text.cutAt? part` cuts a text around the first place where `part` stands in it;
`append_of_cutAt?` says that nothing is lost. -/
namespace PluginHost
namespace Text

/-- What stands before the first occurrence of `part`, and what stands behind
it. -/
def cutAt? (part : List Char) : List Char → Option (List Char × List Char)
  | [] => if part.isEmpty then some ([], []) else none
  | c :: cs =>
    if part.isPrefixOf (c :: cs) then some ([], (c :: cs).drop part.length)
    else (cutAt? part cs).map fun (front, rest) => (c :: front, rest)

/-- Whether `part` stands somewhere in a text. -/
def occursIn (part cs : List Char) : Bool := (cutAt? part cs).isSome

theorem append_of_cutAt? {part cs front rest : List Char}
    (h : cutAt? part cs = some (front, rest)) : cs = front ++ part ++ rest := by
  induction cs generalizing front with
  | nil =>
    rw [cutAt?] at h
    split at h
    · simp_all
    · simp at h
  | cons c cs ih =>
    rw [cutAt?] at h
    split at h
    · rename_i hp
      obtain ⟨t, ht⟩ := List.isPrefixOf_iff_prefix.mp hp
      simp only [Option.some.injEq, Prod.mk.injEq] at h
      rw [← h.1, ← h.2, ← ht]
      simp
    · obtain ⟨⟨f, r⟩, hc, h⟩ := Option.map_eq_some_iff.mp h
      simp only [Prod.mk.injEq] at h
      rw [← h.1, ih (h.2 ▸ hc)]
      simp

end Text
end PluginHost
