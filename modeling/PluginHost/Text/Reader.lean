/-! # Readers

A `Reader` reads the start of a text and says what is left.  What is left is no
longer than the text, which is part of the type, so a loop over a list of items
ends although nobody knows how an item is read.

A `ListForm` is such a list: items between commas, up to a closing mark. -/
namespace PluginHost

/-- Reads the start of a text. -/
structure Reader (α : Type) where
  /-- What is read, and what is left. -/
  read : List Char → Option (α × List Char)
  length_le : ∀ {cs rest : List Char} {a : α}, read cs = some (a, rest) → rest.length ≤ cs.length

/-- How a list of items is written. -/
structure ListForm where
  close : Char
  /-- Whether a comma may stand behind the last item. -/
  finalComma : Bool
  /-- A text without what does not count in front of items and marks. -/
  skip : List Char → List Char
  length_skip : ∀ cs, (skip cs).length ≤ cs.length

namespace ListForm

variable {α : Type} (form : ListForm) (item : Reader α)

/-- The items up to the closing mark, which may come first when `mayClose`, and
what is left behind it. -/
def read (mayClose : Bool) (cs : List Char) : Option (List α × List Char) :=
  match hs : form.skip cs with
  | [] => none
  | c :: front =>
    if mayClose && c == form.close then some ([], front)
    else
      match hi : item.read (c :: front) with
      | none => none
      | some (first, back) =>
        match hb : form.skip back with
        | [] => none
        | mark :: rest =>
          have : rest.length < cs.length := by
            have h₁ := hs ▸ form.length_skip cs
            have h₂ := item.length_le hi
            have h₃ := hb ▸ form.length_skip back
            simp only [List.length_cons] at *
            omega
          if mark == form.close then some ([first], rest)
          else if mark == ',' then
            (read form.finalComma rest).map fun (others, rest) => (first :: others, rest)
          else none
termination_by cs.length

theorem length_read {mayClose : Bool} {cs rest : List Char} {items : List α}
    (h : form.read item mayClose cs = some (items, rest)) : rest.length ≤ cs.length := by
  fun_induction read form item mayClose cs generalizing items rest with
  | case1 => simp at h
  | case2 mayClose cs c front hs _ =>
    have h₁ := form.length_skip cs
    obtain ⟨-, rfl⟩ := Prod.mk.inj (Option.some.inj h)
    rw [hs] at h₁
    exact Nat.le_of_succ_le h₁
  | case3 => simp at h
  | case4 => simp at h
  | case5 _ _ _ _ _ _ _ _ _ _ _ _ lt _ =>
    obtain ⟨-, rfl⟩ := Prod.mk.inj (Option.some.inj h)
    exact Nat.le_of_lt lt
  | case6 _ _ _ _ _ _ _ _ _ _ _ _ lt _ _ ih =>
    obtain ⟨⟨others, r⟩, hr, h⟩ := Option.map_eq_some_iff.mp h
    obtain ⟨-, rfl⟩ := Prod.mk.inj h
    exact Nat.le_trans (ih hr) (Nat.le_of_lt lt)
  | case7 => simp at h

end ListForm
end PluginHost
