import Mathlib.Data.String.Basic
import PluginHost.Text.Lines
import PluginHost.Text.Search
import PluginHost.Text.Utf8

/-! # Positions in a text

Places in a text are counted in bytes.  A part of a text that has `front` before it stands at the
position `Text.byteCount front`: the position and the end of the part are boundaries of
characters, and the bytes between them are those of the part (`Text.standsAt_of_append`).

The place at which `Text.cutAt?` cuts a text is the first at which the part stands
(`Text.cutAt?_eq_some_iff`), and none is found only where the part stands nowhere
(`Text.cutAt?_eq_none_iff`). -/
namespace PluginHost
namespace Text

/-! ## Bytes -/

theorem byteCount_eq_length (cs : List Char) :
    byteCount cs = (cs.flatMap String.utf8EncodeChar).length := by
  have hfold (n : Nat) : cs.foldl (fun n c => n + c.utf8Size) n =
      n + (cs.flatMap String.utf8EncodeChar).length := by
    induction cs generalizing n with
    | nil => rfl
    | cons c cs ih =>
      rw [List.foldl_cons, ih, List.flatMap_cons, List.length_append, String.length_utf8EncodeChar,
        Nat.add_assoc]
  rw [byteCount, hfold, Nat.zero_add]

@[simp] theorem byteCount_nil : byteCount [] = 0 := rfl

theorem byteCount_append (cs ds : List Char) :
    byteCount (cs ++ ds) = byteCount cs + byteCount ds := by
  rw [byteCount_eq_length, List.flatMap_append, List.length_append, ← byteCount_eq_length,
    ← byteCount_eq_length]

theorem byteCount_ofList (cs : List Char) : byteCount cs = (String.ofList cs).utf8ByteSize := by
  rw [byteCount_eq_length, ← Utf8.encode_ofList]
  rfl

theorem byteCount_toList (s : String) : byteCount s.toList = s.utf8ByteSize := by
  rw [byteCount_ofList, String.ofList_toList]

/-- A part stands at a position of a text: it ends inside, begins and ends at boundaries of
characters, and what is between is the part. -/
structure StandsAt (part text : String) (position : Nat) : Prop where
  inside : position + part.utf8ByteSize ≤ text.utf8ByteSize
  begins : String.Pos.Raw.IsValid text ⟨position⟩
  ends : String.Pos.Raw.IsValid text ⟨position + part.utf8ByteSize⟩
  bytes : ((Utf8.encode text).drop position).take part.utf8ByteSize = Utf8.encode part

/-- **A part stands at the position behind what is before it.** -/
theorem standsAt_of_append {part text : String} {front back : List Char}
    (h : text.toList = front ++ part.toList ++ back) : StandsAt part text (byteCount front) := by
  have htext : text = String.ofList front ++ part ++ String.ofList back := by
    apply String.toList_inj.mp
    rw [h, String.toList_append, String.toList_append, String.toList_ofList, String.toList_ofList]
  have hsize := byteCount_ofList front
  have hencode : Utf8.encode text =
      Utf8.encode (String.ofList front) ++
        (Utf8.encode part ++ Utf8.encode (String.ofList back)) := by
    rw [← String.ofList_toList (s := text), h, Utf8.encode_ofList, Utf8.encode_ofList,
      Utf8.encode_ofList, List.flatMap_append, List.flatMap_append,
      ← Utf8.encode_ofList part.toList,
      String.ofList_toList, List.append_assoc]
  refine ⟨?_, ?_, ?_, ?_⟩
  · rw [htext, String.utf8ByteSize_append, String.utf8ByteSize_append, hsize]
    exact Nat.le_add_right _ _
  · refine String.Pos.Raw.isValid_iff_exists_append.mpr
      ⟨String.ofList front, part ++ String.ofList back, ?_, ?_⟩
    · rw [htext, String.append_assoc]
    · rw [hsize]
      rfl
  · refine String.Pos.Raw.isValid_iff_exists_append.mpr
      ⟨String.ofList front ++ part, String.ofList back, htext, ?_⟩
    rw [hsize, ← String.utf8ByteSize_append]
    rfl
  · have hlength (s : String) : (Utf8.encode s).length = s.utf8ByteSize := rfl
    rw [hencode, hsize, ← hlength, ← hlength, List.drop_left, List.take_left]

/-! ## The first occurrence -/

variable {part cs front rest : List Char}

theorem cutAt?_of_prefix (h : part <+: cs) : cutAt? part cs = some ([], cs.drop part.length) := by
  cases cs with
  | nil =>
    rw [List.prefix_nil.mp h]
    rfl
  | cons c cs => rw [cutAt?, if_pos (List.isPrefixOf_iff_prefix.mpr h)]

theorem cutAt?_cons_of_not_prefix {c : Char} (h : ¬part <+: c :: cs) :
    cutAt? part (c :: cs) = (cutAt? part cs).map fun (front, rest) => (c :: front, rest) := by
  rw [cutAt?, if_neg fun hprefix => h (List.isPrefixOf_iff_prefix.mp hprefix)]

/-- Where a part stands in a text the text is cut, and not behind this place. -/
theorem exists_cutAt? {front' rest' : List Char} (h : cs = front' ++ part ++ rest') :
    ∃ front rest, cutAt? part cs = some (front, rest) ∧ front.length ≤ front'.length := by
  induction front' generalizing cs with
  | nil => exact ⟨[], _, cutAt?_of_prefix ⟨rest', h.symm⟩, Nat.le_refl 0⟩
  | cons c front' ih =>
    subst h
    by_cases hprefix : part <+: c :: (front' ++ part ++ rest')
    · exact ⟨[], _, cutAt?_of_prefix hprefix, Nat.zero_le _⟩
    · obtain ⟨front, rest, hcut, hle⟩ := ih rfl
      refine ⟨c :: front, rest, ?_, Nat.succ_le_succ hle⟩
      rw [List.cons_append, List.cons_append, cutAt?_cons_of_not_prefix hprefix, hcut]
      rfl

theorem cutAt?_eq_none_iff :
    cutAt? part cs = none ↔ ∀ front rest, cs ≠ front ++ part ++ rest := by
  constructor
  · intro h front' rest' heq
    obtain ⟨front, rest, hcut, -⟩ := exists_cutAt? heq
    rw [h] at hcut
    cases hcut
  · intro h
    cases hcut : cutAt? part cs with
    | none => rfl
    | some cut => exact absurd (append_of_cutAt? hcut) (h cut.1 cut.2)

/-- **A text is cut around the first occurrence of a part.** -/
theorem cutAt?_eq_some_iff : cutAt? part cs = some (front, rest) ↔
    cs = front ++ part ++ rest ∧
      ∀ front' rest', cs = front' ++ part ++ rest' → front.length ≤ front'.length := by
  constructor
  · intro h
    refine ⟨append_of_cutAt? h, fun front' rest' heq => ?_⟩
    obtain ⟨first, behind, hcut, hle⟩ := exists_cutAt? heq
    obtain ⟨rfl, rfl⟩ := Prod.mk.inj (Option.some.inj (h.symm.trans hcut))
    exact hle
  · rintro ⟨heq, hfirst⟩
    obtain ⟨first, behind, hcut, hle⟩ := exists_cutAt? heq
    have happend := append_of_cutAt? hcut
    -- Two occurrences that begin at one place are the same.
    have hlength : first.length = front.length :=
      Nat.le_antisymm hle (hfirst first behind happend)
    rw [happend, List.append_assoc, List.append_assoc] at heq
    obtain ⟨rfl, hbehind⟩ := List.append_inj heq hlength
    rw [hcut, List.append_cancel_left hbehind]

/-- A part stands at one place of a text at most. -/
def OccursOnce (part cs : List Char) : Prop := ∀ ⦃front back front' back' : List Char⦄,
  cs = front ++ part ++ back → cs = front' ++ part ++ back' → front = front'

/-- A part occurs once when it does not occur again behind the first place where it begins. -/
theorem occursOnce_of_not_again {c : Char} (h : ((cutAt? (c :: part) cs).all fun cut =>
    (cutAt? (c :: part) (part ++ cut.2)).isNone) = true) : OccursOnce (c :: part) cs := by
  intro front₁ back₁ front₂ back₂ h₁ h₂
  obtain ⟨front, rest, hcut, -⟩ := exists_cutAt? h₁
  rw [hcut] at h
  obtain ⟨hcs, hfirst⟩ := cutAt?_eq_some_iff.mp hcut
  have hagain := cutAt?_eq_none_iff.mp (Option.isNone_iff_eq_none.mp h)
  have honly {front' back' : List Char} (heq : cs = front' ++ (c :: part) ++ back') :
      front' = front := by
    obtain ⟨between, rfl⟩ : front <+: front' := by
      have hprefix : front <+: cs := ⟨(c :: part) ++ rest, by rw [hcs, List.append_assoc]⟩
      have hprefix' : front' <+: cs := ⟨(c :: part) ++ back', by rw [heq, List.append_assoc]⟩
      exact List.prefix_of_prefix_length_le hprefix hprefix' (hfirst front' back' heq)
    cases between with
    | nil => exact List.append_nil front
    | cons d between =>
      rw [hcs, List.append_assoc, List.append_assoc, List.append_assoc,
        List.append_cancel_left_eq] at heq
      have hbehind : part ++ rest = between ++ (c :: part) ++ back' := by
        rw [List.append_assoc]
        exact (List.cons.inj heq).2
      exact absurd hbehind (hagain between back')
  rw [honly h₁, honly h₂]

/-- A text that stands in another is found there. -/
theorem occursIn_of_isInfix (h : part <:+: cs) : occursIn part cs = true := by
  obtain ⟨front, back, heq⟩ := h
  obtain ⟨front, rest, hcut, -⟩ := exists_cutAt? heq.symm
  rw [occursIn, hcut]
  rfl

end Text
end PluginHost
