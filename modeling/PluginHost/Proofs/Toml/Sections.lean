import Mathlib.Data.List.TakeWhile
import PluginHost.Proofs.Lists
import PluginHost.Proofs.Toml.Strings
import PluginHost.Toml.Reading

/-! # Sections of settings are read back

A text of lines is cut into pieces line by line: `TomlText.Spells` says that a text holds
certain pieces whatever stands behind it, so the pieces of a text are those of its lines.
Headers and settings with names that need no quotes are such lines (`spells_header`,
`spells_setting`).  Put together, a header and the settings behind it make a table with these
members, and a header with a new name begins another (`TomlTable.add_header`,
`TomlTable.add_setting`). -/
namespace PluginHost
namespace TomlText

variable {name cs back rest : List Char} {c mark : Char} {piece : TomlPiece}

/-! ## Names -/

/-- A name that needs no quotes. -/
def IsBareName (name : List Char) : Prop := name ≠ [] ∧ ∀ c ∈ name, isBareChar c = true

instance (name : List Char) : Decidable (IsBareName name) :=
  decidable_of_iff (name.isEmpty = false ∧ name.all isBareChar = true) <| by
    simp only [IsBareName, List.isEmpty_eq_false_iff, List.all_eq_true]

theorem skipSpaces_cons (h : isSpace c = false) (rest : List Char) :
    skipSpaces (c :: rest) = c :: rest := by
  rw [skipSpaces, List.dropWhile_cons_of_neg (Bool.eq_false_iff.mp h)]

theorem isSpace_of_isBareChar (h : isBareChar c = true) : isSpace c = false := by
  refine Bool.eq_false_iff.mpr fun hspace => ?_
  simp only [isSpace, Bool.or_eq_true, beq_iff_eq] at hspace
  rcases hspace with rfl | rfl <;> exact absurd h (by decide)

theorem bareName?_append (hname : IsBareName name)
    (hrest : ∀ c ∈ rest.head?, isBareChar c = false) :
    bareName? (name ++ rest) = some (name, rest) := by
  have hstop : rest.takeWhile isBareChar = [] ∧ rest.dropWhile isBareChar = rest := by
    cases rest with
    | nil => exact ⟨rfl, rfl⟩
    | cons c rest =>
      have hc := Bool.eq_false_iff.mp (hrest c rfl)
      exact ⟨List.takeWhile_cons_of_neg hc, List.dropWhile_cons_of_neg hc⟩
  rw [bareName?, List.takeWhile_append_of_pos hname.2, List.dropWhile_append_of_pos hname.2,
    hstop.1, hstop.2, List.append_nil, if_neg fun h => hname.1 (List.isEmpty_iff.mp h)]

/-- A name without quotes, behind which no dot follows, is a key. -/
theorem shortKey?_append (hname : IsBareName name) (hmark : mark ≠ '.')
    (hback : ∀ c ∈ back.head?, isBareChar c = false) (hskip : skipSpaces back = mark :: rest) :
    shortKey? (name ++ back) = some (⟨[], String.ofList name⟩, mark :: rest) := by
  have hread : name? (skipSpaces (name ++ back)) = some (name, back) := by
    have hbare := bareName?_append hname hback
    obtain ⟨hne, hchars⟩ := hname
    obtain ⟨c, others, rfl⟩ := List.exists_cons_of_ne_nil hne
    have hc := hchars c List.mem_cons_self
    rw [List.cons_append] at hbare ⊢
    rw [skipSpaces_cons (isSpace_of_isBareChar hc), name?, hbare]
    · intro t heq
      exact absurd ((List.cons.inj heq).1 ▸ hc) (by decide)
    · intro t heq
      exact absurd ((List.cons.inj heq).1 ▸ hc) (by decide)
  have hkey : key? (name ++ back) = some (⟨[], String.ofList name⟩, mark :: rest) := by
    rw [key?]
    split
    · rename_i hnone
      rw [hread] at hnone
      cases hnone
    · rename_i hsome
      obtain ⟨rfl, rfl⟩ := Prod.mk.inj (Option.some.inj (hread.symm.trans hsome))
      split
      · rename_i hdot
        exact absurd (List.cons.inj (hskip.symm.trans hdot)).1 hmark
      · rw [hskip]
  rw [shortKey?, hkey]
  rfl

/-! ## Lines -/

/-- A line on which something stands. -/
theorem lineRest?_cons (hspace : isSpace c = false) (h : c ≠ '#' ∧ c ≠ '\n' ∧ c ≠ '\r')
    (rest : List Char) : lineRest? (c :: rest) = none := by
  obtain ⟨hcomment, hbreak, hreturn⟩ := h
  rw [lineRest?, skipSpaces_cons hspace, lineRest?.skipComment]
  · split
    · rename_i heq
      cases heq
    · rename_i heq
      exact absurd (List.cons.inj heq).1 hbreak
    · rename_i heq
      exact absurd (List.cons.inj heq).1 hreturn
    · rfl
  · exact fun t heq => hcomment (List.cons.inj heq).1

/-- A piece and a line end are a line. -/
theorem line?_of_piece? (hline : lineRest? cs = none)
    (hpiece : piece? cs = some (piece, '\n' :: rest)) :
    line? cs = some (some piece, rest) := by
  rw [line?, hline]
  dsimp only
  rw [hpiece]
  rfl

theorem header?_of_shortKey? {key : TomlKey} (hfirst : cs.head? ≠ some '[')
    (hkey : shortKey? cs = some (key, ']' :: rest)) :
    header? cs = some (.header key, rest) := by
  unfold header?
  split
  · exact absurd rfl hfirst
  · rw [hkey]
    rfl

theorem piece?_of_read {key : TomlKey} {v : Toml} (hspace : isSpace c = false) (hc : c ≠ '[')
    (hread : (setting (value maxDepth)).read (c :: cs) = some ((key, v), rest)) :
    piece? (c :: cs) = some (.setting key v, rest) := by
  unfold piece?
  rw [skipSpaces_cons hspace]
  split
  · rename_i heq
    exact absurd (List.cons.inj heq).1 hc
  · rw [hread]
    rfl

theorem line?_header (hname : IsBareName name) (rest : List Char) :
    line? ('[' :: (name ++ ']' :: '\n' :: rest)) =
      some (some (.header ⟨[], String.ofList name⟩), rest) := by
  have hmark : ∀ c ∈ (']' :: '\n' :: rest).head?, isBareChar c = false := by
    intro c hc
    obtain rfl := Option.some.inj hc
    decide
  have hkey := shortKey?_append hname (by decide) hmark rfl
  refine line?_of_piece? (lineRest?_cons rfl (by decide) _) ?_
  rw [piece?, skipSpaces_cons rfl]
  refine header?_of_shortKey? ?_ hkey
  obtain ⟨hne, hchars⟩ := hname
  obtain ⟨c, others, rfl⟩ := List.exists_cons_of_ne_nil hne
  intro heq
  exact absurd (Option.some.inj heq ▸ hchars c List.mem_cons_self) (by decide)

theorem exists_cons_write (text back : List Char) : ∃ quote others,
    write text ++ back = quote :: others ∧ (quote = '"' ∨ quote = '\'') := by
  unfold write
  cases formOf text with
  | basic | multiBasic => exact ⟨_, _, rfl, .inl rfl⟩
  | literal | multiLiteral => exact ⟨_, _, rfl, .inr rfl⟩

/-- A string is read as a value, whatever stands behind it but a quote. -/
theorem read_valueOf_write (part : Option (Reader Toml))
    (hrest : ∀ c ∈ rest.head?, c ≠ '"' ∧ c ≠ '\'') (text : List Char) :
    (valueOf part).read (write text ++ rest) = some (.string (String.ofList text), rest) := by
  have hread := read?_write hrest text
  obtain ⟨quote, others, hcons, hquote⟩ := exists_cons_write text rest
  rw [hcons] at hread ⊢
  have hhead : (quote :: others).head? = some '"' ∨ (quote :: others).head? = some '\'' :=
    hquote.imp (congrArg some) (congrArg some)
  unfold valueOf
  dsimp only
  split
  · rename_i heq
    rcases hquote with rfl | rfl <;> cases heq
  · rename_i heq
    rcases hquote with rfl | rfl <;> cases heq
  · rw [if_pos hhead, hread]
    rfl

theorem skipSpaces_write (text back : List Char) :
    skipSpaces (' ' :: (write text ++ back)) = write text ++ back := by
  obtain ⟨quote, others, hcons, hquote⟩ := exists_cons_write text back
  rw [skipSpaces, List.dropWhile_cons_of_pos rfl, hcons]
  rcases hquote with rfl | rfl
  · exact skipSpaces_cons rfl others
  · exact skipSpaces_cons rfl others

/-- A key, the mark and a value are a setting. -/
theorem read_setting {item : Reader Toml} {key : TomlKey} {v : Toml}
    (hkey : shortKey? cs = some (key, '=' :: back))
    (hvalue : item.read (skipSpaces back) = some (v, rest)) :
    (setting item).read cs = some ((key, v), rest) := by
  unfold setting
  dsimp only
  rw [hkey]
  exact congrArg (Option.map _) hvalue

theorem line?_setting (hname : IsBareName name) (text rest : List Char) :
    line? (name ++ ' ' :: '=' :: ' ' :: (write text ++ '\n' :: rest)) =
      some (some (.setting ⟨[], String.ofList name⟩ (.string (String.ofList text))), rest) := by
  have hmark : ∀ c ∈ (' ' :: '=' :: ' ' :: (write text ++ '\n' :: rest)).head?,
      isBareChar c = false := by
    intro c hc
    obtain rfl := Option.some.inj hc
    decide
  have hbreak : ∀ c ∈ ('\n' :: rest).head?, c ≠ '"' ∧ c ≠ '\'' := by
    intro c hc
    obtain rfl := Option.some.inj hc
    decide
  have hkey := shortKey?_append hname (by decide) hmark rfl
  have hvalue := read_valueOf_write (some (value 78)) hbreak text
  rw [← skipSpaces_write] at hvalue
  have hsetting := read_setting hkey hvalue
  obtain ⟨hne, hchars⟩ := hname
  obtain ⟨c, others, rfl⟩ := List.exists_cons_of_ne_nil hne
  have hc := hchars c List.mem_cons_self
  have hspace := isSpace_of_isBareChar hc
  have hother {d : Char} (hd : isBareChar d = false) : c ≠ d := by
    rintro rfl
    exact Bool.eq_false_iff.mp hd hc
  rw [List.cons_append] at hsetting ⊢
  exact line?_of_piece?
    (lineRest?_cons hspace ⟨hother (by decide), hother (by decide), hother (by decide)⟩ _)
    (piece?_of_read hspace (hother (by decide)) hsetting)

/-! ## Texts of lines -/

/-- A text holds pieces, whatever stands behind it. -/
def Spells (cs : List Char) (pieces : List TomlPiece) : Prop :=
  ∀ rest, pieces? (cs ++ rest) = (pieces? rest).map (pieces ++ ·)

/-- A text that stands alone has the pieces that it holds. -/
theorem Spells.pieces?_eq {pieces : List TomlPiece} (h : Spells cs pieces) :
    pieces? cs = some pieces := by
  have hempty : pieces? [] = some [] := by rw [pieces?, dif_pos rfl]
  have hpieces := h []
  rw [List.append_nil, hempty, Option.map_some, List.append_nil] at hpieces
  exact hpieces

theorem Spells.nil : Spells [] [] := by
  intro rest
  rw [List.nil_append]
  cases pieces? rest <;> rfl

theorem Spells.append {cs cs' : List Char} {pieces pieces' : List TomlPiece}
    (h : Spells cs pieces) (h' : Spells cs' pieces') : Spells (cs ++ cs') (pieces ++ pieces') := by
  intro rest
  rw [List.append_assoc, h, h', Option.map_map]
  congr 1
  funext others
  exact (List.append_assoc pieces pieces' others).symm

/-- Texts one after the other hold their pieces one after the other. -/
theorem Spells.flatMap {α : Type} {items : List α} {cs : α → List Char}
    {pieces : α → List TomlPiece} (h : ∀ a ∈ items, Spells (cs a) (pieces a)) :
    Spells (items.flatMap cs) (items.flatMap pieces) := by
  induction items with
  | nil => exact .nil
  | cons a items ih =>
    exact (h a List.mem_cons_self).append (ih fun b hb => h b (List.mem_cons_of_mem a hb))

theorem spells_of_line? (line : Option TomlPiece) (hne : cs ≠ [])
    (h : ∀ rest, line? (cs ++ rest) = some (line, rest)) : Spells cs line.toList := by
  intro rest
  have hline := h rest
  rw [pieces?, dif_neg (List.append_ne_nil_of_left_ne_nil hne rest)]
  split
  · rename_i hnone
    rw [hline] at hnone
    cases hnone
  · rename_i hsome
    rw [hline] at hsome
    obtain ⟨rfl, rfl⟩ := Prod.mk.inj (Option.some.inj hsome)
    rfl

theorem spells_break : Spells ['\n'] [] :=
  spells_of_line? none (List.cons_ne_nil '\n' []) fun _ => rfl

/-- Texts with blank lines between them hold their pieces one after the other. -/
theorem Spells.intercalate {α : Type} {items : List α} {cs : α → List Char}
    {pieces : α → List TomlPiece} (h : ∀ a ∈ items, Spells (cs a) (pieces a)) :
    Spells (List.intercalate ['\n'] (items.map cs)) (items.flatMap pieces) := by
  induction items with
  | nil => exact .nil
  | cons a items ih =>
    have ha := h a List.mem_cons_self
    have hothers := ih fun b hb => h b (List.mem_cons_of_mem a hb)
    cases items with
    | nil =>
      rw [List.map_singleton, List.intercalate_singleton, List.flatMap_singleton]
      exact ha
    | cons b items =>
      rw [List.map_cons, List.map_cons, List.intercalate_cons_cons, ← List.map_cons]
      rw [List.flatMap_cons, ← List.append_nil (pieces a)]
      exact (ha.append spells_break).append hothers

theorem spells_header (hname : IsBareName name) :
    Spells ('[' :: (name ++ [']', '\n'])) [.header ⟨[], String.ofList name⟩] := by
  refine spells_of_line? (some _) (List.cons_ne_nil _ _) fun rest => ?_
  rw [List.cons_append, List.append_assoc]
  exact line?_header hname rest

theorem spells_setting (hname : IsBareName name) (text : List Char) :
    Spells (name ++ ' ' :: '=' :: ' ' :: (write text ++ ['\n']))
      [.setting ⟨[], String.ofList name⟩ (.string (String.ofList text))] := by
  refine spells_of_line? (some _) (List.append_ne_nil_of_left_ne_nil hname.1 _) fun rest => ?_
  simp only [List.append_assoc, List.cons_append, List.nil_append]
  exact line?_setting hname text rest

end TomlText

/-! ## Tables of sections -/

namespace TomlTable

variable {t members : TomlTable} {name key : String} {v : Toml}

/-- A name that is not in a table is neither that of its first entry nor in the rest. -/
theorem lookup_cons_eq_none_iff {other : String} : List.lookup name ((other, v) :: t) = none ↔
    other ≠ name ∧ t.lookup name = none := by
  rw [Lists.lookup_cons_eq_ite]
  by_cases h : name = other
  · simp [h]
  · simp [h, Ne.symm h]

theorem put_of_lookup_eq_none (h : t.lookup name = none) (v : Toml) :
    t.put name v = t ++ [(name, v)] := by
  induction t with
  | nil => rfl
  | cons head rest ih =>
    obtain ⟨other, w⟩ := head
    obtain ⟨hne, hrest⟩ := lookup_cons_eq_none_iff.mp h
    rw [put, if_neg (by simpa using hne), ih hrest, List.cons_append]

theorem put_append_cons (h : t.lookup name = none) (v w : Toml) :
    put name w (t ++ [(name, v)]) = t ++ [(name, w)] := by
  induction t with
  | nil => simp [put]
  | cons head rest ih =>
    obtain ⟨other, u⟩ := head
    obtain ⟨hne, hrest⟩ := lookup_cons_eq_none_iff.mp h
    rw [List.cons_append, put, if_neg (by simpa using hne), ih hrest, List.cons_append]

/-- A header with a new name begins an empty table. -/
theorem add_header (here : List String) (h : t.lookup name = none) :
    add (here, t) (.header ⟨[], name⟩) = some ([name], t ++ [(name, .table .header [])]) := by
  rw [add, changeAt, addHeader, h]
  dsimp only
  rw [put_of_lookup_eq_none h]
  rfl

/-- A setting with a new key goes into the table that was begun last. -/
theorem add_setting (hname : t.lookup name = none) (hkey : members.lookup key = none) (v : Toml) :
    add ([name], t ++ [(name, .table .header members)]) (.setting ⟨[], key⟩ v) =
      some ([name], t ++ [(name, .table .header (members ++ [(key, v)]))]) := by
  have hlookup : (t ++ [(name, Toml.table .header members)]).lookup name =
      some (.table .header members) := by
    rw [List.lookup_append, hname]
    simp
  rw [add, changeAt, hlookup]
  dsimp only
  rw [changeAt, addSetting, hkey]
  simp [put_of_lookup_eq_none hkey, put_append_cons hname]

end TomlTable
end PluginHost
