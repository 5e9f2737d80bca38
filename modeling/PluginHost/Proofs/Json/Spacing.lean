import Mathlib.Data.List.Chain
import PluginHost.Proofs.Json.Words

/-! # Tokens and the white space between them

`SpellsTokens tokens cs` says that a text consists of the words of these tokens, with any white
space in front of each word and behind the last one.  A text that is spelled so is read as its
tokens (`ofChars_of_spells`), unless two scalars follow each other, whose words might run into
each other; and a text that is read without a fault is spelled by what was read
(`spells_ofChars`). -/
namespace PluginHost
namespace JsonToken

/-- White space. -/
def Spaces (cs : List Char) : Prop := ∀ c ∈ cs, isSpace c = true

/-- The words of tokens, with white space around them. -/
inductive SpellsTokens : List JsonToken → List Char → Prop
  | done {space : List Char} (hspace : Spaces space) : SpellsTokens [] space
  | next {token : JsonToken} {tokens : List JsonToken} {space word rest : List Char}
      (hspace : Spaces space) (hword : SpellsToken token word)
      (hrest : SpellsTokens tokens rest) : SpellsTokens (token :: tokens) (space ++ word ++ rest)

/-- Whether a token is a value by itself. -/
def isScalar : JsonToken → Bool
  | .scalar _ => true
  | _ => false

/-- No two scalars follow each other. -/
def Parted (tokens : List JsonToken) : Prop :=
  tokens.IsChain fun token next => token.isScalar = true → next.isScalar = false

/-- Other tokens part what stands around them. -/
theorem Parted.append_cons {front back : List JsonToken} {token : JsonToken} (hfront : Parted front)
    (hback : Parted back) (htoken : token.isScalar = false) : Parted (front ++ token :: back) := by
  refine List.isChain_append.mpr ⟨hfront, List.isChain_cons.mpr ⟨fun _ _ hscalar => ?_, hback⟩, ?_⟩
  · rw [htoken] at hscalar
    cases hscalar
  · rintro _ _ next hnext -
    rwa [← Option.some.inj hnext]

theorem parted_singleton (token : JsonToken) : Parted [token] := List.isChain_singleton token

/-! ## Reading -/

/-- White space is skipped. -/
theorem ofChars_spaces {space : List Char} (h : Spaces space) (rest : List Char) :
    ofChars (space ++ rest) = ofChars rest := by
  induction space with
  | nil => rfl
  | cons c space ih =>
    rw [List.cons_append, ofChars, if_pos (h c List.mem_cons_self)]
    exact ih fun d hd => h d (List.mem_cons_of_mem c hd)

theorem not_continuesNumber_of_isSpace {c : Char} (h : isSpace c = true) :
    continuesNumber c = false := by
  simp only [isSpace, Bool.or_eq_true, beq_iff_eq] at h
  obtain ((rfl | rfl) | rfl) | rfl := h <;> decide

/-- Where a number ends, something else than a scalar follows, or white space. -/
theorem SpellsTokens.endsNumber {tokens : List JsonToken} {cs : List Char}
    (h : SpellsTokens tokens cs) (hnext : ∀ next ∈ tokens.head?, next.isScalar = false) :
    EndsNumber cs := by
  intro c hc
  cases h with
  | done hspace => exact not_continuesNumber_of_isSpace (hspace c (List.mem_of_mem_head? hc))
  | @next token tokens space word rest hspace hword hrest =>
    cases space with
    | cons d space =>
      obtain rfl : d = c := Option.some.inj hc
      exact not_continuesNumber_of_isSpace (hspace d List.mem_cons_self)
    | nil =>
      have hother : token.isScalar = false := hnext token rfl
      cases hword with
      | @punctuation d _ h =>
        obtain rfl : d = c := Option.some.inj hc
        unfold Json.punctuation? at h
        split at h <;> first | decide | cases h
      | _ => cases hother

/-- **A text is read as the tokens that it spells.** -/
theorem ofChars_of_spells {tokens : List JsonToken} {cs : List Char} (h : SpellsTokens tokens cs)
    (hparted : Parted tokens) : ofChars cs = tokens := by
  induction h with
  | @done space hspace =>
    have hread := ofChars_spaces hspace []
    rwa [List.append_nil, ofChars] at hread
  | @next token tokens space word rest hspace hword hrest ih =>
    obtain ⟨hnext, hothers⟩ := List.isChain_cons.mp hparted
    obtain ⟨c, letters, rfl, hc⟩ := exists_cons_of_spells hword
    have hfirst : first? (c :: (letters ++ rest)) = some (token, rest) := by
      refine first?_of_spells hword fun n hn => ?_
      subst hn
      exact hrest.endsNumber fun next hmem => hnext next hmem rfl
    rw [List.append_assoc, ofChars_spaces hspace, List.cons_append, ofChars_first hc hfirst,
      ih hothers]

/-- **A text that is read without a fault is spelled by its tokens.** -/
theorem spells_ofChars (cs : List Char) (h : JsonToken.broken ∉ ofChars cs) :
    SpellsTokens (ofChars cs) cs := by
  fun_induction ofChars cs with
  | case1 => exact .done fun _ hc => absurd hc List.not_mem_nil
  | case2 c rest hspace ih =>
    -- White space in front belongs to what comes next.
    have hfront {space : List Char} (h : Spaces space) : Spaces (c :: space) :=
      List.forall_mem_cons.mpr ⟨hspace, h⟩
    generalize ofChars rest = tokens at h ih
    cases ih h with
    | done hspace => exact .done (hfront hspace)
    | next hspace hword hrest => exact .next (hfront hspace) hword hrest
  | case3 => exact absurd List.mem_cons_self h
  | case4 c rest _ token behind hfirst _ ih =>
    obtain ⟨word, hword, hspells⟩ := exists_word hfirst
    rw [hword]
    exact .next (fun _ hc => absurd hc List.not_mem_nil) hspells
      (ih fun hmem => h (List.mem_cons_of_mem token hmem))

end JsonToken
end PluginHost
