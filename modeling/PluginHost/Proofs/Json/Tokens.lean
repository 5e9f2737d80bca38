import PluginHost.Proofs.Json.Strings

/-! # The tokens of a written value

`Json.tokens` lists the tokens of a value in the order of its text.  The reader finds just
these tokens where the value was written on one line, and goes on behind it
(`Json.ofWritten_compactChars`); so the tokens of a written payload are those of the value
(`Json.ofPayload_compact`). -/
namespace PluginHost

/-- A word is read, and what follows it is read next. -/
theorem JsonToken.ofChars_first {c : Char} {letters rest : List Char} {token : JsonToken}
    (hspace : isSpace c = false) (hfirst : first? (c :: letters) = some (token, rest)) :
    ofChars (c :: letters) = token :: ofChars rest := by
  rw [ofChars, if_neg (by rw [hspace]; exact Bool.false_ne_true)]
  split
  · rename_i hnone
    rw [hfirst] at hnone
    cases hnone
  · rename_i hsome
    obtain ⟨rfl, rfl⟩ := Prod.mk.inj (Option.some.inj (hfirst.symm.trans hsome))
    rfl

namespace Json
open JsonToken

/-- The token of a name or a text. -/
def textToken (s : String) : JsonToken := .scalar (.string (some s))

mutual
/-- The tokens of a value. -/
def tokens : Json → List JsonToken
  | .null => [.scalar .null]
  | .boolean b => [.scalar (.boolean b)]
  | .string s => [textToken s]
  | .array [] => [.openArray, .closeArray]
  | .array (item :: items) => .openArray :: (tokens item ++ itemTokens items)
  | .object [] => [.openObject, .closeObject]
  | .object ((name, value) :: members) =>
    .openObject :: textToken name :: .colon :: (tokens value ++ memberTokens members)

/-- The tokens of the items behind the first, and of the end of the array. -/
def itemTokens : List Json → List JsonToken
  | [] => [.closeArray]
  | item :: items => .comma :: (tokens item ++ itemTokens items)

/-- The tokens of the members behind the first, and of the end of the object. -/
def memberTokens : List (String × Json) → List JsonToken
  | [] => [.closeObject]
  | (name, value) :: members =>
    .comma :: textToken name :: .colon :: (tokens value ++ memberTokens members)
end

/-! ## One token -/

/-- The tokens that are read where a text was written. -/
def ofWritten (cs : List Char) : List JsonToken := ofChars (byteChars cs)

/-- A token is read, and what follows it is read next. -/
theorem ofWritten_first {c : Char} {cs rest : List Char} {token : JsonToken}
    (hascii : c.toNat < 128) (hspace : isSpace c = false)
    (hfirst : first? (c :: byteChars cs) = some (token, byteChars rest)) :
    ofWritten (c :: cs) = token :: ofWritten rest := by
  rw [ofWritten, byteChars_cons hascii]
  exact ofChars_first hspace hfirst

/-- A token that is spelled by the same characters whatever follows is read where these
characters were written. -/
theorem ofWritten_word {c : Char} {token : JsonToken} (letters : List Char)
    (hascii : ∀ d ∈ c :: letters, d.toNat < 128) (hspace : isSpace c = false)
    (hfirst : ∀ rest, first? (c :: (letters ++ rest)) = some (token, rest)) (cs : List Char) :
    ofWritten (c :: (letters ++ cs)) = token :: ofWritten cs := by
  refine ofWritten_first (hascii c List.mem_cons_self) hspace ?_
  rw [byteChars_append, byteChars_ascii fun d hd => hascii d (List.mem_cons_of_mem c hd)]
  exact hfirst (byteChars cs)

/-- The token of a character that is a token by itself. -/
def punctuation? : Char → Option JsonToken
  | '[' => some .openArray
  | ']' => some .closeArray
  | '{' => some .openObject
  | '}' => some .closeObject
  | ',' => some .comma
  | ':' => some .colon
  | _ => none

theorem ofWritten_punctuation {c : Char} {token : JsonToken} (h : punctuation? c = some token)
    (cs : List Char) : ofWritten (c :: cs) = token :: ofWritten cs := by
  unfold punctuation? at h
  split at h <;> cases h <;>
    exact ofWritten_word [] (by simp) rfl (fun _ => rfl) cs

theorem ofWritten_null (cs : List Char) :
    ofWritten ("null".toList ++ cs) = .scalar .null :: ofWritten cs :=
  ofWritten_word (c := 'n') ['u', 'l', 'l'] (by simp) rfl (fun _ => rfl) cs

theorem ofWritten_spelling (b : Bool) (cs : List Char) :
    ofWritten (spelling b ++ cs) = .scalar (.boolean b) :: ofWritten cs := by
  cases b with
  | false =>
    exact ofWritten_word (c := 'f') ['a', 'l', 's', 'e'] (by simp) rfl
      (fun _ => rfl) cs
  | true =>
    exact ofWritten_word (c := 't') ['r', 'u', 'e'] (by simp) rfl
      (fun _ => rfl) cs

/-- A string is read back as one token. -/
theorem ofWritten_quoted (s : String) (cs : List Char) :
    ofWritten (quoted s ++ cs) = textToken s :: ofWritten cs := by
  obtain ⟨pieces, hbody, htext⟩ := stringBody_written s (byteChars cs)
  rw [quoted, List.cons_append, List.cons_append, List.append_assoc, List.singleton_append]
  refine ofWritten_first (by decide) rfl ?_
  rw [byteChars_append, byteChars_cons (by decide)]
  show (stringBody (byteChars (s.toList.flatMap escape) ++ '"' :: byteChars cs)).map _ = _
  rw [hbody, textToken, ← htext]
  rfl

/-! ## Values -/

mutual
/-- **A written value is read as its tokens**, whatever follows it. -/
theorem ofWritten_compactChars (v : Json) (cs : List Char) :
    ofWritten (v.compactChars ++ cs) = v.tokens ++ ofWritten cs := by
  match v with
  | .null => exact ofWritten_null cs
  | .boolean b => exact ofWritten_spelling b cs
  | .string s => exact ofWritten_quoted s cs
  | .array [] =>
    show ofWritten ('[' :: ']' :: cs) = .openArray :: .closeArray :: ofWritten cs
    rw [ofWritten_punctuation rfl, ofWritten_punctuation rfl]
  | .array (item :: items) =>
    rw [compactChars, List.cons_append, List.cons_append, List.append_assoc,
      ofWritten_punctuation rfl, ofWritten_compactChars item, ofWritten_compactItems items, tokens,
      List.cons_append, List.append_assoc]
  | .object [] =>
    show ofWritten ('{' :: '}' :: cs) = .openObject :: .closeObject :: ofWritten cs
    rw [ofWritten_punctuation rfl, ofWritten_punctuation rfl]
  | .object ((name, value) :: members) =>
    rw [compactChars, tokens]
    simp only [List.cons_append, List.append_assoc]
    rw [ofWritten_punctuation rfl, ofWritten_quoted, ofWritten_punctuation rfl,
      ofWritten_compactChars value, ofWritten_compactMembers members]

theorem ofWritten_compactItems (items : List Json) (cs : List Char) :
    ofWritten (compactItems items ++ cs) = itemTokens items ++ ofWritten cs := by
  match items with
  | [] => exact ofWritten_punctuation rfl cs
  | item :: items =>
    rw [compactItems, List.cons_append, List.cons_append, List.append_assoc,
      ofWritten_punctuation rfl, ofWritten_compactChars item, ofWritten_compactItems items,
      itemTokens, List.cons_append, List.append_assoc]

theorem ofWritten_compactMembers (members : List (String × Json)) (cs : List Char) :
    ofWritten (compactMembers members ++ cs) = memberTokens members ++ ofWritten cs := by
  match members with
  | [] => exact ofWritten_punctuation rfl cs
  | (name, value) :: members =>
    rw [compactMembers, memberTokens]
    simp only [List.cons_append, List.append_assoc]
    rw [ofWritten_punctuation rfl, ofWritten_quoted, ofWritten_punctuation rfl,
      ofWritten_compactChars value, ofWritten_compactMembers members]
end

/-- The tokens of a payload are those of the value that was written to it. -/
theorem ofPayload_compact (v : Json) : ofPayload (Utf8.encode v.compact) = v.tokens := by
  have h := ofWritten_compactChars v []
  rw [List.append_nil, ofWritten, ofWritten, byteChars_nil, ofChars, List.append_nil] at h
  rw [ofPayload, compact, charsOfBytes_encode, h]

end Json
end PluginHost
