/-! # Wildcards

A glob is a list of tokens.  `Glob.ofText` reads the notation.  A bracket that is
not closed and a run of stars of the wrong length or in the wrong place are its
only errors, which `GlobError` lists.  `Glob.isMatch` in the module about matching
says which names a glob covers. -/
namespace PluginHost

/-- One member of a bracket. -/
inductive CharSpec where
  | one (c : Char)
  /-- Every character from `first` to `last`. -/
  | range (first last : Char)
deriving DecidableEq, Repr

/-- Whether a member of a bracket covers a character. -/
def CharSpec.covers : CharSpec → Char → Bool
  | .one d, c => d == c
  | .range first last, c => first ≤ c && c ≤ last

/-- One element of a pattern. -/
inductive GlobToken where
  | literal (c : Char)
  /-- `?`, any character. -/
  | any
  /-- `*`, any text. -/
  | star
  /-- `**`, any text that is empty, ends at a slash, or goes to the end. -/
  | deepStar
  /-- `[…]` -/
  | oneOf (specs : List CharSpec)
  /-- `[!…]` -/
  | noneOf (specs : List CharSpec)
deriving DecidableEq, Repr

/-- Why a text is no pattern. -/
inductive GlobFault where
  /-- Three stars or more in a row. -/
  | longStar
  /-- Two stars that are not a whole part between slashes. -/
  | looseDeepStar
  /-- A bracket that is not closed. -/
  | openBracket
deriving DecidableEq, Repr

/-- A fault and the character it stands at, counted from zero. -/
structure GlobError where
  position : Nat
  fault : GlobFault
deriving DecidableEq, Repr

/-- The wording of a fault. -/
def GlobFault.message : GlobFault → String
  | .longStar => "wildcards are either regular `*` or recursive `**`"
  | .looseDeepStar => "recursive wildcards must form a single path component"
  | .openBracket => "invalid range pattern"

/-- The wording of an error. -/
def GlobError.message (e : GlobError) : String :=
  "Pattern syntax error near position " ++ toString e.position ++ ": " ++ e.fault.message

/-- A pattern for names. -/
structure Glob where
  tokens : List GlobToken
deriving DecidableEq, Repr

namespace Glob

/-- The members of a bracket: `a-c` with a character on either side is a range,
found from left to right. -/
def specs : List Char → List CharSpec
  | a :: '-' :: b :: rest => .range a b :: specs rest
  | a :: rest => .one a :: specs rest
  | [] => []

/-- The inside of a bracket, which is never empty: its first character counts as
a member even when it is `]`.  The answer holds the text behind the `]` too. -/
def bracket? : List Char → Option (List Char × List Char)
  | [] => none
  | c :: cs =>
    match cs.dropWhile (· != ']') with
    | [] => none
    | _ :: rest => some (c :: cs.takeWhile (· != ']'), rest)

/-- The token of a bracket whose `[` has been read. -/
def bracketToken? : List Char → Option (GlobToken × List Char)
  | '!' :: cs => (bracket? cs).map fun (inside, rest) => (.noneOf (specs inside), rest)
  | cs => (bracket? cs).map fun (inside, rest) => (.oneOf (specs inside), rest)

/-- What a run of stars means.  `before` is the character in front of it and
`after` the text behind it, of which `**` takes a slash. -/
def starToken (position count : Nat) (before : Option Char) (after : List Char) :
    Except GlobError (GlobToken × List Char) :=
  if count = 1 then .ok (.star, after)
  else if count = 2 then
    if before.all (· == '/') then
      match after with
      | [] => .ok (.deepStar, [])
      | '/' :: rest => .ok (.deepStar, rest)
      | _ :: _ => .error ⟨position + 2, .looseDeepStar⟩
    else .error ⟨position - 1, .looseDeepStar⟩
  else .error ⟨position + 2, .longStar⟩

theorem length_bracket? {cs inside rest : List Char} (h : bracket? cs = some (inside, rest)) :
    rest.length < cs.length := by
  cases cs with
  | nil => simp [bracket?] at h
  | cons c cs =>
    have hle := (List.dropWhile_sublist (l := cs) (· != ']')).length_le
    simp only [bracket?] at h
    split at h
    · simp at h
    · rename_i heq
      simp only [Option.some.injEq, Prod.mk.injEq] at h
      rw [heq] at hle
      simp only [List.length_cons] at hle ⊢
      rw [← h.2]
      omega

theorem length_bracketToken? {cs rest : List Char} {t : GlobToken}
    (h : bracketToken? cs = some (t, rest)) : rest.length < cs.length := by
  unfold bracketToken? at h
  split at h
  · obtain ⟨⟨inside, r⟩, hb, hr⟩ := Option.map_eq_some_iff.mp h
    obtain rfl : r = rest := congrArg Prod.snd hr
    exact Nat.lt_succ_of_lt (length_bracket? hb)
  · obtain ⟨⟨inside, r⟩, hb, hr⟩ := Option.map_eq_some_iff.mp h
    obtain rfl : r = rest := congrArg Prod.snd hr
    exact length_bracket? hb

theorem length_starToken {position count : Nat} {before : Option Char} {after rest : List Char}
    {t : GlobToken} (h : starToken position count before after = .ok (t, rest)) :
    rest.length ≤ after.length := by
  unfold starToken at h
  split at h
  · obtain rfl : after = rest := congrArg Prod.snd (Except.ok.inj h)
    exact Nat.le_refl _
  · split at h
    · split at h
      · split at h
        · obtain rfl : [] = rest := congrArg Prod.snd (Except.ok.inj h)
          exact Nat.le_refl _
        · rename_i r
          obtain rfl : r = rest := congrArg Prod.snd (Except.ok.inj h)
          exact Nat.le_succ _
        · exact absurd h (by simp)
      · exact absurd h (by simp)
    · exact absurd h (by simp)

/-- The tokens of a notation from `position` on, where `before` is the character
in front. -/
def read (position : Nat) (before : Option Char) (cs : List Char) :
    Except GlobError (List GlobToken) :=
  match cs with
  | [] => .ok []
  | '?' :: rest => do return .any :: (← read (position + 1) (some '?') rest)
  | '*' :: rest =>
    let more := rest.takeWhile (· == '*')
    match h : starToken position (more.length + 1) before (rest.dropWhile (· == '*')) with
    | .error e => .error e
    | .ok (t, after) => do
      -- `**` takes the slash behind it, so that one is in front of what follows.
      let last := if t = .deepStar then '/' else '*'
      return t :: (← read (position + (rest.length + 1 - after.length)) (some last) after)
  | '[' :: rest =>
    match h : bracketToken? rest with
    | none => .error ⟨position, .openBracket⟩
    | some (t, after) => do
      return t :: (← read (position + (rest.length + 1 - after.length)) (some ']') after)
  | c :: rest => do return .literal c :: (← read (position + 1) (some c) rest)
termination_by cs.length
decreasing_by
  · simp
  · have h1 := length_starToken h
    have h2 := (List.dropWhile_sublist (l := rest) (· == '*')).length_le
    simp only [List.length_cons]
    omega
  · have := length_bracketToken? h
    simp only [List.length_cons]
    omega
  · simp

/-- Reads a pattern. -/
def ofText (s : String) : Except GlobError Glob := do return ⟨← read 0 none s.toList⟩

end Glob
end PluginHost
