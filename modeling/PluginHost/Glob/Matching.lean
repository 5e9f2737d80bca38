import PluginHost.Glob

/-! # Which names a glob matches

A glob matches a name when its tokens use up the name one after the other.
`GlobToken.rests` says what a token can leave of a text, so `Glob.matchesChars`
is one line per token, but it tries the same end part of a name over and over.

`Glob.isMatch` answers the same question with one row of marks per token, a mark
for each end part of the name: the row of a token is made from the row of what
follows it.  `isMatch_eq` says that both agree. -/
namespace PluginHost

/-! ## The meaning of tokens -/

/-- Every end part of a text, the text itself first and the empty text last. -/
def suffixes : List Char → List (List Char)
  | [] => [[]]
  | c :: cs => (c :: cs) :: suffixes cs

/-- The end parts of a text that follow a slash. -/
def suffixesAfterSlash : List Char → List (List Char)
  | [] => []
  | c :: cs => (if c == '/' then [cs] else []) ++ suffixesAfterSlash cs

/-- The rest of a text after one character that `p` admits. -/
def restAfter (p : Char → Bool) : List Char → List (List Char)
  | [] => []
  | c :: cs => if p c then [cs] else []

/-- What can be left of a text after a token. -/
def GlobToken.rests : GlobToken → List Char → List (List Char)
  | .literal c => restAfter (· == c)
  | .any => restAfter fun _ => true
  | .star => suffixes
  | .deepStar => fun cs => cs :: (suffixesAfterSlash cs ++ [[]])
  | .oneOf specs => restAfter fun c => specs.any (·.covers c)
  | .noneOf specs => restAfter fun c => !specs.any (·.covers c)

/-- Whether the tokens use up the text. -/
def Glob.matchesChars : List GlobToken → List Char → Bool
  | [], cs => cs.isEmpty
  | t :: ts, cs => (t.rests cs).any (matchesChars ts)

/-! ## Rows of marks -/

/-- The marks of a property for every end part of a text. -/
def marksOf (f : List Char → Bool) (cs : List Char) : List Bool := (suffixes cs).map f

@[simp] theorem marksOf_nil (f : List Char → Bool) : marksOf f [] = [f []] := rfl

@[simp] theorem marksOf_cons (f : List Char → Bool) (c : Char) (cs : List Char) :
    marksOf f (c :: cs) = f (c :: cs) :: marksOf f cs := rfl

@[simp] theorem headD_marksOf (f : List Char → Bool) (cs : List Char) :
    (marksOf f cs).headD false = f cs := by
  cases cs <;> rfl

/-- Marks the ends before one character that `p` admits and a mark behind it. -/
def marksBefore (p : Char → Bool) : List Char → List Bool → List Bool
  | c :: cs, _ :: after => (p c && after.headD false) :: marksBefore p cs after
  | _, _ => [false]

/-- Marks the ends that have a mark themselves or behind them. -/
def marksBelow : List Bool → List Bool
  | [] => []
  | mark :: after =>
    let below := marksBelow after
    (mark || below.headD false) :: below

/-- Marks the ends with a mark right behind a slash that follows, or at the very
end. -/
def marksBeforeSlash : List Char → List Bool → List Bool
  | c :: cs, _ :: after =>
    let below := marksBeforeSlash cs after
    ((c == '/' && after.headD false) || below.headD false) :: below
  | _, after => after

theorem marksBefore_marksOf (p : Char → Bool) (f : List Char → Bool) (cs : List Char) :
    marksBefore p cs (marksOf f cs) = marksOf (fun s => (restAfter p s).any f) cs := by
  induction cs with
  | nil => simp [marksBefore, restAfter]
  | cons c cs ih =>
    rw [marksOf_cons, marksOf_cons, marksBefore, ih, headD_marksOf, restAfter]
    cases p c <;> simp

theorem marksBelow_marksOf (f : List Char → Bool) (cs : List Char) :
    marksBelow (marksOf f cs) = marksOf (fun s => (suffixes s).any f) cs := by
  induction cs with
  | nil => simp [marksBelow, suffixes]
  | cons c cs ih =>
    rw [marksOf_cons, marksOf_cons, marksBelow, ih, headD_marksOf, suffixes, List.any_cons]

theorem marksBeforeSlash_marksOf (f : List Char → Bool) (cs : List Char) :
    marksBeforeSlash cs (marksOf f cs)
      = marksOf (fun s => (suffixesAfterSlash s ++ [[]]).any f) cs := by
  induction cs with
  | nil => simp [marksBeforeSlash, suffixesAfterSlash]
  | cons c cs ih =>
    rw [marksOf_cons, marksOf_cons, marksBeforeSlash, ih, headD_marksOf, headD_marksOf,
      suffixesAfterSlash]
    cases c == '/' <;> simp

theorem zipWith_or_marksOf (f g : List Char → Bool) (cs : List Char) :
    List.zipWith or (marksOf f cs) (marksOf g cs) = marksOf (fun s => f s || g s) cs := by
  induction cs with
  | nil => simp
  | cons c cs ih => simp [ih]

/-- The row of a token, made from the row of what follows it. -/
def GlobToken.marks (cs : List Char) (after : List Bool) : GlobToken → List Bool
  | .literal c => marksBefore (· == c) cs after
  | .any => marksBefore (fun _ => true) cs after
  | .star => marksBelow after
  | .deepStar => List.zipWith or after (marksBeforeSlash cs after)
  | .oneOf specs => marksBefore (fun c => specs.any (·.covers c)) cs after
  | .noneOf specs => marksBefore (fun c => !specs.any (·.covers c)) cs after

/-- A row marks the ends of which the token can leave something marked. -/
theorem GlobToken.marks_marksOf (t : GlobToken) (f : List Char → Bool) (cs : List Char) :
    t.marks cs (marksOf f cs) = marksOf (fun s => (t.rests s).any f) cs := by
  cases t with
  | star => exact marksBelow_marksOf f cs
  | deepStar =>
    rw [marks, marksBeforeSlash_marksOf, zipWith_or_marksOf]
    rfl
  | _ => exact marksBefore_marksOf _ f cs

namespace Glob

/-- The row of several tokens: it marks the ends of a text that they use up. -/
def marks (cs : List Char) : List GlobToken → List Bool
  | [] => marksOf List.isEmpty cs
  | t :: ts => t.marks cs (marks cs ts)

theorem marks_eq (cs : List Char) (ts : List GlobToken) :
    marks cs ts = marksOf (matchesChars ts) cs := by
  induction ts with
  | nil => rfl
  | cons t ts ih => rw [marks, ih, t.marks_marksOf]; rfl

/-- Whether the pattern matches a name. -/
def isMatch (g : Glob) (name : String) : Bool := (marks name.toList g.tokens).headD false

/-- A name matches when the tokens use it up. -/
theorem isMatch_eq (g : Glob) (name : String) :
    g.isMatch name = matchesChars g.tokens name.toList := by
  rw [isMatch, marks_eq, headD_marksOf]

end Glob
end PluginHost
