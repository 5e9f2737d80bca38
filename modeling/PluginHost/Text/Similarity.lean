/-! # How similar two texts are

A misspelt name is compared with the known ones by a number from 0 to 1.  Two
characters match when they are equal and stand at nearly the same place, and
`jaro` is the mean of three ratios: how much of either text matches, and how much
of what matches stands in the same order.  `winkler` adds to that for a common
start. -/
namespace PluginHost
namespace Similarity

/-- The characters of one text with a mark where they are matched. -/
abbrev Marked := List (Char × Bool)

/-- Marks the first free place from `low` to below `high` that holds `c`, where
the list starts at the place `index`. -/
def mark? (c : Char) (low high : Nat) : (index : Nat) → Marked → Option Marked
  | _, [] => none
  | index, (d, taken) :: rest =>
    if high ≤ index then none
    else if low ≤ index && c == d && !taken then some ((d, true) :: rest)
    else (mark? c low high (index + 1) rest).map ((d, taken) :: ·)

/-- Matches the characters of a text, the first at the place `index`, with those
of another that are at most `reach` places away.  The answer is what is matched
of either. -/
def pairs (reach : Nat) : (index : Nat) → List Char → Marked → List Char × Marked
  | _, [], other => ([], other)
  | index, c :: cs, other =>
    -- Near the start of the other text `index - reach` is cut off at zero.
    match mark? c (index - reach) (index + reach + 1) 0 other with
    | none => pairs reach (index + 1) cs other
    | some other =>
      let (matched, other) := pairs reach (index + 1) cs other
      (c :: matched, other)

/-- How far apart two matching characters may stand. -/
def reach (a b : List Char) : Nat := max a.length b.length / 2 - 1

/-- The mean of the ratios of matching characters. -/
def jaro (a b : List Char) : Float :=
  if a.isEmpty && b.isEmpty then 1
  else
    let (left, marked) := pairs (reach a b) 0 a (b.map (·, false))
    let right := (marked.filter (·.2)).map (·.1)
    let moved := ((left.zip right).filter fun (c, d) => c != d).length / 2
    let count := left.length
    if count = 0 then 0
    else
      (count.toFloat / a.length.toFloat + count.toFloat / b.length.toFloat
        + (count - moved).toFloat / count.toFloat) / 3

/-- The number of characters that two texts start with in common. -/
def commonStart : List Char → List Char → Nat
  | a :: as, b :: bs => if a == b then commonStart as bs + 1 else 0
  | _, _ => 0

/-- `jaro`, with a bonus for at most four characters in common at the start. -/
def winkler (a b : String) : Float :=
  let score := jaro a.toList b.toList
  if score > 0.7 then
    score + 0.1 * (commonStart (a.toList.take 4) b.toList).toFloat * (1 - score)
  else score

/-- The last of the most similar texts, if any is more similar than `least`. -/
def closest? (least : Float) (text : String) (known : List String) : Option String :=
  let scored := (known.map fun k => (winkler text k, k)).filter (·.1 > least)
  (scored.foldl (fun best next =>
    match best with
    | some best => if next.1 < best.1 then some best else some next
    | none => some next) none).map (·.2)

end Similarity
end PluginHost
