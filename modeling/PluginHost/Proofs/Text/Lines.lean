import PluginHost.Text.Lines

/-! # The division of a text into lines

`Text.Divided` says how a text is made of lines and their ends, without saying how to find
them.  A text is divided in one way only, and that is the way in which `Text.lines` divides it
(`Text.lines_eq_iff`).

Where the ends of lines are kept, the lines of a text are the text cut behind each line feed
(`Text.EndsDivided`), and `Text.endedLines` finds them (`Text.endedLines_eq_iff`). -/
namespace PluginHost
namespace Text

/-- What ends a line. -/
inductive LineEnd where
  | feed
  | returnFeed
deriving DecidableEq

/-- The end of a line as it is written. -/
def LineEnd.chars : LineEnd → List Char
  | .feed => ['\n']
  | .returnFeed => ['\r', '\n']

/-- A text is made of lines.  No line holds a line feed; the last one may do without an end if it
is not empty; and a carriage return right before a line feed belongs to the end of the line. -/
inductive Divided : List Char → List (List Char) → Prop where
  | empty : Divided [] []
  | last {line : List Char} (hne : line ≠ []) (hfeed : '\n' ∉ line) : Divided line [line]
  | ended {line rest : List Char} {lines : List (List Char)} (ending : LineEnd)
    (hfeed : '\n' ∉ line) (hreturn : ending = .feed → line.getLast? ≠ some '\r')
    (hrest : Divided rest lines) : Divided (line ++ (ending.chars ++ rest)) (line :: lines)

/-- A character that begins no end of a line stands in front of the first line behind it. -/
theorem lines_cons {c : Char} {rest line : List Char} {others : List (List Char)}
    (hfeed : c ≠ '\n') (hreturn : c = '\r' → rest.head? ≠ some '\n')
    (h : lines rest = line :: others) : lines (c :: rest) = (c :: line) :: others := by
  rw [lines, h]
  · exact hfeed
  · rintro behind rfl rfl
    exact hreturn rfl rfl

/-- A line without an end is the only one. -/
theorem lines_of_not_mem {line : List Char} (hne : line ≠ []) (hfeed : '\n' ∉ line) :
    lines line = [line] := by
  induction line with
  | nil => exact absurd rfl hne
  | cons c line ih =>
    obtain ⟨hc, hline⟩ := List.ne_and_not_mem_of_not_mem_cons hfeed
    cases line with
    | nil =>
      rw [lines]
      · rfl
      · exact Ne.symm hc
      · rintro behind - h
        cases h
    | cons d line =>
      have hd : d ≠ '\n' := fun heq => hline (heq ▸ List.mem_cons_self)
      exact lines_cons (Ne.symm hc) (fun _ h => hd (Option.some.inj h))
        (ih (List.cons_ne_nil d line) hline)

/-- A line that has an end comes first. -/
theorem lines_append {line : List Char} (rest : List Char) (ending : LineEnd)
    (hfeed : '\n' ∉ line) (hreturn : ending = .feed → line.getLast? ≠ some '\r') :
    lines (line ++ (ending.chars ++ rest)) = line :: lines rest := by
  induction line with
  | nil => cases ending <;> rfl
  | cons c line ih =>
    obtain ⟨hc, hline⟩ := List.ne_and_not_mem_of_not_mem_cons hfeed
    -- Behind the character stands another one of the line, or the end.
    have hnext : c = '\r' → (line ++ (ending.chars ++ rest)).head? ≠ some '\n' := by
      rintro rfl hhead
      cases line with
      | cons d line => exact hline (Option.some.inj hhead ▸ List.mem_cons_self)
      | nil =>
        cases ending with
        | feed => exact hreturn rfl rfl
        | returnFeed => cases hhead
    refine lines_cons (Ne.symm hc) hnext (ih hline fun hending hlast => hreturn hending ?_)
    rw [List.getLast?_cons, hlast]
    rfl

/-- The lines that are found are lines of the text. -/
theorem divided_lines (cs : List Char) : Divided cs (lines cs) := by
  fun_induction lines cs with
  | case1 => exact .empty
  | case2 rest ih => exact .ended .feed List.not_mem_nil (fun _ h => by cases h) ih
  | case3 rest ih => exact .ended .returnFeed List.not_mem_nil (fun h => by cases h) ih
  | case4 c rest hfeed hreturn hnone ih =>
    rw [hnone] at ih
    cases ih
    exact .last (List.cons_ne_nil c []) (by simpa using Ne.symm hfeed)
  | case5 c rest hfeed hreturn line others hsome ih =>
    rw [hsome] at ih
    have hmem {line : List Char} (h : '\n' ∉ line) : '\n' ∉ c :: line :=
      List.not_mem_cons_of_ne_of_not_mem (Ne.symm hfeed) h
    cases ih with
    | last hne hline => exact .last (List.cons_ne_nil c _) (hmem hline)
    | @ended _ behind _ ending hline hlast hrest =>
      refine .ended ending (hmem hline) (fun hending => ?_) hrest
      subst hending
      cases line with
      | nil => exact fun h => hreturn behind (Option.some.inj h) rfl
      | cons d line => rw [List.getLast?_cons_cons]; exact hlast rfl

/-- **A text is divided in one way**, and that is how its lines are found. -/
theorem lines_eq_iff {cs : List Char} {ls : List (List Char)} : lines cs = ls ↔ Divided cs ls := by
  constructor
  · rintro rfl
    exact divided_lines cs
  · intro h
    induction h with
    | empty => rfl
    | last hne hfeed => exact lines_of_not_mem hne hfeed
    | ended ending hfeed hreturn _ ih => rw [lines_append _ ending hfeed hreturn, ih]

/-! ## Lines with their ends -/

/-- A text is made of lines that keep their ends.  Each but the last ends at its only line feed;
the last may do without one if it is not empty. -/
inductive EndsDivided : List Char → List (List Char) → Prop where
  | empty : EndsDivided [] []
  | last {line : List Char} (hne : line ≠ []) (hfeed : '\n' ∉ line) : EndsDivided line [line]
  | ended {line rest : List Char} {lines : List (List Char)} (hfeed : '\n' ∉ line)
    (hrest : EndsDivided rest lines) :
    EndsDivided (line ++ ('\n' :: rest)) ((line ++ ['\n']) :: lines)

theorem endedLines_cons {c : Char} {rest line : List Char} {others : List (List Char)}
    (hfeed : c ≠ '\n') (h : endedLines rest = line :: others) :
    endedLines (c :: rest) = (c :: line) :: others := by
  rw [endedLines, h]
  exact hfeed

/-- A line that has an end comes first. -/
theorem endedLines_append {line : List Char} (hfeed : '\n' ∉ line) (rest : List Char) :
    endedLines (line ++ ('\n' :: rest)) = (line ++ ['\n']) :: endedLines rest := by
  induction line with
  | nil => rfl
  | cons c line ih =>
    obtain ⟨hc, hline⟩ := List.ne_and_not_mem_of_not_mem_cons hfeed
    exact endedLines_cons (Ne.symm hc) (ih hline)

theorem endedLines_of_not_mem {line : List Char} (hne : line ≠ []) (hfeed : '\n' ∉ line) :
    endedLines line = [line] := by
  induction line with
  | nil => exact absurd rfl hne
  | cons c line ih =>
    obtain ⟨hc, hline⟩ := List.ne_and_not_mem_of_not_mem_cons hfeed
    cases line with
    | nil =>
      rw [endedLines]
      · rfl
      · exact Ne.symm hc
    | cons d line => exact endedLines_cons (Ne.symm hc) (ih (List.cons_ne_nil d line) hline)

theorem endsDivided_endedLines (cs : List Char) : EndsDivided cs (endedLines cs) := by
  fun_induction endedLines cs with
  | case1 => exact .empty
  | case2 rest ih => exact .ended List.not_mem_nil ih
  | case3 c rest hfeed hnone ih =>
    rw [hnone] at ih
    cases ih
    exact .last (List.cons_ne_nil c []) (by simpa using Ne.symm hfeed)
  | case4 c rest hfeed line others hsome ih =>
    rw [hsome] at ih
    have hmem {line : List Char} (h : '\n' ∉ line) : '\n' ∉ c :: line :=
      List.not_mem_cons_of_ne_of_not_mem (Ne.symm hfeed) h
    cases ih with
    | last hne hline => exact .last (List.cons_ne_nil c _) (hmem hline)
    | ended hline hrest => exact .ended (hmem hline) hrest

/-- **A text is cut into lines with their ends in one way**, and that is how they are found. -/
theorem endedLines_eq_iff {cs : List Char} {ls : List (List Char)} :
    endedLines cs = ls ↔ EndsDivided cs ls := by
  constructor
  · rintro rfl
    exact endsDivided_endedLines cs
  · intro h
    induction h with
    | empty => rfl
    | last hne hfeed => exact endedLines_of_not_mem hne hfeed
    | ended hfeed _ ih => rw [endedLines_append hfeed, ih]

theorem EndsDivided.flatten_eq {cs : List Char} {ls : List (List Char)} (h : EndsDivided cs ls) :
    ls.flatten = cs := by
  induction h with
  | empty => rfl
  | last => exact List.flatten_singleton
  | ended _ _ ih => rw [List.flatten_cons, ih, List.append_assoc, List.singleton_append]

/-- The last lines of a text are the lines of its end. -/
theorem EndsDivided.suffix {cs : List Char} {before lines : List (List Char)}
    (h : EndsDivided cs (before ++ lines)) : EndsDivided lines.flatten lines := by
  induction before generalizing cs with
  | nil => exact h.flatten_eq ▸ h
  | cons line before ih =>
    rw [List.cons_append] at h
    generalize hall : before ++ lines = others at h
    cases h with
    | last hne hfeed =>
      obtain ⟨-, rfl⟩ := List.append_eq_nil_iff.mp hall
      exact .empty
    | ended hfeed hrest => exact ih (hall ▸ hrest)

/-- What stands at the end of a line, and the lines behind it, are lines of their own. -/
theorem EndsDivided.behind {cs front back : List Char} {lines : List (List Char)}
    (h : EndsDivided cs ((front ++ back) :: lines)) (hlines : lines ≠ [])
    (hfront : front.getLast? ≠ some '\n') :
    EndsDivided (back ++ lines.flatten) (back :: lines) := by
  generalize hline : front ++ back = line at h
  cases h with
  | last => exact absurd rfl hlines
  | @ended body rest _ hfeed hrest =>
    rcases List.eq_nil_or_concat back with rfl | ⟨init, c, rfl⟩
    · rw [List.append_nil] at hline
      exact absurd (hline ▸ List.getLast?_concat) hfront
    · rw [List.concat_eq_append, ← List.append_assoc] at hline
      obtain ⟨rfl, hc⟩ := List.append_inj' hline rfl
      obtain rfl := List.singleton_inj.mp hc
      rw [List.concat_eq_append, List.append_assoc, List.singleton_append, hrest.flatten_eq]
      exact .ended (fun hmem => hfeed (List.mem_append_right front hmem)) hrest

end Text
end PluginHost
