/-! # Lines of a text

A line ends at a line feed or at a carriage return followed by a line feed; a
carriage return anywhere else is an ordinary character.  The text after the
last line end is a line only when it is not empty. -/
namespace PluginHost
namespace Text

/-- The lines of a text, without their ends. -/
def lines : List Char → List (List Char)
  | [] => []
  | '\n' :: rest => [] :: lines rest
  | '\r' :: '\n' :: rest => [] :: lines rest
  | c :: rest =>
    match lines rest with
    | [] => [[c]]
    | line :: others => (c :: line) :: others

/-- The lines of a text, each with the line feed that ends it: joined again
they are the text. -/
def endedLines : List Char → List (List Char)
  | [] => []
  | '\n' :: rest => ['\n'] :: endedLines rest
  | c :: rest =>
    match endedLines rest with
    | [] => [[c]]
    | line :: others => (c :: line) :: others

/-- The number of bytes a text takes in UTF-8. -/
def byteCount (cs : List Char) : Nat := cs.foldl (fun n c => n + c.utf8Size) 0

end Text
end PluginHost
