import PluginHost.Listing

/-! # The program

Reads a listing from standard input, and shows what a run with the arguments of
the command line shows. -/
namespace PluginHost

/-- All of a stream. -/
partial def readAll (input : IO.FS.Stream) (front : String) : IO String := do
  let line ← input.getLine
  if line.isEmpty then return front else readAll input (front ++ line)

end PluginHost

open PluginHost in
/-- Runs the program. -/
def main (arguments : List String) : IO UInt32 := do
  match Listing.ofText? (← readAll (← IO.getStdin) "") with
  | none =>
    IO.eprintln "error: the listing cannot be read"
    return 2
  | some listing =>
    let result := (listing.launch arguments).run
    for event in result.log do IO.eprintln event.line
    IO.print result.output
    unless result.complaint.isEmpty do IO.eprintln result.complaint
    return result.code.toUInt32
