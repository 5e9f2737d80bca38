/-! # Names of declared types

Capabilities, base types and implemented interfaces are referred to by name.
A name may be qualified with `::` or with `.`, and its last segment is its short
name. -/
namespace PluginHost

/-- The fully qualified name of a declared type. -/
structure TypeName where
  text : String
deriving DecidableEq, Repr

namespace TypeName

/-- What stands behind the last `::` of a text. -/
def afterColons? : List Char → Option (List Char)
  | ':' :: ':' :: rest => (afterColons? (':' :: rest)).or (some rest)
  | _ :: rest => afterColons? rest
  | [] => none

/-- What stands behind the last `.` of a text, or the whole text. -/
def afterDots (cs : List Char) : List Char := (cs.reverse.takeWhile (· != '.')).reverse

/-- The last segment of the name: `ResultWriter` for `gauntlet::ResultWriter`. -/
def shortName (name : TypeName) : String :=
  let cs := name.text.toList
  String.ofList (afterDots ((afterColons? cs).getD cs))

/-- Path prefix of the points that types declare without a path of their own. -/
def pointPrefix : String := "/Gauntlet/TypeExtensions/"

/-- The path of the point a type declares when it names none. -/
def defaultPoint (name : TypeName) : String := pointPrefix ++ name.shortName

end TypeName
end PluginHost
