import PluginHost.Json.Tree
import PluginHost.Text.Quoted

/-! # Reading values out of JSON

A reader goes through a `JsonTree` in text order and stops at the first fault, be
it that the text breaks off or that a value is not what was expected.

`RecordFormat` describes a record by its fields, and `RecordFormat.read` reads it
from an object, in which fields may stand in any order and unknown ones are
skipped, or from an array of its fields in their order. -/
namespace PluginHost

/-- What stands where something else was expected. -/
inductive JsonFound where
  | null
  | boolean (value : Bool)
  | integer (value : Int)
  | float (value : Float)
  | string (text : String)
  | sequence
  | map

/-- Why a payload cannot be read. -/
inductive JsonFault where
  /-- The text is no JSON. -/
  | malformed
  | missingField (name : String)
  | duplicateField (name : String)
  | unknownVariant (name : String) (known : List String)
  | invalidType (found : JsonFound) (expected : String)
  | invalidLength (count : Nat) (expected : String)

/-- The wording of a value. -/
def JsonFound.text : JsonFound → String
  | .null => "null"
  | .boolean b => "boolean `" ++ toString b ++ "`"
  | .integer n => "integer `" ++ toString n ++ "`"
  | .float x => "floating point `" ++ JsonNumber.floatStyle.text x ++ "`"
  | .string s => "string " ++ Text.quoted s
  | .sequence => "sequence"
  | .map => "map"

/-- A list of alternatives. -/
def alternatives (names : List String) : String :=
  ", ".intercalate (names.map fun name => "`" ++ name ++ "`")

/-- What a message says about a fault, unless it is one of the text itself. -/
def JsonFault.detail? : JsonFault → Option String
  | .malformed => none
  | .missingField name => some ("missing field `" ++ name ++ "`")
  | .duplicateField name => some ("duplicate field `" ++ name ++ "`")
  | .unknownVariant name known =>
    some ("unknown variant `" ++ name ++ "`, expected one of " ++ alternatives known)
  | .invalidType found expected =>
    some ("invalid type: " ++ found.text ++ ", expected " ++ expected)
  | .invalidLength count expected =>
    some ("invalid length " ++ toString count ++ ", expected " ++ expected)

/-! ## Parts of records -/

/-- What a scalar is, if it has a value. -/
def JsonScalar.found? : JsonScalar → Option JsonFound
  | .null => some .null
  | .boolean b => some (.boolean b)
  | .number n => n.value?.map fun
    | .integer k => .integer k
    | .float x => .float x
  | .string s => s.map .string

namespace JsonTree

/-- What a tree is. -/
def found? : JsonTree → Option JsonFound
  | .scalar s => s.found?
  | .array _ _ => some .sequence
  | .object _ _ => some .map
  | .broken => none

/-- The fault of standing where something else was expected. -/
def mismatch (found : Option JsonFound) (expected : String) : JsonFault :=
  match found with
  | some found => .invalidType found expected
  | none => .malformed

/-- Reads a string. -/
def readText : JsonTree → Except JsonFault String
  | .scalar (.string (some s)) => .ok s
  | t => .error (mismatch t.found? "a string")

/-- Reads a truth value. -/
def readFlag : JsonTree → Except JsonFault Bool
  | .scalar (.boolean b) => .ok b
  | t => .error (mismatch t.found? "a boolean")

/-- Reads a value that may be absent. -/
def readOption {α : Type} (read : JsonTree → Except JsonFault α) :
    JsonTree → Except JsonFault (Option α)
  | .scalar .null => .ok none
  | t => (read t).map some

/-- Goes on if the text does. -/
def requireClosed (closed : Bool) : Except JsonFault Unit :=
  if closed then .ok () else .error .malformed

/-- Reads a list. -/
def readList {α : Type} (read : JsonTree → Except JsonFault α) :
    JsonTree → Except JsonFault (List α)
  | .array items closed => do
    let values ← items.mapM read
    requireClosed closed
    return values
  | t => .error (mismatch t.found? "a sequence")

/-- Reads a value that stands for nothing. -/
def readUnit : JsonTree → Except JsonFault Unit
  | .scalar .null => .ok ()
  | t => .error (mismatch t.found? "unit")

/-- The alternative of this name. -/
def variant {α : Type} (variants : List (String × α)) (name : String) : Except JsonFault α :=
  match variants.lookup name with
  | some value => .ok value
  | none => .error (.unknownVariant name (variants.map Prod.fst))

/-- Reads one of several names, or an object whose only member has such a name
and stands for nothing. -/
def readVariant {α : Type} (variants : List (String × α)) : JsonTree → Except JsonFault α
  | .scalar (.string (some name)) => variant variants name
  | .object ((.scalar (.string (some name)), value) :: members) closed => do
    let v ← variant variants name
    readUnit value
    requireClosed (closed && members.isEmpty)
    return v
  | _ => .error .malformed

end JsonTree

/-! ## Records -/

/-- A field of records of type `α`. -/
structure RecordField (α : Type) where
  name : String
  required : Bool
  /-- Reads the field into a record. -/
  store : JsonTree → α → Except JsonFault α

/-- A field that must be given. -/
def RecordField.mandatory {α β : Type} (name : String) (read : JsonTree → Except JsonFault β)
    (put : β → α → α) : RecordField α :=
  ⟨name, true, fun t r => (read t).map (put · r)⟩

/-- A field that keeps its default when it is not given. -/
def RecordField.optional {α β : Type} (name : String) (read : JsonTree → Except JsonFault β)
    (put : β → α → α) : RecordField α :=
  ⟨name, false, fun t r => (read t).map (put · r)⟩

/-- The form of records of type `α`. -/
structure RecordFormat (α : Type) where
  name : String
  /-- The record whose fields have their defaults. -/
  blank : α
  fields : List (RecordField α)

namespace RecordFormat

variable {α : Type} (format : RecordFormat α)

/-- The field of a name. -/
def field? (name : String) : Option (RecordField α) := format.fields.find? (·.name == name)

/-- Reads one member into a record, whose fields in `seen` are known. -/
def readMember : List String × α → JsonToken × JsonTree → Except JsonFault (List String × α)
  | (seen, record), (.scalar (.string (some name)), value) =>
    match format.field? name with
    | none => if value.intact then .ok (seen, record) else .error .malformed
    | some field =>
      if name ∈ seen then .error (.duplicateField name)
      else do return (name :: seen, ← field.store value record)
  | _, _ => .error .malformed

/-- Reads an object. -/
def readMembers (members : List (JsonToken × JsonTree)) (closed : Bool) : Except JsonFault α := do
  let (seen, record) ← members.foldlM format.readMember ([], format.blank)
  JsonTree.requireClosed closed
  match format.fields.find? fun field => field.required && !seen.contains field.name with
  | some field => .error (.missingField field.name)
  | none => return record

/-- What a message expects where the record is too short. -/
def lengthText : String :=
  "struct " ++ format.name ++ " with " ++ toString format.fields.length ++ " elements"

/-- Reads an array of the fields in their order. -/
def readItems (items : List JsonTree) (closed : Bool) : Except JsonFault α := do
  let record ← (format.fields.zip items).foldlM
    (fun record (field, value) => field.store value record) format.blank
  JsonTree.requireClosed (closed && items.length ≤ format.fields.length)
  match (format.fields.drop items.length).findIdx? (·.required) with
  | some index => .error (.invalidLength (items.length + index) format.lengthText)
  | none => return record

/-- Reads a record. -/
def read : JsonTree → Except JsonFault α
  | .object members closed => format.readMembers members closed
  | .array items closed => format.readItems items closed
  | t => .error (JsonTree.mismatch t.found? ("struct " ++ format.name))

/-- Reads a payload that holds one record and nothing else. -/
def readPayload (bytes : List UInt8) : Except JsonFault α := do
  let (tree, ended) := JsonTree.ofTokens (JsonToken.ofPayload bytes)
  let record ← format.read tree
  JsonTree.requireClosed ended
  return record

end RecordFormat
end PluginHost
