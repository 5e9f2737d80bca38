import PluginHost.Decimal
import PluginHost.Path
import PluginHost.Text.Quoted
import PluginHost.Toml

/-! # Settings before they have a meaning

Files and environment variables yield values of any kind.  A `ConfigTable` holds
them under their keys, in ascending order, and beside each value the file that
set it, because messages point there.  `ConfigTable.onto` lays a table onto
another: where both hold a table the two are merged, and else the upper value
counts. -/
namespace PluginHost

/-- A value that was set. -/
inductive ConfigValue where
  | boolean (value : Bool)
  | signed (value : Int)
  | unsigned (value : Nat)
  | float (value : Float)
  | string (text : String)
  | sequence (items : List ConfigValue)
  | table (members : List (String × Option Path × ConfigValue))

/-- Values under keys, each key once and in ascending order, with the file that
set the value or was the last to set a part of it. -/
abbrev ConfigTable := List (String × Option Path × ConfigValue)

namespace ConfigTable

/-- The table with `value`, which `file` set, under `key` in place of what was
there. -/
def put (key : String) (file : Option Path) (value : ConfigValue) : ConfigTable → ConfigTable
  | [] => [(key, file, value)]
  | entry :: rest =>
    if key < entry.1 then (key, file, value) :: entry :: rest
    else if key = entry.1 then (key, file, value) :: rest
    else entry :: put key file value rest

end ConfigTable

namespace ConfigValue

mutual
/-- The value that counts where `upper` is laid onto `lower`. -/
def onto : (upper lower : ConfigValue) → ConfigValue
  | .table upper, lower =>
    match lower with
    | .table lower => .table (membersOnto upper lower)
    | _ => .table upper
  | upper, _ => upper

/-- The members of a table that is laid onto another. -/
def membersOnto : (upper lower : List (String × Option Path × ConfigValue)) →
    List (String × Option Path × ConfigValue)
  | [], lower => lower
  | (key, file, value) :: upper, lower =>
    let value := match lower.lookup key with
      | some (_, below) => value.onto below
      | none => value
    membersOnto upper (ConfigTable.put key file value lower)
end

mutual
/-- A value of a TOML text, which stands in `file`. -/
def ofToml (file : Option Path) : Toml → ConfigValue
  | .string text => .string text
  | .integer value => .signed value
  | .float value => .float value
  | .boolean value => .boolean value
  | .array items => .sequence (ofItems file items)
  | .table _ members => .table (ofMembers file members)
  | .tables items => .sequence (ofTables file items)

/-- The items of an array. -/
def ofItems (file : Option Path) : List Toml → List ConfigValue
  | [] => []
  | item :: items => ofToml file item :: ofItems file items

/-- The members of a table. -/
def ofMembers (file : Option Path) :
    List (String × Toml) → List (String × Option Path × ConfigValue)
  | [] => []
  | (key, value) :: members =>
    ConfigTable.put key file (ofToml file value) (ofMembers file members)

/-- The items of a list of tables. -/
def ofTables (file : Option Path) : List (List (String × Toml)) → List ConfigValue
  | [] => []
  | members :: items => .table (ofMembers file members) :: ofTables file items
end

/-- Doubles in messages about settings are written without a power of ten. -/
def floatStyle : Decimal.Style where
  tie := .greater
  positional _ := true
  wholeMark := ""

/-- How messages name a value. -/
def description : ConfigValue → String
  | .boolean value => "bool " ++ toString value
  | .signed value => "signed int `" ++ toString value ++ "`"
  | .unsigned value => "unsigned int `" ++ toString value ++ "`"
  | .float value => "float `" ++ floatStyle.text value ++ "`"
  | .string text => "string " ++ Text.quoted text
  | .sequence _ => "sequence"
  | .table _ => "map"

end ConfigValue

/-- The table `upper` laid onto `lower`. -/
def ConfigTable.onto (upper lower : ConfigTable) : ConfigTable :=
  ConfigValue.membersOnto upper lower

/-- The table of a TOML text. -/
def ConfigTable.ofToml (file : Option Path) (t : TomlTable) : ConfigTable :=
  ConfigValue.ofMembers file t

end PluginHost
