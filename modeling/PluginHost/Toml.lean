/-! # TOML values

A TOML text says what its tables hold in pieces: a header opens a table, a line
sets a key in it, and a dotted key leads into tables below.  `TomlTable.add`
puts the pieces together.  What a table was made by decides what may be added to
it later, so `Toml.table` keeps that, and adding answers `none` where a table
would be made twice or a value would be replaced. -/
namespace PluginHost

/-- What made a table. -/
inductive TableOrigin where
  /-- A header of its own. -/
  | header
  /-- The header of a table below it. -/
  | implied
  /-- A dotted key that leads through it. -/
  | dotted
  /-- Braces, between which all of it is written. -/
  | braces
deriving DecidableEq, Repr

/-- A value of a TOML text. -/
inductive Toml where
  | string (text : String)
  | integer (value : Int)
  | float (value : Float)
  | boolean (value : Bool)
  | array (items : List Toml)
  | table (origin : TableOrigin) (members : List (String × Toml))
  /-- Tables that headers made one after the other. -/
  | tables (items : List (List (String × Toml)))

/-- What a table holds, each key once. -/
abbrev TomlTable := List (String × Toml)

/-- A dotted key: the tables it leads through, and the name in the last. -/
structure TomlKey where
  parents : List String
  name : String
deriving DecidableEq, Repr

/-- The names of a key, from left to right. -/
def TomlKey.names (key : TomlKey) : List String := key.parents ++ [key.name]

/-- A piece of a text. -/
inductive TomlPiece where
  /-- The header of a table. -/
  | header (key : TomlKey)
  /-- The header of one more table in a list of tables. -/
  | item (key : TomlKey)
  | setting (key : TomlKey) (value : Toml)

namespace TomlTable

/-- The table with `value` under `name`, in place of what was there. -/
def put (name : String) (value : Toml) : TomlTable → TomlTable
  | [] => [(name, value)]
  | (n, v) :: rest => if n == name then (name, value) :: rest else (n, v) :: put name value rest

/-- Changes the table that headers call `path`.  The tables on the way need no
header of their own, and of a list of tables the last is meant. -/
def changeAt (change : TomlTable → Option TomlTable) : (path : List String) → TomlTable →
    Option TomlTable
  | [], t => change t
  | name :: path, t =>
    match t.lookup name with
    | none => (changeAt change path []).map fun m => t.put name (.table .implied m)
    | some (.table .braces _) => none
    | some (.table origin members) =>
      (changeAt change path members).map fun m => t.put name (.table origin m)
    | some (.tables items) => do
      let last ← items.getLast?
      return t.put name (.tables (items.dropLast ++ [← changeAt change path last]))
    | some _ => none

/-- Opens a table by a header, which it has once at most. -/
def addHeader (name : String) (t : TomlTable) : Option TomlTable :=
  match t.lookup name with
  | none => some (t.put name (.table .header []))
  | some (.table .implied members) => some (t.put name (.table .header members))
  | some _ => none

/-- Adds an empty table to a list of tables. -/
def addItem (name : String) (t : TomlTable) : Option TomlTable :=
  match t.lookup name with
  | none => some (t.put name (.tables [[]]))
  | some (.tables items) => some (t.put name (.tables (items ++ [[]])))
  | some _ => none

/-- Sets a key that has no value yet.  The last of its parents is made by a
dotted key; those before it need no header of their own. -/
def addSetting (name : String) (value : Toml) : (parents : List String) → TomlTable →
    Option TomlTable
  | [], t => if (t.lookup name).isSome then none else some (t.put name value)
  | p :: parents, t =>
    match t.lookup p with
    | none => (addSetting name value parents []).map fun m => t.put p (.table .dotted m)
    | some (.table .dotted members) =>
      (addSetting name value parents members).map fun m => t.put p (.table .dotted m)
    -- What headers made can be led through, but a dotted key adds nothing to it.
    | some (.table .implied members) =>
      if parents.isEmpty then none
      else (addSetting name value parents members).map fun m => t.put p (.table .implied m)
    | some (.tables items) =>
      if parents.isEmpty then none
      else do
        let last ← items.getLast?
        return t.put p (.tables (items.dropLast ++ [← addSetting name value parents last]))
    | some _ => none

/-- What the braces of a table hold. -/
def ofSettings (settings : List (TomlKey × Toml)) : Option TomlTable :=
  settings.foldlM (fun t (key, value) => addSetting key.name value key.parents t) []

/-- Adds a piece to the table of a text, where `here` is the last header.  The
answer holds the last header after the piece. -/
def add : List String × TomlTable → TomlPiece → Option (List String × TomlTable)
  | (_, t), .header key =>
    (changeAt (addHeader key.name) key.parents t).map fun t => (key.names, t)
  | (_, t), .item key =>
    (changeAt (addItem key.name) key.parents t).map fun t => (key.names, t)
  | (here, t), .setting key value =>
    (changeAt (addSetting key.name value key.parents) here t).map fun t => (here, t)

/-- The table of a text. -/
def ofPieces (pieces : List TomlPiece) : Option TomlTable :=
  (pieces.foldlM add ([], [])).map Prod.snd

end TomlTable
end PluginHost
