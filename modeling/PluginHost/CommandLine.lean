import PluginHost.Path

/-! # The command line

An `Invocation` is what the arguments of the program ask for.  Arguments that
start with a dash are flags or options, an option is followed by its value, and
behind `--` nothing is a flag.  `Invocation.ofArguments` stops at the first
argument that asks for help or the version, or that makes no sense. -/
namespace PluginHost

/-- What the program can be asked for. -/
inductive Command where
  /-- Points with the extensions in them. -/
  | extensions (directory : Option Path) (all json plain : Bool)
  /-- All points. -/
  | points (directory : Option Path) (json : Bool)
  /-- The points that the host declares. -/
  | capabilities (query : Option String) (json : Bool)
  /-- The configuration. -/
  | config
deriving DecidableEq, Repr

/-- What a run of the program is asked for. -/
structure Invocation where
  /-- The file that takes the place of all other files with settings. -/
  configFile : Option Path
  command : Option Command
deriving DecidableEq, Repr

/-- What can be wrong with arguments. -/
inductive UsageError where
  | unexpected (argument : String)
  | missingValue (option : String)
  | repeated (name : String)
deriving DecidableEq, Repr

/-- The wording of a usage error. -/
def UsageError.message : UsageError → String
  | .unexpected argument => "unexpected argument '" ++ argument ++ "'"
  | .missingValue option => "a value is required for '--" ++ option ++ "'"
  | .repeated name => "'--" ++ name ++ "' cannot be used multiple times"

/-- Why arguments are read no further. -/
inductive Interruption where
  | help
  | version
  | usage (error : UsageError)
deriving DecidableEq, Repr

/-- What arguments a command takes. -/
structure ArgumentForm where
  flags : List String
  /-- The names that a value follows. -/
  options : List String
  /-- How many arguments may stand on their own. -/
  operands : Nat
  /-- The commands that take over the arguments behind them. -/
  commands : List String
deriving DecidableEq, Repr

/-- What arguments say. -/
structure Arguments where
  flags : List String := []
  values : List (String × String) := []
  operands : List String := []
  /-- The command, and the arguments behind it. -/
  command : Option (String × List String) := none
deriving DecidableEq, Repr

/-- What kind an argument is of. -/
inductive ArgumentKind where
  /-- `--`, behind which nothing is a flag. -/
  | dashes
  /-- A name, to which a value can be attached. -/
  | long (name : String) (value : Option String)
  /-- A flag of one letter, behind which others may stand. -/
  | short (letter : Char)
  | plain
deriving DecidableEq, Repr

/-- The kind of an argument.  A single dash is no flag. -/
def ArgumentKind.of (argument : String) : ArgumentKind :=
  match argument.toList with
  | ['-', '-'] => .dashes
  | '-' :: '-' :: cs =>
    .long (String.ofList (cs.takeWhile (· != '=')))
      ((cs.dropWhile (· != '=')).tail?.map String.ofList)
  | '-' :: c :: _ => .short c
  | _ => .plain

namespace ArgumentForm

variable (form : ArgumentForm)

/-- Adds an argument that stands on its own. -/
def addOperand (argument : String) (a : Arguments) : Except Interruption Arguments :=
  if a.operands.length < form.operands then
    .ok { a with operands := a.operands ++ [argument] }
  else .error (.usage (.unexpected argument))

/-- Adds a flag. -/
def addFlag (name : String) (a : Arguments) : Except Interruption Arguments :=
  if name ∈ a.flags then .error (.usage (.repeated name))
  else .ok { a with flags := a.flags ++ [name] }

/-- Adds the value of an option, which is never empty. -/
def addValue (name value : String) (a : Arguments) : Except Interruption Arguments :=
  if (a.values.lookup name).isSome then .error (.usage (.repeated name))
  else if value.isEmpty then .error (.usage (.missingValue name))
  else .ok { a with values := a.values ++ [(name, value)] }

/-- Reads arguments behind those that `a` holds. -/
def read : List String → Arguments → Except Interruption Arguments
  | [], a => .ok a
  | argument :: rest, a =>
    match ArgumentKind.of argument with
    | .dashes => rest.foldlM (fun a argument => form.addOperand argument a) a
    | .plain =>
      if argument ∈ form.commands then .ok { a with command := some (argument, rest) }
      else do read rest (← form.addOperand argument a)
    | .short letter =>
      if letter == 'h' then .error .help
      else if letter == 'V' && !form.commands.isEmpty then .error .version
      else .error (.usage (.unexpected argument))
    | .long name value =>
      if name ∈ form.options then
        match value, rest with
        | some value, rest => do read rest (← addValue name value a)
        | none, value :: rest =>
          -- What starts with a dash is no value, unless it is attached.
          if ArgumentKind.of value = .plain then do read rest (← addValue name value a)
          else .error (.usage (.missingValue name))
        | none, [] => .error (.usage (.missingValue name))
      else if value.isSome then .error (.usage (.unexpected argument))
      else if name == "help" then .error .help
      else if name == "version" && !form.commands.isEmpty then .error .version
      else if name ∈ form.flags then do read rest (← addFlag name a)
      else .error (.usage (.unexpected argument))

end ArgumentForm

/-! ## The commands -/

/-- The arguments of each command. -/
def Command.forms : List (String × ArgumentForm) :=
  [("extensions", ⟨["all", "json", "plain"], ["dir", "config"], 0, []⟩),
    ("points", ⟨["json"], ["dir", "config"], 0, []⟩),
    ("capabilities", ⟨["json"], ["config"], 1, []⟩),
    ("config", ⟨[], ["config"], 0, []⟩)]

/-- The arguments in front of a command. -/
def Invocation.form : ArgumentForm :=
  ⟨[], ["config"], 0, Command.forms.map Prod.fst ++ ["help"]⟩

/-- The value of an option that is a path. -/
def Arguments.path? (a : Arguments) (name : String) : Option Path := (a.values.lookup name).map .mk

/-- The command of a name, with its arguments. -/
def Command.of? (name : String) (a : Arguments) : Option Command :=
  let json := a.flags.contains "json"
  match name with
  | "extensions" =>
    some (.extensions (a.path? "dir") (a.flags.contains "all") json (a.flags.contains "plain"))
  | "points" => some (.points (a.path? "dir") json)
  | "capabilities" => some (.capabilities a.operands.head? json)
  | "config" => some .config
  | _ => none

namespace Invocation

/-- Asks for help about a command, or about the program. -/
def ofHelp : (topic : List String) → Interruption
  | [] => .help
  | [name] => if name ∈ form.commands then .help else .usage (.unexpected name)
  | name :: next :: _ =>
    if name ∈ form.commands then .usage (.unexpected next) else .usage (.unexpected name)

/-- What the arguments ask for.  The file with settings can be named in front of
a command and behind it, and the latter counts. -/
def ofArguments (arguments : List String) : Except Interruption Invocation := do
  let front ← form.read arguments {}
  match front.command with
  | none => return ⟨front.path? "config", none⟩
  | some (name, rest) =>
    match Command.forms.lookup name with
    | none => throw (ofHelp rest)
    | some form =>
      let back ← form.read rest {}
      return ⟨back.path? "config" <|> front.path? "config", Command.of? name back⟩

end Invocation
end PluginHost
