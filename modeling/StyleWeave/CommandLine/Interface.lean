import StyleWeave.Text.Affix

/-!
# Interfaces of commands

An interface says which options and operands a command takes and what they are for. From it come
both the reading of arguments and the help text.

Arguments follow the usual conventions. An option is written `--name`, or `-n` where it has a short
name, and short options may share one hyphen. A value follows its option as the next argument, which
starts with no hyphen unless it is a hyphen alone; or behind `=`; or, for a short option, directly.
All arguments behind `--` are operands. No option may be given twice.
-/

namespace StyleWeave.CommandLine

/-- What an option does. -/
inductive OptionKind where
  /-- It has a value, which help calls by the label. -/
  | value (label : String) (mayBeEmpty : Bool)
  | switch
  /-- It asks for help, whatever else is given behind it. -/
  | help
  /-- It asks for the version, whatever else is given behind it. -/
  | version
  deriving DecidableEq, Repr

/-- An option of a command. -/
structure OptionSpec where
  name : String
  short : Option Char
  kind : OptionKind
  about : String
  deriving DecidableEq, Repr

/-- How a command is called. -/
structure Interface where
  name : String
  about : String
  /-- The commands it consists of, with what they do. -/
  commands : List (String × String) := []
  /-- What its operand is called, and what it is for. -/
  operand : Option (String × String) := none
  options : List OptionSpec := []
  deriving Repr

/-- Why reading arguments ends early. -/
inductive Stop where
  | help
  | version
  | misuse
  deriving DecidableEq, Repr

/-- The arguments of a command. -/
structure Given where
  /-- The options given, by name, with their values; a switch has an empty one. -/
  options : List (String × String) := []
  operand : Option String := none
  deriving DecidableEq, Repr, Inhabited

namespace Given

/-- The value of an option. -/
def value? (g : Given) (name : String) : Option String :=
  g.options.lookup name

/-- A switch is on. -/
def isOn (g : Given) (name : String) : Bool :=
  (g.value? name).isSome

/-- Take an option that was not given before. -/
def addOption (g : Given) (name value : String) : Except Stop Given :=
  if g.isOn name then .error .misuse else .ok { g with options := (name, value) :: g.options }

/-- Take an operand. There is one at most, and it is not empty. -/
def addOperand (g : Given) (text : String) : Except Stop Given :=
  if g.operand.isSome || text.isEmpty then .error .misuse else .ok { g with operand := some text }

/-- Take the value of an option. -/
def addValue (g : Given) (o : OptionSpec) (value : String) : Except Stop Given :=
  match o.kind with
  | .value _ mayBeEmpty =>
    if value.isEmpty && !mayBeEmpty then .error .misuse else g.addOption o.name value
  | _ => .error .misuse

end Given

namespace Interface

/-- The arguments taken, and the option that the next argument is the value of. -/
abbrev Taken := Given × Option OptionSpec

/-- Take an option without a value of its own: a switch, or one that still awaits its value. -/
def takeBare (o : OptionSpec) (g : Given) : Except Stop Taken :=
  match o.kind with
  | .value .. => .ok (g, some o)
  | .switch => return (← g.addOption o.name "", none)
  | .help => .error .help
  | .version => .error .version

/-- Take an option by its long name, which may have a value behind `=`. -/
def takeLong (i : Interface) (text : List Char) (g : Given) : Except Stop Taken :=
  let name := String.ofList (text.takeWhile (· ≠ '='))
  match i.options.find? (·.name = name), text.dropWhile (· ≠ '=') with
  | none, _ => .error .misuse
  | some o, [] => takeBare o g
  | some o, _ :: value => return (← g.addValue o (String.ofList value), none)

/-- Take options by their short names. -/
def takeShort (i : Interface) : List Char → Given → Except Stop Taken
  | [], g => .ok (g, none)
  | c :: rest, g =>
    match i.options.find? (·.short = some c) with
    | none => .error .misuse
    | some o =>
      match o.kind, rest with
      | .value .., [] => .ok (g, some o)
      | .value .., '=' :: value => return (← g.addValue o (String.ofList value), none)
      | .value .., value => return (← g.addValue o (String.ofList value), none)
      | _, _ => do
        let (g, _) ← takeBare o g
        takeShort i rest g

/-- Take one argument. -/
def take (i : Interface) (arg : String) (g : Given) : Except Stop Taken :=
  match arg.toList with
  | '-' :: '-' :: text => i.takeLong text g
  | '-' :: c :: text => i.takeShort (c :: text) g
  | _ => return (← g.addOperand arg, none)

/-- The argument may be the value of the option in front of it. -/
def isValue (arg : String) : Bool :=
  arg = "-" || !Text.startsWith arg "-"

/-- Read arguments, given what was taken before. -/
def readFrom (i : Interface) : Taken → List String → Except Stop Given
  | (g, none), [] => .ok g
  | (_, some _), [] => .error .misuse
  | (g, some o), arg :: rest => do
    if !isValue arg then throw .misuse
    i.readFrom (← g.addValue o arg, none) rest
  | (g, none), arg :: rest =>
    if arg = "--" then rest.foldlM Given.addOperand g
    else do i.readFrom (← i.take arg g) rest

/-- Read the arguments of a command. An operand that the command takes must be there. -/
def read (i : Interface) (args : List String) : Except Stop Given := do
  let g ← i.readFrom ({}, none) args
  if i.operand.isSome = g.operand.isSome then return g else throw .misuse

/-! ## Help -/

/-- Texts in two columns. -/
def columns (rows : List (String × String)) : List String :=
  let width := (rows.map fun row => row.1.length).foldl max 0
  rows.map fun row => "  " ++ row.1 ++ Text.repeated (width - row.1.length + 2) " " ++ row.2

/-- Texts in two columns under a heading, with a blank line in front, unless there are none. -/
def listing (heading : String) (rows : List (String × String)) : List String :=
  if rows.isEmpty then [] else "" :: heading :: columns rows

/-- An option as help shows it. -/
def optionRow (o : OptionSpec) : String × String :=
  let short := match o.short with
    | some c => String.ofList ['-', c, ',', ' ']
    | none => "    "
  let label := match o.kind with
    | .value label _ => " <" ++ label ++ ">"
    | _ => ""
  (short ++ "--" ++ o.name ++ label, o.about)

/-- The words that show how the command is called. -/
def usage (i : Interface) : List String :=
  let options := i.options.any fun o => o.kind ≠ .help && o.kind ≠ .version
  [i.name] ++ (if options then ["[OPTIONS]"] else []) ++ i.operand.toList.map Prod.fst ++
    (if i.commands.isEmpty then [] else ["<COMMAND>"])

/-- The help text of a command. -/
def helpText (i : Interface) : String :=
  let lines := [i.about, "", "Usage: " ++ " ".intercalate i.usage] ++
    listing "Commands:" i.commands ++ listing "Arguments:" i.operand.toList ++
    listing "Options:" (i.options.map optionRow)
  String.join (lines.map (· ++ "\n"))

end Interface

end StyleWeave.CommandLine
