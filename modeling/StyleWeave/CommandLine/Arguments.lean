import StyleWeave.CommandLine.Interface
import StyleWeave.Path.Basic

/-!
# The arguments of the program

The program has two commands: one renders documents, and one lists the imports that a scan finds in
a document. A third prints help.
-/

namespace StyleWeave.CommandLine

/-- Where options come from. -/
structure OptionSource where
  /-- The file with the configuration; without one the defaults are in force. -/
  config : Option Path := none
  profile : Option String := none
  deriving Repr, Inhabited

/-- What to render and what to do with it. -/
structure RenderArguments where
  /-- A document, or a directory with documents. -/
  path : Path
  source : OptionSource := {}
  /-- The file to write to, or the directory when a directory is rendered. -/
  out : Option Path := none
  deps : Bool := false
  verbose : Bool := false
  deriving Repr, Inhabited

/-- What a command line asks for. -/
inductive Request where
  | render (arguments : RenderArguments)
  | scan (path : Path) (source : OptionSource)
  | help (command : Interface)
  | version
  deriving Repr

/-! ## Interfaces -/

/-- What the program is called. -/
def programName : String := "styl-bridge"

/-- The version of the program. -/
def programVersion : String := "0.0.0"

/-- The option that asks for help. -/
def helpOption : OptionSpec := ⟨"help", some 'h', .help, "Print help"⟩

/-- The option that asks for the version. -/
def versionOption : OptionSpec := ⟨"version", some 'V', .version, "Print version"⟩

/-- The options that say where options come from. -/
def sourceOptions : List OptionSpec := [
  ⟨"config", some 'c', .value "CONFIG" false, "Configuration file path"⟩,
  ⟨"profile", some 'p', .value "PROFILE" true, "Configuration profile"⟩]

/-- The interface of the command that renders. -/
def renderInterface : Interface where
  name := programName ++ " render"
  about := "Render a document, or every document under a directory"
  operand := some ("<PATH>", "Path to the document or directory to render")
  options := sourceOptions ++ [
    ⟨"out", some 'o', .value "OUT" false,
      "Output file, or output directory when rendering a directory"⟩,
    ⟨"deps", none, .switch, "Print the dependency list of each document"⟩,
    ⟨"verbose", some 'v', .switch, "Verbose output"⟩,
    helpOption]

/-- The interface of the command that scans. -/
def scanInterface : Interface where
  name := programName ++ " scan"
  about := "List the imports the static scanner finds in a document"
  operand := some ("<PATH>", "Path to the document")
  options := sourceOptions ++ [helpOption]

/-- The interface of the command that prints help. -/
def helpInterface : Interface where
  name := programName ++ " help"
  about := "Print this message or the help of the given subcommand(s)"
  operand := some ("[COMMAND]...", "Print help for the subcommand(s)")

/-- The commands by name. -/
def commands : List (String × Interface) :=
  [("render", renderInterface), ("scan", scanInterface), ("help", helpInterface)]

/-- The interface of the program. -/
def programInterface : Interface where
  name := programName
  about := "Render stylesheets whose imports resolve like modules"
  commands := commands.map fun command => (command.1, command.2.about)
  options := [helpOption, versionOption]

/-! ## Requests -/

/-- Where the options given come from. -/
def Given.source (g : Given) : OptionSource where
  config := (g.value? "config").map Path.mk
  profile := g.value? "profile"

/-- The operand as a path. -/
def Given.path (g : Given) : Path :=
  ⟨g.operand.getD ""⟩

/-- The arguments given to the command that renders. -/
def Given.render (g : Given) : RenderArguments where
  path := g.path
  source := g.source
  out := (g.value? "out").map Path.mk
  deps := g.isOn "deps"
  verbose := g.isOn "verbose"

/-- The request of a command line that was read up to some point, if there is one. -/
def Stop.request? (i : Interface) : Stop → Option Request
  | help => some (.help i)
  | version => some .version
  | misuse => none

/-- The request that arguments make of a command. -/
def Interface.request? (i : Interface) (make : Given → Request) (args : List String) :
    Option Request :=
  match i.read args with
  | .ok g => some (make g)
  | .error stop => stop.request? i

/-- The request for help on a command, or on the program if none is named. -/
def helpRequest? : List String → Option Request
  | [] => some (.help programInterface)
  | [name] => (commands.lookup name).map .help
  | _ => none

/-- The request that a command line makes. Options of the program itself end the reading. -/
def Request.ofArguments? : List String → Option Request
  | "render" :: args => renderInterface.request? (.render ·.render) args
  | "scan" :: args => scanInterface.request? (fun g => .scan g.path g.source) args
  | "help" :: names => helpRequest? names
  | arg :: _ =>
    match programInterface.take arg {} with
    | .ok _ => none
    | .error stop => stop.request? programInterface
  | [] => none

end StyleWeave.CommandLine
