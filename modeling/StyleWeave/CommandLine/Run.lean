import StyleWeave.CommandLine.Arguments
import StyleWeave.CommandLine.Report
import StyleWeave.Disk.Walk
import StyleWeave.Project
import StyleWeave.Scan

/-!
# Running a command line

A command line runs on a disk: it answers what it prints, the fault that ended it if one did, and
the disk with the files it wrote. What was printed and written before a fault stays.
-/

namespace StyleWeave.CommandLine

/-- What a command has done so far. -/
structure Session where
  disk : Disk
  output : String := ""
  files : PathSet := .empty
  parsed : Inline.ParseCache := {}

/-- A step of a command: it may end the command with a fault, and has no result if a document comes
to no end. -/
abbrev Act (α : Type) := ExceptT Fault (StateT Session Option) α

/-- Print a text. -/
def print (text : String) : Act Unit :=
  modify fun s => { s with output := s.output ++ text }

/-- Print a line. -/
def printLine (line : String) : Act Unit :=
  print (line ++ "\n")

/-- Go on with a result, or end with its failure. -/
def orFail {α : Type} : Except Failure α → Act α
  | .ok a => pure a
  | .error failure => throw (.failure failure)

/-- Change the disk, or end with the failure to do so. -/
def changeDisk (change : Disk → Except SystemError Disk) : Act Unit := do
  let disk ← orFail ((change (← get).disk).mapError Failure.ofSystemError)
  modify fun s => { s with disk }

/-- The options from where they come. -/
def loadOptions (source : OptionSource) : Act Options := do
  match source.config with
  | some config => orFail ((← get).disk.loadOptions config source.profile)
  | none => return {}

/-- Compile one document with a new job. -/
def compile (options : Options) (document : Path) (source : String) : Act Output := do
  let s ← get
  let step ← ExceptT.lift
    (StateT.lift (s.disk.compile options options document source s.files s.parsed))
  modify fun s => { s with files := step.host, parsed := step.renderer }
  orFail step.result

/-- Write a rendered document and its source map. -/
def writeRendered (target : Path) (rendered : Rendered) : Act Unit := do
  if let some parent := target.parent? then
    changeDisk (·.makeDirectories (parent.ancestors))
  changeDisk (·.write target rendered.css)
  if let some map := rendered.sourceMap then
    changeDisk (·.write (target.withExtension "css.map") map)

/-- Render one of the documents that `root` stands for. -/
def renderDocument (arguments : RenderArguments) (options : Options) (root document : Path) :
    Act Unit := do
  if arguments.verbose then
    printLine ("Rendering: " ++ Text.shown document.text)
  let source ← orFail ((← get).disk.readText document)
  let output ← compile options document source
  match arguments.out with
  | some out =>
    let target := (← get).disk.target root document out
    writeRendered target output.rendered
    if arguments.verbose then
      printLine ("Wrote " ++ Text.shown target.text ++ " (" ++ toString output.attempts ++
        " attempt(s))")
  | none => print output.rendered.css
  if arguments.deps then
    printLine ("\n=== Dependencies of " ++ document.text ++ " ===")
    output.dependencies.forM fun file => printLine file.text

/-- Render the documents that the arguments name. -/
def render (arguments : RenderArguments) : Act Unit := do
  let options ← loadOptions arguments.source
  let disk := (← get).disk
  let root := disk.absolute arguments.path
  (disk.documents options root).forM (renderDocument arguments options root)

/-- An import in a list of imports: its keyword, its name, and the request for it. -/
def importLine (options : Options) (found : FoundImport) : String :=
  let keyword := match found.kind with
    | .import_ => "Import"
    | .require => "Require"
  "\t".intercalate [keyword, found.name, options.requestFor found.name]

/-- List the imports of a document. -/
def scan (path : Path) (source : OptionSource) : Act Unit := do
  let options ← loadOptions source
  let disk := (← get).disk
  let file := disk.absolute path
  match disk.read file with
  | .error e => throw (.system e)
  | .ok text =>
    (scanImports file text options.scanTables options.dialect).forM fun found =>
      printLine (importLine options found)

/-- Do what is asked for. -/
def perform : Request → Act Unit
  | .render arguments => render arguments
  | .scan path source => scan path source
  | .help i => print i.helpText
  | .version => printLine (programName ++ " " ++ programVersion)

/-- How a command line ended. -/
structure Ending where
  /-- 0 if it did what was asked for, 1 if a fault ended it, 2 if it asks for nothing that the
  program can do. -/
  exitCode : Nat
  output : String
  fault : Option Fault
  disk : Disk

/-- Run a command line on a disk. -/
def run (disk : Disk) (args : List String) : Option Ending :=
  match Request.ofArguments? args with
  | none => some ⟨2, "", none, disk⟩
  | some request => do
    let (result, s) ← (perform request).run.run { disk }
    match result with
    | .ok () => return ⟨0, s.output, none, s.disk⟩
    | .error fault => return ⟨1, s.output, some fault, s.disk⟩

end StyleWeave.CommandLine
