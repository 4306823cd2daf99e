import StyleWeave.Failure
import StyleWeave.Text.Quoted

/-!
# Reports of faults

The command line reports what ended it in one line: the kind of fault with all its parts, texts in
quotes. What is wrong with a configuration text is not told.
-/

namespace StyleWeave

/-- Parts with their names, in braces. -/
def reportParts (parts : List (String × String)) : String :=
  "\x7b " ++ ", ".intercalate (parts.map fun part => part.1 ++ ": " ++ part.2) ++ " \x7d"

/-- The parts of a reference. -/
def Reference.reportParts (key : Reference) : List (String × String) :=
  [("context", Text.shown key.context.text), ("request", Text.shown key.request)]

/-- The report of a failure. -/
def Failure.report : Failure → String
  | compile m => "Compile(" ++ Text.shown m ++ ")"
  | config m => "Config(" ++ Text.shown m ++ ")"
  | consistency key => "Consistency " ++ StyleWeave.reportParts key.reportParts
  | io m => "Io(" ++ Text.shown m ++ ")"
  | notFound m => "NotFound(" ++ Text.shown m ++ ")"
  | resolve key m =>
    "Resolve " ++ StyleWeave.reportParts (key.reportParts ++ [("message", Text.shown m)])
  | serialization _ => "Serialization"
  | unresolvedImport importer name key m =>
    "UnresolvedImport " ++ StyleWeave.reportParts
      ([("importer", Text.shown importer.text), ("name", Text.shown name)] ++
        key.reportParts ++ [("message", Text.shown m)])

/-- The report of an error of the operating system. -/
def SystemError.report (e : SystemError) : String :=
  let message := ("message", Text.shown e.message)
  match e.code with
  | some code => "Os " ++ reportParts [("code", toString code), ("kind", e.kind), message]
  | none => "Error " ++ reportParts [("kind", e.kind), message]

/-- What ends a command. -/
inductive Fault where
  | failure (f : Failure)
  /-- The operating system refused an operation. -/
  | system (e : SystemError)
  deriving Repr

/-- The report of a fault. -/
def Fault.report : Fault → String
  | failure f => f.report
  | system e => e.report

end StyleWeave
