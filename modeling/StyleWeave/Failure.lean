import StyleWeave.Reference
import StyleWeave.SystemError

/-!
# Failures

What can go wrong while options are read, references are resolved and documents are rendered.
`Failure.message` is the only place that words them.
-/

namespace StyleWeave

/-- Why an operation gave no result. -/
inductive Failure where
  | compile (message : String)
  | config (message : String)
  /-- A renderer asked again for a reference that was resolved. -/
  | consistency (key : Reference)
  | io (message : String)
  | notFound (message : String)
  | resolve (key : Reference) (message : String)
  | serialization (message : String)
  /-- The host could not resolve the reference of an import: `name` as written in `importer`. -/
  | unresolvedImport (importer : Path) (name : String) (key : Reference) (message : String)
  deriving Repr, Inhabited

namespace Failure

/-- The failure as users see it. -/
def message : Failure → String
  | compile m => "Compile error: " ++ m
  | config m => "Configuration error: " ++ m
  | consistency key =>
    "Internal consistency error: reference " ++ key.display ++
      " was already resolved but the renderer reported it unresolved again"
  | io m => "File System error: " ++ m
  | notFound m => "Item Not Found: " ++ m
  | resolve key m => "Could not resolve " ++ key.display ++ ": " ++ m
  | serialization m => "(De)Serialization error: " ++ m
  | unresolvedImport importer name key m =>
    "@import \"" ++ name ++ "\" in " ++ importer.text ++ " could not be resolved as " ++
      key.display ++ ": " ++ m

/-- The reference a failure is about, if it is about one. -/
def reference? : Failure → Option Reference
  | consistency key | resolve key _ | unresolvedImport _ _ key _ => some key
  | _ => none

/-- A reference the host could not resolve is behind the failure. -/
def isResolveFailure : Failure → Bool
  | resolve .. | unresolvedImport .. => true
  | _ => false

/-- The failure a file operation's error is reported as. -/
def ofSystemError (e : SystemError) : Failure :=
  if e.kind = "NotFound" then notFound e.display
  else io ("IOError: " ++ e.description ++ ": " ++ e.display)

end Failure

end StyleWeave
