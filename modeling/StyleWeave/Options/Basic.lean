import StyleWeave.Dialect
import StyleWeave.Dictionary
import StyleWeave.Failure

/-!
# Options of a compile job

The options, what makes them valid, and what they say about import names and variable tables.
-/

namespace StyleWeave

/-- The options of one compile job. -/
structure Options where
  /-- Where import names that start with a slash are rooted. -/
  root : Option String := none
  /-- Directories in which the renderer looks for imports, besides that of the importing
  document. -/
  paths : List Path := []
  define : Table := .empty
  /-- Alternative tables for scanning imports ahead of the render, one for each variant of a
  build. -/
  importVariables : List Table := []
  /-- Documents are scanned, and their imports resolved, ahead of the render. -/
  prefetch : Bool := true
  /-- How many documents may be scanned at once. -/
  maxParallelScans : Nat := 8
  sourceMap : Bool := false
  dialect : Dialect := {}
  /-- Beginnings of requests with the directories they stand for. -/
  aliases : Dictionary Path := .empty
  /-- The names of directories in which package requests are looked for, from the context
  upwards. -/
  moduleDirs : List String := ["node_modules"]
  deriving Repr, Inhabited

namespace Options

/-- Refuse options that cannot work. -/
def validate (o : Options) : Except Failure Unit :=
  if o.maxParallelScans = 0 then .error (.config "max-parallel-scans must be at least 1")
  else if o.dialect.extension.isEmpty || Text.startsWith o.dialect.extension "." then
    .error (.config ("dialect extension '" ++ o.dialect.extension ++
      "' must be non-empty and given without the dot"))
  else .ok ()

/-- The request for an import name. A name that only the host can resolve loses its mark. -/
def requestFor (o : Options) (name : String) : String :=
  if o.dialect.isHostReference name then
    (Text.stripPrefix? o.dialect.hostPrefix name).getD name
  else Reference.requestFor name o.root

/-- The tables to scan with; there is at least one. -/
def scanTables (o : Options) : List Table :=
  if o.importVariables.isEmpty then [o.define] else o.importVariables

end Options

end StyleWeave
