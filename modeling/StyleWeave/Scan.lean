import StyleWeave.Options.Basic
import StyleWeave.Scope
import StyleWeave.Syntax.Parser

/-!
# Scanning documents for imports

A scan finds the imports of a document that are known without rendering it. What cannot be known
is left out, and a document that is malformed or in another language has no imports. So a scan may
miss imports, and the render decides.
-/

namespace StyleWeave

/-- An import found by a scan. -/
structure FoundImport where
  context : Path
  name : String
  kind : ImportKind
  deriving Repr, Inhabited

namespace Scan

/-- The known names of the imports of a document, with their keywords. -/
def names (document : List Node) (table : Table) : List (String × ImportKind) :=
  (importSites document table).flatMap fun site =>
    site.names.filterMap fun name => name.map (·, site.statement.kind)

/-- Those of some names that a resolver may be asked for and that were not seen before, each
once. -/
def fresh (seen : List String) : List (String × ImportKind) → List (String × ImportKind)
  | [] => []
  | (name, kind) :: rest =>
    if Reference.isUnresolvable name || seen.contains name then fresh seen rest
    else (name, kind) :: fresh (name :: seen) rest

end Scan

/-- The imports of a document, each name once, evaluated with each of the tables in turn. Without a
table they are evaluated with an empty one. -/
def scanImports (file : Path) (source : String) (tables : List Table) (dialect : Dialect) :
    List FoundImport :=
  if !dialect.isDialectFile file then []
  else
    match parse source.toList with
    | .error _ => []
    | .ok document =>
      let tables := if tables.isEmpty then [.empty] else tables
      let found := Scan.fresh [] (tables.flatMap (Scan.names document))
      found.map fun (name, kind) => ⟨file.directory, name, kind⟩

end StyleWeave
