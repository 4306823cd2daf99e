import StyleWeave.Path.Name

/-!
# File naming conventions of the dialect

Which files are documents of the dialect, which names stand for plain stylesheets, which names only
the host can resolve, and which requests an import name without an extension may mean.
-/

namespace StyleWeave

/-- The naming conventions of a dialect. -/
structure Dialect where
  /-- The extension of the dialect's documents, without the dot. -/
  extension : String := "styl"
  /-- The stem of the document that stands for its directory. -/
  indexFile : String := "index"
  /-- The extensions of plain stylesheets, which are imported by their full names. -/
  literalExtensions : List String := ["css"]
  /-- What the names start with that only the host can resolve. -/
  hostPrefix : String := "~"
  deriving DecidableEq, Repr, Inhabited

namespace Dialect

/-- The path names a document of the dialect. -/
def isDialectFile (d : Dialect) (p : Path) : Bool :=
  p.extension?.any fun ext => Text.equalFold ext d.extension

/-- `ext` is the extension of a plain stylesheet. -/
def isLiteralExtension (d : Dialect) (ext : String) : Bool :=
  d.literalExtensions.any (Text.equalFold ext)

/-- The request names a file in full, so nothing is added to it. Quotes at its end are not part of
the extension, and a dot in front of a slash starts none. -/
def isLiteralRequest (d : Dialect) (request : String) : Bool :=
  match Text.afterLastDot? (Text.trimQuotes request) with
  | none => false
  | some ext =>
    !ext.toList.contains '/' && (Text.equalFold ext d.extension || d.isLiteralExtension ext)

/-- The import name stands for a plain stylesheet, which is not inlined. -/
def isPlainStylesheet (d : Dialect) (name : String) : Bool :=
  (Text.afterLastDot? (Text.trimQuotes name)).any d.isLiteralExtension

/-- The import name is one that only the host can resolve. -/
def isHostReference (d : Dialect) (name : String) : Bool :=
  !d.hostPrefix.isEmpty && Text.startsWith name d.hostPrefix

/-- The request for the document of that name. -/
def withExtension (d : Dialect) (request : String) : String :=
  request ++ "." ++ d.extension

/-- The request for the document that stands for the directory of that name. -/
def indexRequest (d : Dialect) (request : String) : String :=
  Text.trimSlashes request ++ "/" ++ d.indexFile ++ "." ++ d.extension

/-- The requests to try for one import request, in order. -/
def candidates (d : Dialect) (request : String) : List String :=
  if d.isLiteralRequest request then [request]
  else [d.withExtension request, d.indexRequest request]

end Dialect

end StyleWeave
