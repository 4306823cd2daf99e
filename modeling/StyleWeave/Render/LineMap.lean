import StyleWeave.Path.Basic
import StyleWeave.Text.Quoted

/-!
# Source maps by lines

A line map says for lines of the CSS which line of which document they come from.
-/

namespace StyleWeave

/-- Where a line of the output comes from. All numbers are 0-based. -/
structure Mapping where
  output : Nat
  /-- The number of the document among the sources. -/
  source : Nat
  line : Nat
  deriving DecidableEq, Repr, Inhabited

/-- The source map of a rendered document. -/
structure LineMap where
  file : Path
  /-- The documents that took part, in the order in which they were entered. -/
  sources : List Path
  mappings : List Mapping
  deriving Repr, Inhabited

namespace Mapping

/-- A mapping in JSON. -/
def json (m : Mapping) : String :=
  Text.jsonArray [toString m.output, toString m.source, toString m.line]

end Mapping

namespace LineMap

/-- The line map in JSON. -/
def json (m : LineMap) : String :=
  "\x7b\"version\":3,\"file\":" ++ Text.json m.file.text ++
    ",\"sources\":" ++ Text.jsonArray (m.sources.map fun p => Text.json p.text) ++
    ",\"mappings\":" ++ Text.jsonArray (m.mappings.map Mapping.json) ++ "\x7d"

end LineMap

end StyleWeave
