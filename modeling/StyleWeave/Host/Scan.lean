import StyleWeave.Host.Basic
import StyleWeave.Scan

/-!
# Scanning through a host
-/

namespace StyleWeave

/-- The imports of a document. Its text is read from the host unless it is given, and only a failed
reading is a failure. -/
def Host.scanFile {σ : Type} (host : Host σ) (s : σ) (file : Path) (text : Option String)
    (tables : List Table) (dialect : Dialect) : Except Failure (List FoundImport) × σ :=
  match text with
  | some text => (.ok (scanImports file text tables dialect), s)
  | none =>
    let (result, s) := host.read s file
    (result.map (scanImports file · tables dialect), s)

end StyleWeave
