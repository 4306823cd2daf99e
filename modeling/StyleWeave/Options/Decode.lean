import StyleWeave.Config.Datum
import StyleWeave.Options.Basic

/-!
# Options from configuration data

Options and dialects are written as maps from the names of their fields, and what is not written
keeps its default. Names that are no field are passed over, and a field written twice is refused.
They may also be written as a list of the fields' values in order, which may end early.
-/

namespace StyleWeave

namespace Config

/-- The text that a datum is. A date or time counts as its text. -/
def asText : Datum → Option String
  | .text s => some s
  | .moment s => some s
  | _ => none

/-- The truth value that a datum is. -/
def asBool : Datum → Option Bool
  | .bool b => some b
  | _ => none

/-- The size that a datum is: a whole number that is not negative. -/
def asSize : Datum → Option Nat
  | .int (.ofNat n) => some n
  | _ => none

/-- The path that a datum is. -/
def asPath (d : Datum) : Option Path :=
  (asText d).map Path.mk

/-- The text that a datum is, or none where it is null. -/
def asOptionalText : Datum → Option (Option String)
  | .null => some none
  | d => (asText d).map some

/-- The items of a list, each read by `f`. -/
def asList {α : Type} (f : Datum → Option α) : Datum → Option (List α)
  | .list items => items.mapM f
  | _ => none

/-- The entries of a map, each value read by `f`; of two with one name the later counts. -/
def asDictionary {α : Type} (f : Datum → Option α) : Datum → Option (Dictionary α)
  | .map entries => do
    let values ← entries.mapM fun e => f e.2
    return Dictionary.ofList ((entries.map Prod.fst).zip values)
  | _ => none

/-- Variables by name. -/
def asTable : Datum → Option Table :=
  asDictionary asText

/-- The fields written in a map or list, by name, given the names of all fields in order. -/
def fields (names : List String) : Datum → Option (List (String × Datum))
  | .map entries =>
    let known := entries.filter fun e => names.contains e.1
    if names.all fun name => known.countP (·.1 = name) ≤ 1 then some known else none
  | .list items => if items.length ≤ names.length then some (names.zip items) else none
  | _ => none

/-- The value of a field, or its default where it is not written. -/
def field {α : Type} (written : List (String × Datum)) (name : String) (f : Datum → Option α)
    (default : α) : Option α :=
  match written.lookup name with
  | some d => f d
  | none => some default

end Config

open Config

/-- The names of the fields of a dialect. -/
def Dialect.fieldNames : List String :=
  ["extension", "index-file", "literal-extensions", "host-prefix"]

/-- The dialect that a datum describes. -/
def Dialect.ofDatum? (d : Datum) : Option Dialect := do
  let written ← fields fieldNames d
  let defaults : Dialect := {}
  return {
    extension := ← field written "extension" asText defaults.extension
    indexFile := ← field written "index-file" asText defaults.indexFile
    literalExtensions :=
      ← field written "literal-extensions" (asList asText) defaults.literalExtensions
    hostPrefix := ← field written "host-prefix" asText defaults.hostPrefix }

/-- The names of the fields of options. -/
def Options.fieldNames : List String :=
  ["root", "paths", "define", "import-variables", "prefetch", "max-parallel-scans", "source-map",
    "dialect", "aliases", "module-dirs"]

/-- The options that a datum describes. -/
def Options.ofDatum? (d : Datum) : Option Options := do
  let written ← fields fieldNames d
  let defaults : Options := {}
  return {
    root := ← field written "root" asOptionalText defaults.root
    paths := ← field written "paths" (asList asPath) defaults.paths
    define := ← field written "define" asTable defaults.define
    importVariables :=
      ← field written "import-variables" (asList asTable) defaults.importVariables
    prefetch := ← field written "prefetch" asBool defaults.prefetch
    maxParallelScans := ← field written "max-parallel-scans" asSize defaults.maxParallelScans
    sourceMap := ← field written "source-map" asBool defaults.sourceMap
    dialect := ← field written "dialect" Dialect.ofDatum? defaults.dialect
    aliases := ← field written "aliases" (asDictionary asPath) defaults.aliases
    moduleDirs := ← field written "module-dirs" (asList asText) defaults.moduleDirs }

end StyleWeave
