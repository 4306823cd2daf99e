import StyleWeave.Render.Basic
import StyleWeave.Render.LineMap
import StyleWeave.Scope
import StyleWeave.Syntax.Parser
import StyleWeave.Text.Lines

/-!
# The inlining renderer

The renderer puts the text of an imported document in place of the import statement and lets all
else pass as it is.

- An inlined document is indented like the line of its statement, and by one level more for each
  brace that is open in front of the statement on that line.
- Other text on the line of a statement is kept on lines of its own.
- `@require` inlines a file once in a pass, and `@import` each time.
- Imports of plain stylesheets and URLs become CSS rules.
- An import whose path is not known statically, or that leads back to a document being inlined, is a
  failure.

The passes through nested documents take a bound on their depth, so that every pass ends. A pass
that exceeds it has no result.
-/

namespace StyleWeave.Inline

open Text (bytes)

/-- The documents parsed so far, by their texts. -/
structure ParseCache where
  documents : List (String × List Node) := []
  deriving Inhabited

namespace ParseCache

/-- How many texts were parsed. -/
def size (c : ParseCache) : Nat :=
  c.documents.length

/-- The statements of a text, parsed unless they are known. A malformed text is not kept. -/
def parse (c : ParseCache) (source : String) : Except ParseError (List Node) × ParseCache :=
  match c.documents.lookup source with
  | some document => (.ok document, c)
  | none =>
    match StyleWeave.parse source.toList with
    | .ok document => (.ok document, ⟨c.documents ++ [(source, document)]⟩)
    | .error e => (.error e, c)

end ParseCache

/-- What one pass has done so far. -/
structure Pass (σ : Type) where
  search : σ
  parsed : ParseCache
  included : List Path := []
  lines : Array String := #[]
  sources : List Path := []
  /-- Where lines of the CSS come from. -/
  mappings : Array Mapping := #[]

/-- Why a pass ends early. -/
inductive Halt where
  | pending (p : Pending)
  | failed (failure : Failure)
  /-- Documents are nested deeper than the pass may go. -/
  | tooDeep

/-- A step of a pass. What it did stays done if it halts. -/
abbrev Step (σ α : Type) := ExceptT Halt (StateM (Pass σ)) α

/-- What stays the same for the whole pass. The state `σ` is that of the search for files. -/
structure Setting (σ : Type) where
  options : Options
  /-- Find the files that an import of a document stands for, by the import's name. -/
  locate : Path → String → σ → Except Halt (List Path) × σ
  read : Path → σ → Except Halt String × σ

variable {σ : Type}

/-! ## Finding documents -/

/-- The directories in which the imports of a document are looked for, the last first. -/
def searchPaths (options : Options) (importer : Path) : List Path :=
  options.paths ++ importer.parent?.toList

/-- The path by which an import's file is looked for first. -/
def filePath (dialect : Dialect) (name : String) : String :=
  if dialect.isDialectFile ⟨name⟩ then name else dialect.withExtension name

/-- The failure of an import that stands for no file. -/
def notLocated (options : Options) (importer : Path) (name : String) : Halt :=
  .failed (.compile ("failed to locate @import file " ++ filePath options.dialect name ++
    " (imported from " ++ importer.text ++ ")"))

namespace Setting

/-- Find the files that an import stands for with a locator: by their path, or else by that of the
directory they stand for. -/
def locateIn (options : Options) (locator : Locator σ) (importer : Path) (name : String) (s : σ) :
    Except Halt (List Path) × σ :=
  let paths := searchPaths options importer
  match locator.find s (filePath options.dialect name) paths (some importer) with
  | (.error pending, s) => (.error (.pending pending), s)
  | (.ok (some files), s) => (.ok files, s)
  | (.ok none, s) =>
    match locator.index s name paths (some importer) with
    | (.error pending, s) => (.error (.pending pending), s)
    | (.ok (some files), s) => (.ok files, s)
    | (.ok none, s) => (.error (notLocated options importer name), s)

/-- The setting of a pass that finds and reads files with a locator. -/
def ofLocator (options : Options) (locator : Locator σ) : Setting σ where
  options
  locate := locateIn options locator
  read file s :=
    let (result, s) := locator.read s file
    (result.mapError Halt.failed, s)

end Setting

/-! ## Lines of the output -/

/-- Write a line that comes from no document. -/
def writeRule (line : String) (p : Pass σ) : Pass σ :=
  { p with lines := p.lines.push line }

/-- Write a line that comes from line `number` of a document. -/
def writeMapped (source number : Nat) (line : String) (p : Pass σ) : Pass σ :=
  { p with
    lines := p.lines.push line
    mappings := p.mappings.push ⟨p.lines.size, source, number⟩ }

/-- Write a line of a document that holds no part of an import. A blank line is written empty. -/
def writeLine (indent : String) (source : Nat) (line : Text.Line) : Pass σ → Pass σ :=
  writeMapped source line.number
    (if (Text.trim line.text).isEmpty then "" else indent ++ String.ofList line.text)

/-- One level of indentation per open brace. -/
def levels (n : Nat) : String :=
  Text.repeated n "  "

/-- How many braces are open behind a text, if `opened` are open in front of it. -/
def openBehind (opened : Nat) (text : List Char) : Nat :=
  opened + text.count '\x7b' - text.count '\x7d'

/-- Write text that shares its line with an import, unless it is blank. Braces it starts with
close levels first. Answers how many braces are open behind it. -/
def writeFragment (base : String) (text : List Char) (opened source number : Nat) (p : Pass σ) :
    Nat × Pass σ :=
  let text := Text.trim text
  if text.isEmpty then (opened, p)
  else
    let closed := (text.takeWhile (· = '\x7d')).length
    (openBehind opened text,
      writeMapped source number (base ++ levels (opened - closed) ++ String.ofList text) p)

/-- The number of a document among the sources; a new one becomes the last. -/
def sourceIndex (file : Path) (p : Pass σ) : Nat × Pass σ :=
  match p.sources.findIdx? (· == file) with
  | some i => (i, p)
  | none => (p.sources.length, { p with sources := p.sources ++ [file] })

/-! ## Imports -/

/-- A pass through a document, given the documents around it, its path, its text and its
indentation. -/
abbrev Inliner (σ : Type) := List Path → Path → String → String → Step σ Unit

/-- A failure that the renderer words itself. -/
def fail {α : Type} (message : String) : Step σ α :=
  throw (.failed (.compile message))

/-- Run an operation of the locator. -/
def searching {α : Type} (act : σ → Except Halt α × σ) : Step σ α := do
  let p ← get
  let (result, search) := act p.search
  set { p with search }
  match result with
  | .ok a => return a
  | .error halt => throw halt

/-- Find the files that an import stands for. -/
def locate (env : Setting σ) (importer : Path) (name : String) : Step σ (List Path) :=
  searching (env.locate importer name)

/-- Read a file. -/
def readFile (env : Setting σ) (file : Path) : Step σ String :=
  searching (env.read file)

/-- Inline a file that an import of kind `kind` stands for. `stack` holds the documents being
inlined, the importing one first. -/
def includeFile (env : Setting σ) (nested : Inliner σ) (stack : List Path) (importer : Path)
    (kind : ImportKind) (indent : String) (file : Path) : Step σ Unit := do
  if kind = .require && (← get).included.contains file then
    return ()
  if stack.contains file then
    fail ("import loop has been found: " ++ importer.text ++ " imports " ++ file.text)
  modify fun p => { p with included := p.included ++ [file] }
  let text ← readFile env file
  nested stack file text indent

/-- Inline files in turn. -/
def includeFiles (env : Setting σ) (nested : Inliner σ) (stack : List Path) (importer : Path)
    (kind : ImportKind) (indent : String) : List Path → Step σ Unit
  | [] => return ()
  | file :: rest => do
    includeFile env nested stack importer kind indent file
    includeFiles env nested stack importer kind indent rest

/-- The target of a path expression that is a `url(...)`. -/
def urlTarget? : Expr → Option String
  | .call "url" (.literal target :: _) => some target
  | .call "url" _ => some ""
  | _ => none

/-- The import has a rule in the CSS and no document. -/
def isRule (options : Options) (name : String) : Bool :=
  options.dialect.isPlainStylesheet name || Reference.isUnresolvable name

/-- Carry out the import of one path expression. -/
def importOne (env : Setting σ) (nested : Inliner σ) (stack : List Path) (importer : Path)
    (statement : Import) (indent : String) (expr : Expr) (name : Option String) : Step σ Unit :=
  match urlTarget? expr, name with
  | some target, _ =>
    modify (writeRule (indent ++ "@import url(\"" ++ target ++ "\");"))
  | none, none =>
    fail (importer.text ++ ":" ++ toString (statement.line + 1) ++
      ": @import path is not statically known")
  | none, some name => do
    if isRule env.options name then
      modify (writeRule (indent ++ "@import \"" ++ name ++ "\";"))
    else
      let files ← locate env importer name
      includeFiles env nested stack importer statement.kind indent files

/-- Carry out the imports of a statement in turn. -/
def importAll (env : Setting σ) (nested : Inliner σ) (stack : List Path) (importer : Path)
    (statement : Import) (indent : String) : List (Expr × Option String) → Step σ Unit
  | [] => return ()
  | (expr, name) :: rest => do
    importOne env nested stack importer statement indent expr name
    importAll env nested stack importer statement indent rest

/-- Carry out an import statement. -/
def importSite (env : Setting σ) (nested : Inliner σ) (stack : List Path) (importer : Path)
    (indent : String) (site : ImportSite) : Step σ Unit :=
  importAll env nested stack importer site.statement indent
    (site.statement.exprs.zip site.names)

/-! ## Documents -/

/-- The document that a pass goes through. -/
structure Sheet where
  file : Path
  source : List Char
  index : Nat
  indent : String

/-- Carry out the statements of a line, with the text in front of each. `pos` is the byte offset
behind what is done, and `opened` the number of braces open on the line. Answers both as they are
behind the last statement. -/
def renderSites (env : Setting σ) (nested : Inliner σ) (stack : List Path) (sheet : Sheet)
    (base : String) (number : Nat) :
    List ImportSite → Nat → Nat → Step σ (Nat × Nat)
  | [], pos, opened => return (pos, opened)
  | site :: rest, pos, opened => do
    let before := Text.slice sheet.source pos site.statement.start
    let opened ← modifyGet (writeFragment base before opened sheet.index number)
    importSite env nested stack sheet.file (base ++ levels opened) site
    renderSites env nested stack sheet base number rest site.statement.stop opened

/-- Render lines of a document. Everything before the byte offset `cursor` belongs to a statement
that is carried out, and `sites` are the statements that are not. -/
def renderLines (env : Setting σ) (nested : Inliner σ) (stack : List Path) (sheet : Sheet) :
    List Text.Line → Nat → List ImportSite → Step σ Unit
  | [], _, _ => return ()
  | line :: rest, cursor, sites => do
    let here := sites.takeWhile fun site => site.statement.start < line.stop
    if cursor ≤ line.start && here.isEmpty then
      modify (writeLine sheet.indent sheet.index line)
      renderLines env nested stack sheet rest cursor sites
    else
      let base := sheet.indent ++ String.ofList (Text.leading line.text)
      let pos := min (max cursor line.start) line.stop
      let (pos, opened) ← renderSites env nested stack sheet base line.number here pos 0
      if pos < line.stop then
        let after := Text.slice sheet.source pos line.stop
        modify fun p => (writeFragment base after opened sheet.index line.number p).2
      renderLines env nested stack sheet rest (max cursor pos) (sites.drop here.length)

/-- Parse a text, or halt. -/
def parseSheet (file : Path) (source : String) : Step σ (List Node) := do
  let p ← get
  let (result, parsed) := p.parsed.parse source
  set { p with parsed }
  match result with
  | .ok document => return document
  | .error e => fail (file.text ++ ": " ++ e.message)

/-- The import statements of a document, in the order of the text. -/
def sitesInOrder (document : List Node) (table : Table) : List ImportSite :=
  (importSites document table).mergeSort fun a b => a.statement.start ≤ b.statement.start

/-- The pass through one document, with `nested` for the documents it imports. -/
def renderSheet (env : Setting σ) (nested : Inliner σ) : Inliner σ :=
  fun stack file source indent => do
    let document ← parseSheet file source
    let index ← modifyGet (sourceIndex file)
    let sheet : Sheet := { file, source := source.toList, index, indent }
    renderLines env nested (file :: stack) sheet (Text.lines sheet.source) 0
      (sitesInOrder document env.options.define)

/-- The pass through a document, with at most `depth` documents nested in one another. -/
def inline (env : Setting σ) : Nat → Inliner σ
  | 0 => fun _ _ _ _ => throw .tooDeep
  | depth + 1 => renderSheet env (inline env depth)

/-- The CSS made of some lines. -/
def cssOf (lines : List String) : String :=
  let css := "\n".intercalate lines
  if css.isEmpty then css else css ++ "\n"

/-- The result of a pass. -/
def finish (options : Options) (file : Path) (p : Pass σ) : Rendered where
  css := cssOf p.lines.toList
  sourceMap :=
    if options.sourceMap then
      some (LineMap.json ⟨file, p.sources, p.mappings.toList⟩)
    else none

/-- How a pass ended, if it did. -/
def outcome (options : Options) (file : Path) (p : Pass σ) :
    Except Halt Unit → Option (Except Failure Outcome)
  | .ok () => some (.ok (.rendered (finish options file p)))
  | .error (.pending pending) => some (.ok (.needsResolution pending))
  | .error (.failed failure) => some (.error failure)
  | .error .tooDeep => none

/-- The renderer that inlines at most `depth` documents into one another. -/
def renderer (depth : Nat) : Renderer ParseCache where
  render parsed file source options locator found := do
    let (result, p) := (inline (.ofLocator options locator) depth [] file source "").run
      |>.run { search := found, parsed }
    let outcome ← outcome options file p result
    return ⟨outcome, p.search, p.parsed⟩

end StyleWeave.Inline
